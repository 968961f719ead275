import RecordMapper.Proofs.Read.Grouped
import RecordMapper.Proofs.Read.SideBySide
import RecordMapper.Proofs.Read.Unfiltered

/-!
# One query — the links of all owners at once

A field whose links are joined has one step, and a step is one statement
at most, however often the field takes its turn. What that one query
finds for an owner is what a query of its own would find
(`links_of_every_owner`), as long as the rows are told apart by their
keys and the order does not contradict itself.
-/

namespace RecordMapper

/-! ## Statements -/

/-- The number of statements in the logs of all databases. -/
def World.statements (w : World) : Nat := (w.databases.map fun e => e.2.statementCount).foldr (· + ·) 0

/-- A fetch is one statement at most. -/
theorem World.statements_fetch (w : World) (name : String) (qs : Queryset) (columns : List SelectColumn) :
    (w.perform name (.fetch qs columns)).2.statements ≤ w.statements + 1 := by
  rw [perform]
  cases hdb : w.databases.lookup name with
  | none => exact Nat.le_succ _
  | some db =>
      have hsum := sum_insertEntry Database.statementCount w.databases name
        (db.logged (Call.fetch qs columns).statement?)
      have hlog : (db.logged (Call.fetch qs columns).statement?).statementCount ≤ db.statementCount + 1 := by
        rw [Database.logged, Database.statementCount, Database.statementCount, List.length_append]
        cases (Call.fetch qs columns).statement? <;> simp
      rw [hdb, Option.map_some, Option.getD_some] at hsum
      have hafter : ((w.setDatabase name (db.logged (Call.fetch qs columns).statement?)).ticked).statements +
          db.statementCount = w.statements + (db.logged (Call.fetch qs columns).statement?).statementCount := hsum
      show ((w.setDatabase name (db.logged (Call.fetch qs columns).statement?)).ticked).statements ≤ _
      omega

theorem Application.statements_fetch (app : Application) (ctx : Context) (qs : Queryset)
    (columns : List SelectColumn) (w : World) :
    (w.runJob (app.fetch ctx qs columns)).2.statements ≤ w.statements + 1 := by
  rw [Application.fetch, World.runJob_bind, World.runJob_ofOutcome]
  simp only
  split
  · split
    · exact Nat.le_succ _
    · exact w.statements_fetch _ _ _
  · exact Nat.le_succ _

namespace Collecting

variable {app : Application} {ctx : Context} {f : SchemaField} {owners : List Value} {c : Collecting}

theorem length_todo_start {steps : List LinkStep} (hsteps : f.linkSteps owners = .ok steps)
    (h : start app ctx owners f = .ok c) : c.todo.length ≤ steps.length := by
  rcases recovered_eq_ok h with h | rfl
  · rw [hsteps] at h
    exact length_todo_settle h
  · exact Nat.zero_le _

variable (app ctx) in
/-- Sending the next query is one statement at most, and none if no step is left. -/
theorem statements_advance (c : Collecting) (w : World) :
    (w.runJob (c.advance app ctx)).2.statements ≤ w.statements + min c.todo.length 1 := by
  obtain ⟨f, todo, links⟩ := c
  cases todo with
  | nil => exact Nat.le_refl _
  | cons step rest =>
      have hone : min (step :: rest).length 1 = 1 := Nat.min_eq_right (Nat.succ_le_succ (Nat.zero_le _))
      rw [advance, World.runJob_bind, World.runJob_attempt, hone]
      simp only
      split
      · exact app.statements_fetch ctx _ _ w
      · exact Nat.le_succ _

/-- However often a field is asked to go on, it sends no more statements than it has steps. -/
theorem statements_advanceBy (n : Nat) (c : Collecting) (w : World) :
    (w.runJob (c.advanceBy app ctx n)).2.statements ≤ w.statements + c.todo.length := by
  induction n generalizing c w with
  | zero => exact Nat.le_add_right _ _
  | succ n ih =>
      have hone := statements_advance app ctx c w
      rw [advanceBy, World.runJob_bind]
      split
      · rename_i c' hc'
        have hrest := ih c' (w.runJob (c.advance app ctx)).2
        have hless := returns_advance c w c' hc'
        omega
      · simp only
        omega

end Collecting

/-! ## The links of all owners -/

section OneQuery

open Store

variable {reg : Registry} {st : Store} {f : SchemaField} {qs : Queryset} {link value : String} {owners : List Value}

/-- The links of a queryset without a window, or of a relation, are found by one step and one statement at
most. For every owner the step finds what a query for the owner alone finds: of each of its rows, in
order, the first value that is not null. -/
theorem links_of_every_owner
    (hkind : f.kind = .isolated (.queryset qs link value) ∨
      ∃ target, f.kind = .isolated (.relation target link value) ∧ qs = .all target)
    (hsliced : qs.isSliced = false) (hkey : KeyIsColumn reg qs.model)
    (hannotated : qs.model.pkName ∉ qs.annotations.map Prod.fst) (hnodup : (st.keys qs.model).Nodup)
    (hfloat : ∀ pk ∈ st.keys qs.model, ∀ vs,
      columnValues reg st qs.model (Expression.annotationsOf reg st qs) pk link = .ok vs → ∀ x, Value.float x ∉ vs)
    (hranked : Ranked reg st (qs.filter (.test link (.oneOf owners)))) (hplain : ∀ o ∈ owners, o.isPlain) :
    let step := LinkStep.joined owners (qs.filter (.test link (.oneOf owners))) link value
    f.linkSteps owners = .ok [step] ∧
    (∀ app ctx c, Collecting.start app ctx owners f = .ok c → ∀ n (w : World),
      (w.runJob (c.advanceBy app ctx n)).2.statements ≤ w.statements + 1) ∧
    ∀ query columns, step.query? = some (query, columns) → ∀ records, st.fetch reg query columns = .ok records →
      (∀ o ∈ owners, ∃ rows values, select reg st (qs.filter (.test link (.exact o))) = .ok rows ∧
        (rows.mapM fun pk =>
          columnValues reg st qs.model (Expression.annotationsOf reg st qs) pk value) = .ok values ∧
        (step.links records).lookup o = Links.unlessEmpty (values.filterMap fun vs => vs.find? fun v => !v.isNull)) ∧
      ∀ o ∉ owners, (step.links records).lookup o = none := by
  intro step
  have hsteps : f.linkSteps owners = .ok [step] := by
    rcases hkind with hkind | ⟨target, hkind, rfl⟩
    · rw [SchemaField.linkSteps, hkind]
      simp only [hsliced, Bool.false_eq_true, if_false]
      rfl
    · rw [SchemaField.linkSteps, hkind]
  refine ⟨hsteps, fun app ctx c hc n w => ?_, fun query columns hquery records hrecords => ⟨fun o ho => ?_, ?_⟩⟩
  · have hone : c.todo.length ≤ 1 := Collecting.length_todo_start hsteps hc
    exact Nat.le_trans (Collecting.statements_advanceBy n c w) (Nat.add_le_add_left hone _)
  · exact lookup_links_joined hsliced hkey hannotated hnodup hfloat hranked hquery hrecords ho (hplain o ho)
  · exact fun o ho => Links.lookup_ofRows_of_not_mem ho records

end OneQuery

/-! ## Players by rank -/

namespace Squads

open Registry Store

def squads : List ModelDecl :=
  [{ name := "team", fields := [.autoKey "id"] },
    { name := "player"
      fields := [.autoKey "id", .of "team" (.foreignKey "team" (some "players")), .of "rank" .float] }]

def player : Model := modelOf (built squads) "player"

/-- All players by their ranks. -/
def byRank : Queryset := (Queryset.all player).orderBy [⟨.column "rank", false, .least⟩]

/-- The players of a team by their ranks. -/
def playersField : SchemaField :=
  { name := "players", kind := .isolated (.queryset byRank "team" "id"), mode := .readOnly }

/-- Players 1 and 3 of team 1 and player 2 of team 2, with their ranks. -/
def squad (first second third : Binary64) : Store :=
  ⟨[("team", tableOf [(1, []), (2, [])]),
    ("player", tableOf
      [(1, [("team", .int 1), ("rank", .float first)]), (2, [("team", .int 2), ("rank", .float second)]),
        (3, [("team", .int 1), ("rank", .float third)])])]⟩

/-- Ranks that are numbers. -/
def numbered : Store := squad (.ofInt 2) (.ofInt 5) (.ofInt 1)

/-- The step that finds the players of both teams. -/
def bothTeams : LinkStep :=
  .joined [.int 1, .int 2] (byRank.filter (.test "team" (.oneOf [.int 1, .int 2]))) "team" "id"

theorem build_squads : Registry.build squads = .ok (built squads) := rfl

theorem keyIsColumn_player : KeyIsColumn (built squads) player := ⟨_, rfl, rfl, rfl, rfl⟩

theorem team_not_float : ∀ pk ∈ numbered.keys player, ∀ vs,
    columnValues (built squads) numbered player (Expression.annotationsOf (built squads) numbered byRank) pk "team" =
      .ok vs → ∀ x, Value.float x ∉ vs := by
  have hteam : ∀ pk, columnValues (built squads) numbered player
      (Expression.annotationsOf (built squads) numbered byRank) pk "team" =
        .ok [cell (built squads) numbered player pk "team"] := fun _ => rfl
  have hcell : ∀ pk ∈ numbered.keys player, cell (built squads) numbered player pk "team" ∈ [Value.int 1, .int 2] := by
    decide
  intro pk hpk vs hvs x hx
  rw [hteam] at hvs
  cases hvs
  have hmem := hcell pk hpk
  rw [← List.mem_singleton.mp hx] at hmem
  simp at hmem

theorem ranked_numbered :
    Ranked (built squads) numbered (byRank.filter (.test "team" (.oneOf [.int 1, .int 2]))) := by
  intro pks values hpks terms hvalues
  obtain rfl : [.int 3, .int 1, .int 2] = pks := Except.ok.inj hpks
  obtain rfl : [[.float (.ofInt 1)], [.float (.ofInt 2)], [.float (.ofInt 5)]] = values := Except.ok.inj hvalues
  decide

theorem links_of_both_teams :
    (playersField.kind = .isolated (.queryset byRank "team" "id") ∧ byRank.isSliced = false ∧
      KeyIsColumn (built squads) byRank.model ∧ byRank.model.pkName ∉ byRank.annotations.map Prod.fst ∧
      (numbered.keys byRank.model).Nodup ∧
      Ranked (built squads) numbered (byRank.filter (.test "team" (.oneOf [.int 1, .int 2]))) ∧
      ∀ o ∈ [Value.int 1, .int 2], o.isPlain) ∧
    playersField.linkSteps [.int 1, .int 2] = .ok [bothTeams] ∧
    (∀ app ctx c, Collecting.start app ctx [.int 1, .int 2] playersField = .ok c → ∀ n (w : World),
      (w.runJob (c.advanceBy app ctx n)).2.statements ≤ w.statements + 1) ∧
    ∀ query columns, bothTeams.query? = some (query, columns) →
      ∀ records, numbered.fetch (built squads) query columns = .ok records →
        (∀ o ∈ [Value.int 1, .int 2], ∃ rows values,
          select (built squads) numbered (byRank.filter (.test "team" (.exact o))) = .ok rows ∧
          (rows.mapM fun pk => columnValues (built squads) numbered byRank.model
            (Expression.annotationsOf (built squads) numbered byRank) pk "id") = .ok values ∧
          (bothTeams.links records).lookup o =
            Links.unlessEmpty (values.filterMap fun vs => vs.find? fun v => !v.isNull)) ∧
        ∀ o ∉ [Value.int 1, .int 2], (bothTeams.links records).lookup o = none := by
  have hannotated : byRank.model.pkName ∉ byRank.annotations.map Prod.fst := by decide
  have hnodup : (numbered.keys byRank.model).Nodup := by decide
  have hplain : ∀ o ∈ [Value.int 1, .int 2], o.isPlain := by decide
  exact ⟨⟨rfl, rfl, keyIsColumn_player, hannotated, hnodup, ranked_numbered, hplain⟩,
    links_of_every_owner (.inl rfl) rfl keyIsColumn_player hannotated hnodup team_not_float ranked_numbered hplain⟩

/-! ## What the conditions rule out -/

/-- What a query over all owners finds for one of them, and what a query for that owner alone finds. -/
def Finds (reg : Registry) (st : Store) (qs : Queryset) (link value : String) (owners : List Value) (o : Value)
    (together alone : List Value) : Prop :=
  ∃ query columns records rows values,
    let step := LinkStep.joined owners (qs.filter (.test link (.oneOf owners))) link value
    step.query? = some (query, columns) ∧ st.fetch reg query columns = .ok records ∧
      (step.links records).lookup o = some together ∧
      select reg st (qs.filter (.test link (.exact o))) = .ok rows ∧
      (rows.mapM fun pk => columnValues reg st qs.model (Expression.annotationsOf reg st qs) pk value) = .ok values ∧
      values.flatten = alone

/-- A rank that is not a number, of another team, keeps the players of a team apart in the order of the
table. -/
def unnumbered : Store := squad (.ofInt 2) .quietNaN (.ofInt 1)

/-- Two rows that are linked to nothing, and so have null where their key is read. -/
def unlinked : Store :=
  ⟨[("a", tableOf [(1, [])]), ("t", tableOf [(7, [("owner", .int 1)]), (8, [("owner", .int 1)])])]⟩

/-- An order that contradicts itself and keys that are no columns make the links of an owner differ, each
alone. -/
theorem joined_links_differ :
    (Registry.build squads = .ok (built squads) ∧ KeyIsColumn (built squads) byRank.model ∧
      Finds (built squads) unnumbered byRank "team" "id" [.int 1, .int 2] (.int 1) [.int 1, .int 3] [.int 3, .int 1]) ∧
    Registry.build keyedByLinks = .ok (built keyedByLinks) ∧
      Finds (built keyedByLinks) unlinked (.all (modelOf (built keyedByLinks) "t")) "owner" "owner" [.int 1] (.int 1)
        [.int 1] [.int 1, .int 1] :=
  ⟨⟨build_squads, keyIsColumn_player, _, _, _, _, _, rfl, rfl, rfl, rfl, rfl, rfl⟩,
    rfl, _, _, _, _, _, rfl, rfl, rfl, rfl, rfl, rfl⟩

end Squads

end RecordMapper
