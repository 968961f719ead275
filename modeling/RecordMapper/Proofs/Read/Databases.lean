import RecordMapper.Proofs.Read.InStep
import RecordMapper.Proofs.Read.Resolving
import RecordMapper.Proofs.Read.SideBySide
import RecordMapper.Proofs.Read.Unfiltered
import RecordMapper.Proofs.Schema.ByPaths
import RecordMapper.Proofs.Steps.Transactions

/-!
# Databases — where the statements of a read run

A read fetches its rows from the database that the source is pinned to,
or from that of the context. Everything that follows is asked of the
database of the context alone, since no query that a relation comes down
to is pinned (`steers_collect`), and a nested schema is read for keys in
a context with the same database. So the statements of a read run on one
database exactly if the pin and the context mean the same one, or the
rows need no queries of their own (`readRows_databases`).
-/

namespace RecordMapper

/-- The database that a source is pinned to. -/
def Source.database : Source → Option String
  | .queryset qs => qs.database
  | _ => none

/-! ## The first fetch -/

/-- The request for a source is pinned to the database that the source is pinned to. -/
theorem Schema.database_of_request {reg : Registry} {s : Schema} {src : Source} {single : Bool} {request : Request}
    (h : s.request? reg src single = .ok (some request)) : request.rows.database = src.database := by
  have hkeys : ∀ pks, s.requestOfKeys pks single = some request → request.rows.database = none := by
    intro pks hpks
    obtain ⟨_, _, rfl⟩ := Application.requestOfKeys_eq_some hpks
    rfl
  cases src with
  | queryset qs =>
      rw [request?] at h
      split at h
      · cases h
      · split at h
        · cases h
        · cases h
          dsimp only
          split <;> rfl
  | key pk => exact hkeys _ (Except.ok.inj h)
  | keys pks => exact hkeys _ (Except.ok.inj h)
  | records rs => exact hkeys _ (Except.ok.inj h)

namespace Application

open World

variable {app : Application} {s : Schema} {src : Source} {ctx : Context} {name : String}

theorem touchesOnly_fetch (app : Application) (ctx : Context) (qs : Queryset) (columns : List SelectColumn) :
    Job.Keeps (TouchesOnly fun name => app.databaseOf ctx qs = .ok name) (app.fetch ctx qs columns) := by
  intro w
  rw [Application.fetch, runJob_bind, runJob_ofOutcome]
  dsimp only
  split
  · rename_i name hname
    split
    · exact touchesOnly_composes.refl w
    · exact touchesOnly_perform hname _ w
  · exact touchesOnly_composes.refl w

theorem sends_fetch {qs : Queryset} (hname : app.databaseOf ctx qs = .ok name) (hsome : qs.isNone = false)
    (columns : List SelectColumn) : Job.Sends name (app.fetch ctx qs columns) := by
  refine .ofOutcome_bind hname ?_
  rw [if_neg (by simp [hsome])]
  exact .fetch hsome columns

/-- Preparing rows touches the database that the source is pinned to, or else that of the context. -/
theorem touchesOnly_prepare (app : Application) (s : Schema) (src : Source) (ctx : Context) :
    Job.Keeps (TouchesOnly fun name => app.connections.resolve (src.database.or ctx.database) = .ok name)
      (app.prepare s src ctx) := by
  have hC : Job.Composes (TouchesOnly fun name => app.connections.resolve (src.database.or ctx.database) = .ok name) :=
    touchesOnly_composes
  have hrequest : Job.Steers (TouchesOnly _) (fun request => ∀ r, request = some r → r.rows.database = src.database)
      (Job.ofOutcome (s.request? app.registry src ctx.single)) :=
    .ofOutcome hC fun request hr r hsome => Schema.database_of_request (hsome ▸ hr)
  refine fun w => ((hrequest.bind hC fun request hpinned => ?_ : Job.Steers _ (fun _ => True) _) w).1
  cases request with
  | none => exact .pure hC trivial
  | some request =>
      have hfetch := fun columns => app.touchesOnly_fetch ctx request.rows columns
      simp only [databaseOf, hpinned request rfl] at hfetch
      have hall : Job.Keeps (TouchesOnly fun name =>
          app.connections.resolve (src.database.or ctx.database) = .ok name) (do
            let now ← Job.clock
            let plan ← Job.ofOutcome (ReadPlan.make app.registry s ctx request.rows.isSliced now)
            let fetched ← app.fetch ctx request.rows plan.columns
            let rows := distinctRows request.order s.pkName fetched
            if rows.isEmpty then return none
            return some (plan, rows.map plan.prefill)) := by
        refine .bind hC (fun w name _ => rfl) fun now => .bind hC (.ofOutcome hC _) fun plan => ?_
        refine .bind hC (hfetch plan.columns) fun fetched => .ite (.pure hC _) (.pure hC _)
      exact fun w => ⟨hall w, fun _ _ => trivial⟩

/-- Rows that are prepared were fetched with a statement. -/
theorem sends_prepare {w : World} (hnames : app.connections.names = w.connections.names)
    {prepared : ReadPlan × List Record} (h : (w.runJob (app.prepare s src ctx)).1 = .ok (some prepared)) :
    ∃ name, app.connections.resolve (src.database.or ctx.database) = .ok name ∧
      (w.database name).statementCount <
        ((w.runJob (app.prepare s src ctx)).2.database name).statementCount := by
  obtain ⟨request, hrequest, _⟩ := runJob_bind_eq_ok h
  have hrequest : s.request? app.registry src ctx.single = .ok request := hrequest
  rw [prepare, runJob_ofOutcome_bind hrequest] at h ⊢
  cases request with
  | none => cases h
  | some request =>
      have hclock : (w.runJob Job.clock).1 = .ok w.clock := rfl
      dsimp only at h ⊢
      rw [runJob_bind_ok hclock] at h ⊢
      obtain ⟨plan, hplan, _⟩ := runJob_bind_eq_ok h
      have hplan : ReadPlan.make app.registry s ctx request.rows.isSliced w.clock = .ok plan := hplan
      rw [runJob_ofOutcome_bind hplan] at h ⊢
      obtain ⟨fetched, hfetched, hrows⟩ := runJob_bind_eq_ok h
      obtain ⟨name, hname, _⟩ := runJob_bind_eq_ok hfetched
      have hname : app.databaseOf ctx request.rows = .ok name := hname
      -- Of nothing no rows would have been fetched.
      have hsome : request.rows.isNone = false := by
        rw [Bool.eq_false_iff]
        intro hnone
        rw [runJob_fetch_of_isNone hname hnone] at hfetched
        cases hfetched
        have hempty : distinctRows request.order s.pkName [] = [] :=
          List.eq_nil_iff_forall_not_mem.mpr fun row hrow =>
            List.not_mem_nil ((distinctRows_spec request.order s.pkName []).2 row hrow).1
        rw [hempty] at hrows
        cases hrows
      have hpinned : app.connections.resolve (src.database.or ctx.database) = .ok name := by
        rw [← Schema.database_of_request hrequest]
        exact hname
      have hknown : name ∈ (w.runJob Job.clock).2.databases.map Prod.fst := by
        have hmem := Connections.mem_of_resolve hpinned
        rw [hnames] at hmem
        exact hmem
      exact ⟨name, hpinned, (sends_fetch hname hsome plan.columns).bind _ _ hknown⟩

end Application

/-- The isolated fields of a plan for a schema that resolves relations alone are relations. -/
theorem ReadPlan.relations_of_make {s : Schema} {ctx : Context} {plan : ReadPlan} {reg : Registry} {sliced : Bool}
    {now : Instant} (hs : s.ByRelations) (h : ReadPlan.make reg s ctx sliced now = .ok plan) :
    ∀ f ∈ plan.isolated, ∃ target link value, f.kind = .isolated (.relation target link value) := by
  intro f hf
  obtain ⟨hmem, hisolated⟩ := (ReadPlan.fromFields_of_make h).isolated f hf
  cases hkind : f.kind with
  | isolated how =>
      obtain ⟨target, link, value, rfl⟩ := hs f hmem how hkind
      exact ⟨target, link, value, rfl⟩
  | _ =>
      rw [SchemaField.isIsolated, hkind] at hisolated
      cases hisolated

/-! ## Links -/

namespace Collecting

open World

variable {app : Application} {ctx : Context} {owners : List Value} {f : SchemaField} {fields : List SchemaField}
  {name : String}

/-- The queries that are left for a field are not pinned. -/
def Unpinned (c : Collecting) : Prop :=
  ∀ step ∈ c.todo, ∀ qs columns, step.query? = some (qs, columns) → qs.database = none

/-- The next step of a field sends a query to a database. -/
def Asks (app : Application) (ctx : Context) (name : String) (c : Collecting) : Prop :=
  ∃ step rest qs columns, c.todo = step :: rest ∧ step.query? = some (qs, columns) ∧
    app.databaseOf ctx qs = .ok name ∧ qs.isNone = false

theorem linkSteps_relation {target : Model} {link value : String}
    (hkind : f.kind = .isolated (.relation target link value)) (owners : List Value) :
    f.linkSteps owners =
      .ok [.joined owners ((Queryset.all target).filter (.test link (.oneOf owners))) link value] := by
  rw [SchemaField.linkSteps, hkind]

theorem unpinned_start (hf : ∃ target link value, f.kind = .isolated (.relation target link value)) {c : Collecting}
    (h : start app ctx owners f = .ok c) : c.Unpinned := by
  obtain ⟨target, link, value, hkind⟩ := hf
  rcases recovered_eq_ok h with h | rfl
  · rw [linkSteps_relation hkind] at h
    obtain ⟨_, htodo, _⟩ := settle_spec h
    intro step hstep qs columns hquery
    rw [List.mem_singleton.mp (htodo step hstep)] at hquery
    cases hquery
    rfl
  · exact fun step hstep => nomatch hstep

theorem steers_advance {c : Collecting} (hc : c.Unpinned) :
    Job.Steers (TouchesOnly fun name => app.connections.resolve ctx.database = .ok name) Unpinned
      (c.advance app ctx) := by
  have hC : Job.Composes (TouchesOnly fun name => app.connections.resolve ctx.database = .ok name) :=
    touchesOnly_composes
  obtain ⟨f, todo, links⟩ := c
  cases todo with
  | nil => exact .pure hC hc
  | cons step rest =>
      rw [advance]
      refine Job.Steers.bind hC (Job.Steers.attempt (P := fun _ => True) ?_) fun fetched _ =>
        .ofOutcome hC fun c' hc' => ?_
      · split
        · rename_i qs columns hquery
          have hfetch := app.touchesOnly_fetch ctx qs columns
          rw [Application.databaseOf, hc step List.mem_cons_self qs columns hquery] at hfetch
          exact fun w => ⟨hfetch w, fun _ _ => trivial⟩
        · exact .pure hC trivial
      · rcases recovered_eq_ok hc' with hc' | rfl
        · obtain ⟨rows, _, hc'⟩ := Outcome.bind_eq_ok.mp hc'
          obtain ⟨_, htodo, _⟩ := settle_spec hc'
          exact fun step' hstep => hc step' (List.mem_cons_of_mem step (htodo step' hstep))
        · intro step hstep
          cases hstep

/-- Following relations touches the database of the context alone. -/
theorem touchesOnly_collect {plan : ReadPlan} (together : Bool)
    (hfields : ∀ f ∈ plan.isolated, ∃ target link value, f.kind = .isolated (.relation target link value)) :
    Job.Keeps (TouchesOnly fun name => app.connections.resolve ctx.database = .ok name)
      (app.collect together ctx plan owners) := by
  have hstart : ∀ f ∈ plan.isolated, ∀ c, start app ctx owners f = .ok c → c.Unpinned :=
    fun f hf c hc => unpinned_start (hfields f hf) hc
  intro w
  rw [Application.collect]
  split
  · exact (steers_sideBySide touchesOnly_composes hstart (fun _ => steers_advance) w).1
  · exact (steers_inTurn touchesOnly_composes hstart (fun _ => steers_advance) w).1

/-- Without fields no query is sent. -/
theorem keeps_collect_of_nil {R : World → World → Prop} (hR : Job.Composes R) {plan : ReadPlan}
    (hnil : plan.isolated = []) (together : Bool) : Job.Keeps R (app.collect together ctx plan owners) := by
  have hstart : ∀ f ∈ plan.isolated, ∀ c, start app ctx owners f = .ok c → False := by
    intro f hf
    rw [hnil] at hf
    cases hf
  have hadvance : ∀ c : Collecting, False → Job.Steers R (fun _ => False) (c.advance app ctx) := fun _ => False.elim
  intro w
  rw [Application.collect]
  split
  · exact (steers_sideBySide hR hstart hadvance w).1
  · exact (steers_inTurn hR hstart hadvance w).1

/-! ## The first link query -/

theorem asks_start (hf : ∃ target link value, f.kind = .isolated (.relation target link value))
    (hname : app.connections.resolve ctx.database = .ok name) (owners : List Value) :
    ∃ c, start app ctx owners f = .ok c ∧ c.Asks app ctx name := by
  obtain ⟨target, link, value, hkind⟩ := hf
  let qs := (Queryset.all target).filter (.test link (.oneOf owners))
  have hdatabase : app.databaseOf ctx qs = .ok name := hname
  have hsettle : settle app ctx f [.joined owners qs link value] [] =
      .ok ⟨f, [.joined owners qs link value], []⟩ := by
    rw [settle]
    simp only [LinkStep.query?, hdatabase]
    rfl
  refine ⟨⟨f, [.joined owners qs link value], []⟩, ?_, _, [], qs, _, rfl, rfl, hdatabase, rfl⟩
  rw [start, linkSteps_relation hkind, Outcome.ok_bind, hsettle]
  rfl

theorem sends_advance {c : Collecting} (hc : c.Asks app ctx name) : Job.Sends name (c.advance app ctx) := by
  obtain ⟨f, todo, links⟩ := c
  obtain ⟨step, rest, qs, columns, rfl, hquery, hname, hsome⟩ := hc
  rw [advance]
  refine Job.Sends.bind (.attempt ?_) _
  rw [hquery]
  exact Application.sends_fetch hname hsome columns

theorem length_of_asks {c : Collecting} (hc : c.Asks app ctx name) : ∃ n, c.todo.length = n + 1 := by
  obtain ⟨_, rest, _, _, htodo, _⟩ := hc
  exact ⟨rest.length, by rw [htodo]; rfl⟩

theorem longest_of_asks {c : Collecting} {cs : List Collecting} (hmem : c ∈ cs) (hc : c.Asks app ctx name) :
    ∃ n, longest cs = n + 1 := by
  obtain ⟨k, hk⟩ := length_of_asks hc
  have hle := length_todo_le_longest c hmem
  exact ⟨longest cs - 1, by omega⟩

theorem sends_inTurn {c : Collecting} (hstart : start app ctx owners f = .ok c) (hc : c.Asks app ctx name) :
    Job.Sends name (inTurn app ctx owners (f :: fields)) := by
  obtain ⟨n, hn⟩ := length_of_asks hc
  rw [inTurn, List.mapM_cons]
  refine Job.Sends.bind (.ofOutcome_bind hstart ?_) _
  rw [hn, advanceBy]
  exact (sends_advance hc).bind _

theorem sends_inRounds (hstart : ∀ f ∈ fields, ∃ c, start app ctx owners f = .ok c ∧ c.Asks app ctx name)
    (hne : fields ≠ []) : Job.Sends name (inRounds app ctx owners fields) := by
  obtain ⟨cs, hcs, hall⟩ := Outcome.exists_mapM hstart
  refine .ofOutcome_bind hcs ?_
  cases hall with
  | nil => exact absurd rfl hne
  | @cons _ c _ rest hc _ =>
      obtain ⟨n, hn⟩ := longest_of_asks (List.mem_cons_self (l := rest)) hc
      rw [hn, rounds, List.mapM_cons]
      exact ((sends_advance hc).bind _).bind _

theorem sends_inLaps (hstart : ∀ f ∈ fields, ∃ c, start app ctx owners f = .ok c ∧ c.Asks app ctx name)
    (hne : fields ≠ []) : Job.Sends name (inLaps app ctx owners fields) := by
  have hall : ∀ r ∈ fields.map (start app ctx owners), ∃ c, r = .ok c ∧ c.Asks app ctx name := by
    intro r hr
    obtain ⟨f, hf, rfl⟩ := List.mem_map.mp hr
    exact hstart f hf
  have hsome : fields.map (start app ctx owners) ≠ [] := by simpa using hne
  rw [inLaps]
  generalize fields.map (start app ctx owners) = cs at hall hsome
  obtain ⟨r, rest, rfl⟩ := List.exists_cons_of_ne_nil hsome
  obtain ⟨c, rfl, hc⟩ := hall r List.mem_cons_self
  have hdue : due? (.ok c :: rest) = none := by
    obtain ⟨_, _, _, _, htodo, _⟩ := hc
    rw [due?, htodo]
    rfl
  obtain ⟨n, hn⟩ : ∃ n, longest ((.ok c :: rest).filterMap Except.toOption) = n + 1 :=
    longest_of_asks List.mem_cons_self hc
  -- The first lap begins with the last field.
  obtain ⟨last, hlast, hasks⟩ := hall ((Except.ok c :: rest)[rest.length]) (List.getElem_mem _)
  simp only [hdue, hn, List.length_cons, List.range_succ, List.reverse_append, List.reverse_cons, List.reverse_nil,
    List.nil_append, List.singleton_append]
  rw [laps, lap, List.getElem?_eq_getElem (Nat.lt_succ_self _), hlast]
  exact (((sends_advance hasks).attempt.bind _).bind _).bind _

/-- Where there are relations to follow, the database of the context is asked. -/
theorem sends_collect {plan : ReadPlan} (together : Bool)
    (hfields : ∀ f ∈ plan.isolated, ∃ target link value, f.kind = .isolated (.relation target link value))
    (hne : plan.isolated ≠ []) (hname : app.connections.resolve ctx.database = .ok name) :
    Job.Sends name (app.collect together ctx plan owners) := by
  have hstart : ∀ f ∈ plan.isolated, ∃ c, start app ctx owners f = .ok c ∧ c.Asks app ctx name :=
    fun f hf => asks_start (hfields f hf) hname owners
  rw [Application.collect]
  split
  · rw [sideBySide]
    split
    · exact sends_inRounds hstart hne
    · exact sends_inLaps hstart hne
  · cases hisolated : plan.isolated with
    | nil => exact absurd hisolated hne
    | cons f fields =>
        obtain ⟨c, hc, hasks⟩ := hstart f (hisolated ▸ List.mem_cons_self)
        exact sends_inTurn hc hasks

end Collecting

/-! ## Reads -/

namespace Reading

open World

variable {app : Application} {read : Schema → Source → Context → Reading (List Record)} {s : Schema} {ctx : Context}
  {plan : ReadPlan}

/-- Rows that need no queries of their own are resolved with none. -/
theorem keeps_resolveRows_of_nil (hR : Job.Composes R) (hnil : plan.isolated = []) (together : Bool)
    (rows : List Record) : Keeps R (resolveRows app together read s ctx plan rows) :=
  keeps_resolveRows hR (fun _ hf => absurd hf List.not_mem_nil) hnil together
    (fun _ => Collecting.keeps_collect_of_nil hR hnil together) rows

/-- Resolving rows touches the database of the context alone, if reading nested schemas does. -/
theorem touchesOnly_resolveRows (hs : s.ByRelations) (together : Bool) {src : Source} {w : World} {rows : List Record}
    (h : (w.runJob (app.prepare s src ctx)).1 = .ok (some (plan, rows)))
    (hread : ∀ f ∈ s.fieldList, ∀ nested, app.nested? s f = .ok (some nested) →
      ∀ pks, Keeps (TouchesOnly fun name => app.connections.resolve ctx.database = .ok name)
        (read nested (.keys pks) (ctx.derive f.name))) :
    Keeps (TouchesOnly fun name => app.connections.resolve ctx.database = .ok name)
      (resolveRows app together read s ctx plan rows) := by
  obtain ⟨_, _, _, _, hplan, _⟩ := Application.exists_of_prepare h
  refine keeps_resolveRows touchesOnly_composes (fun f hf => ?_) rfl together (fun owners => ?_) rows
  · exact hread f ((ReadPlan.fromFields_of_make hplan).isolated f hf).1
  · exact Collecting.touchesOnly_collect together (ReadPlan.relations_of_make hs hplan)

/-- Where there are relations to follow, resolving rows asks the database of the context. -/
theorem sends_resolveRows {name : String} (hname : app.connections.resolve ctx.database = .ok name)
    (hfields : ∀ f ∈ plan.isolated, ∃ target link value, f.kind = .isolated (.relation target link value))
    (hne : plan.isolated ≠ []) (together : Bool) {w : World} (hknown : name ∈ w.databases.map Prod.fst)
    (rows : List Record) (g : Guard) :
    (w.database name).statementCount <
      ((w.run ((resolveRows app together read s ctx plan rows).run.run g)).2.database name).statementCount := by
  have hcollect : Job.Sends name (app.collect together ctx plan (rows.map (·.getD s.pkName))) :=
    Collecting.sends_collect together hfields hne hname
  refine Nat.lt_of_lt_of_le (hcollect w hknown) ?_
  -- What follows the links loses no statement.
  rw [resolveRows, run_bind, World.run_bind]
  exact Nat.le_trans (statementCount_run_bind _ _ _ _) (statementCount_run_bind _ _ _ _)

section Levels

variable {top : Schema} (hall : ∀ t, app.catalog.Reaches top t → t.ByRelations) (together : Bool)
include hall

/-- A read of rows that are not pinned runs on the database of the context. -/
theorem touchesOnly_rowsWithin (levels : Nat) (hs : app.catalog.Reaches top s) (src : Source) (hsrc : src.database = none)
    (ctx : Context) :
    Keeps (TouchesOnly fun name => app.connections.resolve ctx.database = .ok name)
      (rowsWithin app together levels s src ctx) := by
  induction levels generalizing s src ctx with
  | zero => exact .pure touchesOnly_composes _
  | succ levels ih =>
      rw [rowsWithin_succ]
      have hprepare := app.touchesOnly_prepare s src ctx
      rw [hsrc, Option.none_or] at hprepare
      intro g w
      rw [run_bind, World.run_bind, InStep.run_ofJob]
      refine touchesOnly_composes.trans (hprepare w) ?_
      rcases hprepared : (w.runJob (app.prepare s src ctx)).1 with e | _ | ⟨plan, rows⟩
      · exact touchesOnly_composes.refl _
      · exact touchesOnly_composes.refl _
      · refine touchesOnly_resolveRows (hall s hs) together hprepared (fun f hf nested hnested pks => ?_) g _
        obtain ⟨r, hr, hresolve⟩ := Application.exists_resolve hnested
        exact ih (hs.nested hf hr hresolve) (.keys pks) rfl (ctx.derive f.name)

end Levels

end Reading

/-! ## Whole reads -/

namespace World

variable {cat : Catalog} {s : Schema} {src : Source} {ctx : Context} {g : Guard}

variable {w : World} {together : Bool} {plan : ReadPlan} {rows : List Record}

/-- A read that prepares rows ends where resolving them ends. -/
theorem readRows_of_prepared (together : Bool) (g : Guard)
    (h : (w.runJob ((w.application cat).prepare s src ctx)).1 = .ok (some (plan, rows))) :
    ∃ levels, (w.readRows cat together s src ctx g).2 =
      ((w.runJob ((w.application cat).prepare s src ctx)).2.run ((Reading.resolveRows (w.application cat) together
        (Reading.rowsWithin (w.application cat) together levels) s ctx plan rows).run.run g)).2 := by
  obtain ⟨levels, hlevels⟩ : ∃ levels, w.levels cat ctx = levels + 1 := ⟨_, rfl⟩
  refine ⟨levels, ?_⟩
  rw [readRows, hlevels, Reading.rowsWithin_succ, Reading.run_bind, run_bind, Reading.InStep.run_ofJob, h]

/-- A read that prepares none ends there. -/
theorem readRows_of_unprepared (together : Bool) (g : Guard)
    (h : ∀ plan rows, (w.runJob ((w.application cat).prepare s src ctx)).1 ≠ .ok (some (plan, rows))) :
    (w.readRows cat together s src ctx g).2 = (w.runJob ((w.application cat).prepare s src ctx)).2 := by
  obtain ⟨levels, hlevels⟩ : ∃ levels, w.levels cat ctx = levels + 1 := ⟨_, rfl⟩
  rw [readRows, hlevels, Reading.rowsWithin_succ, Reading.run_bind, run_bind, Reading.InStep.run_ofJob]
  rcases hprepared : (w.runJob ((w.application cat).prepare s src ctx)).1 with e | _ | ⟨plan, rows⟩
  · rfl
  · rfl
  · exact absurd hprepared (h plan rows)

/-- After the first fetch a read touches the database of the context alone. -/
theorem touchesOnly_readRows (hs : ∀ t, cat.Reaches s t → t.ByRelations) :
    (w.runJob ((w.application cat).prepare s src ctx)).2.TouchesOnly (w.connections.resolve ctx.database = .ok ·)
      (w.readRows cat together s src ctx g).2 := by
  by_cases hprepared : ∃ plan rows, (w.runJob ((w.application cat).prepare s src ctx)).1 = .ok (some (plan, rows))
  · obtain ⟨plan, rows, hprepared⟩ := hprepared
    obtain ⟨levels, hafter⟩ := readRows_of_prepared together g hprepared
    rw [hafter]
    refine Reading.touchesOnly_resolveRows (hs s .self) together hprepared (fun f hf nested hnested pks => ?_) g _
    obtain ⟨r, hr, hresolve⟩ := Application.exists_resolve hnested
    exact Reading.touchesOnly_rowsWithin hs together levels (.nested .self hf hr hresolve) (.keys pks) rfl
      (ctx.derive f.name)
  · push Not at hprepared
    rw [readRows_of_unprepared together g hprepared]
    exact touchesOnly_composes.refl _

/-- Rows with relations to follow take a statement on the database of the source and one on that of the context. -/
theorem statements_readRows (together : Bool) (g : Guard) (hs : ∀ t, cat.Reaches s t → t.ByRelations) {own below : String}
    (hown : w.connections.resolve (src.database.or ctx.database) = .ok own)
    (hbelow : w.connections.resolve ctx.database = .ok below)
    (hprepared : (w.runJob ((w.application cat).prepare s src ctx)).1 = .ok (some (plan, rows)))
    (hne : plan.isolated ≠ []) :
    (w.database own).statementCount < ((w.readRows cat together s src ctx g).2.database own).statementCount ∧
      (w.database below).statementCount <
        ((w.readRows cat together s src ctx g).2.database below).statementCount := by
  obtain ⟨levels, hafter⟩ := readRows_of_prepared together g hprepared
  obtain ⟨own', hown', hfetch⟩ := Application.sends_prepare (w := w) rfl hprepared
  obtain rfl : own = own' := Except.ok.inj (hown.symm.trans hown')
  obtain ⟨_, _, _, _, hplan, _⟩ := Application.exists_of_prepare hprepared
  have hknown : below ∈ (w.runJob ((w.application cat).prepare s src ctx)).2.databases.map Prod.fst := by
    rw [((w.application cat).yields_prepare s src ctx w).1.names]
    exact Connections.mem_of_resolve hbelow
  rw [hafter]
  constructor
  · exact Nat.lt_of_lt_of_le hfetch (statementCount_run _ _ own)
  · refine Nat.lt_of_le_of_lt (statementCount_run ((w.application cat).prepare s src ctx).run w below) ?_
    exact Reading.sends_resolveRows hbelow
      (ReadPlan.relations_of_make (hs s .self) hplan) hne together hknown rows g

/-- Of a schema that resolves relations alone, as do all that it comes to, the rows are fetched from the database that
the source is pinned to, or else that of the context, and everything else from that of the context. So the statements
of a read run on one database exactly if the two are the same or no rows are found that need queries of their own. -/
theorem readRows_databases (hs : ∀ t, cat.Reaches s t → t.ByRelations) (w : World) (together : Bool) (src : Source)
    (ctx : Context) (g : Guard) :
    let own := w.connections.resolve (src.database.or ctx.database)
    let below := w.connections.resolve ctx.database
    let fetched := w.runJob ((w.application cat).prepare s src ctx)
    let after := (w.readRows cat together s src ctx g).2
    w.TouchesOnly (own = .ok ·) fetched.2 ∧ fetched.2.TouchesOnly (below = .ok ·) after ∧
      ((∃ name, w.TouchesOnly (· = name) after) ↔
        (∀ name name', own = .ok name → below = .ok name' → name = name') ∨
        ∀ plan rows, fetched.1 = .ok (some (plan, rows)) → plan.isolated = []) := by
  intro own below fetched after
  have hown : w.TouchesOnly (own = .ok ·) fetched.2 := (w.application cat).touchesOnly_prepare s src ctx w
  have hbelow : fetched.2.TouchesOnly (below = .ok ·) after := touchesOnly_readRows hs
  refine ⟨hown, hbelow, fun ⟨name, honly⟩ => ?_, ?_⟩
  · by_contra hneither
    push Not at hneither
    obtain ⟨⟨name₁, name₂, hname₁, hname₂, hdiffer⟩, plan, rows, hprepared, hne⟩ := hneither
    obtain ⟨hmore₁, hmore₂⟩ := statements_readRows together g hs hname₁ hname₂ hprepared hne
    have heq₁ : name₁ = name := by
      by_contra hother
      exact Nat.ne_of_lt hmore₁ (congrArg Database.statementCount (honly name₁ hother)).symm
    have heq₂ : name₂ = name := by
      by_contra hother
      exact Nat.ne_of_lt hmore₂ (congrArg Database.statementCount (honly name₂ hother)).symm
    exact hdiffer (heq₁.trans heq₂.symm)
  · rintro (hsame | hnone)
    · obtain ⟨name, hname, hname'⟩ : ∃ name, (∀ other, own = .ok other → other = name) ∧
          ∀ other, below = .ok other → other = name := by
        cases hdatabase : below with
        | ok name => exact ⟨name, fun other hother => hsame other name hother hdatabase, fun other h => (Except.ok.inj h).symm⟩
        | error e =>
            cases hpinned : own with
            | ok name => exact ⟨name, fun other h => (Except.ok.inj h).symm, nofun⟩
            | error e' => exact ⟨"", nofun, nofun⟩
      exact ⟨name, touchesOnly_composes.trans (hown.mono hname) (hbelow.mono hname')⟩
    · -- Rows without isolated fields are finished where they were fetched.
      have hrest : fetched.2.TouchesOnly (fun _ => False) after := by
        by_cases hprepared : ∃ plan rows, fetched.1 = .ok (some (plan, rows))
        · obtain ⟨plan, rows, hprepared⟩ := hprepared
          obtain ⟨levels, hafter⟩ := readRows_of_prepared together g hprepared
          rw [show after = _ from hafter]
          exact Reading.keeps_resolveRows_of_nil touchesOnly_composes (hnone plan rows hprepared) together rows g _
        · push Not at hprepared
          rw [show after = _ from readRows_of_unprepared together g hprepared]
          exact touchesOnly_composes.refl _
      obtain ⟨name, hname⟩ : ∃ name, ∀ other, own = .ok other → other = name := by
        cases hpinned : own with
        | ok name => exact ⟨name, fun other h => (Except.ok.inj h).symm⟩
        | error e => exact ⟨"", nofun⟩
      exact ⟨name, touchesOnly_composes.trans (hown.mono hname) (hrest.mono fun _ => False.elim)⟩

/-! ## Authors of a replica -/

namespace Offices

open Registry (built modelOf writers writings)

/-- The authors and their articles, twice. -/
def offices : World where
  registry := built writers
  databases := [("default", ⟨writings, [], []⟩), ("replica", ⟨writings, [], []⟩)]
  main := "default"
  clock := default
  tick := 0

/-- The schema of an author with the articles. -/
def author : Schema :=
  match Schema.build (built writers) {} "Author" (modelOf (built writers) "author")
      [{ name := "id" }, { name := "articles" }] with
  | .ok s => s
  | .error _ => default

/-- The authors of the replica. -/
def fromReplica : Source := .queryset ((Queryset.all (modelOf (built writers) "author")).on "replica")

/-- The offices after a read of the authors of the replica. -/
def read (ctx : Context) : World := (offices.readRows {} false author fromReplica ctx .empty).2

/-- The statements that the databases have executed. -/
def logs (w : World) : List (List String) := w.databases.map fun e => e.2.log

theorem byRelations_author : ∀ t, ({} : Catalog).Reaches author t → t.ByRelations := by
  have hbuild : Schema.build (built writers) {} "Author" (modelOf (built writers) "author")
      [{ name := "id" }, { name := "articles" }] = .ok author := rfl
  have hnested : ∀ f ∈ author.fieldList, f.nested = none := by decide +kernel
  intro t ht
  obtain rfl : t = author := by
    induction ht with
    | self => rfl
    | nested _ hf hr _ ih =>
        subst ih
        rw [hnested _ hf] at hr
        cases hr
  refine Schema.byRelations_of_build (fun d hd => ?_) hbuild
  rcases List.mem_cons.mp hd with rfl | hd
  · exact ⟨nofun, nofun⟩
  · obtain rfl := List.mem_singleton.mp hd
    exact ⟨nofun, nofun⟩

/-- In a context of the replica the authors and their articles are read from the replica. -/
theorem readRows_databases_replica :
    (∀ t, ({} : Catalog).Reaches author t → t.ByRelations) ∧
    (∃ name, offices.TouchesOnly (· = name) (read { database := some "replica" })) ∧
    logs (read { database := some "replica" }) = [[], ["SELECT author", "SELECT article"]] := by
  refine ⟨byRelations_author, ?_, by decide +kernel⟩
  refine (readRows_databases byRelations_author offices false fromReplica { database := some "replica" } .empty).2.2.mpr
    (.inl fun name name' hname hname' => ?_)
  exact Except.ok.inj (hname.symm.trans hname')

/-- In a context of the other database, or of none, the authors are those of the replica, and their articles are not. -/
theorem replica_authors_elsewhere_articles :
    logs (read { database := some "default" }) = [["SELECT article"], ["SELECT author"]] ∧
      logs (read {}) = [["SELECT article"], ["SELECT author"]] ∧
      ¬∃ name, offices.TouchesOnly (· = name) (read { database := some "default" }) := by
  have hlogs : (((read { database := some "default" }).database "default").log,
      ((read { database := some "default" }).database "replica").log) = (["SELECT article"], ["SELECT author"]) := by
    decide +kernel
  obtain ⟨hdefault, hreplica⟩ := Prod.mk.inj hlogs
  refine ⟨by decide +kernel, by decide +kernel, ?_⟩
  rintro ⟨name, honly⟩
  have hname : "default" = name := by
    by_contra hne
    rw [honly "default" hne] at hdefault
    cases hdefault
  have hname' : "replica" = name := by
    by_contra hne
    rw [honly "replica" hne] at hreplica
    cases hreplica
  exact absurd (hname.trans hname'.symm) (by decide)

end Offices

end World

end RecordMapper
