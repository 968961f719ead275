import RecordMapper.Proofs.Database.Overlapping
import RecordMapper.Proofs.Steps.Transactions
import RecordMapper.Proofs.Steps.Joined

/-!
# Turns — two computations that call a database in turns

Two parties each have a computation. At its turn a party makes its next
call or reads the clock, and the turns come in any order
(`World.takeTurns`). The calls that reach one database are a run of two
parties (`World.moves_takeTurns`). A party whose computation closes what
it opens has its scopes to itself: at the end one is left, with the calls
that it keeps (`World.survivors_takeTurns`).
-/

/-!
## Bracketed — jobs that close the transactions they open

Whatever a computation is answered, by a database that lets it begin
transactions, it closes those it has opened, innermost first, and no
others. `Steps.Brackets database nests n` says so of a computation that
starts with `n` of its own transactions open and calls one database
alone; it opens none where `nests` does not hold. What jobs are put
together from passes it on.
-/

namespace RecordMapper

variable {α β γ : Type} {database : String} {nests : Prop}

/-- A computation that calls one database, and closes there the `n` transactions that are open and those it opens, if it
opens any. -/
inductive Steps.Brackets (database : String) (nests : Prop) : Nat → Steps α → Prop
  | done (a : α) : Brackets database nests 0 (.done a)
  | clock {n : Nat} {next : Instant → Steps α} (rest : ∀ now, Brackets database nests n (next now)) :
    Brackets database nests n (.clock next)
  | statement {n : Nat} {c : Call} {next : Outcome c.Reply → Steps α} (statement : c.IsStatement)
    (rest : ∀ r, Brackets database nests n (next r)) : Brackets database nests n (.ask database c next)
  | begin {n : Nat} {next : Outcome (Call.Reply .begin) → Steps α} (allowed : nests)
    (rest : Brackets database nests (n + 1) (next (.ok ()))) : Brackets database nests n (.ask database .begin next)
  | commit {n : Nat} {next : Outcome (Call.Reply .commit) → Steps α} (rest : ∀ r, Brackets database nests n (next r)) :
    Brackets database nests (n + 1) (.ask database .commit next)
  | rollback {n : Nat} {next : Outcome (Call.Reply .rollback) → Steps α}
    (rest : ∀ r, Brackets database nests n (next r)) : Brackets database nests (n + 1) (.ask database .rollback next)

namespace Steps.Brackets

theorem mono {nests' : Prop} {n : Nat} {s : Steps α} (h : Brackets database nests n s) (himp : nests → nests') :
    Brackets database nests' n s := by
  induction h with
  | done a => exact .done a
  | clock _ ih => exact .clock ih
  | statement hc _ ih => exact .statement hc ih
  | begin allowed _ ih => exact .begin (himp allowed) ih
  | commit _ ih => exact .commit ih
  | rollback _ ih => exact .rollback ih

theorem bind {n m : Nat} {s : Steps α} {f : α → Steps β} (hs : Brackets database nests n s)
    (hf : ∀ a, Brackets database nests m (f a)) : Brackets database nests (n + m) (s.bind f) := by
  induction hs with
  | done a =>
      rw [Nat.zero_add]
      exact hf a
  | clock _ ih => exact .clock ih
  | statement hc _ ih => exact .statement hc ih
  | begin allowed _ ih =>
      rw [Nat.add_right_comm] at ih
      exact .begin allowed ih
  | commit _ ih =>
      rw [Nat.add_right_comm]
      exact .commit ih
  | rollback _ ih =>
      rw [Nat.add_right_comm]
      exact .rollback ih

end Steps.Brackets

namespace Job

/-- A job that calls one database and closes there what it opens, if it opens any transaction. -/
def Brackets (database : String) (nests : Prop) (j : Job α) : Prop := j.run.Brackets database nests 0

namespace Brackets

theorem ofOutcome (r : Outcome α) : Brackets database nests (Job.ofOutcome r) := .done r

theorem pure (a : α) : Brackets database nests (Pure.pure a : Job α) := .done _

theorem throw (f : Failure) : Brackets database nests (MonadExcept.throw f : Job α) := .done _

theorem clock : Brackets database nests Job.clock := Steps.Brackets.clock fun _ => .done _

theorem ask {c : Call} (hc : c.IsStatement) : Brackets database nests (Job.ask database c) :=
  .statement hc fun r => .done r

theorem bind {j : Job α} {k : α → Job β} (hj : Brackets database nests j) (hk : ∀ a, Brackets database nests (k a)) :
    Brackets database nests (j >>= k) := by
  have hnext : ∀ r : Outcome α, Steps.Brackets database nests 0 (ExceptT.bindCont k r) := by
    intro r
    cases r with
    | ok a => exact hk a
    | error f => exact .done _
  exact Steps.Brackets.bind hj hnext

theorem ite {c : Prop} [Decidable c] {j k : Job α} (hj : Brackets database nests j) (hk : Brackets database nests k) :
    Brackets database nests (if c then j else k) := by
  split
  · exact hj
  · exact hk

theorem attempt {j : Job α} (hj : Brackets database nests j) : Brackets database nests (Job.attempt j) :=
  Steps.Brackets.bind hj fun _ => .done _

/-- A transaction closes itself, on either way. -/
theorem atomic (hnests : nests) {j : Job α} (hj : Brackets database nests j) :
    Brackets database nests (Job.atomic database j) := by
  refine .begin hnests ?_
  show Steps.Brackets database nests (0 + 1) ((j.run.bind fun r => .done (Except.ok r)).bind (ExceptT.bindCont _))
  rw [Steps.bind_bind]
  refine Steps.Brackets.bind hj fun r => ?_
  cases r with
  | ok a =>
      refine .commit fun r => ?_
      cases r <;> exact .done _
  | error f => exact .rollback fun _ => .done _

theorem atomicIf (wanted : Bool) (hnests : wanted → nests) {j : Job α} (hj : Brackets database nests j) :
    Brackets database nests (Job.atomicIf wanted database j) := by
  cases wanted with
  | false => exact hj
  | true => exact hj.atomic (hnests rfl)

theorem forM {f : α → Job PUnit} {l : List α} (h : ∀ a ∈ l, Brackets database nests (f a)) :
    Brackets database nests (l.forM f) := by
  induction l with
  | nil => exact pure _
  | cons a rest ih => exact bind (h a List.mem_cons_self) fun _ => ih fun x hx => h x (List.mem_cons_of_mem _ hx)

theorem mapM {f : α → Job β} {l : List α} (h : ∀ a ∈ l, Brackets database nests (f a)) :
    Brackets database nests (l.mapM f) := by
  induction l with
  | nil => exact pure _
  | cons a rest ih =>
      rw [List.mapM_cons]
      refine bind (h a List.mem_cons_self) fun b => ?_
      exact bind (ih fun x hx => h x (List.mem_cons_of_mem _ hx)) fun _ => pure _

theorem any (qs : Queryset) : Brackets database nests (Job.any database qs) :=
  .ite (.pure _) (.bind (.ask trivial) fun _ => .pure _)

end Brackets

end Job

/-! ## Rolling back only to fail -/

/-- A computation that fails with nothing more done once it has rolled back. -/
inductive Steps.UndoesToFail : Steps (Outcome α) → Prop
  | done (r : Outcome α) : UndoesToFail (.done r)
  | clock {next : Instant → Steps (Outcome α)} (rest : ∀ now, UndoesToFail (next now)) : UndoesToFail (.clock next)
  | ask {name : String} {c : Call} {next : Outcome c.Reply → Steps (Outcome α)} (keeps : c ≠ .rollback)
    (rest : ∀ r, UndoesToFail (next r)) : UndoesToFail (.ask name c next)
  | undo {name : String} {next : Outcome (Call.Reply .rollback) → Steps (Outcome α)}
    (fails : ∀ r, ∃ f, next r = .done (.error f)) : UndoesToFail (.ask name .rollback next)

namespace Steps.UndoesToFail

/-- What opens no transaction may stand before it. -/
theorem bind {s : Steps α} {f : α → Steps (Outcome β)} (hs : s.Brackets database False 0)
    (hf : ∀ a, (f a).UndoesToFail) : (s.bind f).UndoesToFail := by
  generalize hn : 0 = n at hs
  induction hs with
  | done a => exact hf a
  | clock _ ih => exact .clock fun now => ih now hn
  | @statement _ c _ hc _ ih =>
      refine .ask ?_ fun r => ih r hn
      rintro rfl
      exact hc
  | begin allowed => exact allowed.elim
  | commit => cases hn
  | rollback => cases hn

/-- The outcome may be told in other words afterwards. -/
theorem map {s : Steps (Outcome α)} {f : Outcome α → Steps (Outcome β)} (hs : s.UndoesToFail)
    (hdone : ∀ r, ∃ r', f r = .done r') (hfailed : ∀ e, ∃ e', f (.error e) = .done (.error e')) :
    (s.bind f).UndoesToFail := by
  induction hs with
  | done r =>
      obtain ⟨r', hr'⟩ := hdone r
      show (f r).UndoesToFail
      rw [hr']
      exact .done r'
  | clock _ ih => exact .clock ih
  | ask keeps _ ih => exact .ask keeps ih
  | undo fails =>
      refine .undo fun r => ?_
      obtain ⟨e, he⟩ := fails r
      rw [he]
      exact hfailed e

end Steps.UndoesToFail

theorem Job.undoesToFail_atomic {j : Job α} (hj : j.Brackets database False) :
    (Job.atomic database j).run.UndoesToFail := by
  refine .ask nofun fun r => ?_
  cases r with
  | error f => exact .done _
  | ok _ =>
      show Steps.UndoesToFail ((j.run.bind fun r => .done (Except.ok r)).bind (ExceptT.bindCont _))
      rw [Steps.bind_bind]
      refine .bind hj fun r => ?_
      cases r with
      | ok a =>
          refine .ask nofun fun r => ?_
          cases r <;> exact .done _
      | error f => exact .undo fun r => ⟨f, rfl⟩

end RecordMapper

/-! ## Turns -/

namespace RecordMapper

open Move

variable {α : Type} {database : String} {nests : Prop}

/-- The call of a database that a computation makes next, if it makes one. -/
def Steps.nextCall? (database : String) : Steps α → Option Call
  | .ask name c _ => if name = database then some c else none
  | _ => none

/-- What a computation has come to that is done. -/
def Steps.result? : Steps α → Option α
  | .done a => some a
  | _ => none

namespace World

/-- What is left of the computations of two parties after some turns, and the world then. -/
def takeTurns : List Party → (Party → Steps α) → World → (Party → Steps α) × World
  | [], steps, w => (steps, w)
  | who :: turns, steps, w =>
    takeTurns turns (Function.update steps who (run (steps who).poll w).1) (run (steps who).poll w).2

/-- The call of a database that a party makes at its turn, if it makes one. -/
def moveOf? (database : String) (who : Party) (s : Steps α) (w : World) : Option Move :=
  (s.nextCall? database).map fun c =>
    ⟨who, c, (w.database database).store, ((run s.poll w).2.database database).store⟩

/-- The calls of a database that are made in some turns. -/
def movesOn (database : String) : List Party → (Party → Steps α) → World → List Move
  | [], _, _ => []
  | who :: turns, steps, w =>
    (moveOf? database who (steps who) w).toList ++
      movesOn database turns (Function.update steps who (run (steps who).poll w).1) (run (steps who).poll w).2

variable {w : World} {s : Steps α} {c : Call}

/-! ## One turn -/

theorem database_poll_none (h : s.nextCall? database = none) :
    (run s.poll w).2.database database = w.database database := by
  cases s with
  | done a => rfl
  | ask name c next =>
      have hne : database ≠ name := by
        rintro rfl
        simp [Steps.nextCall?] at h
      exact database_perform_ne hne c
  | clock next => rfl

theorem database_poll_some (hknown : database ∈ w.databases.map Prod.fst) (h : s.nextCall? database = some c) :
    (run s.poll w).2.database database = ((w.database database).perform w.registry w.clock c).2 := by
  cases s with
  | done a => cases h
  | ask name c' next =>
      rw [Steps.nextCall?, Option.ite_none_right_eq_some] at h
      obtain ⟨rfl, rfl⟩ : name = database ∧ c' = c := by simpa using h
      exact database_perform_self hknown c'
  | clock next => cases h

theorem moveOf?_none (h : s.nextCall? database = none) (who : Party) (w : World) : moveOf? database who s w = none := by
  rw [moveOf?, h]
  rfl

theorem moveOf?_some (h : s.nextCall? database = some c) (who : Party) (w : World) :
    ∃ x, moveOf? database who s w = some x ∧ x.who = who ∧ x.call = c :=
  ⟨_, by rw [moveOf?, h]; rfl, rfl, rfl⟩

/-- After its next call a computation still closes what it has open, and its scopes are as many as these and one. -/
theorem brackets_poll (hknown : database ∈ w.databases.map Prod.fst) {n : Nat} (h : s.Brackets database nests n) :
    ∃ m, (run s.poll w).1.Brackets database nests m ∧
      (s.nextCall? database = none → m = n) ∧
      ∀ x : Move, s.nextCall? database = some x.call → ∀ scopes : List (List Move), scopes.length = n + 1 →
        ∃ scopes', nextScopes Move.call scopes x = some scopes' ∧ scopes'.length = m + 1 := by
  have hself : ∀ {c : Call} {next : Outcome c.Reply → Steps α}, (Steps.ask database c next).nextCall? database = some c :=
    if_pos rfl
  have hclosed : ∀ {scopes : List (List Move)} {n : Nat}, scopes.length = n + 1 + 1 →
      ∃ inner outer rest, scopes = inner :: outer :: rest := by
    intro scopes n hlength
    obtain ⟨inner, more, rfl⟩ := List.exists_cons_of_length_eq_add_one hlength
    obtain ⟨outer, rest, rfl⟩ := List.exists_cons_of_length_eq_add_one (Nat.add_right_cancel hlength)
    exact ⟨inner, outer, rest, rfl⟩
  cases h with
  | done a => exact ⟨0, .done a, fun _ => rfl, nofun⟩
  | clock rest => exact ⟨n, rest _, fun _ => rfl, nofun⟩
  | @statement _ c next hc rest =>
      refine ⟨n, rest _, fun _ => rfl, fun x hx scopes hlength => ?_⟩
      obtain rfl : c = x.call := Option.some.inj (hself.symm.trans hx)
      obtain ⟨inner, outer, rfl⟩ := List.exists_cons_of_length_eq_add_one hlength
      refine ⟨(inner ++ [x]) :: outer, ?_, hlength⟩
      unfold nextScopes
      generalize x.call = c at hc
      cases c <;> first | rfl | exact hc.elim
  | @begin _ next allowed rest =>
      refine ⟨n + 1, ?_, fun hnone => ?_, fun x hx scopes hlength => ?_⟩
      · have hbegun : (w.perform database .begin).1 = .ok () := by
          rw [perform_known hknown]
          rfl
        show (next (w.perform database .begin).1).Brackets database nests (n + 1)
        rw [hbegun]
        exact rest
      · rw [hself] at hnone
        cases hnone
      · have hx : Call.begin = x.call := Option.some.inj (hself.symm.trans hx)
        exact ⟨[] :: scopes, by simp only [nextScopes, ← hx], congrArg (· + 1) hlength⟩
  | @commit m next rest =>
      refine ⟨m, rest _, fun hnone => ?_, fun x hx scopes hlength => ?_⟩
      · rw [hself] at hnone
        cases hnone
      · have hx : Call.commit = x.call := Option.some.inj (hself.symm.trans hx)
        obtain ⟨inner, outer, rest, rfl⟩ := hclosed hlength
        exact ⟨(outer ++ inner) :: rest, by simp only [nextScopes, ← hx], Nat.add_right_cancel hlength⟩
  | @rollback m next rest =>
      refine ⟨m, rest _, fun hnone => ?_, fun x hx scopes hlength => ?_⟩
      · rw [hself] at hnone
        cases hnone
      · have hx : Call.rollback = x.call := Option.some.inj (hself.symm.trans hx)
        obtain ⟨inner, outer, rest, rfl⟩ := hclosed hlength
        exact ⟨outer :: rest, by simp only [nextScopes, ← hx], Nat.add_right_cancel hlength⟩

theorem undoesToFail_poll {β : Type} {s : Steps (Outcome β)} (h : s.UndoesToFail) (database : String) (w : World) :
    ((run s.poll w).1.UndoesToFail ∧ ∀ c, s.nextCall? database = some c → c ≠ .rollback) ∨
      ∃ f, (run s.poll w).1 = .done (.error f) := by
  cases h with
  | done r => exact .inl ⟨.done r, nofun⟩
  | clock rest => exact .inl ⟨rest _, nofun⟩
  | @ask name c next keeps rest =>
      refine .inl ⟨rest _, fun c' hc => ?_⟩
      rw [Steps.nextCall?, Option.ite_none_right_eq_some] at hc
      exact Option.some.inj hc.2 ▸ keeps
  | undo fails => exact .inr (fails _)

/-! ## All turns -/

variable {turns : List Party} {steps : Party → Steps α} {who : Party}

/-- The calls of a database that are made in some turns are all that happens to it. -/
theorem moves_takeTurns (hknown : database ∈ w.databases.map Prod.fst) :
    Moves w.registry (w.database database) (movesOn database turns steps w)
      ((takeTurns turns steps w).2.database database) := by
  induction turns generalizing steps w with
  | nil => exact .nil
  | cons who turns ih =>
      have hrest := @ih (run (steps who).poll w).2 (Function.update steps who (run (steps who).poll w).1)
        (by rwa [names_run])
      rw [registry_run] at hrest
      rw [movesOn, takeTurns, moveOf?]
      cases hcall : (steps who).nextCall? database with
      | none =>
          rw [database_poll_none hcall] at hrest
          exact hrest
      | some c =>
          simp only [database_poll_some hknown hcall] at hrest ⊢
          exact .cons who w.clock c hrest

/-- What is done stays so. -/
theorem takeTurns_done {a : α} (h : steps who = .done a) : (takeTurns turns steps w).1 who = .done a := by
  induction turns generalizing steps w with
  | nil => exact h
  | cons mover turns ih =>
      rw [takeTurns]
      refine ih ?_
      by_cases hmover : who = mover
      · subst hmover
        rw [Function.update_self, h]
        rfl
      · rw [Function.update_of_ne hmover, h]

variable (turns) in
/-- The scopes of a party whose computation closes what it opens. -/
theorem scopes_takeTurns (hknown : database ∈ w.databases.map Prod.fst) {n : Nat}
    (h : (steps who).Brackets database nests n) {scopes : List (List Move)} (hlength : scopes.length = n + 1) :
    ∃ m scopes', ((takeTurns turns steps w).1 who).Brackets database nests m ∧ scopes'.length = m + 1 ∧
      (madeBy who (movesOn database turns steps w)).foldlM (nextScopes Move.call) scopes = some scopes' := by
  induction turns generalizing steps w n scopes with
  | nil => exact ⟨n, scopes, h, hlength, rfl⟩
  | cons mover turns ih =>
      rw [takeTurns, movesOn, madeBy_append]
      have hturn : ∃ m scopes', (Function.update steps mover (run (steps mover).poll w).1 who).Brackets database nests m ∧
          scopes'.length = m + 1 ∧ (madeBy who (moveOf? database mover (steps mover) w).toList).foldlM
            (nextScopes Move.call) scopes = some scopes' := by
        by_cases hmover : mover = who
        · subst hmover
          rw [Function.update_self]
          obtain ⟨m, hrest, hnone, hsome⟩ := brackets_poll hknown h
          cases hcall : (steps mover).nextCall? database with
          | none =>
              obtain rfl := hnone hcall
              rw [moveOf?_none hcall]
              exact ⟨m, scopes, hrest, hlength, rfl⟩
          | some c =>
              obtain ⟨x, hx, hwho, rfl⟩ := moveOf?_some hcall mover w
              obtain ⟨scopes', hnext, hlength'⟩ := hsome x hcall scopes hlength
              refine ⟨m, scopes', hrest, hlength', ?_⟩
              rw [hx, Option.toList_some, madeBy_cons_self [] hwho, List.foldlM_cons, hnext]
              rfl
        · rw [Function.update_of_ne (Ne.symm hmover)]
          refine ⟨n, scopes, h, hlength, ?_⟩
          cases hcall : (steps mover).nextCall? database with
          | none =>
              rw [moveOf?_none hcall]
              rfl
          | some c =>
              obtain ⟨x, hx, hwho, -⟩ := moveOf?_some hcall mover w
              rw [hx, Option.toList_some, madeBy_cons_ne [] (hwho ▸ hmover)]
              rfl
      obtain ⟨m, scopes', hrest, hlength', hfold⟩ := hturn
      have hknown' : database ∈ (run (steps mover).poll w).2.databases.map Prod.fst := by rwa [names_run]
      obtain ⟨m', scopes'', hleft, hlength'', hfold'⟩ := ih hknown' hrest hlength'
      refine ⟨m', scopes'', hleft, hlength'', ?_⟩
      rw [List.foldlM_append, hfold]
      exact hfold'

/-- When the computation of a party is done that closes what it opens, the party has one scope left. -/
theorem survivors_takeTurns (hknown : database ∈ w.databases.map Prod.fst)
    (h : (steps who).Brackets database nests 0) {a : α} (hdone : (takeTurns turns steps w).1 who = .done a) :
    ∃ kept, survivors? Move.call (madeBy who (movesOn database turns steps w)) = some kept := by
  obtain ⟨m, scopes, hleft, hlength, hfold⟩ := scopes_takeTurns turns hknown h (List.length_singleton (a := []))
  rw [hdone] at hleft
  cases hleft
  obtain ⟨kept, rfl⟩ := List.length_eq_one_iff.mp hlength
  exact ⟨kept, survivors?_eq_some.mpr hfold⟩

/-- A party that fails when it has rolled back has not done so if it succeeds. -/
theorem not_rollback_of_takeTurns {β : Type} {steps : Party → Steps (Outcome β)} (h : (steps who).UndoesToFail) {b : β}
    (hdone : (takeTurns turns steps w).1 who = .done (.ok b)) :
    ∀ x ∈ movesOn database turns steps w, x.who = who → x.call ≠ .rollback := by
  induction turns generalizing steps w with
  | nil => exact fun x hx => absurd hx List.not_mem_nil
  | cons mover turns ih =>
      rw [takeTurns] at hdone
      rw [movesOn]
      intro x hx hwho
      have hstep : (Function.update steps mover (run (steps mover).poll w).1 who).UndoesToFail ∧
          (x ∈ (moveOf? database mover (steps mover) w).toList → x.call ≠ .rollback) := by
        by_cases hmover : mover = who
        · subst hmover
          rw [Function.update_self]
          rcases undoesToFail_poll h database w with ⟨hrest, hcall⟩ | ⟨f, hfailed⟩
          · refine ⟨hrest, fun hmem => ?_⟩
            obtain ⟨c, hc, rfl⟩ := Option.map_eq_some_iff.mp (Option.mem_toList.mp hmem)
            exact hcall c hc
          · -- Having failed it does not succeed later.
            rw [takeTurns_done (Function.update_self _ _ _ |>.trans hfailed)] at hdone
            cases hdone
        · rw [Function.update_of_ne (Ne.symm hmover)]
          refine ⟨h, fun hmem => ?_⟩
          obtain ⟨c, _, rfl⟩ := Option.map_eq_some_iff.mp (Option.mem_toList.mp hmem)
          exact absurd hwho hmover
      rcases List.mem_append.mp hx with hx | hx
      · exact hstep.2 hx
      · exact ih hstep.1 hdone x hx hwho

end World

end RecordMapper
