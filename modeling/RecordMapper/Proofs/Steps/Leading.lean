import RecordMapper.Proofs.Steps.Endings
import RecordMapper.Proofs.Store.Selection

/-!
# Leading — what jobs come to, whether they succeed or fail

`Leads database reg times st j P` says that a job, run while a database of
some models is there and has the store `st` and the clock shows certain
times, comes to an outcome and a store of which `P` holds. Where `Endings`
speak of successes alone, this also tells the failures apart. One rule for
each way of putting jobs together, and one for each statement with what
the store makes of it.

A job that `Rests` leaves the store as it is. Beside the rules for putting
such jobs together there is one for each statement that has nothing to
change.
-/

namespace RecordMapper.Job

open World

variable {α β : Type} {database : String} {reg : Registry} {times : Instant → Prop} {st : Store}
  {P : Outcome α → Store → Prop}

/-- Run while a database of some models is there and has a store and the clock shows certain times, a job comes to an
outcome and a store of which `P` holds. -/
def Leads (database : String) (reg : Registry) (times : Instant → Prop) (st : Store) (j : Job α)
    (P : Outcome α → Store → Prop) : Prop :=
  ∀ w : World, w.registry = reg → database ∈ w.databases.map Prod.fst → (∀ t, w.Shows t → times t) →
    (w.database database).store = st → P (w.runJob j).1 ((w.runJob j).2.database database).store

namespace Leads

/-! ## Putting jobs together -/

theorem imp {P' : Outcome α → Store → Prop} {j : Job α} (h : Leads database reg times st j P)
    (himp : ∀ r st', P r st' → P' r st') : Leads database reg times st j P' :=
  fun w hreg hknown htimes hst => himp _ _ (h w hreg hknown htimes hst)

theorem and {P' : Outcome α → Store → Prop} {j : Job α} (h : Leads database reg times st j P)
    (h' : Leads database reg times st j P') : Leads database reg times st j fun r st' => P r st' ∧ P' r st' :=
  fun w hreg hknown htimes hst => ⟨h w hreg hknown htimes hst, h' w hreg hknown htimes hst⟩

theorem of_returns {Q : α → Prop} {j : Job α} (h : Returns Q j) :
    Leads database reg times st j fun r _ => ∀ a, r = .ok a → Q a :=
  fun w _ _ _ _ => h w

theorem of_fails {Q : Failure → Prop} {j : Job α} (h : Fails Q j) :
    Leads database reg times st j fun r _ => ∀ f, r = .error f → Q f :=
  fun w _ _ _ _ => h w

theorem ofOutcome {r : Outcome α} (h : P r st) : Leads database reg times st (Job.ofOutcome r) P := by
  rintro w _ _ _ rfl
  exact h

theorem pure {a : α} (h : P (.ok a) st) : Leads database reg times st (Pure.pure a : Job α) P := ofOutcome h

theorem throw {f : Failure} (h : P (.error f) st) : Leads database reg times st (MonadExcept.throw f : Job α) P :=
  ofOutcome h

/-- What follows a job runs on the store that it leaves, if it succeeds. -/
theorem bind {j : Job α} {k : α → Job β} {P : Outcome β → Store → Prop}
    (h : Leads database reg times st j fun r st' =>
      match r with
      | .ok a => Leads database reg times st' (k a) P
      | .error f => P (.error f) st') :
    Leads database reg times st (j >>= k) P := by
  intro w hreg hknown htimes hst
  have hafter := h w hreg hknown htimes hst
  cases hr : (w.runJob j).1 with
  | ok a =>
      rw [hr] at hafter
      rw [runJob_bind_ok hr]
      exact hafter _ ((registry_run _ w).trans hreg) (names_run _ w ▸ hknown) (fun t ht => htimes t ht.of_run) rfl
  | error f =>
      rw [hr] at hafter
      rw [runJob_bind_error hr]
      exact hafter

theorem ite {c : Prop} [Decidable c] {j k : Job α} (hj : c → Leads database reg times st j P)
    (hk : ¬c → Leads database reg times st k P) : Leads database reg times st (if c then j else k) P := by
  split
  · exact hj ‹_›
  · exact hk ‹_›

theorem clock {P : Outcome Instant → Store → Prop} (h : ∀ now, times now → P (.ok now) st) :
    Leads database reg times st Job.clock P := by
  rintro w _ _ htimes rfl
  exact h _ (htimes _ w.shows_clock)

theorem attempt {j : Job α} {P : Outcome (Outcome α) → Store → Prop}
    (h : Leads database reg times st j fun r st' => P (.ok r) st') : Leads database reg times st (Job.attempt j) P := by
  intro w hreg hknown htimes hst
  rw [runJob_attempt]
  exact h w hreg hknown htimes hst

/-- A transaction keeps what its job does if it succeeds, and undoes it if it fails. -/
theorem atomic {j : Job α} (hj : Keeps (Confined database) j)
    (h : Leads database reg times st j fun r st' => (∀ a, r = .ok a → P r st') ∧ ∀ f, r = .error f → P r st) :
    Leads database reg times st (Job.atomic database j) P := by
  intro w hreg hknown htimes hst
  obtain ⟨hok, herror⟩ := h (w.perform database .begin).2 ((registry_perform ..).trans hreg)
    ((names_perform w database .begin).symm ▸ hknown) (fun t ht => htimes t ht.of_perform)
    ((store_perform_boundary (.inl rfl) w _).trans hst)
  cases hr : ((w.perform database .begin).2.runJob j).1 with
  | ok a =>
      rw [runJob_atomic_ok hj hknown hr]
      simp only [store_perform_boundary (.inr rfl)]
      exact hr ▸ hok a hr
  | error f =>
      have hrun := runJob_atomic_error hknown hr
      have hundone := (atomic_error hj (congrArg Prod.fst hrun)).stores database
      rw [hrun] at hundone ⊢
      simp only [(List.cons.inj hundone).1, hst]
      exact hr ▸ herror f hr

theorem atomicIf {j : Job α} (wanted : Bool) (hj : Keeps (Confined database) j)
    (h : Leads database reg times st j fun r st' => P r st' ∧ ∀ f, r = .error f → P r st) :
    Leads database reg times st (Job.atomicIf wanted database j) P := by
  cases wanted with
  | false => exact h.imp fun _ _ hP => hP.1
  | true => exact atomic hj (h.imp fun _ _ hP => ⟨fun _ _ => hP.1, hP.2⟩)

/-! ## Statements -/

/-- A call is answered by the database as it is. -/
theorem ask {c : Call} {P : Outcome c.Reply → Store → Prop}
    (h : ∀ db : Database, db.store = st → ∀ now, times now →
      P (db.perform reg now c).1 (db.perform reg now c).2.store) :
    Leads database reg times st (Job.ask database c) P := by
  intro w hreg hknown htimes hst
  rw [runJob_ask, database_perform_self hknown, perform_known hknown, hreg]
  exact h _ hst _ (htimes _ w.shows_clock)

/-- A change that fails leaves the store. -/
theorem changed {c : Call} {P : Outcome c.Reply → Store → Prop} (change : Instant → Outcome (c.Reply × Store))
    (hchange : ∀ db : Database, db.store = st → ∀ now,
      db.perform reg now c = (db.logged c.statement?).changed (change now))
    (hok : ∀ now, times now → ∀ a st', change now = .ok (a, st') → P (.ok a) st')
    (herror : ∀ now, times now → ∀ f, change now = .error f → P (.error f) st) :
    Leads database reg times st (Job.ask database c) P := by
  refine ask fun db hst now hnow => ?_
  rw [hchange db hst now]
  cases hr : change now with
  | ok r => exact hok now hnow r.1 r.2 hr
  | error f => exact hst ▸ herror now hnow f hr

variable {qs : Queryset} {m : Model} {values : Record}

theorem count {P : Outcome Nat → Store → Prop} {pks : List Value} (hselect : Store.select reg st qs = .ok pks)
    (h : P (.ok pks.length) st) : Leads database reg times st (Job.count database qs) P := by
  refine ask fun db hst now _ => ?_
  subst hst
  have hanswer : (db.perform reg now (.count qs)).1 = .ok pks.length := Database.perform_count hselect now
  exact hanswer.symm ▸ h

theorem fetch {columns : List SelectColumn} {P : Outcome (List Record) → Store → Prop} (hqs : qs.isNone = false)
    (h : P (st.fetch reg qs columns) st) : Leads database reg times st (Job.fetch database qs columns) P := by
  refine ask fun db hst now _ => ?_
  subst hst
  have hanswer : (db.perform reg now (.fetch qs columns)).1 = db.store.fetch reg qs columns := by
    simp only [Database.perform, hqs, Bool.false_eq_true]
    rfl
  exact hanswer.symm ▸ h

theorem insert {P : Outcome Value → Store → Prop}
    (hok : ∀ now, times now → ∀ pk st', Store.insert reg now st m values = .ok (pk, st') → P (.ok pk) st')
    (herror : ∀ now, times now → ∀ f, Store.insert reg now st m values = .error f → P (.error f) st) :
    Leads database reg times st (Job.insert database m values) P :=
  changed (c := .insert m values) (fun now => Store.insert reg now st m values)
    (fun db hst now => congrArg (fun st => (db.logged _).changed (Store.insert reg now st m values)) hst) hok herror

theorem insertChild {P : Outcome Unit → Store → Prop}
    (hok : ∀ now, times now → ∀ st', Store.insertChild reg now st m values = .ok st' → P (.ok ()) st')
    (herror : ∀ now, times now → ∀ f, Store.insertChild reg now st m values = .error f → P (.error f) st) :
    Leads database reg times st (Job.insertChild database m values) P := by
  refine changed (c := .insertChild m values)
    (fun now => (Store.insertChild reg now st m values).map fun st => ((), st))
    (fun db hst now => ?_) (fun now hnow u st' hinsert => ?_) fun now hnow f hinsert => ?_
  · exact congrArg (fun st => (db.logged _).changed ((Store.insertChild reg now st m values).map fun st => ((), st))) hst
  · obtain ⟨st'', hst'', heq⟩ := Outcome.map_eq_ok.mp hinsert
    obtain rfl : st'' = st' := congrArg Prod.snd heq
    exact hok now hnow _ hst''
  · cases hr : Store.insertChild reg now st m values with
    | ok st' => simp only [hr] at hinsert; cases hinsert
    | error g =>
        simp only [hr] at hinsert
        cases hinsert
        exact herror now hnow _ hr

theorem update {P : Outcome Nat → Store → Prop} (hqs : qs.isNone = false)
    (hok : ∀ n st', Store.update reg st qs values = .ok (n, st') → P (.ok n) st')
    (herror : ∀ f, Store.update reg st qs values = .error f → P (.error f) st) :
    Leads database reg times st (Job.update database qs values) P := by
  refine changed (c := .update qs values) (fun _ => Store.update reg st qs values) (fun db hst now => ?_)
    (fun _ _ => hok) fun _ _ => herror
  simp only [Database.perform, hqs, Bool.false_eq_true, if_false]
  exact congrArg (fun st => (db.logged _).changed (Store.update reg st qs values)) hst

theorem delete {P : Outcome Nat → Store → Prop} (hqs : qs.isNone = false)
    (hok : ∀ n st', Store.delete reg st qs = .ok (n, st') → P (.ok n) st')
    (herror : ∀ f, Store.delete reg st qs = .error f → P (.error f) st) :
    Leads database reg times st (Job.delete database qs) P := by
  refine changed (c := .delete qs) (fun _ => Store.delete reg st qs) (fun db hst now => ?_)
    (fun _ _ => hok) fun _ _ => herror
  simp only [Database.perform, hqs, Bool.false_eq_true, if_false]
  exact congrArg (fun st => (db.logged _).changed (Store.delete reg st qs)) hst

/-- Asking whether there is a row is told by the rows that are selected. -/
theorem any {P : Outcome Bool → Store → Prop} {pks : List Value} (hsliced : qs.isSliced = false)
    (hselect : Store.select reg st qs = .ok pks) (h : P (.ok !pks.isEmpty) st) :
    Leads database reg times st (Job.any database qs) P := by
  refine ite (fun hnone => pure ?_) fun _ => bind ?_
  · rw [Store.select_of_isNone hnone] at hselect
    cases hselect
    exact h
  · obtain ⟨pks', hselect', hperm⟩ := Store.select_unordered hselect hsliced
    have htake : Store.select reg st (qs.unordered.take 1) = .ok (pks'.take 1) := by
      have hslice := Store.select_slice (show qs.unordered.isSliced = false from hsliced) hselect' 0 (some 1)
      simpa [Queryset.take, Store.window] using hslice
    refine count htake (pure ?_)
    have hsame : decide ((pks'.take 1).length > 0) = !pks.isEmpty := by
      rw [← hperm.isEmpty_eq]
      cases pks' <;> rfl
    exact hsame ▸ h

end Leads

end RecordMapper.Job

namespace RecordMapper.Job

open World

variable {α β : Type} {database : String} {reg : Registry} {st : Store} {P : Outcome α → Prop}

/-- Run while a database of some models is there and has a store, a job leaves that store, with an outcome of which
`P` holds. -/
def Rests (database : String) (reg : Registry) (st : Store) (j : Job α) (P : Outcome α → Prop) : Prop :=
  Leads database reg (fun _ => True) st j fun r st' => P r ∧ st' = st

namespace Rests

/-! ## Putting jobs together -/

theorem imp {P' : Outcome α → Prop} {j : Job α} (h : Rests database reg st j P) (himp : ∀ r, P r → P' r) :
    Rests database reg st j P' :=
  Leads.imp h fun r _ => And.imp_left (himp r)

theorem ofOutcome {r : Outcome α} (h : P r) : Rests database reg st (Job.ofOutcome r) P := Leads.ofOutcome ⟨h, rfl⟩

theorem pure {a : α} (h : P (.ok a)) : Rests database reg st (Pure.pure a : Job α) P := ofOutcome h

/-- What follows a job runs on the store that it leaves, if it succeeds. -/
theorem bind {j : Job α} {k : α → Job β} {P : Outcome β → Prop}
    (h : Rests database reg st j fun r => ∃ a, r = .ok a ∧ Rests database reg st (k a) P) :
    Rests database reg st (j >>= k) P := by
  refine Leads.bind (Leads.imp h fun r st' hr => ?_)
  obtain ⟨⟨a, rfl, hk⟩, rfl⟩ := hr
  exact hk

/-- Nothing follows a job that fails. -/
theorem bind_error {j : Job α} {k : α → Job β} {P : Outcome β → Prop}
    (h : Rests database reg st j fun r => ∃ f, r = .error f ∧ P (.error f)) :
    Rests database reg st (j >>= k) P := by
  refine Leads.bind (Leads.imp h fun r st' hr => ?_)
  obtain ⟨⟨f, rfl, hP⟩, rfl⟩ := hr
  exact ⟨hP, rfl⟩

theorem clock {P : Outcome Instant → Prop} (h : ∀ now, P (.ok now)) : Rests database reg st Job.clock P :=
  Leads.clock fun now _ => ⟨h now, rfl⟩

theorem attempt {j : Job α} {P : Outcome (Outcome α) → Prop} (h : Rests database reg st j fun r => P (.ok r)) :
    Rests database reg st (Job.attempt j) P :=
  Leads.attempt h

theorem forM {f : β → Job PUnit} {items : List β}
    (h : ∀ x ∈ items, Rests database reg st (f x) (· = .ok ⟨⟩)) :
    Rests database reg st (items.forM f) (· = .ok ⟨⟩) := by
  induction items with
  | nil => exact pure rfl
  | cons x rest ih =>
      rw [List.forM_eq_forM, List.forM_cons]
      exact bind ((h x List.mem_cons_self).imp fun _ hx => ⟨_, hx, ih fun y hy => h y (List.mem_cons_of_mem _ hy)⟩)

/-- A transaction around a job that leaves the store leaves it, whether it is closed or undone. -/
theorem atomicIf {j : Job α} (wanted : Bool) (hj : Keeps (Confined database) j) (h : Rests database reg st j P) :
    Rests database reg st (Job.atomicIf wanted database j) P :=
  Leads.atomicIf wanted hj (Leads.imp h fun _ _ hP => ⟨hP, fun _ _ => ⟨hP.1, rfl⟩⟩)

/-! ## Statements -/

variable {qs : Queryset}

theorem count {P : Outcome Nat → Prop} {pks : List Value} (hselect : Store.select reg st qs = .ok pks)
    (h : P (.ok pks.length)) : Rests database reg st (Job.count database qs) P :=
  Leads.count hselect ⟨h, rfl⟩

theorem fetch {columns : List SelectColumn} {P : Outcome (List Record) → Prop} (hqs : qs.isNone = false)
    (h : P (st.fetch reg qs columns)) : Rests database reg st (Job.fetch database qs columns) P :=
  Leads.fetch hqs ⟨h, rfl⟩

theorem update {values : Record} {n : Nat} {P : Outcome Nat → Prop} (hqs : qs.isNone = false)
    (hupdate : Store.update reg st qs values = .ok (n, st)) (h : P (.ok n)) :
    Rests database reg st (Job.update database qs values) P := by
  refine Leads.update hqs (fun n' st' h' => ?_) fun f h' => nomatch hupdate.symm.trans h'
  obtain ⟨rfl, rfl⟩ := Prod.mk.inj (Except.ok.inj (hupdate.symm.trans h'))
  exact ⟨h, rfl⟩

theorem delete {n : Nat} {P : Outcome Nat → Prop} (hqs : qs.isNone = false)
    (hdelete : Store.delete reg st qs = .ok (n, st)) (h : P (.ok n)) :
    Rests database reg st (Job.delete database qs) P := by
  refine Leads.delete hqs (fun n' st' h' => ?_) fun f h' => nomatch hdelete.symm.trans h'
  obtain ⟨rfl, rfl⟩ := Prod.mk.inj (Except.ok.inj (hdelete.symm.trans h'))
  exact ⟨h, rfl⟩

theorem insert_refused {m : Model} {values : Record} {f : Failure} {P : Outcome Value → Prop}
    (hinsert : ∀ now, Store.insert reg now st m values = .error f) (h : P (.error f)) :
    Rests database reg st (Job.insert database m values) P := by
  refine Leads.insert (fun now _ pk st' h' => nomatch (hinsert now).symm.trans h') fun now _ f' h' => ?_
  obtain rfl := Except.error.inj ((hinsert now).symm.trans h')
  exact ⟨h, rfl⟩

end Rests

end RecordMapper.Job
