import Mathlib.Logic.Function.Iterate
import RecordMapper.Proofs.Steps.Changes
import RecordMapper.Proofs.Steps.Made

/-!
# Endings — what jobs that succeed have done

`Ends database reg times st j Q` says that a job, run while a database of
some models has the store `st` and the clock shows certain times, succeeds
with nothing but a result and a store of which `Q` holds. The rules follow
the ways in which jobs are put together, one for each statement with what
the store makes of it.
-/

namespace RecordMapper

theorem Database.changed_eq_ok {α : Type} {db : Database} {r : Outcome (α × Store)} {a : α}
    (h : (db.changed r).1 = .ok a) : r = .ok (a, (db.changed r).2.store) := by
  rcases r with f | ⟨b, st⟩
  · cases h
  · cases h
    rfl

namespace World

/-- The times that the clock of a world shows from now on. -/
def Shows (w : World) (t : Instant) : Prop := ∃ n, t = (fun t : Instant => t.later w.tick)^[n] w.clock

theorem shows_clock (w : World) : w.Shows w.clock := ⟨0, rfl⟩

theorem Shows.of_ticked {w : World} {t : Instant} (h : w.ticked.Shows t) : w.Shows t := by
  obtain ⟨n, rfl⟩ := h
  exact ⟨n + 1, rfl⟩

theorem Shows.of_perform {w : World} {name : String} {c : Call} {t : Instant}
    (h : (w.perform name c).2.Shows t) : w.Shows t := by
  unfold perform at h
  split at h
  · exact h
  · obtain ⟨n, hn⟩ := Shows.of_ticked (w := w.setDatabase name _) h
    exact ⟨n, hn⟩

/-- What the clock shows after a run it shows from before the run on. -/
theorem Shows.of_run {α : Type} {s : Steps α} {w : World} {t : Instant} (h : (run s w).2.Shows t) : w.Shows t := by
  induction s generalizing w with
  | done a => exact h
  | ask name c next ih => exact (ih _ h).of_perform
  | clock next ih => exact (ih _ h).of_ticked

end World

namespace Job

open World

variable {α β : Type} {database : String} {reg : Registry} {times : Instant → Prop} {st : Store}
  {Q : α → Store → Prop}

/-- Run while a database of some models has a store and the clock shows certain times, a job succeeds with
nothing but a result and a store of which `Q` holds. -/
def Ends (database : String) (reg : Registry) (times : Instant → Prop) (st : Store) (j : Job α)
    (Q : α → Store → Prop) : Prop :=
  ∀ w : World, w.registry = reg → (∀ t, w.Shows t → times t) → (w.database database).store = st →
    ∀ a, (w.runJob j).1 = .ok a → Q a ((w.runJob j).2.database database).store

namespace Ends

/-! ## Putting jobs together -/

theorem imp {Q' : α → Store → Prop} {j : Job α} (h : Ends database reg times st j Q)
    (himp : ∀ a st', Q a st' → Q' a st') : Ends database reg times st j Q' :=
  fun w hreg htimes hst a ha => himp a _ (h w hreg htimes hst a ha)

theorem pure {a : α} (h : Q a st) : Ends database reg times st (Pure.pure a : Job α) Q := by
  rintro w _ _ rfl _ ⟨⟩
  exact h

theorem throw (f : Failure) : Ends database reg times st (MonadExcept.throw f : Job α) Q := by rintro w _ _ _ _ ⟨⟩

theorem ofOutcome {r : Outcome α} (h : ∀ a, r = .ok a → Q a st) :
    Ends database reg times st (Job.ofOutcome r) Q := by
  rintro w _ _ rfl a ha
  exact h a ha

theorem bind {j : Job α} {k : α → Job β} {Q : β → Store → Prop}
    (h : Ends database reg times st j fun a st' => Ends database reg times st' (k a) Q) :
    Ends database reg times st (j >>= k) Q := by
  intro w hreg htimes hst b hb
  obtain ⟨a, ha, hb⟩ := runJob_bind_eq_ok hb
  rw [runJob_bind_ok ha]
  exact h w hreg htimes hst a ha _ ((registry_run _ w).trans hreg) (fun t ht => htimes t ht.of_run) rfl b hb

theorem ite {c : Prop} [Decidable c] {j k : Job α} (hj : c → Ends database reg times st j Q)
    (hk : ¬c → Ends database reg times st k Q) : Ends database reg times st (if c then j else k) Q := by
  split
  · exact hj ‹_›
  · exact hk ‹_›

theorem clock {Q : Instant → Store → Prop} (h : ∀ now, times now → Q now st) :
    Ends database reg times st Job.clock Q := by
  rintro w _ htimes rfl _ ⟨⟩
  exact h _ (htimes _ w.shows_clock)

/-- A transaction around a job that succeeds is closed with its changes. -/
theorem atomic {j : Job α} (hj : Keeps (Confined database) j) (h : Ends database reg times st j Q) :
    Ends database reg times st (Job.atomic database j) Q := by
  intro w hreg htimes hst a ha
  by_cases hknown : database ∈ w.databases.map Prod.fst
  · cases hr : ((w.perform database .begin).2.runJob j).1 with
    | ok b =>
        rw [runJob_atomic_ok hj hknown hr] at ha ⊢
        cases ha
        simp only [store_perform_boundary (.inr rfl)]
        exact h _ ((registry_perform ..).trans hreg) (fun t ht => htimes t ht.of_perform)
          ((store_perform_boundary (.inl rfl) w _).trans hst) _ hr
    | error f =>
        rw [runJob_atomic_error hknown hr] at ha
        cases ha
  · rw [runJob_atomic_unknown hknown] at ha
    cases ha

theorem atomicIf {j : Job α} (wanted : Bool) (hj : Keeps (Confined database) j)
    (h : Ends database reg times st j Q) : Ends database reg times st (Job.atomicIf wanted database j) Q := by
  cases wanted with
  | false => exact h
  | true => exact h.atomic hj

/-- Of a job that may fail a success is told. -/
theorem attempt {j : Job α} {Q : Outcome α → Store → Prop}
    (h : Ends database reg times st j fun a st' => Q (.ok a) st') (herror : ∀ f st', Q (.error f) st') :
    Ends database reg times st (Job.attempt j) Q := by
  intro w hreg htimes hst r hr
  rw [runJob_attempt] at hr ⊢
  cases hr
  cases hj : (w.runJob j).1 with
  | ok a => exact h w hreg htimes hst a hj
  | error f => exact herror f _

/-- Jobs for the items of a list, one after another. -/
theorem forM {f : β → Job PUnit} {items : List β} {Q : List β → Store → Prop} (hnone : Q [] st)
    (hstep : ∀ done x rest st', items = done ++ x :: rest → Q done st' →
      Ends database reg times st' (f x) fun _ after => Q (done ++ [x]) after) :
    Ends database reg times st (items.forM f) fun _ st' => Q items st' := by
  have hall : ∀ rest done st', items = done ++ rest → Q done st' →
      Ends database reg times st' (rest.forM f) fun _ st' => Q items st' := by
    intro rest
    induction rest with
    | nil =>
        intro done st' hsplit hdone
        rw [List.append_nil] at hsplit
        exact pure (hsplit ▸ hdone)
    | cons x rest ih =>
        intro done st' hsplit hdone
        rw [List.forM_eq_forM, List.forM_cons]
        refine bind ((hstep done x rest st' hsplit hdone).imp fun _ after hafter => ih (done ++ [x]) after ?_ hafter)
        rw [hsplit, List.append_assoc, List.singleton_append]
  exact hall items [] st rfl hnone

/-! ## Statements -/

/-- A call that succeeds is answered by a database that is there. -/
theorem ask {c : Call} {Q : c.Reply → Store → Prop}
    (h : ∀ db : Database, db.store = st → ∀ now, times now → ∀ r, (db.perform reg now c).1 = .ok r →
      Q r (db.perform reg now c).2.store) : Ends database reg times st (Job.ask database c) Q := by
  intro w hreg htimes hst r hr
  rw [runJob_ask] at hr ⊢
  by_cases hknown : database ∈ w.databases.map Prod.fst
  · rw [perform_known hknown] at hr
    rw [database_perform_self hknown, hreg]
    rw [hreg] at hr
    exact h _ hst _ (htimes _ w.shows_clock) r hr
  · rw [perform_unknown hknown] at hr
    cases hr

theorem count {qs : Queryset} {Q : Nat → Store → Prop} (hqs : qs.isNone = false)
    (h : ∀ pks, Store.select reg st qs = .ok pks → Q pks.length st) :
    Ends database reg times st (Job.count database qs) Q := by
  refine ask fun db hst now _ n hn => ?_
  simp only [Database.perform, hqs, if_neg Bool.false_ne_true] at hn
  obtain ⟨pks, hpks, rfl⟩ := Outcome.map_eq_ok.mp hn
  subst hst
  exact h pks hpks

theorem fetch {qs : Queryset} {columns : List SelectColumn} {Q : List Record → Store → Prop}
    (hqs : qs.isNone = false) (h : ∀ rows, st.fetch reg qs columns = .ok rows → Q rows st) :
    Ends database reg times st (Job.fetch database qs columns) Q := by
  refine ask fun db hst now _ rows hrows => ?_
  simp only [Database.perform, hqs] at hrows
  subst hst
  exact h rows hrows

theorem insert {m : Model} {values : Record} {Q : Value → Store → Prop}
    (h : ∀ now, times now → ∀ pk st', Store.insert reg now st m values = .ok (pk, st') → Q pk st') :
    Ends database reg times st (Job.insert database m values) Q := by
  refine ask fun db hst now hnow pk hpk => ?_
  subst hst
  exact h now hnow pk _ (Database.changed_eq_ok hpk)

theorem insertChild {m : Model} {values : Record} {Q : Unit → Store → Prop}
    (h : ∀ now, times now → ∀ st', Store.insertChild reg now st m values = .ok st' → Q () st') :
    Ends database reg times st (Job.insertChild database m values) Q := by
  refine ask fun db hst now hnow u hu => ?_
  subst hst
  obtain ⟨st', hinsert, heq⟩ := Outcome.map_eq_ok.mp (Database.changed_eq_ok hu)
  obtain rfl : st' = _ := congrArg Prod.snd heq
  exact h now hnow _ hinsert

theorem update {qs : Queryset} {values : Record} {Q : Nat → Store → Prop} (hqs : qs.isNone = false)
    (h : ∀ n st', Store.update reg st qs values = .ok (n, st') → Q n st') :
    Ends database reg times st (Job.update database qs values) Q := by
  refine ask fun db hst now _ n hn => ?_
  subst hst
  simp only [Database.perform, hqs, if_neg Bool.false_ne_true] at hn ⊢
  exact h n _ (Database.changed_eq_ok hn)

theorem delete {qs : Queryset} {Q : Nat → Store → Prop} (hqs : qs.isNone = false)
    (h : ∀ n st', Store.delete reg st qs = .ok (n, st') → Q n st') :
    Ends database reg times st (Job.delete database qs) Q := by
  refine ask fun db hst now _ n hn => ?_
  subst hst
  simp only [Database.perform, hqs, if_neg Bool.false_ne_true] at hn ⊢
  exact h n _ (Database.changed_eq_ok hn)

/-- Asking whether there is a row changes nothing. -/
theorem any {qs : Queryset} {Q : Bool → Store → Prop} (h : ∀ b, Q b st) :
    Ends database reg times st (Job.any database qs) Q := by
  refine ite (fun _ => pure (h _)) fun _ => bind ?_
  refine ask fun db hst now _ n hn => ?_
  subst hst
  exact pure (h _)

/-! ## Changes -/

/-- What follows a job changes a store as the job's result and what it has done allow. -/
theorem bind_changes {S S₁ S₂ : Store → Store → Prop} {Before : Store → Prop} {R : Store → α → Store → Prop}
    {j : Job α} {k : α → Job β} (h : ∀ st, Ends database reg (fun _ => True) st j (R st))
    (hconfined : Keeps (Confined database) (j >>= k)) (hj : Keeps (Changes database reg S₁) j)
    (hk : ∀ st a st', Before st → R st a st' → Keeps (Changes database reg S₂) (k a))
    (hstop : ∀ {st st'}, S₁ st st' → S st st') (hcomp : ∀ {st st' st''}, S₁ st st' → S₂ st' st'' → S st st'') :
    Keeps (Changes database reg fun st st' => Before st → S st st') (j >>= k) := by
  intro w
  refine { hconfined w with registry := registry_run _ w, store := fun hreg hbefore => ?_ }
  rw [runJob_bind]
  split
  · rename_i a ha
    have hafter := hk _ a _ hbefore (h _ w hreg (fun _ _ => trivial) rfl a ha)
    exact hcomp ((hj w).store hreg) ((hafter _).store ((registry_run _ w).trans hreg))
  · exact hstop ((hj w).store hreg)

end Ends

end Job

end RecordMapper

/-!
## Matching — jobs that do the same on one store

`SameOn database reg st j j'` says that two jobs have one run in every
world where a database of some models has the store `st`. Of what follows
a job, only what follows the endings it has on that store matters; after
calls that are refused alike nothing follows.
-/

namespace RecordMapper.Job

open World

variable {α β : Type} {database : String} {reg : Registry} {st : Store}

/-- Two jobs have one run wherever a database of some models has a store. -/
def SameOn (database : String) (reg : Registry) (st : Store) (j j' : Job α) : Prop :=
  ∀ w : World, w.registry = reg → (w.database database).store = st → w.runJob j' = w.runJob j

namespace SameOn

theorem rfl {j : Job α} : SameOn database reg st j j := fun _ _ _ => Eq.refl _

theorem of_same {j j' : Job α} (h : Same j j') : SameOn database reg st j j' := fun w _ _ => (h w).symm

theorem trans {j j' j'' : Job α} (h : SameOn database reg st j j') (h' : SameOn database reg st j' j'') :
    SameOn database reg st j j'' := fun w hreg hst => (h' w hreg hst).trans (h w hreg hst)

theorem bind {j j' : Job α} {k k' : α → Job β} (hj : SameOn database reg st j j')
    (hk : Ends database reg (fun _ => True) st j fun a st' => SameOn database reg st' (k a) (k' a)) :
    SameOn database reg st (j >>= k) (j' >>= k') := by
  intro w hreg hst
  rw [runJob_bind, runJob_bind, hj w hreg hst]
  split
  · rename_i a ha
    exact hk w hreg (fun _ _ => trivial) hst a ha _ ((registry_run _ w).trans hreg) (Eq.refl _)
  · exact Eq.refl _

/-- What follows does the same whatever the store. -/
theorem bind_left {j j' : Job α} (hj : SameOn database reg st j j') (k : α → Job β) :
    SameOn database reg st (j >>= k) (j' >>= k) :=
  hj.bind fun _ _ _ _ _ _ => rfl

/-- Nothing follows what is bound to fail. -/
theorem bind_refused {j j' : Job α} (hj : SameOn database reg st j j') (k k' : α → Job β)
    (hfails : Ends database reg (fun _ => True) st j fun _ _ => False) :
    SameOn database reg st (j >>= k) (j' >>= k') :=
  hj.bind (hfails.imp fun _ _ h => h.elim)

theorem ite {c : Prop} [Decidable c] {j j' k k' : Job α} (hj : c → SameOn database reg st j j')
    (hk : ¬c → SameOn database reg st k k') :
    SameOn database reg st (if c then j else k) (if c then j' else k') := by
  split
  · exact hj ‹_›
  · exact hk ‹_›

theorem attempt {j j' : Job α} (h : SameOn database reg st j j') :
    SameOn database reg st (Job.attempt j) (Job.attempt j') := by
  intro w hreg hst
  rw [runJob_attempt, runJob_attempt, h w hreg hst]

theorem atomicIf {j j' : Job α} (h : SameOn database reg st j j') (wanted : Bool) :
    SameOn database reg st (Job.atomicIf wanted database j) (Job.atomicIf wanted database j') := by
  cases wanted with
  | false => exact h
  | true =>
      intro w hreg hst
      show w.runJob (Job.atomic database j') = w.runJob (Job.atomic database j)
      by_cases hknown : database ∈ w.databases.map Prod.fst
      · rw [runJob_atomic_known hknown, runJob_atomic_known hknown, h _ ((registry_perform ..).trans hreg)
          ((store_perform_boundary (.inl (Eq.refl _)) w _).trans hst)]
      · rw [runJob_atomic_unknown hknown, runJob_atomic_unknown hknown]

/-! ## Refused calls -/

theorem insert {m : Model} {values values' : Record}
    (h : ∀ now, Store.insert reg now st m values' = Store.insert reg now st m values) :
    SameOn database reg st (Job.insert database m values) (Job.insert database m values') := by
  intro w hreg hst
  have hanswer (db : Database) (hdb : db.store = st) (now : Instant) :
      db.perform reg now (.insert m values') = db.perform reg now (.insert m values) := by
    subst hdb
    exact congrArg (db.logged (Call.insert m values).statement?).changed (h now)
  show w.perform database (.insert m values') = w.perform database (.insert m values)
  by_cases hknown : database ∈ w.databases.map Prod.fst
  · rw [perform_known hknown, perform_known hknown, hreg, hanswer _ hst]
    exact Eq.refl _
  · rw [perform_unknown hknown, perform_unknown hknown]
    exact Eq.refl _

theorem insertChild {m : Model} {values values' : Record}
    (h : ∀ now, Store.insertChild reg now st m values' = Store.insertChild reg now st m values) :
    SameOn database reg st (Job.insertChild database m values) (Job.insertChild database m values') := by
  intro w hreg hst
  have hanswer (db : Database) (hdb : db.store = st) (now : Instant) :
      db.perform reg now (.insertChild m values') = db.perform reg now (.insertChild m values) := by
    subst hdb
    exact congrArg (fun r => (db.logged (Call.insertChild m values).statement?).changed (r.map fun st => ((), st)))
      (h now)
  show w.perform database (.insertChild m values') = w.perform database (.insertChild m values)
  by_cases hknown : database ∈ w.databases.map Prod.fst
  · rw [perform_known hknown, perform_known hknown, hreg, hanswer _ hst]
    exact Eq.refl _
  · rw [perform_unknown hknown, perform_unknown hknown]
    exact Eq.refl _

end SameOn

end RecordMapper.Job
