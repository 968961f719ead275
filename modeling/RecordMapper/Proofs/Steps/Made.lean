import RecordMapper.Proofs.Steps.Running

/-!
# Made — what jobs are put together from

Most jobs are put together from the clock, from calls of one database
and from transactions on it. `Made database A` says so of a job whose
calls are all allowed by `A`. What holds of the allowed calls and is
handed on where jobs are put together holds of the whole job by
induction; `Made.keeps` does this once for all relations of worlds.
-/

namespace RecordMapper.Job

variable {α β : Type} {P : α → Prop} {Q : β → Prop}

/-! ## What jobs yield -/

/-- Whatever a job yields, in whatever world, has a property. -/
def Returns (P : α → Prop) (j : Job α) : Prop := ∀ w a, (World.runJob j w).1 = .ok a → P a

namespace Returns

theorem pure {a : α} (h : P a) : Returns P (Pure.pure a : Job α) := by
  rintro _ _ ⟨⟩
  exact h

theorem throw (f : Failure) : Returns P (MonadExcept.throw f : Job α) := by rintro _ _ ⟨⟩

theorem any (j : Job α) : Returns (fun _ => True) j := fun _ _ _ => trivial

theorem imp {P' : α → Prop} {j : Job α} (h : Returns P j) (himp : ∀ a, P a → P' a) : Returns P' j :=
  fun w a ha => himp a (h w a ha)

theorem bind {j : Job α} {k : α → Job β} (hj : Returns P j) (hk : ∀ a, P a → Returns Q (k a)) :
    Returns Q (j >>= k) := by
  intro w b h
  rw [World.runJob_bind] at h
  split at h
  · rename_i a ha
    exact hk a (hj w a ha) _ b h
  · cases h

theorem ite {c : Prop} [Decidable c] {j k : Job α} (hj : Returns P j) (hk : Returns P k) :
    Returns P (if c then j else k) := by
  split
  · exact hj
  · exact hk

/-- What each of some jobs yields is in the list that all of them yield. -/
theorem mapM {f : α → Job β} {l : List α} {a : α} (ha : a ∈ l) (h : Returns Q (f a)) :
    Returns (fun bs => ∃ b ∈ bs, Q b) (l.mapM f) := by
  induction l with
  | nil => cases ha
  | cons x rest ih =>
      rw [List.mapM_cons]
      rcases List.mem_cons.mp ha with rfl | hrest
      · exact h.bind fun b hb => (any _).bind fun bs _ => pure ⟨b, List.mem_cons_self, hb⟩
      · refine (any _).bind fun b _ => (ih hrest).bind fun bs ⟨b', hb', hq⟩ => pure ?_
        exact ⟨b', List.mem_cons_of_mem b hb', hq⟩

/-- What holds of what each of some jobs yields holds of all in the list that they yield. -/
theorem mapM_all {f : α → Job β} {l : List α} (h : ∀ a ∈ l, Returns Q (f a)) :
    Returns (fun bs => ∀ b ∈ bs, Q b) (l.mapM f) := by
  induction l with
  | nil => exact pure (by simp)
  | cons a rest ih =>
      rw [List.mapM_cons]
      refine (h a List.mem_cons_self).bind fun b hb => ?_
      refine (ih fun x hx => h x (List.mem_cons_of_mem _ hx)).bind fun bs hbs => pure ?_
      exact List.forall_mem_cons.mpr ⟨hb, hbs⟩

end Returns

/-! ## What jobs fail with -/

/-- Whatever a job fails with, in whatever world, has a property. -/
def Fails (P : Failure → Prop) (j : Job α) : Prop := ∀ w f, (World.runJob j w).1 = .error f → P f

namespace Fails

variable {P : Failure → Prop}

theorem pure (a : α) : Fails P (Pure.pure a : Job α) := by rintro _ _ ⟨⟩

theorem throw {f : Failure} (h : P f) : Fails P (MonadExcept.throw f : Job α) := by
  rintro _ _ ⟨⟩
  exact h

theorem bind {j : Job α} {k : α → Job β} (hj : Fails P j) (hk : ∀ a, Fails P (k a)) : Fails P (j >>= k) := by
  intro w f h
  rw [World.runJob_bind] at h
  split at h
  · rename_i a _
    exact hk a _ f h
  · cases h
    exact hj w _ ‹_›

theorem ite {c : Prop} [Decidable c] {j k : Job α} (hj : Fails P j) (hk : Fails P k) : Fails P (if c then j else k) := by
  split
  · exact hj
  · exact hk

theorem attempt (j : Job α) : Fails P (Job.attempt j) := by
  intro w f h
  rw [World.runJob_attempt] at h
  cases h

theorem forM {f : α → Job PUnit} {l : List α} (h : ∀ a ∈ l, Fails P (f a)) : Fails P (l.forM f) := by
  induction l with
  | nil => exact pure _
  | cons a rest ih =>
      rw [List.forM_eq_forM, List.forM_cons]
      exact bind (h a List.mem_cons_self) fun _ => ih fun x hx => h x (List.mem_cons_of_mem _ hx)

end Fails

/-! ## Jobs that do the same -/

/-- Jobs that do the same in every world. -/
def Same (j j' : Job α) : Prop := ∀ w : World, w.runJob j = w.runJob j'

namespace Same

theorem rfl {j : Job α} : Same j j := fun _ => Eq.refl _

/-- Of what follows a job, only what follows its results matters. -/
theorem bindOf {j j' : Job α} {k k' : α → Job β} (hj : Same j j') (hP : Returns P j)
    (hk : ∀ a, P a → Same (k a) (k' a)) : Same (j >>= k) (j' >>= k') := by
  intro w
  rw [World.runJob_bind, World.runJob_bind, ← hj w]
  split
  · rename_i a ha
    exact hk a (hP w a ha) _
  · exact Eq.refl _

theorem bind {j j' : Job α} {k k' : α → Job β} (hj : Same j j') (hk : ∀ a, Same (k a) (k' a)) :
    Same (j >>= k) (j' >>= k') :=
  hj.bindOf (.any j) fun a _ => hk a

theorem ite {c : Prop} [Decidable c] {j j' k k' : Job α} (hj : Same j j') (hk : Same k k') :
    Same (if c then j else k) (if c then j' else k') := by
  split
  · exact hj
  · exact hk

theorem attempt {j j' : Job α} (h : Same j j') : Same (Job.attempt j) (Job.attempt j') := by
  intro w
  rw [World.runJob_attempt, World.runJob_attempt, h w]

theorem atomicIf {j j' : Job α} (h : Same j j') (wanted : Bool) (database : String) :
    Same (Job.atomicIf wanted database j) (Job.atomicIf wanted database j') := by
  cases wanted with
  | false => exact h
  | true => exact bind rfl fun _ => bind h.attempt fun _ => rfl

theorem forM {f f' : α → Job PUnit} {l : List α} (h : ∀ a ∈ l, Same (f a) (f' a)) :
    Same (l.forM f) (l.forM f') := by
  induction l with
  | nil => exact rfl
  | cons a rest ih =>
      exact bind (h a List.mem_cons_self) fun _ => ih fun x hx => h x (List.mem_cons_of_mem _ hx)

theorem mapM {f f' : α → Job β} {l : List α} (h : ∀ a ∈ l, Same (f a) (f' a)) :
    Same (l.mapM f) (l.mapM f') := by
  induction l with
  | nil => exact rfl
  | cons a rest ih =>
      rw [List.mapM_cons, List.mapM_cons]
      refine bind (h a List.mem_cons_self) fun b => ?_
      exact bind (ih fun x hx => h x (List.mem_cons_of_mem _ hx)) fun _ => rfl

end Same

/-! ## What jobs are made of -/

/-- A job put together from what is known, the clock, calls of one database that `A` allows, and
transactions on that database. Of what follows a job, only what follows its results matters. -/
inductive Made (database : String) (A : Call → Prop) : {α : Type} → Job α → Prop
  | ofOutcome {α : Type} (r : Outcome α) : Made database A (Job.ofOutcome r)
  | clock : Made database A Job.clock
  | ask {c : Call} (allowed : A c) : Made database A (Job.ask database c)
  | attempt {α : Type} {j : Job α} (inner : Made database A j) : Made database A (Job.attempt j)
  | atomic {α : Type} {j : Job α} (inner : Made database A j) : Made database A (Job.atomic database j)
  | bindOf {α β : Type} {P : α → Prop} {j : Job α} {k : α → Job β} (first : Made database A j)
    (returns : Returns P j) (rest : ∀ a, P a → Made database A (k a)) : Made database A (j >>= k)

namespace Made

variable {database : String} {A B : Call → Prop}

theorem pure (a : α) : Made database A (Pure.pure a : Job α) := .ofOutcome (.ok a)

theorem throw (f : Failure) : Made database A (MonadExcept.throw f : Job α) := .ofOutcome (.error f)

theorem bind {j : Job α} {k : α → Job β} (hj : Made database A j) (hk : ∀ a, Made database A (k a)) :
    Made database A (j >>= k) :=
  .bindOf hj (.any j) fun a _ => hk a

theorem ite {c : Prop} [Decidable c] {j k : Job α} (hj : Made database A j) (hk : Made database A k) :
    Made database A (if c then j else k) := by
  split
  · exact hj
  · exact hk

theorem atomicIf (wanted : Bool) {j : Job α} (hj : Made database A j) :
    Made database A (Job.atomicIf wanted database j) := by
  cases wanted with
  | false => exact hj
  | true => exact .atomic hj

theorem forM {f : α → Job PUnit} {l : List α} (h : ∀ a ∈ l, Made database A (f a)) :
    Made database A (l.forM f) := by
  induction l with
  | nil => exact pure _
  | cons a rest ih =>
      refine bind (h a List.mem_cons_self) fun _ => ?_
      exact ih fun x hx => h x (List.mem_cons_of_mem _ hx)

theorem mapM {f : α → Job β} {l : List α} (h : ∀ a ∈ l, Made database A (f a)) :
    Made database A (l.mapM f) := by
  induction l with
  | nil => exact pure _
  | cons a rest ih =>
      rw [List.mapM_cons]
      refine bind (h a List.mem_cons_self) fun b => ?_
      exact bind (ih fun x hx => h x (List.mem_cons_of_mem _ hx)) fun bs => pure _

theorem any (hcount : ∀ qs, A (.count qs)) (qs : Queryset) : Made database A (Job.any database qs) := by
  unfold Job.any
  split
  · exact pure _
  · exact bind (.ask (hcount _)) fun _ => pure _

end Made

/-! ## What jobs keep -/

/-- A relation of worlds that holds of no change and of one change after another, and is kept by the clock
and by transactions on a database. -/
structure Kept (R : World → World → Prop) (database : String) : Prop where
  composes : Composes R
  clock : Keeps R clock
  atomic : ∀ {α : Type} {j : Job α}, Keeps R j → Keeps R (atomic database j)

theorem Kept.atomicIf {R : World → World → Prop} {database : String} (hR : Kept R database) (wanted : Bool)
    {j : Job α} (hj : Keeps R j) : Keeps R (Job.atomicIf wanted database j) := by
  cases wanted with
  | false => exact hj
  | true => exact hR.atomic hj

/-- A job keeps what its calls keep. -/
theorem Made.keeps {R : World → World → Prop} {database : String} {A : Call → Prop} (hR : Kept R database)
    (hA : ∀ c, A c → Keeps R (Job.ask database c)) {j : Job α} (h : Made database A j) :
    Keeps R j := by
  have hC := hR.composes
  induction h with
  | ofOutcome r => exact .ofOutcome hC r
  | clock => exact hR.clock
  | ask allowed => exact hA _ allowed
  | attempt _ ih => exact .attempt ih
  | atomic _ ih => exact hR.atomic ih
  | @bindOf α β P j k _ returns _ ih ihrest =>
      intro w
      rw [World.runJob_bind]
      split
      · rename_i a ha
        exact hC.trans (ih w) (ihrest a (returns w a ha) _)
      · exact ih w

end RecordMapper.Job
