import RecordMapper.Steps

/-!
# Running — jobs run piece by piece

Running one computation after another is running the first to its end
and the second in the world it leaves; a job stops at its first failure.
`Keeps R` says that a job always leads to a world that `R` relates to
the one it started in. For a reflexive and transitive `R` all ways of
putting jobs together keep it.
-/

namespace RecordMapper

namespace Steps

variable {α β γ : Type}

theorem bind_done (s : Steps α) : s.bind .done = s := by
  induction s with
  | done a => rfl
  | ask database c next ih => exact congrArg (Steps.ask database c) (funext ih)
  | clock next ih => exact congrArg Steps.clock (funext ih)

theorem bind_bind (s : Steps α) (f : α → Steps β) (g : β → Steps γ) :
    (s.bind f).bind g = s.bind fun a => (f a).bind g := by
  induction s with
  | done a => rfl
  | ask database c next ih => exact congrArg (Steps.ask database c) (funext ih)
  | clock next ih => exact congrArg Steps.clock (funext ih)

instance : LawfulMonad Steps :=
  LawfulMonad.mk' Steps bind_done (fun _ _ => rfl) bind_bind

end Steps

namespace World

variable {α β : Type}

theorem run_bind (s : Steps α) (f : α → Steps β) (w : World) :
    run (s.bind f) w = run (f (run s w).1) (run s w).2 := by
  induction s generalizing w with
  | done a => rfl
  | ask database c next ih => exact ih _ _
  | clock next ih => exact ih _ _

/-! ## Jobs -/

theorem runJob_bind (j : Job α) (k : α → Job β) (w : World) :
    w.runJob (j >>= k) =
      match (w.runJob j).1 with
      | .ok a => (w.runJob j).2.runJob (k a)
      | .error f => (.error f, (w.runJob j).2) := by
  show run (Steps.bind j.run _) w = _
  rw [run_bind]
  show run (ExceptT.bindCont k (w.runJob j).1) (w.runJob j).2 = _
  cases (w.runJob j).1 <;> rfl

theorem runJob_bind_ok {j : Job α} {w : World} {a : α} (h : (w.runJob j).1 = .ok a) (k : α → Job β) :
    w.runJob (j >>= k) = (w.runJob j).2.runJob (k a) := by
  rw [runJob_bind, h]

theorem runJob_bind_error {j : Job α} {w : World} {f : Failure} (h : (w.runJob j).1 = .error f)
    (k : α → Job β) : w.runJob (j >>= k) = (.error f, (w.runJob j).2) := by
  rw [runJob_bind, h]

/-- A job that succeeds in two parts succeeds in both. -/
theorem runJob_bind_eq_ok {j : Job α} {k : α → Job β} {w : World} {b : β} (h : (w.runJob (j >>= k)).1 = .ok b) :
    ∃ a, (w.runJob j).1 = .ok a ∧ ((w.runJob j).2.runJob (k a)).1 = .ok b := by
  rw [runJob_bind] at h
  split at h
  · rename_i a ha
    exact ⟨a, ha, h⟩
  · cases h

/-- A job in two parts succeeds if the first does, and the second after it. -/
theorem exists_runJob_bind {j : Job α} {k : α → Job β} {w : World} (h : ∃ a, (w.runJob j).1 = .ok a)
    (hk : ∀ a, (w.runJob j).1 = .ok a → ∃ b, ((w.runJob j).2.runJob (k a)).1 = .ok b) :
    ∃ b, (w.runJob (j >>= k)).1 = .ok b := by
  obtain ⟨a, ha⟩ := h
  rw [runJob_bind_ok ha]
  exact hk a ha

theorem runJob_forM_ok {g : α → Job PUnit} {w : World} {a : α} {u : PUnit}
    (h : (w.runJob (g a)).1 = .ok u) (rest : List α) :
    w.runJob ((a :: rest).forM g) = (w.runJob (g a)).2.runJob (rest.forM g) := by
  rw [List.forM_eq_forM, List.forM_cons, runJob_bind_ok h]

theorem runJob_forM_error {g : α → Job PUnit} {w : World} {a : α} {f : Failure}
    (h : (w.runJob (g a)).1 = .error f) (rest : List α) :
    w.runJob ((a :: rest).forM g) = (.error f, (w.runJob (g a)).2) := by
  rw [List.forM_eq_forM, List.forM_cons, runJob_bind_error h]

@[simp] theorem runJob_ofOutcome (r : Outcome α) (w : World) : w.runJob (Job.ofOutcome r) = (r, w) := rfl

theorem runJob_ofOutcome_bind {r : Outcome α} {a : α} (h : r = .ok a) (k : α → Job β) (w : World) :
    w.runJob (Job.ofOutcome r >>= k) = w.runJob (k a) := by
  rw [h]
  rfl

theorem runJob_attempt (j : Job α) (w : World) :
    w.runJob (Job.attempt j) = (.ok (w.runJob j).1, (w.runJob j).2) := by
  show run (Steps.bind j.run _) w = _
  rw [run_bind]
  rfl

theorem runJob_ask (database : String) (c : Call) (w : World) :
    w.runJob (Job.ask database c) = w.perform database c := rfl

end World

namespace Job

variable {α β : Type}

/-- A relation of worlds that holds of no change and of one change after another. -/
structure Composes (R : World → World → Prop) : Prop where
  refl : ∀ w, R w w
  trans : ∀ {w w' w''}, R w w' → R w' w'' → R w w''

/-- A job leads from every world to one that `R` relates to it. -/
def Keeps (R : World → World → Prop) (j : Job α) : Prop := ∀ w, R w (w.runJob j).2

namespace Keeps

variable {R : World → World → Prop}

theorem ofOutcome (hR : Composes R) (r : Outcome α) : Keeps R (Job.ofOutcome r) := hR.refl

theorem pure (hR : Composes R) (a : α) : Keeps R (Pure.pure a : Job α) := hR.refl

theorem bind (hR : Composes R) {j : Job α} {k : α → Job β} (hj : Keeps R j)
    (hk : ∀ a, Keeps R (k a)) : Keeps R (j >>= k) := by
  intro w
  rw [World.runJob_bind]
  split
  · rename_i a _
    exact hR.trans (hj w) (hk a _)
  · exact hj w

/-- What is made of a job's result changes nothing more. -/
theorem bind_pure {j : Job α} (hj : Keeps R j) (f : α → β) : Keeps R (j >>= fun a => Pure.pure (f a)) := by
  intro w
  rw [World.runJob_bind]
  split <;> exact hj w

theorem ite {c : Prop} [Decidable c] {j k : Job α} (hj : Keeps R j) (hk : Keeps R k) :
    Keeps R (if c then j else k) := by
  split
  · exact hj
  · exact hk

theorem attempt {j : Job α} (hj : Keeps R j) : Keeps R (Job.attempt j) := by
  intro w
  rw [World.runJob_attempt]
  exact hj w

theorem forM (hR : Composes R) {f : α → Job PUnit} {l : List α} (h : ∀ a ∈ l, Keeps R (f a)) :
    Keeps R (l.forM f) := by
  induction l with
  | nil => exact pure hR _
  | cons a rest ih =>
      refine bind hR (h a List.mem_cons_self) fun _ => ?_
      exact ih fun x hx => h x (List.mem_cons_of_mem _ hx)

theorem mapM (hR : Composes R) {f : α → Job β} {l : List α} (h : ∀ a ∈ l, Keeps R (f a)) :
    Keeps R (l.mapM f) := by
  induction l with
  | nil => exact pure hR _
  | cons a rest ih =>
      rw [List.mapM_cons]
      refine bind hR (h a List.mem_cons_self) fun b => ?_
      exact bind hR (ih fun x hx => h x (List.mem_cons_of_mem _ hx)) fun bs => pure hR _

end Keeps

end Job

end RecordMapper
