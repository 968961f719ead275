import Mathlib.Data.List.Forall2
import RecordMapper.Proofs.Steps.Joined
import RecordMapper.Proofs.Steps.Twins

/-!
# Within — jobs that run as parts of others

Polled often enough, a computation has come to what is left of it
(`Reaches`). A job runs within another one in a world (`Runs`) where what
is left of that one begins with it. The first of two jobs, the one that
follows its success, what is attempted and what stands in a transaction
are such parts, and parts of parts are parts. What a part yields there is
told by `Yields`.
-/

namespace RecordMapper.World

open Job

variable {α β γ : Type} {w w' w₁ w₂ : World}

/-! ## What is left of a computation -/

/-- From one world on a computation comes to another world and to what is left of it there. -/
inductive Reaches : World → Steps α → World → Steps α → Prop
  | refl {w : World} {s : Steps α} : Reaches w s w s
  | poll {w w' : World} {s s' : Steps α} (rest : Reaches (run s.poll w).2 (run s.poll w).1 w' s') :
    Reaches w s w' s'

namespace Reaches

variable {s s' s'' : Steps α}

theorem trans (h : Reaches w s w' s') (h' : Reaches w' s' w₁ s'') : Reaches w s w₁ s'' := by
  induction h with
  | refl => exact h'
  | poll _ ih => exact .poll (ih h')

/-- What is to follow a computation waits while it goes on. -/
theorem bind (h : Reaches w s w' s') (f : α → Steps β) : Reaches w (s.bind f) w' (s'.bind f) := by
  induction h with
  | refl => exact .refl
  | @poll _ _ s _ _ ih =>
      cases s with
      | done a => exact ih
      | ask database c next => exact .poll ih
      | clock next => exact .poll ih

/-- A computation comes to its end. -/
theorem run (s : Steps α) (w : World) : Reaches w s (World.run s w).2 (.done (World.run s w).1) := by
  induction s generalizing w with
  | done a => exact .refl
  | ask database c next ih => exact .poll (ih _ _)
  | clock next ih => exact .poll (ih _ _)

theorem registry (h : Reaches w s w' s') : w'.registry = w.registry := by
  induction h with
  | refl => rfl
  | @poll w _ s _ _ ih => exact ih.trans (registry_run s.poll w)

end Reaches

/-! ## Parts of jobs -/

/-- While a job runs from one world on, another one runs from another world on as a part of it: what is left of
the former begins with the latter there. -/
def Runs (w : World) (j : Job α) (w₁ : World) (k : Job β) : Prop :=
  ∃ rest : Outcome β → Steps (Outcome α), Reaches w j.run w₁ (k.run.bind rest)

namespace Runs

variable {j : Job α} {k : Job β} {l : Job γ} {next : α → Job β}

theorem refl (w : World) (j : Job α) : w.Runs j w j := ⟨.done, by rw [Steps.bind_done]; exact .refl⟩

theorem trans (h : w.Runs j w₁ k) (h' : w₁.Runs k w₂ l) : w.Runs j w₂ l := by
  obtain ⟨rest, h⟩ := h
  obtain ⟨more, h'⟩ := h'
  refine ⟨fun r => (more r).bind rest, h.trans ?_⟩
  rw [← Steps.bind_bind]
  exact h'.bind rest

theorem registry (h : w.Runs j w₁ k) : w₁.registry = w.registry := h.elim fun _ h => h.registry

/-- Of two jobs the first one runs. -/
theorem first (w : World) (j : Job α) (next : α → Job β) : w.Runs (j >>= next) w j := ⟨_, .refl⟩

/-- After a success the job runs that follows it. -/
theorem second {a : α} (h : (w.runJob j).1 = .ok a) (next : α → Job β) :
    w.Runs (j >>= next) (w.runJob j).2 (next a) := by
  refine ⟨.done, ?_⟩
  have hrest := (Reaches.run j.run w).bind (ExceptT.bindCont next)
  have hdone : (Steps.done (World.run j.run w).1).bind (ExceptT.bindCont next) = (next a).run := by
    show ExceptT.bindCont next (w.runJob j).1 = _
    rw [h]
    rfl
  rw [hdone] at hrest
  rw [Steps.bind_done]
  exact hrest

theorem attempt (w : World) (j : Job α) : w.Runs (Job.attempt j) w j := ⟨_, .refl⟩

/-- What is attempted, and must succeed for the rest to do so, succeeds. -/
theorem attempted {next : Outcome α → Job β} {b : β} (herror : ∀ f (w : World), (w.runJob (next (.error f))).1 ≠ .ok b)
    (h : (w.runJob (Job.attempt j >>= next)).1 = .ok b) :
    w.Runs (Job.attempt j >>= next) w j ∧ ∃ a, (w.runJob j).1 = .ok a ∧
      w.runJob (Job.attempt j >>= next) = (w.runJob j).2.runJob (next (.ok a)) := by
  refine ⟨(first w _ next).trans (attempt w j), ?_⟩
  have hnext : w.runJob (Job.attempt j >>= next) = (w.runJob j).2.runJob (next (w.runJob j).1) := by
    rw [runJob_bind, runJob_attempt]
  rw [hnext] at h ⊢
  cases hj : (w.runJob j).1 with
  | ok a => exact ⟨a, rfl, rfl⟩
  | error f =>
      rw [hj] at h
      exact absurd h (herror f _)

/-- A job in a transaction runs on the store before it and leaves the store after it, if the transaction is
closed. -/
theorem atomicIf {database : String} (wanted : Bool) (hj : Job.Keeps (Confined database) j) {a : α}
    (h : (w.runJob (Job.atomicIf wanted database j)).1 = .ok a) :
    ∃ w₁, w.Runs (Job.atomicIf wanted database j) w₁ j ∧ (w₁.runJob j).1 = .ok a ∧
      (w₁.database database).store = (w.database database).store ∧
      ((w.runJob (Job.atomicIf wanted database j)).2.database database).store =
        ((w₁.runJob j).2.database database).store := by
  cases wanted with
  | false => exact ⟨w, .refl w j, h, rfl, rfl⟩
  | true =>
      have h : (w.runJob (Job.atomic database j)).1 = .ok a := h
      by_cases hknown : database ∈ w.databases.map Prod.fst
      · have hbegun : (w.runJob (Job.ask database .begin)).1 = .ok () := by
          rw [runJob_ask, perform_known hknown]
          rfl
        refine ⟨(w.perform database .begin).2, (second hbegun _).trans ((first _ _ _).trans (attempt _ j)), ?_⟩
        cases hr : ((w.perform database .begin).2.runJob j).1 with
        | ok b =>
            have hrun := runJob_atomic_ok hj hknown hr
            rw [hrun] at h
            refine ⟨h, store_perform_boundary (.inl rfl) w _, ?_⟩
            show ((w.runJob (Job.atomic database j)).2.database database).store = _
            rw [hrun]
            exact store_perform_boundary (.inr rfl) _ _
        | error f =>
            rw [runJob_atomic_error hknown hr] at h
            cases h
      · rw [runJob_atomic_unknown hknown] at h
        cases h

/-- Of jobs for the items of a list, one after another, each one runs and is followed by the jobs for the items
behind its own. -/
theorem forM {f : β → Job PUnit} {front back : List β} {x : β} {u : PUnit}
    (h : (w.runJob ((front ++ x :: back).forM f)).1 = .ok u) :
    ∃ w₁, w.Runs ((front ++ x :: back).forM f) w₁ (f x) ∧ (w₁.runJob (f x)).1 = .ok u ∧
      w.runJob ((front ++ x :: back).forM f) = (w₁.runJob (f x)).2.runJob (back.forM f) := by
  induction front generalizing w with
  | nil =>
      rw [List.nil_append, List.forM_eq_forM, List.forM_cons] at h ⊢
      obtain ⟨⟨⟩, hx, _⟩ := runJob_bind_eq_ok h
      exact ⟨w, first _ _ _, hx, runJob_bind_ok hx _⟩
  | cons y front ih =>
      rw [List.cons_append, List.forM_eq_forM, List.forM_cons] at h ⊢
      obtain ⟨⟨⟩, hy, hrest⟩ := runJob_bind_eq_ok h
      obtain ⟨w₁, hruns, hx, hback⟩ := ih hrest
      exact ⟨w₁, (second hy _).trans hruns, hx, (runJob_bind_ok hy _).trans hback⟩

end Runs

/-! ## What parts yield -/

/-- While a job runs, another one runs as a part of it and yields a result. -/
def Yields (w : World) (j : Job α) (k : Job β) (b : β) : Prop :=
  ∃ w₁, w.Runs j w₁ k ∧ (w₁.runJob k).1 = .ok b

namespace Yields

variable {j : Job α} {k : Job β} {l : Job γ}

theorem of_runs {c : γ} (h : w.Runs j w₁ k) (hyields : w₁.Yields k l c) : w.Yields j l c := by
  obtain ⟨w₂, hruns, hc⟩ := hyields
  exact ⟨w₂, h.trans hruns, hc⟩

/-- Of two jobs the first one yields what the second one is given. -/
theorem of_bind {next : β → Job γ} {c : γ} (h : w.Yields j (k >>= next) c) :
    ∃ b, w.Yields j k b ∧ ∃ w₂ : World, (w₂.runJob (next b)).1 = .ok c := by
  obtain ⟨w₁, hruns, hc⟩ := h
  obtain ⟨b, hb, hc⟩ := runJob_bind_eq_ok hc
  exact ⟨b, ⟨w₁, hruns.trans (.first _ _ _), hb⟩, _, hc⟩

/-- Jobs for the items of a list yield their results item by item. -/
theorem mapM {f : α → Job β} {items : List α} {results : List β} (h : (w.runJob (items.mapM f)).1 = .ok results) :
    List.Forall₂ (fun a b => w.Yields (items.mapM f) (f a) b) items results := by
  induction items generalizing w results with
  | nil =>
      cases h
      exact .nil
  | cons x rest ih =>
      rw [List.mapM_cons] at h ⊢
      obtain ⟨b, hb, h⟩ := runJob_bind_eq_ok h
      obtain ⟨bs, hbs, h⟩ := runJob_bind_eq_ok h
      cases h
      refine .cons ⟨w, .first _ _ _, hb⟩ ((ih hbs).imp fun a b hyields => ?_)
      exact of_runs ((Runs.second hb _).trans (.first _ _ _)) hyields

end Yields

end RecordMapper.World
