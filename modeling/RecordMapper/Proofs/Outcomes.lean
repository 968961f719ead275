import Mathlib.Data.List.Forall2
import Mathlib.Data.List.Perm.Basic
import RecordMapper.Failure

/-!
# Outcomes — what a computation that succeeded went through

A sequence of steps that may fail succeeds when every step does. The
laws here take such a success apart: a bind into its two halves, a walk
over a list into one success for each element.
-/

namespace RecordMapper.Outcome

variable {α β γ : Type}

@[simp] theorem pure_eq_ok (a : α) : (pure a : Outcome α) = .ok a := rfl

@[simp] theorem ok_bind (a : α) (f : α → Outcome β) : ((Except.ok a : Outcome α) >>= f) = f a := rfl

@[simp] theorem error_bind (e : Failure) (f : α → Outcome β) :
    ((Except.error e : Outcome α) >>= f) = .error e := rfl

@[simp] theorem map_ok (f : α → β) (a : α) : Except.map f (.ok a : Outcome α) = .ok (f a) := rfl

@[simp] theorem map_error (f : α → β) (e : Failure) :
    Except.map f (.error e : Outcome α) = .error e := rfl

theorem bind_eq_ok {x : Outcome α} {f : α → Outcome β} {b : β} :
    (x >>= f) = .ok b ↔ ∃ a, x = .ok a ∧ f a = .ok b := by
  cases x with
  | ok a => simp
  | error e => simp

theorem map_eq_ok {x : Outcome α} {f : α → β} {b : β} :
    x.map f = .ok b ↔ ∃ a, x = .ok a ∧ f a = b := by
  cases x with
  | ok a => simp
  | error e => simp

/-- What is made of a result fails where the result does. -/
theorem error_of_bind_pure {x : Outcome α} {g : α → β} {f : Failure} (h : (x >>= fun a => pure (g a)) = .error f) :
    x = .error f := by
  cases x with
  | ok a => cases h
  | error e =>
      cases h
      rfl

theorem toOption_eq_some {x : Outcome α} {a : α} : x.toOption = some a ↔ x = .ok a := by
  cases x with
  | ok b => simp [Except.toOption]
  | error e => simp [Except.toOption]

/-! ## Walks over a list -/

theorem forM_eq_ok {f : α → Outcome PUnit} {l : List α} {u : PUnit} :
    l.forM f = .ok u ↔ ∀ a ∈ l, f a = .ok u := by
  induction l with
  | nil => simp
  | cons a rest ih =>
      rw [List.forM_eq_forM, List.forM_cons, bind_eq_ok, ← List.forM_eq_forM, List.forall_mem_cons]
      constructor
      · rintro ⟨v, hv, hrest⟩
        exact ⟨hv, ih.mp hrest⟩
      · rintro ⟨hv, hrest⟩
        exact ⟨u, hv, ih.mpr hrest⟩

/-- A walk that fails has failed at one of the items. -/
theorem exists_of_forM_error {f : α → Outcome PUnit} {l : List α} {e : Failure} (h : l.forM f = .error e) :
    ∃ a ∈ l, f a = .error e := by
  induction l with
  | nil => cases h
  | cons a rest ih =>
      rw [List.forM_eq_forM, List.forM_cons] at h
      cases ha : f a with
      | ok u =>
          rw [ha, ok_bind] at h
          obtain ⟨b, hb, hfails⟩ := ih h
          exact ⟨b, List.mem_cons_of_mem a hb, hfails⟩
      | error e' =>
          rw [ha] at h
          cases h
          exact ⟨a, List.mem_cons_self, ha⟩

theorem mapM_eq_ok {f : α → Outcome β} {l : List α} {bs : List β} :
    l.mapM f = .ok bs ↔ List.Forall₂ (fun a b => f a = .ok b) l bs := by
  induction l generalizing bs with
  | nil => simp [eq_comm]
  | cons a rest ih =>
      rw [List.mapM_cons, bind_eq_ok]
      constructor
      · rintro ⟨b, hb, h⟩
        obtain ⟨cs, hcs, h⟩ := bind_eq_ok.mp h
        cases h
        exact .cons hb (ih.mp hcs)
      · intro h
        cases h with
        | cons hb hrest => exact ⟨_, hb, bind_eq_ok.mpr ⟨_, ih.mpr hrest, rfl⟩⟩

theorem mapM_ok {f : α → Outcome β} {g : α → β} {l : List α} (h : ∀ a ∈ l, f a = .ok (g a)) :
    l.mapM f = .ok (l.map g) := by
  rw [mapM_eq_ok, List.forall₂_map_right_iff, List.forall₂_same]
  exact h

/-- A walk whose every step succeeds succeeds. -/
theorem exists_mapM {f : α → Outcome β} {P : α → β → Prop} {l : List α}
    (h : ∀ a ∈ l, ∃ b, f a = .ok b ∧ P a b) : ∃ bs, l.mapM f = .ok bs ∧ List.Forall₂ P l bs := by
  induction l with
  | nil => exact ⟨[], rfl, .nil⟩
  | cons a rest ih =>
      obtain ⟨b, hb, hP⟩ := h a List.mem_cons_self
      obtain ⟨bs, hbs, hall⟩ := ih fun x hx => h x (List.mem_cons_of_mem a hx)
      exact ⟨b :: bs, mapM_eq_ok.mpr (.cons hb (mapM_eq_ok.mp hbs)), .cons hP hall⟩

theorem mapM_congr {f g : α → Outcome β} {l : List α} (h : ∀ a ∈ l, f a = g a) : l.mapM f = l.mapM g := by
  induction l with
  | nil => rfl
  | cons a rest ih =>
      rw [List.mapM_cons, List.mapM_cons, h a List.mem_cons_self,
        ih fun x hx => h x (List.mem_cons_of_mem a hx)]

/-- Every step of a walk that succeeds has one of its results. -/
theorem exists_of_mapM {f : α → Outcome β} {l : List α} {bs : List β} (h : l.mapM f = .ok bs) {a : α}
    (ha : a ∈ l) : ∃ b ∈ bs, f a = .ok b := by
  obtain ⟨i, hi, rfl⟩ := List.getElem_of_mem ha
  have hall := mapM_eq_ok.mp h
  have hi' : i < bs.length := hall.length_eq ▸ hi
  exact ⟨bs[i], List.getElem_mem hi', hall.get hi hi'⟩

/-- What every success of a step obeys holds along a walk. -/
theorem mapM_forall₂ {f : α → Outcome β} {P : α → β → Prop} {l : List α} {bs : List β}
    (h : l.mapM f = .ok bs) (hP : ∀ a ∈ l, ∀ b, f a = .ok b → P a b) : List.Forall₂ P l bs := by
  rw [mapM_eq_ok] at h
  induction h with
  | nil => exact .nil
  | cons hab _ ih =>
      exact .cons (hP _ List.mem_cons_self _ hab) (ih fun a ha => hP a (List.mem_cons_of_mem _ ha))

/-- Walks over the same elements in another order find the same in another order. -/
theorem mapM_perm {f : α → Outcome β} {l l' : List α} (hp : l.Perm l') {bs : List β}
    (h : l.mapM f = .ok bs) : ∃ bs', l'.mapM f = .ok bs' ∧ bs.Perm bs' := by
  obtain ⟨bs', hbs', hperm⟩ := List.perm_comp_forall₂ hp.symm (mapM_eq_ok.mp h)
  exact ⟨bs', mapM_eq_ok.mpr hbs', hperm.symm⟩

/-- A walk over a part finds what the whole walk finds there. -/
theorem mapM_filter {f : α → Outcome β} {l : List α} {bs : List β} (h : l.mapM f = .ok bs) {p : α → Bool}
    {q : β → Bool} (hq : ∀ a ∈ l, ∀ b, f a = .ok b → q b = p a) :
    (l.filter p).mapM f = .ok (bs.filter q) := by
  rw [mapM_eq_ok] at h ⊢
  induction h with
  | nil => exact .nil
  | @cons a b _ _ hab _ ih =>
      have ih := ih fun x hx => hq x (List.mem_cons_of_mem _ hx)
      rw [List.filter_cons, List.filter_cons, hq a List.mem_cons_self b hab]
      split
      · exact .cons hab ih
      · exact ih

theorem mapM_mem {f : α → Outcome β} {l : List α} {bs : List β} (h : l.mapM f = .ok bs) {b : β}
    (hb : b ∈ bs) : ∃ a ∈ l, f a = .ok b := by
  rw [mapM_eq_ok] at h
  induction h with
  | nil => cases hb
  | cons hab _ ih =>
      rcases List.mem_cons.mp hb with rfl | hb
      · exact ⟨_, List.mem_cons_self, hab⟩
      · obtain ⟨a, ha, h⟩ := ih hb
        exact ⟨a, List.mem_cons_of_mem _ ha, h⟩

/-- A fold whose every step succeeds succeeds. -/
theorem exists_foldlM {f : β → α → Outcome β} {l : List α} (h : ∀ a ∈ l, ∀ b, ∃ b', f b a = .ok b') (b : β) :
    ∃ b', l.foldlM f b = .ok b' := by
  induction l generalizing b with
  | nil => exact ⟨b, rfl⟩
  | cons a rest ih =>
      obtain ⟨next, hnext⟩ := h a List.mem_cons_self b
      rw [List.foldlM_cons, hnext, ok_bind]
      exact ih (fun x hx => h x (List.mem_cons_of_mem a hx)) next

theorem foldlM_congr {f g : β → α → Outcome β} {l : List α} (h : ∀ a ∈ l, ∀ b, f b a = g b a) (b : β) :
    l.foldlM f b = l.foldlM g b := by
  induction l generalizing b with
  | nil => rfl
  | cons a rest ih =>
      rw [List.foldlM_cons, List.foldlM_cons, h a List.mem_cons_self]
      exact congrArg _ (funext (ih fun x hx => h x (List.mem_cons_of_mem a hx)))

theorem foldlM_flatMap {f : β → γ → Outcome β} (g : α → List γ) (l : List α) (b : β) :
    (l.flatMap g).foldlM f b = l.foldlM (fun b a => (g a).foldlM f b) b := by
  induction l generalizing b with
  | nil => rfl
  | cons a rest ih =>
      rw [List.flatMap_cons, List.foldlM_append, List.foldlM_cons]
      exact congrArg _ (funext ih)

/-- A fold whose steps may fail before they are made makes them after all others have not failed. -/
theorem foldlM_map {g : α → Outcome γ} {step : β → γ → β} (l : List α) (b : β) :
    l.foldlM (fun b a => (g a).map (step b)) b = (l.mapM g).map fun cs => cs.foldl step b := by
  induction l generalizing b with
  | nil => rfl
  | cons a rest ih =>
      rw [List.foldlM_cons, List.mapM_cons]
      cases g a with
      | error e => rfl
      | ok c =>
          rw [map_ok, ok_bind, ih, ok_bind]
          cases rest.mapM g <;> rfl

/-- A fold ends where it starts if every step leads back there. -/
theorem foldlM_fixed {f : β → α → Outcome β} {l : List α} {b : β} (h : ∀ a ∈ l, f b a = .ok b) :
    l.foldlM f b = .ok b := by
  induction l with
  | nil => rfl
  | cons a rest ih =>
      rw [List.foldlM_cons, h a List.mem_cons_self, ok_bind]
      exact ih fun x hx => h x (List.mem_cons_of_mem a hx)

/-- What every step of a fold keeps holds at its end. -/
theorem foldlM_keeps {f : β → α → Outcome β} {P : β → Prop} {l : List α} {b b' : β}
    (hstep : ∀ a ∈ l, ∀ b b', P b → f b a = .ok b' → P b') (hb : P b) (h : l.foldlM f b = .ok b') :
    P b' := by
  induction l generalizing b with
  | nil =>
      cases h
      exact hb
  | cons a rest ih =>
      rw [List.foldlM_cons, bind_eq_ok] at h
      obtain ⟨next, hnext, h⟩ := h
      exact ih (fun x hx => hstep x (List.mem_cons_of_mem a hx))
        (hstep a List.mem_cons_self b next hb hnext) h

/-- What one step of a fold brings about and every step keeps holds at its end. -/
theorem foldlM_reaches {f : β → α → Outcome β} {P : β → Prop} {l : List α} {b b' : β}
    (hstep : ∀ a ∈ l, ∀ b b', P b → f b a = .ok b' → P b') {a : α} (ha : a ∈ l)
    (hreach : ∀ b b', f b a = .ok b' → P b') (h : l.foldlM f b = .ok b') : P b' := by
  induction l generalizing b with
  | nil => cases ha
  | cons x rest ih =>
      rw [List.foldlM_cons, bind_eq_ok] at h
      obtain ⟨next, hnext, h⟩ := h
      have hrest : ∀ y ∈ rest, ∀ b b', P b → f b y = .ok b' → P b' := fun y hy =>
        hstep y (List.mem_cons_of_mem x hy)
      rcases List.mem_cons.mp ha with rfl | ha
      · exact foldlM_keeps hrest (hreach b next hnext) h
      · exact ih hrest ha h

/-- A loop that succeeds and never breaks off went through every element. -/
theorem forIn_eq_ok {f : α → PUnit → Outcome (ForInStep PUnit)} {l : List α} {r : PUnit}
    (hf : ∀ a s, f a PUnit.unit = .ok s → s = .yield PUnit.unit)
    (h : forIn l PUnit.unit f = .ok r) : ∀ a ∈ l, f a PUnit.unit = .ok (.yield PUnit.unit) := by
  induction l with
  | nil => simp
  | cons a rest ih =>
      rw [List.forIn_cons, bind_eq_ok] at h
      obtain ⟨s, hs, hrest⟩ := h
      obtain rfl := hf a s hs
      intro b hb
      rcases List.mem_cons.mp hb with rfl | hb
      · exact hs
      · exact ih hrest b hb

private theorem filterAuxM_ok {p : α → Outcome Bool} {l acc kept : List α}
    (h : List.filterAuxM p l acc = .ok kept) :
    ∃ passed : List α, passed.Sublist l ∧ kept = passed.reverse ++ acc := by
  induction l generalizing acc with
  | nil =>
      cases h
      exact ⟨[], .refl _, rfl⟩
  | cons a rest ih =>
      rw [List.filterAuxM, bind_eq_ok] at h
      obtain ⟨b, _, h⟩ := h
      obtain ⟨passed, hsub, hk⟩ := ih h
      cases b with
      | false => exact ⟨passed, hsub.cons a, hk⟩
      | true => exact ⟨a :: passed, hsub.cons_cons a, by simp [hk]⟩

theorem filterM_sublist {p : α → Outcome Bool} {l kept : List α} (h : l.filterM p = .ok kept) :
    kept.Sublist l := by
  rw [List.filterM, bind_eq_ok] at h
  obtain ⟨rev, hrev, h⟩ := h
  obtain ⟨passed, hsub, hk⟩ := filterAuxM_ok hrev
  cases h
  simpa [hk] using hsub

private theorem filterAuxM_mem {p : α → Outcome Bool} {l acc kept : List α}
    (h : List.filterAuxM p l acc = .ok kept) : ∀ a ∈ kept, a ∈ acc ∨ p a = .ok true := by
  induction l generalizing acc with
  | nil =>
      cases h
      exact fun a ha => .inl ha
  | cons x rest ih =>
      rw [List.filterAuxM, bind_eq_ok] at h
      obtain ⟨b, hb, h⟩ := h
      intro a ha
      rcases ih h a ha with ha | ha
      · cases b with
        | false => exact .inl ha
        | true =>
            rcases List.mem_cons.mp ha with rfl | ha
            · exact .inr hb
            · exact .inl ha
      · exact .inr ha

/-- What a filter keeps passed its test. -/
theorem filterM_mem {p : α → Outcome Bool} {l kept : List α} (h : l.filterM p = .ok kept) :
    ∀ a ∈ kept, p a = .ok true := by
  rw [List.filterM, bind_eq_ok] at h
  obtain ⟨rev, hrev, h⟩ := h
  cases h
  intro a ha
  rcases filterAuxM_mem hrev a (List.mem_reverse.mp ha) with hnil | hp
  · cases hnil
  · exact hp

private theorem filterAuxM_of_ok {p : α → Outcome Bool} {q : α → Bool} {l : List α}
    (h : ∀ a ∈ l, p a = .ok (q a)) (acc : List α) :
    List.filterAuxM p l acc = .ok ((l.filter q).reverse ++ acc) := by
  induction l generalizing acc with
  | nil => rfl
  | cons a rest ih =>
      rw [List.filterAuxM, h a List.mem_cons_self, ok_bind,
        ih (fun x hx => h x (List.mem_cons_of_mem _ hx))]
      cases hq : q a <;> simp [hq]

theorem filterM_ok {p : α → Outcome Bool} {q : α → Bool} {l : List α}
    (h : ∀ a ∈ l, p a = .ok (q a)) : l.filterM p = .ok (l.filter q) := by
  rw [List.filterM, filterAuxM_of_ok h, ok_bind]
  simp

private theorem filterAuxM_congr {p p' : α → Outcome Bool} {l : List α} (h : ∀ a ∈ l, p a = p' a) (acc : List α) :
    List.filterAuxM p l acc = List.filterAuxM p' l acc := by
  induction l generalizing acc with
  | nil => rfl
  | cons a rest ih =>
      rw [List.filterAuxM, List.filterAuxM, h a List.mem_cons_self]
      exact congrArg _ (funext fun _ => ih (fun x hx => h x (List.mem_cons_of_mem a hx)) _)

theorem filterM_congr {p p' : α → Outcome Bool} {l : List α} (h : ∀ a ∈ l, p a = p' a) :
    l.filterM p = l.filterM p' := by
  rw [List.filterM, List.filterM, filterAuxM_congr h]

private theorem filterAuxM_all {p : α → Outcome Bool} {l acc kept : List α}
    (h : List.filterAuxM p l acc = .ok kept) : ∀ a ∈ l, ∃ b, p a = .ok b := by
  induction l generalizing acc with
  | nil => exact fun _ ha => absurd ha List.not_mem_nil
  | cons x rest ih =>
      rw [List.filterAuxM, bind_eq_ok] at h
      obtain ⟨b, hb, h⟩ := h
      exact List.forall_mem_cons.mpr ⟨⟨b, hb⟩, ih h⟩

/-- A filter that succeeds tests every element and keeps those that pass. -/
theorem filterM_eq_ok {p : α → Outcome Bool} {l kept : List α} (h : l.filterM p = .ok kept) :
    (∀ a ∈ l, ∃ b, p a = .ok b) ∧ kept = l.filter fun a => (p a).toOption == some true := by
  have hall : ∀ a ∈ l, ∃ b, p a = .ok b := by
    obtain ⟨_, hrev, _⟩ := bind_eq_ok.mp h
    exact filterAuxM_all hrev
  have hkept : l.filterM p = .ok (l.filter fun a => (p a).toOption == some true) :=
    filterM_ok fun a ha => by
      obtain ⟨b, hb⟩ := hall a ha
      rw [hb]
      cases b <;> rfl
  exact ⟨hall, Except.ok.inj (h.symm.trans hkept)⟩

/-! ## Meeting

`Meets Q P r` says that an outcome is a value of which `Q` holds or a
failure of which `P` holds. It is closed under the ways of putting
computations together.
-/

variable {P : Failure → Prop} {Q : α → Prop} {R : β → Prop}

/-- A value of which `Q` holds, or a failure of which `P` holds. -/
def Meets (Q : α → Prop) (P : Failure → Prop) : Outcome α → Prop
  | .ok a => Q a
  | .error f => P f

namespace Meets

theorem imp {Q' : α → Prop} {r : Outcome α} (h : Meets Q P r) (himp : ∀ a, Q a → Q' a) : Meets Q' P r := by
  cases r with
  | ok a => exact himp a h
  | error f => exact h

theorem imp_failure {P' : Failure → Prop} {r : Outcome α} (h : Meets Q P r) (himp : ∀ f, P f → P' f) :
    Meets Q P' r := by
  cases r with
  | ok a => exact h
  | error f => exact himp f h

/-- The value is that of the outcome. -/
theorem self {r : Outcome α} (h : Meets Q P r) : Meets (fun a => r = .ok a) P r := by
  cases r with
  | ok a => rfl
  | error f => exact h

theorem bind {r : Outcome α} {k : α → Outcome β} (h : Meets Q P r) (hk : ∀ a, Q a → Meets R P (k a)) :
    Meets R P (r >>= k) := by
  cases r with
  | ok a => exact hk a h
  | error f => exact h

theorem mapM {g : γ → Outcome α} {l : List γ} (h : ∀ x ∈ l, Meets Q P (g x)) :
    Meets (fun as => ∀ a ∈ as, Q a) P (l.mapM g) := by
  induction l with
  | nil => exact List.forall_mem_nil Q
  | cons x rest ih =>
      rw [List.mapM_cons]
      refine (h x List.mem_cons_self).bind fun a ha => ?_
      refine (ih fun y hy => h y (List.mem_cons_of_mem x hy)).bind fun as has => ?_
      exact List.forall_mem_cons.mpr ⟨ha, has⟩

theorem foldlM {g : α → γ → Outcome α} {l : List γ} (h : ∀ x ∈ l, ∀ a, Q a → Meets Q P (g a x)) {a : α}
    (ha : Q a) : Meets Q P (l.foldlM g a) := by
  induction l generalizing a with
  | nil => exact ha
  | cons x rest ih =>
      rw [List.foldlM_cons]
      exact (h x List.mem_cons_self a ha).bind fun _ hb => ih (fun y hy => h y (List.mem_cons_of_mem x hy)) hb

private theorem filterAuxM {test : γ → Outcome Bool} {l acc : List γ}
    (h : ∀ x ∈ l, Meets (fun _ => True) P (test x)) : Meets (fun _ => True) P (List.filterAuxM test l acc) := by
  induction l generalizing acc with
  | nil => exact trivial
  | cons x rest ih =>
      rw [List.filterAuxM]
      exact (h x List.mem_cons_self).bind fun _ _ => ih fun y hy => h y (List.mem_cons_of_mem x hy)

theorem filterM {test : γ → Outcome Bool} {l : List γ} (h : ∀ x ∈ l, Meets (fun _ => True) P (test x)) :
    Meets (fun _ => True) P (l.filterM test) :=
  (filterAuxM h).bind fun _ _ => trivial

theorem forIn {f : γ → PUnit → Outcome (ForInStep PUnit)} {l : List γ}
    (h : ∀ x ∈ l, Meets (fun _ => True) P (f x PUnit.unit)) : Meets (fun _ => True) P (ForIn.forIn l PUnit.unit f) := by
  induction l with
  | nil => exact trivial
  | cons x rest ih =>
      rw [List.forIn_cons]
      refine (h x List.mem_cons_self).bind fun step _ => ?_
      cases step with
      | done _ => exact trivial
      | yield _ => exact ih fun y hy => h y (List.mem_cons_of_mem x hy)

end Meets

end RecordMapper.Outcome
