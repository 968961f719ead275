import Mathlib.Data.List.Forall2
import RecordMapper.Registry.Build
import RecordMapper.Proofs.Outcomes

/-!
# Registry — what a built registry is made of

A registry that was built holds one model for each declaration, in the
order of the declarations, under distinct names. A model has the name,
the parent and the settled fields of its declaration, and the other
sides of exactly those relations that lead to it.
-/

namespace RecordMapper.Registry

/-! ## Names without repetition -/

theorem repeated?_eq_none {seen names : List String} (h : repeated? seen names = none) :
    names.Nodup ∧ ∀ n ∈ names, n ∉ seen := by
  induction names generalizing seen with
  | nil => simp
  | cons n rest ih =>
      simp only [repeated?] at h
      split at h
      · cases h
      · rename_i hn
        obtain ⟨hnd, hout⟩ := ih h
        have hmem : n ∉ rest := fun hr => hout n hr List.mem_cons_self
        refine ⟨List.nodup_cons.mpr ⟨hmem, hnd⟩, ?_⟩
        intro x hx
        rcases List.mem_cons.mp hx with rfl | hx
        · simpa using hn
        · exact fun hs => hout x hx (List.mem_cons_of_mem _ hs)

/-! ## The other sides of relations -/

/-- A model with the other sides of relations hung on it that lead to it. -/
def hung (sides : List (String × Field)) (m : Model) : Model :=
  { m with reverse := m.reverse ++ (sides.filter fun s => s.1 == m.name).map Prod.snd }

@[simp] theorem hung_name (sides : List (String × Field)) (m : Model) : (hung sides m).name = m.name :=
  rfl

theorem hung_nil (m : Model) : hung [] m = m := by simp [hung]

theorem hung_cons (side : String × Field) (sides : List (String × Field)) (m : Model) :
    hung (side :: sides) m = hung sides (hung [side] m) := by
  by_cases h : side.1 = m.name <;> simp [hung, h]

theorem attach_eq_ok {models models' : List Model} {target : String} {f : Field}
    (h : attach models target f = .ok models') : models' = models.map (hung [(target, f)]) := by
  unfold attach at h
  split at h
  · rename_i hnone
    cases h
    have hid : ∀ m ∈ models, hung [(target, f)] m = m := by
      intro m hm
      have hne : ¬ target = m.name := fun he => by
        have := List.find?_eq_none.mp hnone m hm
        simp [he] at this
      simp [hung, hne]
    exact (List.map_congr_left hid).trans (List.map_id _) |>.symm
  · split at h
    · cases h
    · cases h
      refine List.map_congr_left fun m _ => ?_
      by_cases hm : m.name = target
      · rw [if_pos (by simpa using hm), hung]
        simp [hm]
      · rw [if_neg (by simpa using hm), hung]
        simp [Ne.symm hm]

theorem foldlM_attach_eq_ok {sides : List (String × Field)} {models models' : List Model}
    (h : sides.foldlM (fun models s => attach models s.1 s.2) models = .ok models') :
    models' = models.map (hung sides) := by
  induction sides generalizing models with
  | nil =>
      cases h
      exact ((List.map_congr_left fun m _ => hung_nil m).trans (List.map_id _)).symm
  | cons s rest ih =>
      rw [List.foldlM_cons, Outcome.bind_eq_ok] at h
      obtain ⟨middle, hm, hrest⟩ := h
      rw [ih hrest, attach_eq_ok hm, List.map_map]
      exact List.map_congr_left fun m _ => (hung_cons s rest m).symm

/-! ## The build -/

/-- What the build of a registry from declarations settles. `settled` holds for each declaration its
model before the other sides of relations are hung on it, and the other sides of its own relations. -/
structure BuiltFrom (decls : List ModelDecl) (settled : List (Model × List (String × Field)))
    (reg : Registry) : Prop where
  names : (decls.map ModelDecl.name).Nodup
  parents : ∀ d ∈ decls, ∀ p, d.parent = some p → (declOf? decls p).isSome
  settles : List.Forall₂ (fun d s => ∃ key, keyName decls d = .ok key ∧ settleModel decls d key = .ok s)
    decls settled
  models : reg.models = settled.map fun s => hung (settled.flatMap Prod.snd) s.1
  links : ∀ m ∈ reg.models, ∀ f ∈ m.own, reg.checkThrough m f = .ok ()

private theorem forall₂_zip {α β γ : Type} {P : α → β → Prop} {Q : α × β → γ → Prop} {as : List α}
    {bs : List β} {cs : List γ} (h : List.Forall₂ P as bs) (h' : List.Forall₂ Q (as.zip bs) cs) :
    List.Forall₂ (fun a c => ∃ b, P a b ∧ Q (a, b) c) as cs := by
  induction h generalizing cs with
  | nil =>
      cases h'
      exact .nil
  | cons hab _ ih =>
      cases h' with
      | cons hq hrest => exact .cons ⟨_, hab, hq⟩ (ih hrest)

/-- A build goes through all its steps, the last change being that the other sides are hung up one by one. -/
theorem attached_of_build {decls : List ModelDecl} {reg : Registry} (h : Registry.build decls = .ok reg) :
    ∃ settled, BuiltFrom decls settled reg ∧
      (settled.flatMap Prod.snd).foldlM (fun models s => attach models s.1 s.2) (settled.map Prod.fst) =
        .ok reg.models := by
  unfold Registry.build at h
  simp only [] at h
  split at h
  · cases h
  · rename_i hrep
    obtain ⟨_, hparents, h⟩ := Outcome.bind_eq_ok.mp h
    obtain ⟨keys, hkeys, h⟩ := Outcome.bind_eq_ok.mp h
    obtain ⟨settled, hsettled, h⟩ := Outcome.bind_eq_ok.mp h
    obtain ⟨models, hmodels, h⟩ := Outcome.bind_eq_ok.mp h
    obtain ⟨_, hlinks, h⟩ := Outcome.bind_eq_ok.mp h
    cases h
    have hnone : repeated? [] (decls.map ModelDecl.name) = none := by
      cases hr : repeated? [] (decls.map ModelDecl.name) with
      | none => rfl
      | some n => exact absurd hr (hrep n)
    refine ⟨settled, ⟨(repeated?_eq_none hnone).1, ?_,
      forall₂_zip (Outcome.mapM_eq_ok.mp hkeys) (Outcome.mapM_eq_ok.mp hsettled), ?_, ?_⟩, hmodels⟩
    · -- The first loop looked every parent up among the declarations.
      intro d hd p hp
      have hbody := Outcome.forIn_eq_ok (fun a s hs => ?_) hparents d hd
      · rw [hp] at hbody
        simp only [] at hbody
        split at hbody
        · cases hbody
        · rename_i hsome
          exact Option.isSome_iff_ne_none.mpr (by simpa using hsome)
      · split at hs
        · split at hs <;> cases hs
          rfl
        · cases hs
          rfl
    · rw [foldlM_attach_eq_ok hmodels, List.map_map]
      rfl
    · -- The last one checked every declared field, model by model.
      intro m hm f hf
      have houter := Outcome.forIn_eq_ok (fun a s hs => ?_) hlinks m hm
      · obtain ⟨_, hinner, _⟩ := Outcome.bind_eq_ok.mp houter
        have hbody := Outcome.forIn_eq_ok (fun a s hs => ?_) hinner f hf
        · obtain ⟨_, hcheck, _⟩ := Outcome.bind_eq_ok.mp hbody
          exact hcheck
        · obtain ⟨_, _, hs⟩ := Outcome.bind_eq_ok.mp hs
          cases hs
          rfl
      · obtain ⟨_, _, hs⟩ := Outcome.bind_eq_ok.mp hs
        cases hs
        rfl

theorem builtFrom_of_build {decls : List ModelDecl} {reg : Registry}
    (h : Registry.build decls = .ok reg) : ∃ settled, BuiltFrom decls settled reg :=
  (attached_of_build h).imp fun _ hb => hb.1

theorem settleModel_eq_ok {decls : List ModelDecl} {d : ModelDecl} {key : String}
    {s : Model × List (String × Field)} :
    settleModel decls d key = .ok s ↔ ∃ fields, d.fields.mapM (settleField decls d.name) = .ok fields ∧
      s = (⟨d.name, d.parent, key, fields.map Prod.fst, []⟩, fields.filterMap Prod.snd) := by
  rw [settleModel, Outcome.bind_eq_ok]
  constructor
  · rintro ⟨fields, hf, h⟩
    cases h
    exact ⟨fields, hf, rfl⟩
  · rintro ⟨fields, hf, rfl⟩
    exact ⟨fields, hf, rfl⟩

namespace BuiltFrom

variable {decls : List ModelDecl} {settled : List (Model × List (String × Field))} {reg : Registry}

/-- Models stand beside their declarations. -/
theorem forall₂ (h : BuiltFrom decls settled reg) :
    List.Forall₂ (fun d m => m.name = d.name ∧ m.parent = d.parent ∧ keyName decls d = .ok m.pkName ∧
      ∃ fields, d.fields.mapM (settleField decls d.name) = .ok fields ∧ m.own = fields.map Prod.fst)
      decls reg.models := by
  rw [h.models, List.forall₂_map_right_iff]
  refine h.settles.imp ?_
  rintro d s ⟨key, hkey, hs⟩
  obtain ⟨fields, hfields, rfl⟩ := settleModel_eq_ok.mp hs
  exact ⟨rfl, rfl, hkey, fields, hfields, rfl⟩

theorem names_eq (h : BuiltFrom decls settled reg) :
    reg.models.map Model.name = decls.map ModelDecl.name := by
  have hall : List.Forall₂ (· = ·) (decls.map ModelDecl.name) (reg.models.map Model.name) := by
    rw [List.forall₂_map_left_iff, List.forall₂_map_right_iff]
    exact h.forall₂.imp fun _ _ hdm => hdm.1.symm
  rw [List.forall₂_eq_eq_eq] at hall
  exact hall.symm

theorem length_eq (h : BuiltFrom decls settled reg) : reg.models.length = decls.length :=
  h.forall₂.length_eq.symm

private theorem find?_of_forall₂ {α β : Type} {R : α → β → Prop} {p : α → Bool} {q : β → Bool}
    (hpq : ∀ a b, R a b → p a = q b) {as : List α} {bs : List β} (h : List.Forall₂ R as bs) {a : α}
    (ha : as.find? p = some a) : ∃ b, bs.find? q = some b ∧ R a b := by
  induction h with
  | nil => cases ha
  | @cons x y _ _ hxy _ ih =>
      cases hp : p x with
      | true =>
          rw [List.find?_cons_of_pos hp] at ha
          cases ha
          exact ⟨y, List.find?_cons_of_pos (hpq _ y hxy ▸ hp), hxy⟩
      | false =>
          rw [List.find?_cons_of_neg (by simp [hp])] at ha
          obtain ⟨b, hb, hab⟩ := ih ha
          exact ⟨b, by rw [List.find?_cons_of_neg (by simp [← hpq x y hxy, hp])]; exact hb, hab⟩

/-- A name that is declared is registered, with the parent of its declaration. -/
theorem find?_of_declOf? (h : BuiltFrom decls settled reg) {name : String} {d : ModelDecl}
    (hd : declOf? decls name = some d) : ∃ m, reg.find? name = some m ∧ m.parent = d.parent := by
  obtain ⟨m, hm, hdm⟩ := find?_of_forall₂ (q := fun m => m.name == name)
    (fun d m hdm => by rw [hdm.1]) h.forall₂ hd
  exact ⟨m, hm, hdm.2.1⟩

/-- A name that is declared is registered, with the primary key of its declaration. -/
theorem keyName_of_declOf? (h : BuiltFrom decls settled reg) {name : String} {d : ModelDecl}
    (hd : declOf? decls name = some d) :
    ∃ m, reg.find? name = some m ∧ keyName decls d = .ok m.pkName := by
  obtain ⟨m, hm, hdm⟩ := find?_of_forall₂ (q := fun m => m.name == name)
    (fun d m hdm => by rw [hdm.1]) h.forall₂ hd
  exact ⟨m, hm, hdm.2.2.1⟩

/-- A model stands for a declaration whose primary key has a name. -/
theorem exists_decl (h : BuiltFrom decls settled reg) {m : Model} (hm : m ∈ reg.models) :
    ∃ d ∈ decls, m.name = d.name ∧ m.parent = d.parent ∧ keyName decls d = .ok m.pkName := by
  obtain ⟨i, hi, rfl⟩ := List.getElem_of_mem hm
  obtain ⟨hname, hparent, hkey, _⟩ := h.forall₂.get (by rw [h.length_eq] at hi; exact hi) hi
  exact ⟨_, List.getElem_mem _, hname, hparent, hkey⟩

theorem nodup_names (h : BuiltFrom decls settled reg) : (reg.models.map Model.name).Nodup :=
  h.names_eq ▸ h.names

end BuiltFrom

end RecordMapper.Registry
