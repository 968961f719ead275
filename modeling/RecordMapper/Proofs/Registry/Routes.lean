import RecordMapper.Read.Detach
import RecordMapper.Proofs.Registry.Navigable
import RecordMapper.Text.Dotted

/-!
# Routes — the steps that a path stands for

A path that resolves is a `Route`: steps one behind the other, all but
the last of them relations. Its names find the fields of its steps
(`Spells`). In a navigable registry this is all there is to resolving,
so that a route can be cut, and spelled again with the names of its
fields.
-/

namespace RecordMapper.Registry

/-- Steps from a model, each on the model the relation before it leads to. -/
inductive Route (reg : Registry) : Model → List PathStep → Prop
  | nil (m : Model) : Route reg m []
  | last {m : Model} {f : Field} (hm : m ∈ reg.models) (hf : f ∈ m.localFields) : Route reg m [⟨m, f⟩]
  | cons {m next : Model} {f : Field} {steps : List PathStep} (hm : m ∈ reg.models)
      (hf : f ∈ m.localFields) (hrel : f.isRelation) (hnext : reg.related m f = .ok next)
      (h : Route reg next steps) : Route reg m (⟨m, f⟩ :: steps)

/-- Relations, one behind the other, from a model to another. -/
inductive Leads (reg : Registry) : Model → List PathStep → Model → Prop
  | nil (m : Model) : Leads reg m [] m
  | cons {m next t : Model} {f : Field} {steps : List PathStep} (hm : m ∈ reg.models)
      (hf : f ∈ m.localFields) (hrel : f.isRelation) (hnext : reg.related m f = .ok next)
      (h : Leads reg next steps t) : Leads reg m (⟨m, f⟩ :: steps) t

/-- Names under which the fields of some steps are found. -/
def Spells (reg : Registry) (names : List String) (steps : List PathStep) : Prop :=
  List.Forall₂ (fun name s => reg.field s.model name = .ok s.field) names steps

theorem steps_ne_nil (p : ResolvedPath) : p.steps ≠ [] :=
  List.append_ne_nil_of_right_ne_nil p.before (List.cons_ne_nil p.last [])

theorem mem_of_model {reg : Registry} {name : String} {m : Model} (h : reg.model name = .ok m) :
    m ∈ reg.models := by
  rw [model] at h
  split at h
  · rename_i hfound
    cases h
    exact List.mem_of_find?_eq_some hfound
  · cases h

theorem name_of_model {reg : Registry} {name : String} {m : Model} (h : reg.model name = .ok m) :
    m.name = name := by
  rw [model] at h
  split at h
  · rename_i hfound
    cases h
    simpa using List.find?_some hfound
  · cases h

theorem mem_of_related {reg : Registry} {m t : Model} {f : Field} (h : reg.related m f = .ok t) :
    t ∈ reg.models := by
  rw [related] at h
  split at h
  · exact mem_of_model h
  · cases h

theorem isRelation_of_related {reg : Registry} {m t : Model} {f : Field} (h : reg.related m f = .ok t) :
    f.isRelation := by
  rw [Field.isRelation, FieldType.isRelation]
  rw [related] at h
  split at h
  · rename_i htarget
    rw [htarget]
    rfl
  · cases h

theorem isRelation_of_isMany {f : Field} (h : f.type.isMany) : f.isRelation := by
  unfold Field.isRelation
  cases hft : f.type <;> rw [hft] at h <;> first | rfl | exact absurd h Bool.false_ne_true

/-- The model that a path leads to is the one its last step is related to. -/
theorem related_of_targetModel {reg : Registry} {p : ResolvedPath} {t : Model}
    (h : reg.targetModel p = .ok (some t)) : reg.related p.last.model p.last.field = .ok t := by
  rw [targetModel] at h
  split at h
  · obtain ⟨t', hrelated, hsome⟩ := Outcome.map_eq_ok.mp h
    rw [hrelated, Option.some.inj hsome]
  · cases h

variable {reg : Registry} {m t u : Model} {steps more : List PathStep} {names : List String}

/-! ## Cutting and joining -/

namespace Leads

theorem mem_models (h : Leads reg m steps t) (hm : m ∈ reg.models) : t ∈ reg.models := by
  induction h with
  | nil => exact hm
  | cons _ _ _ hnext _ ih => exact ih (mem_of_related hnext)

theorem append (h : Leads reg m steps t) (h' : Leads reg t more u) : Leads reg m (steps ++ more) u := by
  induction h with
  | nil => exact h'
  | cons hm hf hrel hnext _ ih => exact .cons hm hf hrel hnext (ih h')

theorem route (h : Leads reg m steps t) (h' : Route reg t more) : Route reg m (steps ++ more) := by
  induction h with
  | nil => exact h'
  | cons hm hf hrel hnext _ ih => exact .cons hm hf hrel hnext (ih h')

/-- The last step of a chain leads to its end. -/
theorem related_last {s : PathStep} (h : Leads reg m (steps ++ [s]) t) :
    s.field.isRelation ∧ reg.related s.model s.field = .ok t := by
  generalize hall : steps ++ [s] = all at h
  induction h generalizing steps with
  | nil => exact absurd hall (List.append_ne_nil_of_right_ne_nil _ (List.cons_ne_nil s []))
  | cons _ _ hrel hnext h ih =>
      cases steps with
      | nil =>
          obtain ⟨rfl, rfl⟩ := List.cons.inj hall
          cases h
          exact ⟨hrel, hnext⟩
      | cons s' rest => exact ih (List.cons.inj hall).2

end Leads

namespace Route

theorem mem (h : Route reg m steps) {s : PathStep} (hs : s ∈ steps) :
    s.model ∈ reg.models ∧ s.field ∈ s.model.localFields := by
  induction h with
  | nil => cases hs
  | last hm hf =>
      obtain rfl := List.mem_singleton.mp hs
      exact ⟨hm, hf⟩
  | cons hm hf _ _ _ ih =>
      rcases List.mem_cons.mp hs with rfl | hs
      · exact ⟨hm, hf⟩
      · exact ih hs

/-- A route through relations alone ends on a model where what follows starts. -/
theorem cut (hn : Navigable reg) (h : Route reg m (steps ++ more))
    (hrel : ∀ s ∈ steps, s.field.isRelation) : ∃ t, Leads reg m steps t ∧ Route reg t more := by
  induction steps generalizing m with
  | nil => exact ⟨m, .nil m, h⟩
  | cons s rest ih =>
      have hrest : ∀ s' ∈ rest, s'.field.isRelation := fun s' hs' => hrel s' (List.mem_cons_of_mem s hs')
      generalize hall : s :: rest ++ more = all at h
      cases h with
      | nil => cases hall
      | cons hm hf hsrel hnext h =>
          obtain ⟨rfl, rfl⟩ := List.cons.inj hall
          obtain ⟨t, hleads, hroute⟩ := ih h hrest
          exact ⟨t, .cons hm hf hsrel hnext hleads, hroute⟩
      | last hm hf =>
          obtain ⟨rfl, hnil⟩ := List.cons.inj hall
          obtain ⟨rfl, rfl⟩ := List.append_eq_nil_iff.mp hnil
          have hsrel := hrel _ List.mem_cons_self
          obtain ⟨t, ht, g, _, hrelated, _⟩ := hn.partner hm hf hsrel
          exact ⟨t, .cons hm hf hsrel hrelated (.nil t), .nil t⟩

/-- What has a step behind it is a relation. -/
theorem isRelation (h : Route reg m (steps ++ more)) (hne : more ≠ []) : ∀ s ∈ steps, s.field.isRelation := by
  induction steps generalizing m with
  | nil => simp
  | cons s rest ih =>
      generalize hall : s :: rest ++ more = all at h
      cases h with
      | nil => cases hall
      | last => exact absurd (List.append_eq_nil_iff.mp (List.cons.inj hall).2).2 hne
      | cons _ _ hrel _ h =>
          obtain ⟨rfl, rfl⟩ := List.cons.inj hall
          exact List.forall_mem_cons.mpr ⟨hrel, ih h⟩

/-- A route can be cut behind a to-many step. -/
theorem cut_many {s : PathStep} (hn : Navigable reg) (h : Route reg m (steps ++ [s] ++ more))
    (hmany : s.field.type.isMany) : ∃ t, Leads reg m (steps ++ [s]) t ∧ Route reg t more := by
  have hsteps : ∀ s' ∈ steps, s'.field.isRelation := by
    rw [List.append_assoc] at h
    exact h.isRelation (List.cons_ne_nil s more)
  refine h.cut hn fun s' hs' => ?_
  rcases List.mem_append.mp hs' with hmem | hmem
  · exact hsteps s' hmem
  · rw [List.mem_singleton.mp hmem]
    exact isRelation_of_isMany hmany

end Route

/-! ## Spelling -/

/-- The names of the fields spell a route. -/
theorem Route.spells (hn : Navigable reg) (h : Route reg m steps) :
    Spells reg (steps.map fun s => s.field.name) steps := by
  rw [Spells, List.forall₂_map_left_iff, List.forall₂_same]
  intro s hs
  obtain ⟨hm, hf⟩ := h.mem hs
  exact hn.field_of_mem hm hf

/-- The names of the fields of a route have no dots. -/
theorem Route.not_dotted (hn : Navigable reg) (h : Route reg m steps) :
    ∀ n ∈ steps.map (fun s => s.field.name), '.' ∉ n.toList := by
  intro n hmem
  obtain ⟨s, hs, rfl⟩ := List.mem_map.mp hmem
  obtain ⟨hm, hf⟩ := h.mem hs
  exact (hn.named s.model hm s.field hf).2.2

theorem Spells.cut (h : Spells reg names (steps ++ more)) :
    Spells reg (names.take steps.length) steps ∧ Spells reg (names.drop steps.length) more := by
  have htake := List.forall₂_take steps.length h
  have hdrop := List.forall₂_drop steps.length h
  rw [List.take_left] at htake
  rw [List.drop_left] at hdrop
  exact ⟨htake, hdrop⟩

theorem Spells.ne_empty (hn : Navigable reg) (h : Route reg m steps) (hs : Spells reg names steps) :
    ∀ n ∈ names, n ≠ "" := by
  intro n hmem he
  obtain ⟨i, hi, rfl⟩ := List.getElem_of_mem hmem
  have hi' : i < steps.length := List.Forall₂.length_eq hs ▸ hi
  have hfield := List.Forall₂.get hs hi hi'
  obtain ⟨hm, _⟩ := h.mem (List.getElem_mem hi')
  rw [List.get_eq_getElem, List.get_eq_getElem, he] at hfield
  obtain ⟨hf, hname⟩ := hn.mem_of_field hm hfield
  exact (hn.named _ hm _ hf).1 hname

/-! ## Resolving -/

theorem route_of_resolveNames (hn : Navigable reg) (hm : m ∈ reg.models) {start whole : String}
    {p : ResolvedPath} (h : reg.resolveNames start whole m names = .ok p) :
    Route reg m p.steps ∧ Spells reg names p.steps := by
  induction names generalizing m p with
  | nil => cases h
  | cons name rest ih =>
      cases rest with
      | nil =>
          obtain ⟨f, hf, h⟩ := Outcome.bind_eq_ok.mp h
          cases h
          exact ⟨.last hm (hn.mem_of_field hm hf).1, .cons hf .nil⟩
      | cons name' rest =>
          obtain ⟨f, hf, h⟩ := Outcome.bind_eq_ok.mp h
          split at h
          · rename_i hrel
            obtain ⟨next, hnext, h⟩ := Outcome.bind_eq_ok.mp h
            obtain ⟨tail, htail, h⟩ := Outcome.bind_eq_ok.mp h
            cases h
            obtain ⟨hroute, hspells⟩ := ih (mem_of_related hnext) htail
            exact ⟨.cons hm (hn.mem_of_field hm hf).1 hrel hnext hroute, .cons hf hspells⟩
          · cases h

theorem resolveNames_of_route (start whole : String) {p : ResolvedPath} (h : Route reg m p.steps)
    (hs : Spells reg names p.steps) : reg.resolveNames start whole m names = .ok p := by
  obtain ⟨before, last⟩ := p
  rw [ResolvedPath.steps] at h hs
  induction before generalizing m names with
  | nil =>
      cases hs with
      | cons hf hnil =>
          cases hnil
          cases h <;> rw [resolveNames, hf] <;> rfl
  | cons s rest ih =>
      obtain ⟨name, names, hf, hrest, rfl⟩ := List.forall₂_cons_right_iff.mp hs
      -- The last name is still to come, so this one is a relation.
      have hlong : names ≠ [] := by
        rintro rfl
        exact steps_ne_nil ⟨rest, last⟩ (List.forall₂_nil_left_iff.mp hrest)
      obtain ⟨name', names', rfl⟩ := List.exists_cons_of_ne_nil hlong
      generalize hall : s :: rest ++ [last] = all at h
      cases h with
      | nil => cases hall
      | last =>
          exact absurd (List.cons.inj hall).2 (steps_ne_nil ⟨rest, last⟩)
      | cons hm _ hrel hnext h =>
          obtain ⟨rfl, rfl⟩ := List.cons.inj hall
          rw [resolveNames, hf, Outcome.ok_bind, if_pos hrel, hnext, Outcome.ok_bind, ih h hrest]
          · rfl
          · exact hlong

theorem resolvePath_eq_ok (hn : Navigable reg) (hm : m ∈ reg.models) {path : String} {p : ResolvedPath} :
    reg.resolvePath m path = .ok p ↔ Route reg m p.steps ∧ Spells reg (dottedNames path) p.steps := by
  rw [resolvePath]
  constructor
  · intro h
    split at h
    · cases h
    · exact route_of_resolveNames hn hm h
  · rintro ⟨hroute, hspells⟩
    rw [if_neg]
    · exact resolveNames_of_route m.name path hroute hspells
    · intro hany
      obtain ⟨n, hmem, he⟩ := List.any_eq_true.mp hany
      exact Spells.ne_empty hn hroute hspells n hmem (by simpa using he)

/-- Names joined to a path resolve to the steps they spell. -/
theorem resolvePath_intercalate (hn : Navigable reg) (hm : m ∈ reg.models) {p : ResolvedPath}
    (hroute : Route reg m p.steps) (hspells : Spells reg names p.steps)
    (hdots : ∀ n ∈ names, '.' ∉ n.toList) : reg.resolvePath m (".".intercalate names) = .ok p := by
  have hne : names ≠ [] := by
    rintro rfl
    exact steps_ne_nil p (List.forall₂_nil_left_iff.mp hspells)
  refine (resolvePath_eq_ok hn hm).mpr ⟨hroute, ?_⟩
  rwa [dottedNames_intercalate hne hdots]

theorem targetModel_eq {s : PathStep} {before : List PathStep} (h : Leads reg m (before ++ [s]) t) :
    reg.targetModel ⟨before, s⟩ = .ok (some t) := by
  obtain ⟨hrel, hrelated⟩ := h.related_last
  rw [targetModel, if_pos hrel, hrelated, Outcome.map_ok]

end RecordMapper.Registry
