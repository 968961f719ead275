import RecordMapper.Proofs.Registry.Keys
import RecordMapper.Proofs.Registry.Routes

/-!
# Tracks — names that are found from model to model

A path is followed name by name: each is looked up on the model that the
relation before it leads to. A track is a list of names that are all
found (`Tracks`). A path that resolves is one, and so are the names
behind any of its relations.

The way back over relations goes over their other sides. Each of them
stands on the model that its relation leads to, and leads to the model
that declares the relation. Where that model is an ancestor of the one
the path came through, it does not see what hangs on the latter: the way
back is a track if no relation behind the first is inherited
(`tracks_back`).
-/

namespace RecordMapper

/-- No step of a path behind the first goes over an inherited field. -/
def ResolvedPath.Straight (p : ResolvedPath) : Prop := ∀ s ∈ p.steps.tail, s.field ∈ s.model.localFields

instance (p : ResolvedPath) : Decidable p.Straight :=
  inferInstanceAs (Decidable (∀ s ∈ p.steps.tail, s.field ∈ s.model.localFields))

namespace Registry

/-- Names of relations, each of a field of the model that the one before leads to, and at the end the name of any
field; with the steps they stand for. -/
inductive Tracks (reg : Registry) : Model → List String → List PathStep → Prop
  | last {m : Model} {name : String} {f : Field} (hf : reg.field m name = .ok f) : Tracks reg m [name] [⟨m, f⟩]
  | cons {m next : Model} {name : String} {f : Field} {names : List String} {steps : List PathStep}
      (hf : reg.field m name = .ok f) (hrel : f.isRelation) (hnext : reg.related m f = .ok next)
      (h : Tracks reg next names steps) : Tracks reg m (name :: names) (⟨m, f⟩ :: steps)

/-- A registry in which names tell relations: one that a model has, of its own or from an ancestor, is what its name
means there, the names of relations and of primary keys have no dots, and other sides are declared as such. -/
structure Told (reg : Registry) : Prop where
  relation : ∀ m ∈ reg.models, ∀ level ∈ reg.lineage m, ∀ f ∈ level.localFields, f.isRelation →
    '.' ∉ f.name.toList ∧ reg.field? m f.name = some f
  key : ∀ m ∈ reg.models, '.' ∉ m.pkName.toList
  sides : SidesAreDeclared reg

variable {decls : List ModelDecl} {reg : Registry} {m target level : Model} {names : List String}
  {steps before after back : List PathStep}
  {s : PathStep} {f : Field} {name : String} {p : ResolvedPath} {path : String}

/-! ## Fields that are found -/

theorem fieldName_fieldName (m : Model) (name : String) : m.fieldName (m.fieldName name) = m.fieldName name := by
  unfold Model.fieldName
  by_cases hpk : name = "pk" <;> simp [hpk]

theorem field?_fieldName (m : Model) (name : String) : reg.field? m (m.fieldName name) = reg.field? m name := by
  rw [field?, field?, fieldName_fieldName]

/-- A field is found by its own name as well. -/
theorem field_name (hf : reg.field m name = .ok f) : reg.field m f.name = .ok f := by
  have hfound := field_eq_ok.mp hf
  rwa [field_eq_ok, name_eq_of_field? hfound, field?_fieldName]

/-- A field that is found is that of the model or of an ancestor. -/
theorem exists_level (hf : reg.field? m name = some f) : ∃ level ∈ reg.lineage m, f ∈ level.localFields := by
  obtain ⟨level, hlevel, hfind⟩ := List.exists_of_findSome?_eq_some hf
  exact ⟨level, hlevel, List.mem_of_find?_eq_some hfind⟩

/-- What a field leads to does not depend on the model that it is looked up on. -/
theorem related_eq_ok_of_level (h : reg.related m f = .ok target) : reg.related level f = .ok target := by
  obtain ⟨other, hother⟩ := Option.isSome_iff_exists.mp (isRelation_of_related h)
  rw [related, hother] at h ⊢
  exact h

/-- A name that an ancestor finds is found, and means the relation that it means there, if it means one. -/
theorem exists_field_of_level (hb : Registry.build decls = .ok reg) (htold : Told reg) (hm : m ∈ reg.models)
    (hlevel : level ∈ reg.lineage m) (hf : reg.field level name = .ok f) :
    ∃ f', reg.field m name = .ok f' ∧ (f.isRelation → f' = f) := by
  obtain ⟨settled, hbuilt⟩ := builtFrom_of_build hb
  have hr := hbuilt.rooted
  have hpk : m.fieldName name = level.fieldName name := by
    rw [Model.fieldName, Model.fieldName, hbuilt.pkName_of_mem_lineage hm hlevel]
  have hfound := field_eq_ok.mp hf
  obtain ⟨upper, hupper, hmem⟩ := exists_level hfound
  have hname := name_eq_of_field? hfound
  have hsome : (reg.field? m name).isSome := by
    rw [field?, List.findSome?_isSome_iff]
    refine ⟨upper, hr.lineage_trans hm hlevel hupper, ?_⟩
    rw [List.find?_isSome]
    exact ⟨f, hmem, beq_iff_eq.mpr (hname.trans hpk.symm)⟩
  obtain ⟨f', hf'⟩ := Option.isSome_iff_exists.mp hsome
  refine ⟨f', field_eq_ok.mpr hf', fun hrel => ?_⟩
  have hself := (htold.relation m hm upper (hr.lineage_trans hm hlevel hupper) f hmem hrel).2
  rw [hname, ← hpk, field?_fieldName, hf'] at hself
  exact Option.some.inj hself

/-! ## Paths that resolve -/

theorem tracks_of_resolveNames {start whole : String} (h : reg.resolveNames start whole m names = .ok p) :
    Tracks reg m names p.steps := by
  induction names generalizing m p with
  | nil => cases h
  | cons name rest ih =>
      cases rest with
      | nil =>
          obtain ⟨f, hf, h⟩ := Outcome.bind_eq_ok.mp h
          cases h
          exact .last hf
      | cons next rest =>
          obtain ⟨f, hf, h⟩ := Outcome.bind_eq_ok.mp h
          split at h
          · rename_i hrel
            obtain ⟨next, hnext, h⟩ := Outcome.bind_eq_ok.mp h
            obtain ⟨tail, htail, h⟩ := Outcome.bind_eq_ok.mp h
            cases h
            exact .cons hf hrel hnext (ih htail)
          · cases h

theorem tracks_of_resolvePath (h : reg.resolvePath m path = .ok p) : Tracks reg m (dottedNames path) p.steps := by
  unfold resolvePath at h
  simp only at h
  split at h
  · cases h
  · exact tracks_of_resolveNames h

namespace Tracks

/-- A track can be spelled with the names of its fields. -/
theorem respelled (h : Tracks reg m names steps) : Tracks reg m (steps.map fun s => s.field.name) steps := by
  induction h with
  | last hf => exact .last (field_name hf)
  | cons hf hrel hnext _ ih => exact .cons (field_name hf) hrel hnext ih

/-- Behind a relation of a track there is a track of the model it leads to. -/
theorem behind (h : Tracks reg m names (before ++ [s] ++ after)) (hne : after ≠ [])
    (ht : reg.related s.model s.field = .ok target) : ∃ rest, Tracks reg target rest after := by
  generalize hall : before ++ [s] ++ after = all at h
  induction h generalizing before with
  | last =>
      have hlength := congrArg List.length hall
      have hpos := List.length_pos_iff.mpr hne
      simp only [List.length_append, List.length_singleton] at hlength
      omega
  | @cons m next name f rest steps hf hrel hnext h ih =>
      cases before with
      | nil =>
          obtain ⟨rfl, rfl⟩ := List.cons.inj hall
          obtain rfl : next = target := Except.ok.inj (hnext.symm.trans ht)
          exact ⟨rest, h⟩
      | cons first before => exact ih (List.cons.inj hall).2

/-- A track begins with a field of its model. -/
theorem exists_first (h : Tracks reg m names (s :: steps)) : ∃ name f, reg.field m name = .ok f ∧ s = ⟨m, f⟩ := by
  cases h with
  | last hf => exact ⟨_, _, hf, rfl⟩
  | cons hf => exact ⟨_, _, hf, rfl⟩

/-- Before its end a track goes on over a relation. -/
theorem exists_next (h : Tracks reg m names (s :: steps)) (hne : steps ≠ []) :
    ∃ name f next rest, s = ⟨m, f⟩ ∧ reg.field m name = .ok f ∧ f.isRelation ∧ reg.related m f = .ok next ∧
      Tracks reg next rest steps := by
  cases h with
  | last => exact absurd rfl hne
  | cons hf hrel hnext h => exact ⟨_, _, _, _, rfl, hf, hrel, hnext, h⟩

/-- Up to any of its relations a track is one. -/
theorem front (h : Tracks reg m names (before ++ [s] ++ after)) : ∃ first, Tracks reg m first (before ++ [s]) := by
  induction before generalizing m names with
  | nil =>
      rw [List.nil_append, List.singleton_append] at h
      obtain ⟨name, f, hf, rfl⟩ := h.exists_first
      exact ⟨[name], .last hf⟩
  | cons _ before ih =>
      rw [List.cons_append, List.cons_append] at h
      obtain ⟨name, f, next, rest, rfl, hf, hrel, hnext, h⟩ := h.exists_next (by simp)
      obtain ⟨first, hfirst⟩ := ih h
      exact ⟨name :: first, .cons hf hrel hnext hfirst⟩

/-- The names of the fields of a track have no dots if its names have none. -/
theorem undotted (htold : Told reg) (hm : m ∈ reg.models) (h : Tracks reg m names steps)
    (hdots : ∀ n ∈ names, '.' ∉ n.toList) : ∀ n ∈ steps.map (fun s => s.field.name), '.' ∉ n.toList := by
  have hfield : ∀ {m : Model} {name : String} {f : Field}, m ∈ reg.models → reg.field m name = .ok f →
      '.' ∉ name.toList → '.' ∉ f.name.toList := by
    intro m name f hm hf hdot
    rw [name_eq_of_field? (field_eq_ok.mp hf), Model.fieldName]
    split
    · exact htold.key m hm
    · exact hdot
  induction h with
  | last hf =>
      rw [List.map_singleton, List.forall_mem_singleton]
      exact hfield hm hf (hdots _ List.mem_cons_self)
  | cons hf _ hnext _ ih =>
      rw [List.map_cons, List.forall_mem_cons]
      exact ⟨hfield hm hf (hdots _ List.mem_cons_self),
        ih (mem_of_related hnext) fun n hn => hdots n (List.mem_cons_of_mem _ hn)⟩

/-- The name of its primary key is a track from every model. -/
theorem key (hb : Registry.build decls = .ok reg) (htold : Told reg) (hm : m ∈ reg.models) :
    ∃ steps, Tracks reg m (dottedNames m.pkName) steps := by
  obtain ⟨f, hf⟩ := Option.isSome_iff_exists.mp (exists_keyField_of_build hb hm)
  rw [dottedNames_self (htold.key m hm)]
  exact ⟨_, .last (field_eq_ok.mpr hf)⟩

/-- What is tracked from a model is tracked from those that inherit from it. -/
theorem inherited (hb : Registry.build decls = .ok reg) (htold : Told reg) (hm : m ∈ reg.models)
    (hlevel : level ∈ reg.lineage m) (h : Tracks reg level names steps) : ∃ steps', Tracks reg m names steps' := by
  cases h with
  | last hf =>
      obtain ⟨f', hf', _⟩ := exists_field_of_level hb htold hm hlevel hf
      exact ⟨_, .last hf'⟩
  | cons hf hrel hnext h =>
      obtain ⟨f', hf', hsame⟩ := exists_field_of_level hb htold hm hlevel hf
      obtain rfl := hsame hrel
      exact ⟨_, .cons hf' hrel (related_eq_ok_of_level hnext) h⟩

/-- Without inheritance every step of a track is a field of its own model. -/
theorem mem_localFields (hflat : ∀ m ∈ reg.models, m.parent = none) (hm : m ∈ reg.models)
    (h : Tracks reg m names steps) : ∀ s ∈ steps, s.field ∈ s.model.localFields := by
  have hown : ∀ {m : Model} {name : String} {f : Field}, m ∈ reg.models → reg.field m name = .ok f →
      f ∈ m.localFields := by
    intro m name f hm hf
    obtain ⟨level, hlevel, hmem⟩ := exists_level (field_eq_ok.mp hf)
    rw [reg.lineage_of_top (hflat m hm), List.mem_singleton] at hlevel
    exact hlevel ▸ hmem
  induction h with
  | last hf => exact List.forall_mem_singleton.mpr (hown hm hf)
  | cons hf _ hnext _ ih => exact List.forall_mem_cons.mpr ⟨hown hm hf, ih (mem_of_related hnext)⟩

/-- A track of relations that no model inherits is a chain of relations. -/
theorem leads (hm : m ∈ reg.models) (h : Tracks reg m names (before ++ [s]))
    (hown : ∀ s' ∈ before ++ [s], s'.field ∈ s'.model.localFields)
    (ht : reg.related s.model s.field = .ok target) : Leads reg m (before ++ [s]) target := by
  induction before generalizing m names with
  | nil =>
      rw [List.nil_append] at h hown ⊢
      obtain ⟨_, f, hf, rfl⟩ := h.exists_first
      exact .cons hm (hown _ List.mem_cons_self) (isRelation_of_related ht) ht (.nil target)
  | cons _ before ih =>
      rw [List.cons_append] at h hown ⊢
      obtain ⟨_, f, next, _, rfl, hf, hrel, hnext, h⟩ := h.exists_next (by simp)
      exact .cons hm (hown _ List.mem_cons_self) hrel hnext
        (ih (mem_of_related hnext) h fun s' hs' => hown s' (List.mem_cons_of_mem _ hs'))

/-- Relations of a track are a chain from the model that declares the first one, if no model inherits the others. -/
theorem exists_leads (hr : Rooted reg) (hm : m ∈ reg.models) (h : Tracks reg m names (before ++ [s]))
    (hown : ∀ s' ∈ (before ++ [s]).tail, s'.field ∈ s'.model.localFields)
    (ht : reg.related s.model s.field = .ok target) :
    ∃ level chain, Leads reg level chain target ∧
      chain.map PathStep.field = (before ++ [s]).map PathStep.field := by
  cases before with
  | nil =>
      rw [List.nil_append] at h
      obtain ⟨_, f, hf, rfl⟩ := h.exists_first
      obtain ⟨level, hlevel, hmem⟩ := exists_level (field_eq_ok.mp hf)
      exact ⟨level, [⟨level, f⟩], .cons (hr.mem_models hm hlevel) hmem (isRelation_of_related ht)
        (related_eq_ok_of_level ht) (.nil target), rfl⟩
  | cons _ before =>
      rw [List.cons_append] at h hown
      obtain ⟨_, f, next, _, rfl, hf, hrel, hnext, h⟩ := h.exists_next (by simp)
      obtain ⟨level, hlevel, hmem⟩ := exists_level (field_eq_ok.mp hf)
      exact ⟨level, ⟨level, f⟩ :: (before ++ [s]), .cons (hr.mem_models hm hlevel) hmem hrel
        (related_eq_ok_of_level hnext) (h.leads (mem_of_related hnext) hown ht), rfl⟩

end Tracks

/-! ## The way back -/

namespace Leads

/-- Chained relations have other sides, chained the other way round. -/
theorem exists_back (hp : Paired reg) (h : Leads reg m steps target) :
    ∃ back, Leads reg target back m ∧ back.length = steps.length ∧
      (steps.reverse.mapM fun s => s.field.type.reverseName?) = some (back.map fun s => s.field.name) := by
  induction h with
  | nil m => exact ⟨[], .nil m, rfl, rfl⟩
  | @cons m next t f rest hm hf hrel hnext h ih =>
      obtain ⟨back, hback, hlength, hnames⟩ := ih
      obtain ⟨g, hg, hname, hreturn⟩ := hp.exists_back hm hf hnext hrel
      have hlast : Leads reg next [⟨next, g⟩] m :=
        .cons (mem_of_related hnext) hg (isRelation_of_related hreturn) hreturn (.nil m)
      refine ⟨back ++ [⟨next, g⟩], hback.append hlast, by simp [hlength], ?_⟩
      rw [List.reverse_cons, List.mapM_append, hnames]
      simp [hname]

variable (htold : Told reg)
include htold

/-- The names of chained relations are a track. -/
theorem tracks (h : Leads reg m steps target) (hne : steps ≠ []) :
    Tracks reg m (steps.map fun s => s.field.name) steps := by
  have hfield : ∀ {m : Model} {f : Field}, m ∈ reg.models → f ∈ m.localFields → f.isRelation →
      reg.field m f.name = .ok f := fun hm hf hrel =>
    field_eq_ok.mpr (htold.relation _ hm _ (reg.self_mem_lineage _) _ hf hrel).2
  induction h with
  | nil => exact absurd rfl hne
  | @cons m next t f rest hm hf hrel hnext h ih =>
      cases rest with
      | nil => exact .last (hfield hm hf hrel)
      | cons s rest => exact .cons (hfield hm hf hrel) hrel hnext (ih (List.cons_ne_nil s rest))

theorem undotted (h : Leads reg m steps target) : ∀ n ∈ steps.map (fun s => s.field.name), '.' ∉ n.toList := by
  induction h with
  | nil => exact List.forall_mem_nil _
  | cons hm hf hrel _ _ ih =>
      rw [List.map_cons, List.forall_mem_cons]
      exact ⟨(htold.relation _ hm _ (reg.self_mem_lineage _) _ hf hrel).1, ih⟩

end Leads

/-- The way back over relations is a track from the model they lead to, if no relation behind the first is inherited. -/
theorem tracks_back (hp : Paired reg) (htold : Told reg) (hm : m ∈ reg.models) {hop : ResolvedPath} {link : String}
    (h : Tracks reg m names hop.steps) (hstraight : hop.Straight) (ht : reg.targetModel hop = .ok (some target))
    (hlink : hop.reversePath? = some link) : ∃ back, Tracks reg target (dottedNames link) back := by
  obtain ⟨level, chain, hleads, hfields⟩ := h.exists_leads hp.rooted hm hstraight (related_of_targetModel ht)
  obtain ⟨back, hback, hlength, hnames⟩ := hleads.exists_back hp
  have hne : back ≠ [] := by
    rw [← List.length_pos_iff, hlength, ← List.length_map, hfields]
    simp
  -- Whether the first relation is inherited makes no difference to its other side.
  have hsame : ∀ steps : List PathStep, steps.reverse.mapM (fun s => s.field.type.reverseName?) =
      (steps.map PathStep.field).reverse.mapM fun f => f.type.reverseName? := by
    intro steps
    rw [← List.map_reverse, List.mapM_map]
    rfl
  rw [ResolvedPath.reversePath?, hsame, ResolvedPath.steps, ← hfields, ← hsame, hnames] at hlink
  obtain rfl := Option.some.inj hlink
  rw [dottedNames_intercalate (by simpa using hne) (hback.undotted htold)]
  exact ⟨back, hback.tracks htold hne⟩

end Registry

end RecordMapper
