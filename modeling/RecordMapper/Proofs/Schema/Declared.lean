import RecordMapper.Proofs.Registry.Keys
import RecordMapper.Proofs.Schema.Sources

/-!
# Declared schemas — what every schema has

A schema comes from declarations or is another one with fewer fields.
Either way no field name stands twice, each field carries its own name,
and the primary key is among the fields. The primary key field reads the
key column of the model; only where the key is a relation it can read the
rows behind it instead (`KeyKind`).
-/

namespace RecordMapper

/-- How a field that stands for the primary key of a model is read: as the key column, or, if the key
is a relation, as the rows that it leads to. -/
inductive KeyKind (reg : Registry) (m : Model) : FieldKind → Prop
  | column {path : String} {p : ResolvedPath} (resolves : reg.resolvePath m path = .ok p)
      (direct : p.before = []) (named : p.last.field.name = m.pkName)
      (concrete : p.last.field.isConcrete) : KeyKind reg m (.column path)
  | relation (target : Model) (link value : String) :
      KeyKind reg m (.isolated (.relation target link value))

namespace SchemaField

variable {reg : Registry} {m : Model} {d : FieldDecl} {f f' : SchemaField}

/-- A field has a name, reads the key of the model if it stands for it, and is isolated if it has a nested
schema. -/
structure Declared (reg : Registry) (m : Model) (name : String) (f : SchemaField) : Prop where
  name : f.name = name
  key : f.isPrimaryKey → KeyKind reg m f.kind
  isolated : f.nested.isSome → f.isIsolated

theorem declared_ofPath {path : String} (hf : f.name = d.name) (hnested : f.nested = d.nested)
    (h : ofPath reg m d path f = .ok f') :
    f'.Declared reg m d.name ∧ ∃ p, reg.resolvePath m path = .ok p ∧
      f'.isPrimaryKey = (p.before.isEmpty && p.last.field.name == m.pkName) := by
  obtain ⟨p, hp, h⟩ := fromPath_of_ofPath h
  have hkey : p.before.isEmpty && p.last.field.name == m.pkName → p.before = [] ∧ p.last.field.name = m.pkName := by
    rw [Bool.and_eq_true, List.isEmpty_iff, beq_iff_eq]
    exact id
  have hflat : d.nested = none → ¬ f.nested.isSome := fun hnone => by
    rw [hnested, hnone]
    exact Bool.false_ne_true
  cases h with
  | column plain flat single =>
      have hconcrete := isConcrete_of_not_isRelation plain
      exact ⟨⟨hf, fun hk => .column hp (hkey hk).1 (hkey hk).2 hconcrete, fun hsome => absurd hsome (hflat flat)⟩, p, hp,
        rfl⟩
  | foreign relation flat single concrete =>
      exact ⟨⟨hf, fun hk => .column hp (hkey hk).1 (hkey hk).2 concrete, fun hsome => absurd hsome (hflat flat)⟩, p, hp,
        rfl⟩
  | rows relation leads back written => exact ⟨⟨hf, fun _ => .relation .., fun _ => rfl⟩, p, hp, rfl⟩
  | behind plain cut leads back => exact ⟨⟨hf, fun _ => .relation .., fun _ => rfl⟩, p, hp, rfl⟩

theorem declared_ofSource (hf : f.name = d.name) (hkey : f.isPrimaryKey = false) (hnested : f.nested = d.nested)
    (h : ofSource reg m d f = .ok f') : f'.Declared reg m d.name := by
  rcases ofSource_cases h with ⟨path, _, h⟩ | haside
  · exact (declared_ofPath hf hnested h).1
  · refine ⟨haside.name.trans hf, fun hpk => ?_, fun hsome => ?_⟩
    · rw [haside.isPrimaryKey, hkey] at hpk
      cases hpk
    · have hsome : d.nested ≠ none := Option.isSome_iff_ne_none.mp (hnested ▸ haside.nested ▸ hsome)
      have hkind := haside.kind
      rw [isIsolated]
      generalize f'.kind = kind at hkind
      cases hkind with
      | expression e plain => exact absurd plain hsome
      | queryset qs link value => rfl
      | function g => rfl
      | unmapped plain => exact absurd plain hsome

/-- Two fields that read the same, whatever their modes and defaults. -/
structure SameReading (f g : SchemaField) : Prop where
  name : f.name = g.name
  isPrimaryKey : f.isPrimaryKey = g.isPrimaryKey
  kind : f.kind = g.kind
  nested : f.nested = g.nested

theorem sameReading_withStamps (f : SchemaField) : f.withStamps.SameReading f := by
  unfold withStamps
  split
  · split <;> exact ⟨rfl, rfl, rfl, rfl⟩
  · exact ⟨rfl, rfl, rfl, rfl⟩

/-- A field of a declaration is read as its source says. -/
theorem exists_sameReading {cat : Catalog} (h : classify reg cat m d = .ok f) :
    ∃ mode g, ofSource reg m d (begun d mode) = .ok g ∧ f.SameReading g := by
  obtain ⟨mode, g, _, hg, hf⟩ := exists_ofSource h
  obtain ⟨hname, hkey, hkind, hnested⟩ := sameReading_withStamps g
  rcases hf with rfl | rfl <;> exact ⟨mode, g, hg, hname, hkey, hkind, hnested⟩

theorem declared_of_classify {cat : Catalog} (h : classify reg cat m d = .ok f) :
    f.Declared reg m d.name := by
  obtain ⟨mode, g, hsource, hname, hkey, hkind, hnested⟩ := exists_sameReading h
  have hdeclared := declared_ofSource rfl rfl rfl hsource
  refine ⟨hname.trans hdeclared.name, fun hpk => hkind ▸ hdeclared.key (hkey ▸ hpk), fun hsome => ?_⟩
  rw [isIsolated, hkind]
  exact hdeclared.isolated (hnested ▸ hsome)

/-- The field that is added for the primary key stands for it. -/
theorem isPrimaryKey_of_classify {cat : Catalog} {mode : Option String} (hkeys : reg.KeysFound)
    (hm : m ∈ reg.models) (h : classify reg cat m { name := m.pkName, mode } = .ok f) :
    f.isPrimaryKey := by
  obtain ⟨hdot, hfield⟩ := hkeys m hm
  obtain ⟨flags, g, hsource, hsame⟩ := exists_sameReading h
  rw [ofSource] at hsource
  simp only at hsource
  rw [if_neg (by simp [Option.isSome_iff_ne_none.mp hfield])] at hsource
  obtain ⟨_, p, hp, hpk⟩ := declared_ofPath rfl rfl hsource
  obtain ⟨k, hk⟩ := Option.isSome_iff_exists.mp hfield
  have hresolved : reg.resolvePath m m.pkName = .ok ⟨[], ⟨m, k⟩⟩ := by
    unfold Registry.resolvePath at hp ⊢
    rw [hdot] at hp ⊢
    simp only at hp ⊢
    split at hp
    · cases hp
    · rename_i hne
      rw [if_neg hne, Registry.resolveNames, Registry.field, hk]
      rfl
  rw [hresolved] at hp
  cases hp
  rw [hsame.isPrimaryKey, hpk, Registry.name_of_field_pkName hk]
  simp

end SchemaField

namespace Schema

/-- The fields of a schema stand under their own names, none twice, and those that stand for the primary
key are read as such. -/
structure FieldsDeclared (reg : Registry) (m : Model) (fields : List (String × SchemaField)) : Prop where
  nodup : (fields.map Prod.fst).Nodup
  declared : ∀ e ∈ fields, e.2.Declared reg m e.1

variable {reg : Registry} {cat : Catalog} {m : Model} {fields : List (String × SchemaField)}

theorem FieldsDeclared.append {name : String} {f : SchemaField} (h : FieldsDeclared reg m fields)
    (hnew : name ∉ fields.map Prod.fst) (hf : f.Declared reg m name) :
    FieldsDeclared reg m (fields ++ [(name, f)]) := by
  constructor
  · rw [List.map_append, List.map_singleton]
    exact List.Nodup.append h.nodup (List.nodup_singleton _) (List.disjoint_singleton.mpr hnew)
  · intro e he
    rcases List.mem_append.mp he with he | he
    · exact h.declared e he
    · obtain rfl := List.mem_singleton.mp he
      exact hf

theorem fieldsDeclared_nil : FieldsDeclared reg m [] := ⟨List.nodup_nil, by simp⟩

theorem fieldsDeclared_of_classifyAll {name : String} {decls : List FieldDecl}
    (h : classifyAll reg cat name m decls = .ok fields) : FieldsDeclared reg m fields := by
  refine Outcome.foldlM_keeps (fun d _ fields fields' hfields hstep => ?_) fieldsDeclared_nil h
  split at hstep
  · cases hstep
  · rename_i hnew
    obtain ⟨f, hf, rfl⟩ := Outcome.map_eq_ok.mp hstep
    refine hfields.append (fun hmem => hnew ?_) (SchemaField.declared_of_classify hf)
    obtain ⟨e, he, hname⟩ := List.mem_map.mp hmem
    exact List.any_eq_true.mpr ⟨e, he, beq_iff_eq.mpr hname⟩

/-- A field that stands for the primary key is among some fields. -/
def HasKey (fields : List (String × SchemaField)) (pkName : String) : Prop :=
  ∃ f, (pkName, f) ∈ fields ∧ f.isPrimaryKey

/-- The field that is added for the primary key has a name of its own. -/
theorem fieldsDeclared_withKey {name pkName : String} {fields' : List (String × SchemaField)}
    (hfields : FieldsDeclared reg m fields) (h : withKey reg cat name m fields = .ok (fields', pkName)) :
    FieldsDeclared reg m fields' := by
  unfold withKey at h
  split at h
  · cases h
    exact hfields
  · simp only at h
    split at h
    · cases h
    · rename_i hnew
      obtain ⟨f, hf, h⟩ := Outcome.bind_eq_ok.mp h
      cases h
      have hdeclared := SchemaField.declared_of_classify hf
      refine ⟨List.nodup_cons.mpr ⟨fun hmem => hnew ?_, hfields.nodup⟩, ?_⟩
      · obtain ⟨e, he, hname⟩ := List.mem_map.mp hmem
        exact List.any_eq_true.mpr ⟨e, he, beq_iff_eq.mpr hname⟩
      · rintro e (_ | ⟨_, he⟩)
        · exact hdeclared
        · exact hfields.declared e he

theorem fieldsDeclared_of_withKey {name pkName : String} {fields' : List (String × SchemaField)}
    (hkeys : reg.KeysFound) (hm : m ∈ reg.models) (hfields : FieldsDeclared reg m fields)
    (h : withKey reg cat name m fields = .ok (fields', pkName)) :
    FieldsDeclared reg m fields' ∧ HasKey fields' pkName := by
  refine ⟨fieldsDeclared_withKey hfields h, ?_⟩
  unfold withKey at h
  split at h
  · rename_i pk f hfind
    cases h
    have hpk := List.find?_some hfind
    exact ⟨f, List.mem_of_find?_eq_some hfind, hpk⟩
  · simp only at h
    split at h
    · cases h
    · obtain ⟨f, hf, h⟩ := Outcome.bind_eq_ok.mp h
      cases h
      exact ⟨f, List.mem_cons_self, SchemaField.isPrimaryKey_of_classify hkeys hm hf⟩

/-- What holds of every field that is classified, and of the one that is added for the primary key, holds of the fields
of a schema that is built. -/
theorem forall_of_build {P : SchemaField → Prop} {name : String} {decls : List FieldDecl} {s : Schema}
    (hdecls : ∀ d ∈ decls, ∀ f, SchemaField.classify reg cat m d = .ok f → P f)
    (hkey : ∀ f, SchemaField.classify reg cat m { name := m.pkName, mode := some "r" } = .ok f → P f)
    (h : build reg cat name m decls = .ok s) : ∀ e ∈ s.fields, P e.2 := by
  obtain ⟨fields, hfields, h⟩ := Outcome.bind_eq_ok.mp h
  obtain ⟨⟨fields', pkName⟩, hwithKey, h⟩ := Outcome.bind_eq_ok.mp h
  obtain ⟨_, _, h⟩ := Outcome.bind_eq_ok.mp h
  cases h
  have hall : ∀ e ∈ fields, P e.2 := by
    refine Outcome.foldlM_keeps (P := fun fields => ∀ e ∈ fields, P e.2) (fun d hd fields fields' hfields hstep => ?_)
      (List.forall_mem_nil _) hfields
    split at hstep
    · cases hstep
    · obtain ⟨f, hf, rfl⟩ := Outcome.map_eq_ok.mp hstep
      exact List.forall_mem_append.mpr ⟨hfields, List.forall_mem_singleton.mpr (hdecls d hd f hf)⟩
  unfold withKey at hwithKey
  split at hwithKey
  · cases hwithKey
    exact hall
  · simp only at hwithKey
    split at hwithKey
    · cases hwithKey
    · obtain ⟨f, hf, hwithKey⟩ := Outcome.bind_eq_ok.mp hwithKey
      cases hwithKey
      exact List.forall_mem_cons.mpr ⟨hkey f hf, hall⟩

theorem model_of_build {name : String} {decls : List FieldDecl} {s : Schema} (h : build reg cat name m decls = .ok s) :
    s.model = m := by
  obtain ⟨_, _, h⟩ := Outcome.bind_eq_ok.mp h
  obtain ⟨_, _, h⟩ := Outcome.bind_eq_ok.mp h
  obtain ⟨_, _, h⟩ := Outcome.bind_eq_ok.mp h
  cases h
  rfl

/-- A schema that can be made: built from declarations, or one of these with those of its fields alone
that take part in an operation, under an identity and a name of its own. -/
inductive Declared (reg : Registry) : Schema → Prop
  | built {cat : Catalog} {name : String} {m : Model} {decls : List FieldDecl} {s : Schema}
      (registered : m ∈ reg.models) (h : build reg cat name m decls = .ok s) : Declared reg s
  | narrowed {s : Schema} (h : Declared reg s) (op : Operation) (id : Nat) (name : String) :
      Declared reg { s with
        id, name, fields := s.fields.filter fun e => e.2.participates op, operation := some op }

variable {s : Schema}

theorem Declared.fieldsDeclared (hkeys : reg.KeysFound) (h : s.Declared reg) :
    FieldsDeclared reg s.model s.fields ∧ HasKey s.fields s.pkName := by
  induction h with
  | built hm h =>
      obtain ⟨fields, hfields, h⟩ := Outcome.bind_eq_ok.mp h
      obtain ⟨⟨fields', pkName⟩, hkey, h⟩ := Outcome.bind_eq_ok.mp h
      obtain ⟨_, _, h⟩ := Outcome.bind_eq_ok.mp h
      cases h
      exact fieldsDeclared_of_withKey hkeys hm (fieldsDeclared_of_classifyAll hfields) hkey
  | narrowed _ op _ _ ih =>
      obtain ⟨⟨hnd, hdeclared⟩, f, hf, hpk⟩ := ih
      refine ⟨⟨hnd.sublist ((List.filter_sublist ..).map _), fun e he => ?_⟩, f, ?_, hpk⟩
      · exact hdeclared e (List.mem_filter.mp he).1
      · exact List.mem_filter.mpr ⟨hf, by simp [SchemaField.participates, hpk]⟩

/-- The field that stands for the primary key of a schema under its name. -/
structure KeyField (reg : Registry) (s : Schema) (f : SchemaField) : Prop where
  mem : f ∈ s.fieldList
  name : f.name = s.pkName
  isPrimaryKey : f.isPrimaryKey
  kind : KeyKind reg s.model f.kind
  only : ∀ g ∈ s.fieldList, g.name = s.pkName → g = f

/-- A primary key is a column of its row or leads to other rows. -/
theorem KeyField.kind_cases {s : Schema} {f : SchemaField} (h : s.KeyField reg f) :
    (∃ path p, f.kind = .column path ∧ reg.resolvePath s.model path = .ok p ∧ p.before = [] ∧
      p.last.field.name = s.model.pkName ∧ p.last.field.isConcrete) ∨
    ∃ target link value, f.kind = .isolated (.relation target link value) := by
  have hkind := h.kind
  generalize f.kind = kind at hkind
  cases hkind with
  | column hp hdirect hnamed hconcrete => exact .inl ⟨_, _, rfl, hp, hdirect, hnamed, hconcrete⟩
  | relation target link value => exact .inr ⟨target, link, value, rfl⟩

theorem FieldsDeclared.names {s : Schema} (h : FieldsDeclared reg m s.fields) :
    s.fieldList.map (·.name) = s.fields.map Prod.fst := by
  rw [fieldList, List.map_map]
  exact List.map_congr_left fun e he => (h.declared e he).name

theorem Declared.nodup_names (h : s.Declared reg) : (s.fieldList.map (·.name)).Nodup := by
  have hfields : FieldsDeclared reg s.model s.fields := by
    induction h with
    | built _ h =>
        obtain ⟨fields, hfields, h⟩ := Outcome.bind_eq_ok.mp h
        obtain ⟨⟨fields', pkName⟩, hkey, h⟩ := Outcome.bind_eq_ok.mp h
        obtain ⟨_, _, h⟩ := Outcome.bind_eq_ok.mp h
        cases h
        exact fieldsDeclared_withKey (fieldsDeclared_of_classifyAll hfields) hkey
    | narrowed _ _ _ _ ih =>
        exact ⟨ih.nodup.sublist ((List.filter_sublist ..).map _), fun e he => ih.declared e (List.mem_filter.mp he).1⟩
  exact hfields.names ▸ hfields.nodup

/-- A field with a nested schema is isolated. -/
theorem Declared.isIsolated_of_nested (hkeys : reg.KeysFound) (h : s.Declared reg) {f : SchemaField}
    (hf : f ∈ s.fieldList) (hnested : f.nested.isSome) : f.isIsolated := by
  obtain ⟨e, he, rfl⟩ := List.mem_map.mp hf
  exact ((h.fieldsDeclared hkeys).1.declared e he).isolated hnested

theorem Declared.mem_models (h : s.Declared reg) : s.model ∈ reg.models := by
  induction h with
  | built hm h => exact model_of_build h ▸ hm
  | narrowed _ _ _ _ ih => exact ih

theorem Declared.exists_keyField (hkeys : reg.KeysFound) (h : s.Declared reg) :
    ∃ f, s.KeyField reg f := by
  obtain ⟨hfields, f, hf, hpk⟩ := h.fieldsDeclared hkeys
  have hdeclared := hfields.declared _ hf
  have hmem : f ∈ s.fieldList := List.mem_map_of_mem hf
  refine ⟨f, hmem, hdeclared.name, hpk, hdeclared.key hpk, fun g hg hname => ?_⟩
  exact List.inj_on_of_nodup_map h.nodup_names hg hmem (hname.trans hdeclared.name.symm)

end Schema

namespace Catalog

variable {reg : Registry} {cat : Catalog} {owner s : Schema}

/-- Every schema of a catalog can be made. -/
def Declared (reg : Registry) (cat : Catalog) : Prop := ∀ e ∈ cat.schemas, e.2.Declared reg

/-- What a reference means is its owner or a schema of the catalog. -/
theorem mem_of_resolve {r : NestedRef} (h : cat.resolve owner r = .ok s) :
    s = owner ∨ s ∈ cat.schemas.map Prod.snd := by
  have hmem : ∀ {o : Option Nat}, o.bind cat.schema? = some s → s ∈ cat.schemas.map Prod.snd := by
    intro o ho
    obtain ⟨id, _, hid⟩ := Option.bind_eq_some_iff.mp ho
    obtain ⟨_, _, hentries, _⟩ := List.lookup_eq_some_iff.mp hid
    rw [hentries]
    simp
  unfold resolve at h
  split at h
  · cases h
    exact .inl rfl
  · split at h
    · rename_i hid
      cases h
      exact .inr (hmem (o := some _) hid)
    · cases h
  · split at h
    · rename_i hslot
      cases h
      exact .inr (hmem hslot)
    · cases h

theorem Declared.resolve (hcat : cat.Declared reg) (howner : owner.Declared reg) {r : NestedRef}
    (h : cat.resolve owner r = .ok s) : s.Declared reg := by
  rcases mem_of_resolve h with rfl | hmem
  · exact howner
  · obtain ⟨e, he, rfl⟩ := List.mem_map.mp hmem
    exact hcat e he

end Catalog

end RecordMapper
