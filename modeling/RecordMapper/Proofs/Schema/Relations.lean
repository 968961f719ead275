import RecordMapper.Proofs.Registry.Navigable
import RecordMapper.Proofs.Schema.Placed
import RecordMapper.Proofs.Store.NamedColumns

/-!
# Relations — where the relations of a schema are kept

In a `Readable` registry a field is told by its name. The relations that
are written apart are then kept where they should be: the links of a
many-to-many relation in two foreign keys of its through model, and the
other side of a foreign key in that key (`RelationWrite.Kept`).
-/

namespace RecordMapper

open Store

/-- A registry whose fields are told by their names: no model declares two of one name, one with a dot in it, or one
that is called like the primary key but is not, primary keys are columns, and other sides of relations are declared
as such. -/
structure Registry.Readable (reg : Registry) : Prop where
  distinct : ∀ m ∈ reg.models, (m.own.map Field.name).Nodup
  undotted : ∀ m ∈ reg.models, ∀ f ∈ m.own, '.' ∉ f.name.toList
  reserved : ∀ m ∈ reg.models, ∀ f ∈ m.own, f.name = "pk" → m.pkName = "pk"
  keys : ∀ m ∈ reg.models, (reg.field? m m.pkName).all Field.isConcrete
  sides : Registry.SidesAreDeclared reg

variable {decls : List ModelDecl} {reg : Registry} {m t : Model} {f g : Field} {name : String}

namespace Registry.Readable

variable (hread : reg.Readable) (hb : Registry.build decls = .ok reg) (hm : m ∈ reg.models)
include hread hb hm

/-- A field that a model declares is found by its name. -/
theorem field?_own (hf : f ∈ m.own) : reg.field? m f.name = some f := by
  have hname : m.fieldName f.name = f.name := by
    by_cases hpk : f.name = "pk"
    · rw [Model.fieldName, hpk, hread.reserved m hm f hf hpk]
      rfl
    · exact fieldName_of_ne hpk
  obtain ⟨above, hlineage⟩ := (Registry.rooted_of_build hb).lineage_eq_cons hm
  have hsome : (m.own.find? (·.name == f.name)).isSome := List.find?_isSome.mpr ⟨f, hf, beq_self_eq_true _⟩
  obtain ⟨g, hg⟩ := Option.isSome_iff_exists.mp hsome
  have hgn : g.name = f.name := by simpa using List.find?_some hg
  obtain rfl : g = f := List.inj_on_of_nodup_map (hread.distinct m hm) (List.mem_of_find?_eq_some hg) hf hgn
  rw [Registry.field?, hname, hlineage, List.findSome?_cons, Model.localFields, List.find?_append, hg, Option.some_or]

/-- The name of a column that is found reads it. -/
theorem reads (hf : reg.field? m name = some f) (hconcrete : f.isConcrete) : Reads reg m name := by
  refine reads_of_field? ?_ hf hconcrete
  by_cases hpk : name = "pk"
  · rw [hpk]
    decide
  · obtain ⟨level, hl, hown, _⟩ := exists_level_of_field? hb hm hf hconcrete
    have hfn : f.name = name := (Registry.name_eq_of_field? hf).trans (fieldName_of_ne hpk)
    exact hfn ▸ hread.undotted level ((Registry.rooted_of_build hb).mem_models hm hl) f hown

/-- The name of a primary key reads the key. -/
theorem reads_key : Reads reg m m.pkName := by
  obtain ⟨f, hf⟩ := Option.isSome_iff_exists.mp (Registry.exists_keyField_of_build hb hm)
  refine hread.reads hb hm hf ?_
  have hkey := hread.keys m hm
  rwa [hf, Option.all_some] at hkey

theorem undotted_key : '.' ∉ m.pkName.toList := by
  obtain ⟨settled, hbuilt⟩ := Registry.builtFrom_of_build hb
  have hr := hbuilt.rooted
  have hroot := hr.rootOf_mem_models hm
  obtain ⟨f, hf, hname, _⟩ := hbuilt.exists_key hroot (hr.rootOf_parent hm)
  rw [hbuilt.pkName_rootOf hm, ← hname]
  exact hread.undotted _ hroot f hf

/-- What stands on a model as the other side of a relation is that of a relation that a model declares. -/
theorem exists_owner (hg : g ∈ m.localFields) (hreverse : g.isReverse) :
    ∃ r ∈ reg.models, ∃ f ∈ r.own, Registry.OtherSide r.name f m.name g ∧ reg.model r.name = .ok r ∧
      reg.field r f.name = .ok f := by
  obtain ⟨settled, hbuilt⟩ := Registry.builtFrom_of_build hb
  obtain ⟨r, hr, f, hf, hside⟩ := (hbuilt.paired hread.sides).exists_owner hm hg hreverse
  refine ⟨r, hr, f, hf, hside, ?_, Registry.field_eq_ok.mpr (hread.field?_own hb hr hf)⟩
  rw [Registry.model, hbuilt.rooted.find?_name hr]

end Registry.Readable

/-! ## Relations that are written apart -/

/-- A relation of a model is kept in columns: its links in two foreign keys of the through model, one of which leads
to the model, or its other side in a foreign key to the model. -/
inductive RelationWrite.Kept (reg : Registry) (m : Model) : RelationWrite → Prop
  | manyToMany {through : Model} {own other : String} {f g : Field} (mem : through ∈ reg.models)
    (hown : reg.field? through own = some f) (foreign : f.isForeignKey) (leads : f.type.relatedModel? = some m.name)
    (hother : reg.field? through other = some g) (foreign' : g.isForeignKey) : Kept reg m (.manyToMany through own other)
  | reverse {related : Model} {f : Field} (mem : related ∈ reg.models) (own : f ∈ related.own) (foreign : f.isForeignKey)
    (leads : f.type.relatedModel? = some m.name) : Kept reg m (.reverse related f.name f.null)

namespace RelationWrite

variable (hread : reg.Readable) (hb : Registry.build decls = .ok reg) (hm : m ∈ reg.models)
include hb hm

/-- The links that are declared are two foreign keys of a through model. -/
theorem exists_links (hf : f ∈ m.own) {target through own other : String} {relatedName : Option String}
    (htype : f.type = .manyToMany target through own other relatedName) :
    ∃ links c d, reg.model through = .ok links ∧ links ∈ reg.models ∧
      (reg.field? links own = some c ∧ c.isForeignKey ∧ c.type.relatedModel? = some m.name) ∧
      reg.field? links other = some d ∧ d.isForeignKey ∧ d.type.relatedModel? = some target := by
  obtain ⟨settled, hbuilt⟩ := Registry.builtFrom_of_build hb
  obtain ⟨links, hlinks, ⟨c, _, hc, hct⟩, d, _, hd, hdt⟩ := hbuilt.exists_links hm hf htype
  refine ⟨links, c, d, hlinks, Registry.mem_of_model hlinks, ⟨Registry.field_eq_ok.mp hc, ?_, ?_⟩,
    Registry.field_eq_ok.mp hd, ?_, ?_⟩
  · rw [Field.isForeignKey, hct]
  · rw [hct]
    rfl
  · rw [Field.isForeignKey, hdt]
  · rw [hdt]
    rfl

include hread

/-- The other side of a foreign key is written as that key. -/
theorem kept_of_otherSide (hg : g ∈ m.localFields) {related field : String}
    (htype : g.type = .reverseForeignKey related field ∨ g.type = .reverseOneToOne related field) {r : Model}
    (hr : reg.model related = .ok r) (hf : reg.field r field = .ok f) : (reverse r field f.null).Kept reg m := by
  have hreverse : g.isReverse := by
    rw [Field.isReverse]
    rcases htype with htype | htype <;> rw [htype]
  obtain ⟨r', hmem, f', hown, hside, hmodel, hfield⟩ := hread.exists_owner hb hm hg hreverse
  have hto := hside.relatedModel?.1
  have hfk : f'.isForeignKey ∧ related = r'.name ∧ field = f'.name := by
    unfold Registry.OtherSide at hside
    rw [Field.isForeignKey]
    split at hside <;> rename_i hft
    · rw [hft]
      rcases htype with htype | htype <;> rw [htype] at hside <;> cases hside.2
      exact ⟨rfl, rfl, rfl⟩
    · rw [hft]
      rcases htype with htype | htype <;> rw [htype] at hside <;> cases hside.2
      exact ⟨rfl, rfl, rfl⟩
    · rcases htype with htype | htype <;> rw [htype] at hside <;> cases hside.2
    · exact hside.elim
  obtain ⟨hfk, rfl, rfl⟩ := hfk
  obtain rfl : r = r' := Except.ok.inj (hr.symm.trans hmodel)
  obtain rfl : f = f' := Except.ok.inj (hf.symm.trans hfield)
  exact .reverse hmem hown hfk hto

/-- Whatever relation a field of a model is written as, for schemas of whatever model, it is kept in columns. -/
theorem kept_of_relationWriteOf (hg : g ∈ m.localFields) {m' : Model} {w : RelationWrite}
    (h : SchemaField.relationWriteOf reg m' name g = .ok (some w)) : w.Kept reg m := by
  obtain ⟨settled, hbuilt⟩ := Registry.builtFrom_of_build hb
  unfold SchemaField.relationWriteOf at h
  split at h
  · rename_i htype
    obtain ⟨through, hthrough, h⟩ := Outcome.bind_eq_ok.mp h
    cases h
    have hown : g ∈ m.own := (hbuilt.paired hread.sides).mem_own hm hg (by rw [Field.isReverse, htype])
    obtain ⟨links, c, d, hlinks, hmem, ⟨hc, hfk, hto⟩, hd, hfk', _⟩ := exists_links hb hm hown htype
    obtain rfl : through = links := Except.ok.inj (hthrough.symm.trans hlinks)
    exact .manyToMany hmem hc hfk hto hd hfk'
  · rename_i declaring forward htype
    obtain ⟨w', hw', h⟩ := Outcome.bind_eq_ok.mp h
    cases h
    obtain ⟨r, hr, f, hf, hside, hmodel, hfield⟩ := hread.exists_owner hb hm hg (by rw [Field.isReverse, htype])
    unfold Registry.OtherSide at hside
    split at hside
    · rw [htype] at hside
      cases hside.2
    · rw [htype] at hside
      cases hside.2
    · rename_i target through own other relatedName hft
      rw [htype] at hside
      obtain ⟨rfl, hnames⟩ := hside
      cases hnames
      rw [SchemaField.reverseManyToManyWrite, hmodel, Outcome.ok_bind, hfield, Outcome.ok_bind, hft] at hw'
      obtain ⟨links', hlinks', hw'⟩ := Outcome.bind_eq_ok.mp hw'
      cases hw'
      obtain ⟨links, c, d, hlinks, hmem, ⟨hc, hfk, _⟩, hd, hfk', hto⟩ := exists_links hb hr hf hft
      obtain rfl : links = links' := Except.ok.inj (hlinks.symm.trans hlinks')
      exact .manyToMany hmem hd hfk' hto hc hfk
    · exact hside.elim
  · rename_i htype
    obtain ⟨_, hr, h⟩ := Outcome.bind_eq_ok.mp h
    obtain ⟨_, hf, h⟩ := Outcome.bind_eq_ok.mp h
    cases h
    exact kept_of_otherSide hread hb hm hg (.inl htype) hr hf
  · rename_i htype
    obtain ⟨_, hr, h⟩ := Outcome.bind_eq_ok.mp h
    obtain ⟨_, hf, h⟩ := Outcome.bind_eq_ok.mp h
    cases h
    exact kept_of_otherSide hread hb hm hg (.inr htype) hr hf
  · cases h

end RelationWrite

section Declared

variable {s : Schema} (hs : s.Declared reg) (hread : reg.Readable) (hb : Registry.build decls = .ok reg)
  {f : SchemaField} (hf : f ∈ s.fieldList) {w : RelationWrite} (hw : f.relationWrite = some w)
include hs hread hb hf hw

/-- A relation that a field of a schema writes is kept in columns, for its model or one that it inherits from. -/
theorem Schema.Declared.exists_kept : ∃ level ∈ reg.lineage s.model, w.Kept reg level := by
  cases (hs.written hf).placed with
  | aside _ _ _ hnone => exact nomatch hnone.symm.trans hw
  | path hp _ _ _ hwrite =>
      obtain ⟨hdirect, name, hof⟩ := hwrite.resolve_left (by simp [hw])
      obtain ⟨name', _, hfound⟩ := Registry.name_of_direct hp hdirect
      rw [Registry.field_eq_ok, Registry.field?] at hfound
      obtain ⟨level, hl, hfound⟩ := List.exists_of_findSome?_eq_some hfound
      have hlm := (Registry.rooted_of_build hb).mem_models hs.mem_models hl
      exact ⟨level, hl, RelationWrite.kept_of_relationWriteOf hread hb hlm (List.mem_of_find?_eq_some hfound) (hw ▸ hof)⟩

theorem Schema.Declared.kept (htop : s.model.parent = none) : w.Kept reg s.model := by
  obtain ⟨level, hl, hkept⟩ := hs.exists_kept hread hb hf hw
  rw [reg.lineage_of_top htop, List.mem_singleton] at hl
  exact hl ▸ hkept

end Declared

end RecordMapper
