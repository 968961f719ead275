import Mathlib.Tactic.MkIffOfInductiveProp
import RecordMapper.Proofs.Registry.Keys

/-!
# Navigable — registries whose paths can be followed back

Every relation of a registry that was built has a partner on the model
it leads to, which carries the name of its other side and leads back
(`Paired.partner`). In a `Navigable` registry moreover no model
inherits, a name means one field of a model, and primary keys are
columns, so that the name of the other side finds the partner.
-/

namespace RecordMapper.Registry

/-- Without inheritance, and with distinct names for the fields visible on a model, none of them empty,
dotted or `pk`. -/
@[mk_iff]
structure Legible (reg : Registry) : Prop where
  flat : ∀ m ∈ reg.models, m.parent = none
  distinct : ∀ m ∈ reg.models, (m.localFields.map Field.name).Nodup
  named : ∀ m ∈ reg.models, ∀ f ∈ m.localFields, f.name ≠ "" ∧ f.name ≠ "pk" ∧ '.' ∉ f.name.toList

instance (reg : Registry) : Decidable (Legible reg) := decidable_of_iff' _ (legible_iff reg)

/-- Every primary key is a column of its model. -/
def KeysAreColumns (reg : Registry) : Prop :=
  ∀ m ∈ reg.models, ∀ f ∈ m.own, f.primaryKey → f.isConcrete

instance (reg : Registry) : Decidable (KeysAreColumns reg) :=
  inferInstanceAs (Decidable (∀ m ∈ reg.models, ∀ f ∈ m.own, f.primaryKey → f.isConcrete))

/-- A field that a model declares as the other side of a relation is the other side of the relation it
names. -/
def SidesAreDeclared (reg : Registry) : Prop :=
  ∀ t ∈ reg.models, ∀ g ∈ t.own, g.isReverse →
    ∃ m ∈ reg.models, ∃ f ∈ m.own, OtherSide m.name f t.name g

theorem sidesAreDeclared_of_forward {reg : Registry}
    (h : ∀ t ∈ reg.models, ∀ g ∈ t.own, g.isReverse = false) : SidesAreDeclared reg := by
  intro t ht g hg hr
  rw [h t ht g hg] at hr
  cases hr

/-- A registry in which every relation has an other side. -/
structure Paired (reg : Registry) : Prop where
  rooted : Rooted reg
  forward : ∀ m ∈ reg.models, ∀ f ∈ m.own, neededModels f.type ≠ [] →
    ∃ t ∈ reg.models, ∃ g ∈ t.localFields, OtherSide m.name f t.name g ∧
      f.type.reverseName? = some g.name
  hung : ∀ t ∈ reg.models, ∀ g ∈ t.reverse, ∃ m ∈ reg.models, ∃ f ∈ m.own, OtherSide m.name f t.name g
  declared : SidesAreDeclared reg

/-- A registry whose paths lead somewhere and back. -/
structure Navigable (reg : Registry) : Prop extends Legible reg where
  rooted : Rooted reg
  key : ∀ m ∈ reg.models, ∃ f ∈ m.own, f.name = m.pkName ∧ f.isConcrete
  forward : ∀ m ∈ reg.models, ∀ f ∈ m.own, neededModels f.type ≠ [] →
    ∃ t ∈ reg.models, ∃ g ∈ t.localFields, OtherSide m.name f t.name g ∧
      f.type.reverseName? = some g.name
  hung : ∀ t ∈ reg.models, ∀ g ∈ t.reverse, ∃ m ∈ reg.models, ∃ f ∈ m.own, OtherSide m.name f t.name g
  declared : SidesAreDeclared reg
  links : ∀ m ∈ reg.models, ∀ f ∈ m.own, ∀ target through own other relatedName,
    f.type = .manyToMany target through own other relatedName →
      ∃ links, reg.model through = .ok links ∧
        (∃ g name, reg.field links own = .ok g ∧ g.type = .foreignKey m.name name) ∧
        ∃ g name, reg.field links other = .ok g ∧ g.type = .foreignKey target name

theorem BuiltFrom.paired {decls : List ModelDecl} {settled : List (Model × List (String × Field))} {reg : Registry}
    (h : BuiltFrom decls settled reg) (hs : SidesAreDeclared reg) : Paired reg where
  rooted := h.rooted
  forward m hm f hf hforward := by
    obtain ⟨t, ht, g, hg, hopp, hname⟩ := h.exists_side hm hf hforward
    exact ⟨t, ht, g, List.mem_append_right _ hg, hopp, hname⟩
  hung _ ht _ hg := h.exists_owner ht hg
  declared := hs

theorem navigable_of_build {decls : List ModelDecl} {reg : Registry}
    (hb : Registry.build decls = .ok reg) (hl : Legible reg) (hk : KeysAreColumns reg)
    (hs : SidesAreDeclared reg) : Navigable reg := by
  obtain ⟨settled, h⟩ := builtFrom_of_build hb
  obtain ⟨hrooted, hforward, hhung, hdeclared⟩ := h.paired hs
  refine { hl with
    rooted := hrooted, key := ?_, forward := hforward, hung := hhung, declared := hdeclared, links := ?_ }
  · intro m hm
    obtain ⟨f, hf, hname, hpk⟩ := h.exists_key hm (hl.flat m hm)
    exact ⟨f, hf, hname, hk m hm f hf hpk⟩
  · exact fun m hm f hf target through own other name ht => h.exists_links hm hf ht

theorem OtherSide.isReverse {owner target : String} {f g : Field} (h : OtherSide owner f target g) :
    g.isReverse = true ∧ neededModels f.type ≠ [] := by
  unfold OtherSide at h
  split at h
  case h_4 => exact h.elim
  all_goals
    rename_i hf
    rw [Field.isReverse, h.2, hf]
    exact ⟨rfl, List.cons_ne_nil _ _⟩

section Columns

variable {decls : List ModelDecl} {settled : List (Model × List (String × Field))} {reg : Registry} {m : Model}
  {f : Field} {name : String}

/-- A column of a model is declared: what hangs on a model as the other side of a relation is no column. -/
theorem BuiltFrom.mem_own_of_isConcrete (h : BuiltFrom decls settled reg) (hm : m ∈ reg.models)
    (hf : f ∈ m.localFields) (hconcrete : f.isConcrete) : f ∈ m.own := by
  rcases List.mem_append.mp hf with hown | hside
  · exact hown
  · obtain ⟨_, _, _, _, hopp⟩ := h.exists_owner hm hside
    have hreverse := hopp.isReverse.1
    rw [Field.isReverse] at hreverse
    rw [Field.isConcrete] at hconcrete
    cases ht : f.type <;> simp [ht, FieldType.isConcrete] at hreverse hconcrete

/-- A column that is found by its name from a model without a parent is declared by that model. -/
theorem BuiltFrom.mem_own_of_field? (h : BuiltFrom decls settled reg) (hm : m ∈ reg.models) (htop : m.parent = none)
    (hf : reg.field? m name = some f) (hconcrete : f.isConcrete) : f ∈ m.own := by
  rw [field?, reg.lineage_of_top htop, List.findSome?_singleton] at hf
  exact h.mem_own_of_isConcrete hm (List.mem_of_find?_eq_some hf) hconcrete

end Columns

namespace Paired

variable {reg : Registry} {m : Model} {f : Field}

/-- A field that is no other side of a relation is declared. -/
theorem mem_own (h : Paired reg) (hm : m ∈ reg.models) (hf : f ∈ m.localFields)
    (hr : f.isReverse = false) : f ∈ m.own := by
  rcases List.mem_append.mp hf with hown | hrev
  · exact hown
  · obtain ⟨_, _, _, _, hopp⟩ := h.hung m hm f hrev
    rw [hopp.isReverse.1] at hr
    cases hr

/-- An other side is that of a relation which a model declares. -/
theorem exists_owner (h : Paired reg) (hm : m ∈ reg.models) (hf : f ∈ m.localFields) (hr : f.isReverse) :
    ∃ t ∈ reg.models, ∃ g ∈ t.own, OtherSide t.name g m.name f := by
  rcases List.mem_append.mp hf with hown | hrev
  · exact h.declared m hm f hown hr
  · exact h.hung m hm f hrev

theorem related_eq_ok (h : Paired reg) {t : Model} (ht : t ∈ reg.models)
    (hto : f.type.relatedModel? = some t.name) : reg.related m f = .ok t := by
  have hmodel : reg.model t.name = .ok t := by rw [model, h.rooted.find?_name ht]
  rw [related, hto]
  exact hmodel

/-- The model a relation leads to has a field that leads back, under the name of the other side. One of
the two is declared as the relation, the other is its other side. -/
theorem partner (h : Paired reg) (hm : m ∈ reg.models) (hf : f ∈ m.localFields) (hrel : f.isRelation) :
    ∃ t ∈ reg.models, ∃ g ∈ t.localFields, reg.related m f = .ok t ∧
      f.type.reverseName? = some g.name ∧
      (f ∈ m.own ∧ OtherSide m.name f t.name g ∨ g ∈ t.own ∧ OtherSide t.name g m.name f) := by
  cases hr : f.isReverse with
  | false =>
      have hown := h.mem_own hm hf hr
      have hforward : neededModels f.type ≠ [] := by
        unfold Field.isReverse at hr
        unfold Field.isRelation FieldType.isRelation at hrel
        cases hft : f.type <;> rw [hft] at hr hrel
        case foreignKey | oneToOne | manyToMany => exact List.cons_ne_nil _ _
        case reverseForeignKey | reverseOneToOne | reverseManyToMany => cases hr
        all_goals exact absurd hrel Bool.false_ne_true
      obtain ⟨t, ht, g, hg, hopp, hname⟩ := h.forward m hm f hown hforward
      exact ⟨t, ht, g, hg, h.related_eq_ok ht hopp.relatedModel?.1, hname, .inl ⟨hown, hopp⟩⟩
  | true =>
      obtain ⟨t, ht, g, hg, hopp⟩ := h.exists_owner hm hf hr
      exact ⟨t, ht, g, List.mem_append_left _ hg, h.related_eq_ok ht hopp.relatedModel?.2, hopp.reverseName?,
        .inr ⟨hg, hopp⟩⟩

/-- The other side of a relation leads back to the model that has the relation. -/
theorem exists_back (h : Paired reg) (hm : m ∈ reg.models) (hf : f ∈ m.localFields) {t : Model}
    (ht : reg.related m f = .ok t) (hrel : f.isRelation) :
    ∃ g ∈ t.localFields, f.type.reverseName? = some g.name ∧ reg.related t g = .ok m := by
  obtain ⟨t', _, g, hg, ht', hname, hside⟩ := h.partner hm hf hrel
  obtain rfl : t = t' := Except.ok.inj (ht.symm.trans ht')
  refine ⟨g, hg, hname, h.related_eq_ok hm ?_⟩
  rcases hside with ⟨_, hopp⟩ | ⟨_, hopp⟩
  · exact hopp.relatedModel?.2
  · exact hopp.relatedModel?.1

end Paired

namespace Navigable

variable {reg : Registry} {m : Model} {f : Field} {name : String}

/-! ## Fields by name -/

theorem lineage_eq (h : Navigable reg) (hm : m ∈ reg.models) : reg.lineage m = [m] :=
  reg.lineage_of_top (h.flat m hm)

theorem field?_eq (h : Navigable reg) (hm : m ∈ reg.models) (name : String) :
    reg.field? m name = m.localFields.find? (·.name == m.fieldName name) := by
  rw [field?, h.lineage_eq hm, List.findSome?_singleton]

/-- A name that is found is the name of a field, or `pk` for that of the primary key. -/
theorem mem_of_field (h : Navigable reg) (hm : m ∈ reg.models) (hf : reg.field m name = .ok f) :
    f ∈ m.localFields ∧ f.name = m.fieldName name := by
  rw [field, h.field?_eq hm] at hf
  split at hf
  · rename_i g hg
    cases hf
    exact ⟨List.mem_of_find?_eq_some hg, by simpa using List.find?_some hg⟩
  · cases hf

theorem field_of_mem (h : Navigable reg) (hm : m ∈ reg.models) (hf : f ∈ m.localFields) :
    reg.field m f.name = .ok f := by
  have hpk : m.fieldName f.name = f.name := by
    rw [Model.fieldName, if_neg]
    simpa using (h.named m hm f hf).2.1
  have hsome : (m.localFields.find? (·.name == f.name)).isSome :=
    List.find?_isSome.mpr ⟨f, hf, beq_self_eq_true f.name⟩
  obtain ⟨g, hg⟩ := Option.isSome_iff_exists.mp hsome
  have hgn : g.name = f.name := by simpa using List.find?_some hg
  have hgf : g = f := List.inj_on_of_nodup_map (h.distinct m hm) (List.mem_of_find?_eq_some hg) hf hgn
  rw [field, h.field?_eq hm, hpk, hg, hgf]

theorem model_name (h : Navigable reg) (hm : m ∈ reg.models) : reg.model m.name = .ok m := by
  rw [model, h.rooted.find?_name hm]

/-! ## Partners -/

theorem paired (h : Navigable reg) : Paired reg := ⟨h.rooted, h.forward, h.hung, h.declared⟩

/-- The model a relation leads to has a field that leads back, under the name of the other side. One of
the two is declared as the relation, the other is its other side. -/
theorem partner (h : Navigable reg) (hm : m ∈ reg.models) (hf : f ∈ m.localFields)
    (hrel : f.isRelation) :
    ∃ t ∈ reg.models, ∃ g ∈ t.localFields, reg.related m f = .ok t ∧
      f.type.reverseName? = some g.name ∧
      (f ∈ m.own ∧ OtherSide m.name f t.name g ∨ g ∈ t.own ∧ OtherSide t.name g m.name f) :=
  h.paired.partner hm hf hrel

end Navigable

end RecordMapper.Registry
