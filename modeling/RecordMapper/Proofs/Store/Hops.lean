import Mathlib.Tactic.MkIffOfInductiveProp
import RecordMapper.Store.Path
import RecordMapper.Proofs.Registry.Routes
import RecordMapper.Proofs.Store.Constraints
import RecordMapper.Proofs.Value.Plain

/-!
# Hops — one step of a path and the step back

In a `Consistent` store a reference leads to a row or is null, and a
linking row links its pair once. A hop over a relation then ends on keys
of its target (`mem_keys_of_mem_hop`), on none of them twice, and leads
from one row to another exactly when the hop over the other side leads
back (`exists_hop_back`).
-/

namespace RecordMapper.Store

open RecordMapper.Registry

/-- The model whose rows link a many-to-many relation, and its foreign keys to both sides. -/
def linking? : FieldType → Option (String × String × String)
  | .manyToMany _ through own other _ => some (through, own, other)
  | _ => none

/-- No two rows of a model hold one pair of keys in two columns. -/
def PairsOnce (reg : Registry) (st : Store) (m : Model) (own other : String) : Prop :=
  ∀ k ∈ st.keys m, ∀ k' ∈ st.keys m,
    cell reg st m k own = cell reg st m k' own → cell reg st m k own ≠ .null →
    cell reg st m k other = cell reg st m k' other → cell reg st m k other ≠ .null → k = k'

instance (reg : Registry) (st : Store) (m : Model) (own other : String) :
    Decidable (PairsOnce reg st m own other) :=
  inferInstanceAs (Decidable (∀ k ∈ st.keys m, ∀ k' ∈ st.keys m,
    cell reg st m k own = cell reg st m k' own → cell reg st m k own ≠ .null →
    cell reg st m k other = cell reg st m k' other → cell reg st m k other ≠ .null → k = k'))

/-- A store whose references lead to rows. -/
@[mk_iff]
structure Referential (reg : Registry) (st : Store) : Prop where
  /-- A table holds a key once. -/
  distinct : ∀ m ∈ reg.models, (st.keys m).Nodup
  /-- Keys are scalars that are neither null nor floats. -/
  plain : ∀ m ∈ reg.models, ∀ k ∈ st.keys m, k.isPlain
  /-- A reference is null or a key of the model it leads to. -/
  refers : ∀ m ∈ reg.models, ∀ f ∈ m.own, f.isConcrete → ∀ t ∈ reg.models,
    f.type.relatedModel? = some t.name →
      ∀ k ∈ st.keys m, cell reg st m k f.name = .null ∨ cell reg st m k f.name ∈ st.keys t
  /-- No two linking rows link one pair of rows. -/
  linkedOnce : ∀ m ∈ reg.models, ∀ f ∈ m.own, ∀ l ∈ (linking? f.type).toList, ∀ links ∈ reg.models,
    links.name = l.1 → PairsOnce reg st links l.2.1 l.2.2

/-- A store whose references lead to rows, each row at most once over a one-to-one relation. -/
@[mk_iff]
structure Consistent (reg : Registry) (st : Store) : Prop extends Referential reg st where
  /-- No two rows hold one key in a one-to-one column. -/
  apart : ∀ m ∈ reg.models, ∀ f ∈ m.own, f.type.name = "o2o" →
    ∀ k ∈ st.keys m, ∀ k' ∈ st.keys m, cell reg st m k f.name = cell reg st m k' f.name →
      cell reg st m k f.name ≠ .null → k = k'

/-- A store whose keys are scalars, each once in its table, and whose references lead to rows. -/
@[mk_iff]
structure Intact (reg : Registry) (st : Store) : Prop where
  distinct : ∀ m ∈ reg.models, (st.keys m).Nodup
  plain : ∀ m ∈ reg.models, ∀ k ∈ st.keys m, k.isPlain
  refers : ∀ m ∈ reg.models, ∀ f ∈ m.own, f.isConcrete → ∀ t ∈ reg.models,
    f.type.relatedModel? = some t.name →
      ∀ k ∈ st.keys m, cell reg st m k f.name = .null ∨ cell reg st m k f.name ∈ st.keys t

theorem Referential.intact {reg : Registry} {st : Store} (h : Referential reg st) : Intact reg st :=
  ⟨h.distinct, h.plain, h.refers⟩

theorem Consistent.intact {reg : Registry} {st : Store} (h : Consistent reg st) : Intact reg st :=
  h.toReferential.intact

instance (reg : Registry) (st : Store) : Decidable (Intact reg st) :=
  decidable_of_iff' _ (intact_iff reg st)

instance (reg : Registry) (st : Store) : Decidable (Referential reg st) :=
  decidable_of_iff' _ (referential_iff reg st)

instance (reg : Registry) (st : Store) : Decidable (Consistent reg st) :=
  decidable_of_iff' _ (consistent_iff reg st)

/-- What a step leads to from the row of a key. Null leads nowhere. -/
def hop (reg : Registry) (st : Store) (s : PathStep) (key : Value) : List Value :=
  if key.isNull then []
  else
    match step reg st s.model s.field key with
    | .ok vs => vs
    | .error _ => []

/-- The other side of what the linking rows say of a key. -/
def linkedKeys (reg : Registry) (st : Store) (links : Model) (own other : String) (key : Value) :
    List Value :=
  ((st.keys links).filter fun row => (cell reg st links row own).equiv key).map
    fun row => cell reg st links row other

variable {reg : Registry} {st : Store} {m t links : Model} {f g : Field} {a b v key : Value}

@[simp] theorem hop_null (s : PathStep) : hop reg st s .null = [] := rfl

theorem hop_eq {vs : List Value} (h : step reg st m f key = .ok vs) (hk : key.isNull = false) :
    hop reg st ⟨m, f⟩ key = vs := by
  rw [hop, hk, if_neg Bool.false_ne_true, h]

theorem cell_fieldName (reg : Registry) (st : Store) (m : Model) (k : Value) (name : String) :
    cell reg st m k (m.fieldName name) = cell reg st m k name := by
  rw [Model.fieldName]
  split
  · rename_i hpk
    rw [cell, cell, if_pos, if_pos]
    · rw [hpk, Bool.true_or]
    · rw [beq_self_eq_true, Bool.or_true]
  · rfl

/-! ## Steps over both sides of a relation -/

theorem linked_eq {through own other : String} (hl : reg.model through = .ok links) (key : Value) :
    linked reg st through own other key = .ok (linkedKeys reg st links own other key) := by
  rw [linked, hl]
  rfl

theorem step_of_isConcrete (hc : f.isConcrete) (key : Value) :
    step reg st m f key = .ok [cell reg st m key f.name] := by
  unfold Field.isConcrete at hc
  unfold step
  cases hft : f.type <;> rw [hft] at hc <;> first | rfl | exact absurd hc Bool.false_ne_true

/-- A relation is a column, and its other side finds the rows by it; or both sides look at the same
linking rows. -/
theorem step_otherSide (st : Store) (hn : Navigable reg) (hm : m ∈ reg.models) (hf : f ∈ m.own)
    (hopp : OtherSide m.name f t.name g) :
    (f.isConcrete ∧ ∀ b, step reg st t g b = .ok (referencing reg st m f.name b)) ∨
      ∃ through own other name links, f.type = .manyToMany t.name through own other name ∧
        reg.model through = .ok links ∧
        (∀ a, step reg st m f a = .ok (linkedKeys reg st links own other a)) ∧
        ∀ b, step reg st t g b = .ok (linkedKeys reg st links other own b) := by
  have hmodel := hn.model_name hm
  cases hft : f.type <;> simp only [OtherSide, hft] at hopp
  case foreignKey | oneToOne =>
    refine .inl ⟨by rw [Field.isConcrete, hft]; rfl, fun b => ?_⟩
    simp only [step, hopp.2, hmodel, Outcome.ok_bind]
    rfl
  case manyToMany target through own other name =>
    obtain ⟨rfl, hg⟩ := hopp
    obtain ⟨links, hl, _⟩ := hn.links m hm f hf _ _ _ _ _ hft
    refine .inr ⟨through, own, other, name, links, rfl, hl, fun a => ?_, fun b => ?_⟩
    · simp only [step, hft]
      exact linked_eq hl a
    · simp only [step, hg, hmodel, hn.field_of_mem hm (List.mem_append_left _ hf), hft, Outcome.ok_bind]
      exact linked_eq hl b

/-- A step leads to the column of a concrete field. -/
theorem hop_of_isConcrete (hc : f.isConcrete) (hk : key.isNull = false) :
    hop reg st ⟨m, f⟩ key = [cell reg st m key f.name] :=
  hop_eq (step_of_isConcrete hc key) hk

theorem isRelation_of_not_isConcrete (hc : ¬ f.isConcrete) : f.isRelation := by
  unfold Field.isConcrete at hc
  unfold Field.isRelation
  cases hft : f.type <;> rw [hft] at hc <;> first | rfl | exact absurd rfl hc

theorem step_eq_hop (hn : Navigable reg) (hm : m ∈ reg.models) (hf : f ∈ m.localFields)
    (hk : key.isNull = false) : step reg st m f key = .ok (hop reg st ⟨m, f⟩ key) := by
  have heq : ∀ {vs}, step reg st m f key = .ok vs → step reg st m f key = .ok (hop reg st ⟨m, f⟩ key) := by
    intro vs h
    rw [hop_eq h hk, h]
  by_cases hc : f.isConcrete
  · exact heq (step_of_isConcrete hc key)
  · have hrel : f.isRelation := by
      unfold Field.isConcrete at hc
      unfold Field.isRelation
      cases hft : f.type <;> rw [hft] at hc <;> first | rfl | exact absurd rfl hc
    obtain ⟨t, ht, g, _, _, _, ⟨hown, hopp⟩ | ⟨hown, hopp⟩⟩ := hn.partner hm hf hrel
    · rcases step_otherSide st hn hm hown hopp with ⟨hconcrete, _⟩ | ⟨_, _, _, _, _, _, _, hstep, _⟩
      · exact absurd hconcrete hc
      · exact heq (hstep key)
    · rcases step_otherSide st hn ht hown hopp with ⟨_, hstep⟩ | ⟨_, _, _, _, _, _, _, _, hstep⟩
      · exact heq (hstep key)
      · exact heq (hstep key)

/-! ## Where a hop ends -/

theorem mem_referencing {name : String} (hb : b.isPlain) :
    a ∈ referencing reg st m name b ↔ a ∈ st.keys m ∧ cell reg st m a name = b := by
  rw [referencing, List.mem_filter, Value.equiv_iff_of_isPlain hb]

theorem mem_linkedKeys {own other : String} (hk : key.isPlain) :
    v ∈ linkedKeys reg st links own other key ↔
      ∃ row ∈ st.keys links, cell reg st links row own = key ∧ cell reg st links row other = v := by
  simp only [linkedKeys, List.mem_map, List.mem_filter, Value.equiv_iff_of_isPlain hk, and_assoc]

/-- The foreign key of a linking row is null or leads to a row. -/
theorem link_refers (hn : Navigable reg) (hs : Intact reg st) {through own target : String}
    (hl : reg.model through = .ok links) {name : Option String} (hg : reg.field links own = .ok g)
    (hgt : g.type = .foreignKey target name) (ht : reg.model target = .ok t) :
    ∀ row ∈ st.keys links, cell reg st links row own = .null ∨ cell reg st links row own ∈ st.keys t := by
  have hlm := mem_of_model hl
  obtain ⟨hmem, hname⟩ := hn.mem_of_field hlm hg
  have hown := hn.paired.mem_own hlm hmem (by rw [Field.isReverse, hgt])
  have hconcrete : g.isConcrete := by rw [Field.isConcrete, hgt]; rfl
  have htarget : g.type.relatedModel? = some t.name := by
    rw [hgt, name_of_model ht]
    rfl
  intro row hrow
  have hrefers := hs.refers links hlm g hown hconcrete t (mem_of_model ht) htarget row hrow
  rwa [hname, cell_fieldName] at hrefers

theorem nodup_linkedKeys {own other : String} (hd : (st.keys links).Nodup) (hk : key.isPlain)
    (honce : ∀ k ∈ st.keys links, ∀ k' ∈ st.keys links,
      cell reg st links k own = key → cell reg st links k' own = key →
      cell reg st links k other = cell reg st links k' other → cell reg st links k other ≠ .null → k = k') :
    (given (linkedKeys reg st links own other key)).Nodup := by
  rw [given, linkedKeys, List.filter_map]
  refine List.Nodup.map_on ?_ ((hd.filter _).filter _)
  intro x hx y hy he
  simp only [List.mem_filter, Function.comp_apply, Value.equiv_iff_of_isPlain hk] at hx hy
  refine honce x hx.1.1 y hy.1.1 hx.1.2 hy.1.2 he fun hnull => ?_
  rw [hnull] at hx
  exact absurd hx.2 Bool.false_ne_true

section OtherSide

variable (hn : Navigable reg) (hs : Intact reg st) (hm : m ∈ reg.models) (ht : t ∈ reg.models)
  (hf : f ∈ m.own) (hopp : OtherSide m.name f t.name g)

include hn hs hm ht hf hopp

/-- A hop over a relation ends on null or on keys of its target, and so does the hop back. -/
theorem hop_otherSide_ends :
    (∀ a ∈ st.keys m, ∀ v ∈ hop reg st ⟨m, f⟩ a, v = .null ∨ v ∈ st.keys t) ∧
      ∀ b ∈ st.keys t, ∀ v ∈ hop reg st ⟨t, g⟩ b, v = .null ∨ v ∈ st.keys m := by
  have htarget := hopp.relatedModel?.1
  rcases step_otherSide st hn hm hf hopp with
    ⟨hconcrete, hback⟩ | ⟨through, own, other, name, links, hft, hl, hforth, hback⟩
  · constructor
    · intro a ha v hv
      rw [hop_of_isConcrete hconcrete (Value.isNull_of_isPlain (hs.plain m hm a ha)),
        List.mem_singleton] at hv
      rw [hv]
      exact hs.refers m hm f hf hconcrete t ht htarget a ha
    · intro b hb v hv
      have hplain := hs.plain t ht b hb
      rw [hop_eq (hback b) (Value.isNull_of_isPlain hplain), mem_referencing hplain] at hv
      exact .inr hv.1
  · obtain ⟨links', hl', ⟨g₁, name₁, hg₁, hgt₁⟩, g₂, name₂, hg₂, hgt₂⟩ := hn.links m hm f hf _ _ _ _ _ hft
    obtain rfl : links = links' := Except.ok.inj (hl.symm.trans hl')
    -- Both hops read the rows that link, whose columns hold keys of the two sides.
    constructor
    · intro a ha v hv
      have hplain := hs.plain m hm a ha
      rw [hop_eq (hforth a) (Value.isNull_of_isPlain hplain), mem_linkedKeys hplain] at hv
      obtain ⟨row, hrow, _, rfl⟩ := hv
      exact link_refers hn hs hl hg₂ hgt₂ (hn.model_name ht) row hrow
    · intro b hb v hv
      have hplain := hs.plain t ht b hb
      rw [hop_eq (hback b) (Value.isNull_of_isPlain hplain), mem_linkedKeys hplain] at hv
      obtain ⟨row, hrow, _, rfl⟩ := hv
      exact link_refers hn hs hl hg₁ hgt₁ (hn.model_name hm) row hrow

/-- A hop over a relation leads from one row to another when the hop back does. -/
theorem mem_hop_otherSide (ha : a ∈ st.keys m) (hb : b ∈ st.keys t) :
    b ∈ hop reg st ⟨m, f⟩ a ↔ a ∈ hop reg st ⟨t, g⟩ b := by
  have hpa := hs.plain m hm a ha
  have hpb := hs.plain t ht b hb
  have hna := Value.isNull_of_isPlain hpa
  have hnb := Value.isNull_of_isPlain hpb
  rcases step_otherSide st hn hm hf hopp with
    ⟨hconcrete, hback⟩ | ⟨through, own, other, name, links, _, _, hforth, hback⟩
  · rw [hop_of_isConcrete hconcrete hna, hop_eq (hback b) hnb, mem_referencing hpb, List.mem_singleton]
    constructor
    · intro h
      exact ⟨ha, h.symm⟩
    · intro h
      exact h.2.symm
  · rw [hop_eq (hforth a) hna, hop_eq (hback b) hnb, mem_linkedKeys hpa, mem_linkedKeys hpb]
    constructor
    · rintro ⟨row, hrow, hown, hother⟩
      exact ⟨row, hrow, hother, hown⟩
    · rintro ⟨row, hrow, hother, hown⟩
      exact ⟨row, hrow, hown, hother⟩

end OtherSide

/-- No hop over a relation reaches a row twice, and no hop back does. -/
theorem nodup_hop_otherSide (hn : Navigable reg) (hs : Referential reg st) (hm : m ∈ reg.models)
    (ht : t ∈ reg.models) (hf : f ∈ m.own) (hopp : OtherSide m.name f t.name g) :
    (∀ a ∈ st.keys m, (given (hop reg st ⟨m, f⟩ a)).Nodup) ∧
      ∀ b ∈ st.keys t, (given (hop reg st ⟨t, g⟩ b)).Nodup := by
  rcases step_otherSide st hn hm hf hopp with
    ⟨hconcrete, hback⟩ | ⟨through, own, other, name, links, hft, hl, hforth, hback⟩
  · constructor
    · intro a ha
      rw [hop_of_isConcrete hconcrete (Value.isNull_of_isPlain (hs.plain m hm a ha))]
      exact (List.nodup_singleton _).filter _
    · intro b hb
      rw [hop_eq (hback b) (Value.isNull_of_isPlain (hs.plain t ht b hb))]
      exact ((hs.distinct m hm).filter _).filter _
  · have hlm := mem_of_model hl
    have honce := hs.linkedOnce m hm f hf (through, own, other) (by simp [hft, linking?]) links hlm
      (name_of_model hl)
    have hd := hs.distinct links hlm
    -- Rows that link one key to the same row would link the same pair.
    constructor
    · intro a ha
      have hplain := hs.plain m hm a ha
      have hne := Value.ne_null_of_isPlain hplain
      rw [hop_eq (hforth a) (Value.isNull_of_isPlain hplain)]
      refine nodup_linkedKeys hd hplain fun k hk k' hk' hown hown' hother hnull => ?_
      exact honce k hk k' hk' (hown.trans hown'.symm) (by rwa [hown]) hother hnull
    · intro b hb
      have hplain := hs.plain t ht b hb
      have hne := Value.ne_null_of_isPlain hplain
      rw [hop_eq (hback b) (Value.isNull_of_isPlain hplain)]
      refine nodup_linkedKeys hd hplain fun k hk k' hk' hother hother' hown hnull => ?_
      exact honce k hk k' hk' hown hnull (hother.trans hother'.symm) (by rwa [hother])

/-! ## Hops over the fields of a model -/

private theorem length_le_one_of_nodup {l : List Value} (hd : l.Nodup) (h : ∀ x ∈ l, ∀ y ∈ l, x = y) :
    l.length ≤ 1 := by
  cases l with
  | nil => exact Nat.zero_le 1
  | cons x rest =>
      cases rest with
      | nil => exact Nat.le_refl 1
      | cons y rest =>
          have hxy : x = y := h x (by simp) y (by simp)
          simp [hxy] at hd

section Back

variable (hn : Navigable reg) (hs : Intact reg st) (hm : m ∈ reg.models) (hf : f ∈ m.localFields)

include hn hs hm hf

/-- The other side of a relation leads back. -/
theorem exists_hop_back (hrel : f.isRelation) :
    ∃ t ∈ reg.models, ∃ g ∈ t.localFields, reg.related m f = .ok t ∧ reg.related t g = .ok m ∧
      f.type.reverseName? = some g.name ∧
      ∀ a ∈ st.keys m, ∀ b ∈ st.keys t, b ∈ hop reg st ⟨m, f⟩ a ↔ a ∈ hop reg st ⟨t, g⟩ b := by
  obtain ⟨t, ht, g, hg, hrelated, hname, ⟨hown, hopp⟩ | ⟨hown, hopp⟩⟩ := hn.partner hm hf hrel
  · refine ⟨t, ht, g, hg, hrelated, ?_, hname, fun a ha b hb => ?_⟩
    · rw [related, hopp.relatedModel?.2]
      exact hn.model_name hm
    · exact mem_hop_otherSide hn hs hm ht hown hopp ha hb
  · refine ⟨t, ht, g, hg, hrelated, ?_, hname, fun a ha b hb => ?_⟩
    · rw [related, hopp.relatedModel?.1]
      exact hn.model_name hm
    · exact (mem_hop_otherSide hn hs ht hm hown hopp hb ha).symm

/-- A hop over a relation ends on null or on keys of its target. -/
theorem mem_keys_of_mem_hop (hrelated : reg.related m f = .ok t) (ha : a ∈ st.keys m)
    (hv : v ∈ hop reg st ⟨m, f⟩ a) : v = .null ∨ v ∈ st.keys t := by
  obtain ⟨t', ht, g, _, hrelated', _, ⟨hown, hopp⟩ | ⟨hown, hopp⟩⟩ :=
    hn.partner hm hf (isRelation_of_related hrelated)
  · obtain rfl : t = t' := Except.ok.inj (hrelated.symm.trans hrelated')
    exact (hop_otherSide_ends hn hs hm ht hown hopp).1 a ha v hv
  · obtain rfl : t = t' := Except.ok.inj (hrelated.symm.trans hrelated')
    exact (hop_otherSide_ends hn hs ht hm hown hopp).2 a ha v hv

end Back

section Once

variable (hn : Navigable reg) (hs : Consistent reg st) (hm : m ∈ reg.models) (hf : f ∈ m.localFields)

include hn hs hm hf

/-- No hop reaches a row twice. -/
theorem nodup_hop (ha : a ∈ st.keys m) : (given (hop reg st ⟨m, f⟩ a)).Nodup := by
  by_cases hc : f.isConcrete
  · rw [hop_of_isConcrete hc (Value.isNull_of_isPlain (hs.plain m hm a ha))]
    exact (List.nodup_singleton _).filter _
  · obtain ⟨t, ht, g, _, _, _, ⟨hown, hopp⟩ | ⟨hown, hopp⟩⟩ :=
      hn.partner hm hf (isRelation_of_not_isConcrete hc)
    · exact (nodup_hop_otherSide hn hs.toReferential hm ht hown hopp).1 a ha
    · exact (nodup_hop_otherSide hn hs.toReferential ht hm hown hopp).2 a ha

/-- A hop over a field that is not to-many reaches at most one value. -/
theorem length_hop_le_one (hsingle : f.type.isMany = false) (ha : a ∈ st.keys m) :
    (hop reg st ⟨m, f⟩ a).length ≤ 1 := by
  have hplain := hs.plain m hm a ha
  have hnull := Value.isNull_of_isPlain hplain
  by_cases hc : f.isConcrete
  · rw [hop_of_isConcrete hc hnull]
    exact Nat.le_refl 1
  · obtain ⟨t, ht, g, _, _, _, ⟨hown, hopp⟩ | ⟨hown, hopp⟩⟩ :=
      hn.partner hm hf (isRelation_of_not_isConcrete hc)
    · -- A declared relation that is no column is many-to-many.
      rcases step_otherSide st hn hm hown hopp with ⟨hconcrete, _⟩ | ⟨_, _, _, _, _, hft, _⟩
      · exact absurd hconcrete hc
      · rw [hft] at hsingle
        cases hsingle
    · -- Of the other sides only that of a one-to-one column is left, which holds a key once.
      cases hgt : g.type <;> simp only [OtherSide, hgt] at hopp <;> rw [hopp.2] at hsingle
      case foreignKey | manyToMany => cases hsingle
      case oneToOne target name =>
        have hstep : step reg st m f a = .ok (referencing reg st t g.name a) := by
          simp only [step, hopp.2, hn.model_name ht, Outcome.ok_bind]
          rfl
        rw [hop_eq hstep hnull]
        have hd : (referencing reg st t g.name a).Nodup := (hs.distinct t ht).filter _
        have hone : ∀ k ∈ referencing reg st t g.name a, ∀ k' ∈ referencing reg st t g.name a, k = k' := by
          intro k hk k' hk'
          rw [mem_referencing hplain] at hk hk'
          refine hs.apart t ht g hown (by rw [hgt]; rfl) k hk.1 k' hk'.1 (hk.2.trans hk'.2.symm) ?_
          rw [hk.2]
          exact Value.ne_null_of_isPlain hplain
        exact length_le_one_of_nodup hd hone

/-- A relation that is not to-many leads nowhere, to null or to one row. -/
theorem hop_of_single (hsingle : f.type.isMany = false) (hrelated : reg.related m f = .ok t)
    (ha : a ∈ st.keys m) :
    hop reg st ⟨m, f⟩ a = [] ∨ hop reg st ⟨m, f⟩ a = [.null] ∨ ∃ v ∈ st.keys t, hop reg st ⟨m, f⟩ a = [v] := by
  have hone := length_hop_le_one hn hs hm hf hsingle ha
  have hends := fun v => mem_keys_of_mem_hop (v := v) hn hs.intact hm hf hrelated ha
  cases hhop : hop reg st ⟨m, f⟩ a with
  | nil => exact .inl rfl
  | cons v rest =>
      rw [hhop] at hone hends
      obtain rfl : rest = [] := by simpa using hone
      rcases hends v (List.mem_singleton_self v) with rfl | hv
      · exact .inr (.inl rfl)
      · exact .inr (.inr ⟨v, hv, rfl⟩)

end Once

end RecordMapper.Store
