import RecordMapper.Proofs.Entries
import RecordMapper.Proofs.Schema.Declared

/-!
# Variants — schemas made for one operation

A variant has the fields of a schema that take part in an operation, and
an identity of its own. It is made once and remembered. The catalogs
that can be made, one schema, slot or variant after another, remember
nothing but such variants (`Made.remembers`), so whichever way a variant
is come by it has those fields (`narrows_variant`).
-/

namespace RecordMapper

/-- A schema has the fields of another one that take part in an operation, and is read over the same rows. -/
structure Schema.Narrows (op : Operation) (s v : Schema) : Prop where
  model : v.model = s.model
  pkName : v.pkName = s.pkName
  fields : v.fields = s.fields.filter fun e => e.2.participates op

namespace Catalog

/-- A catalog that can be made: schemas are built, slots filled and variants asked for, one after another. -/
inductive Made (reg : Registry) : Catalog → Prop
  | empty : Made reg {}
  | built {cat : Catalog} (h : Made reg cat) {name : String} {m : Model} {decls : List FieldDecl} {s : Schema}
      (registered : m ∈ reg.models) (hs : Schema.build reg cat name m decls = .ok s) : Made reg (cat.add s)
  | filled {cat cat' : Catalog} (h : Made reg cat) {slot : String} {id : Nat} (hfill : cat.fill? slot id = some cat') :
      Made reg cat'
  | variant {cat : Catalog} (h : Made reg cat) {s : Schema} (hs : cat.schema? s.id = some s) (op : Operation) :
      Made reg (cat.variant s op).2

/-- Every identity of a catalog is older than the next one, and every variant that is remembered is one. -/
structure Remembers (cat : Catalog) : Prop where
  older : ∀ e ∈ cat.schemas, e.1 < cat.next
  variants : ∀ e ∈ cat.variants, ∃ s v, cat.schema? e.1.1 = some s ∧ cat.schema? e.2 = some v ∧ s.Narrows e.1.2 v

variable {reg : Registry} {cat : Catalog} {s v : Schema} {op : Operation}

theorem schema?_add_of_some {id : Nat} (h : cat.schema? id = some v) : (cat.add s).schema? id = some v := by
  rw [schema?, add, List.lookup_append]
  rw [schema?] at h
  rw [h]
  rfl

/-- A schema with a new identity is found under it. -/
theorem Remembers.schema?_add (h : cat.Remembers) (hs : s.id = cat.next) : (cat.add s).schema? s.id = some s := by
  have hnone : cat.schemas.lookup s.id = none := by
    rw [lookup_eq_none_iff_not_mem_keys]
    intro hmem
    obtain ⟨e, he, hsame⟩ := List.mem_map.mp hmem
    have hold := h.older e he
    omega
  rw [schema?, add, List.lookup_append, hnone]
  exact List.lookup_cons_self

theorem Remembers.add (h : cat.Remembers) (hs : s.id = cat.next) : (cat.add s).Remembers := by
  refine ⟨fun e he => ?_, fun e he => ?_⟩
  · have hnext : (cat.add s).next = cat.next + 1 := by simp [Catalog.add, hs]
    rw [hnext]
    rcases List.mem_append.mp he with he | he
    · exact Nat.lt_succ_of_lt (h.older e he)
    · obtain rfl := List.mem_singleton.mp he
      exact hs ▸ Nat.lt_succ_self _
  · obtain ⟨t, v, ht, hv, hnarrows⟩ := h.variants e he
    exact ⟨t, v, schema?_add_of_some ht, schema?_add_of_some hv, hnarrows⟩

/-- A variant is the one that is remembered, or is made with the next identity. -/
theorem variant_cases (cat : Catalog) (s : Schema) (op : Operation) :
    (∃ vid v, cat.variants.lookup (s.id, op) = some vid ∧ cat.schema? vid = some v ∧ cat.variant s op = (v, cat)) ∨
    ∃ v : Schema, v.id = cat.next ∧ s.Narrows op v ∧
      cat.variant s op = (v, { cat.add v with variants := cat.variants ++ [((s.id, op), v.id)] }) := by
  unfold variant
  split
  · rename_i v hv
    obtain ⟨vid, hvid, hv⟩ := Option.bind_eq_some_iff.mp hv
    exact .inl ⟨vid, v, hvid, hv, rfl⟩
  · refine .inr ⟨{ s with
      id := cat.next
      name := s.name ++ "[" ++ op.letter ++ "]"
      fields := s.fields.filter fun e => e.2.participates op
      operation := some op }, rfl, ⟨rfl, rfl, rfl⟩, rfl⟩

theorem Remembers.variant (h : cat.Remembers) (hs : cat.schema? s.id = some s) (op : Operation) :
    (cat.variant s op).2.Remembers := by
  rcases cat.variant_cases s op with ⟨_, _, _, _, hsame⟩ | ⟨v, hid, hnarrows, hnew⟩
  · rw [hsame]
    exact h
  · rw [hnew]
    obtain ⟨holder, hvariants⟩ := h.add hid
    refine ⟨holder, fun e he => ?_⟩
    rcases List.mem_append.mp he with he | he
    · exact hvariants e he
    · obtain rfl := List.mem_singleton.mp he
      exact ⟨s, v, schema?_add_of_some hs, h.schema?_add hid, hnarrows⟩

theorem Made.remembers (h : cat.Made reg) : cat.Remembers := by
  induction h with
  | empty => exact ⟨by simp, by simp⟩
  | built _ _ hs ih =>
      obtain ⟨_, _, hs⟩ := Outcome.bind_eq_ok.mp hs
      obtain ⟨_, _, hs⟩ := Outcome.bind_eq_ok.mp hs
      obtain ⟨_, _, hs⟩ := Outcome.bind_eq_ok.mp hs
      cases hs
      exact ih.add rfl
  | filled _ hfill ih =>
      unfold fill? at hfill
      split at hfill
      · cases hfill
      · cases hfill
        exact ⟨ih.older, ih.variants⟩
  | variant _ hs op ih => exact ih.variant hs op

/-- A variant of a schema of the catalog has the fields that take part, remembered or new. -/
theorem Made.narrows_variant (h : cat.Made reg) (hs : cat.schema? s.id = some s) (op : Operation) :
    s.Narrows op (cat.variant s op).1 := by
  rcases cat.variant_cases s op with ⟨vid, v, hvid, hv, hsame⟩ | ⟨v, _, hnarrows, hnew⟩
  · obtain ⟨s', v', hs', hv', hnarrows⟩ := h.remembers.variants _ (mem_of_lookup hvid)
    rw [hs] at hs'
    rw [hv] at hv'
    cases hs'
    cases hv'
    rw [hsame]
    exact hnarrows
  · rw [hnew]
    exact hnarrows

/-- Every schema of a catalog that can be made can be made. -/
theorem Made.declared (h : cat.Made reg) : cat.Declared reg := by
  induction h with
  | empty => exact fun e he => absurd he List.not_mem_nil
  | built _ hm hs ih =>
      intro e he
      rcases List.mem_append.mp he with he | he
      · exact ih e he
      · obtain rfl := List.mem_singleton.mp he
        exact .built hm hs
  | filled _ hfill ih =>
      unfold fill? at hfill
      split at hfill
      · cases hfill
      · cases hfill
        exact ih
  | @variant cat _ s hs op ih =>
      have hdeclared : s.Declared reg := ih (s.id, s) (mem_of_lookup hs)
      unfold Catalog.variant
      split
      · exact ih
      · intro e he
        rcases List.mem_append.mp he with he | he
        · exact ih e he
        · obtain rfl := List.mem_singleton.mp he
          exact hdeclared.narrowed op _ _

end Catalog

end RecordMapper
