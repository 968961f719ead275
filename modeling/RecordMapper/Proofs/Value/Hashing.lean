import Mathlib.Data.List.Perm.Subperm
import RecordMapper.Proofs.Value.Plain

/-!
# Hashing — which equal values are fed to a hasher alike

Keys that are equal are one key of a table only if they are fed to its
hasher alike. Values that are equal are built alike, down to the order
of map entries and the signs of zeros in documents, and both of these
show in what is fed: two equal values are fed alike exactly if they are
the same (`fed_eq_iff`). It is read off piece by piece, with what follows
left open (`ToldApart`).

Values that are equal to a third are equal (`equiv_of_equiv_right`).
Values whose maps have one entry at most and whose documents have no
zero among their floats are equal to nothing but themselves. Any other
value has an equal one that is not the same: its maps turned round and
its zeros with the other sign (`respelled`).
-/

namespace RecordMapper

/-! ## Told apart -/

section ToldApart

variable {α β : Type} {f : α → List β} {a b : α} {as bs : List α}

/-- Whatever follows what `f` makes of `a` and `b`, it shows whether they are the same. -/
def ToldApart (f : α → List β) (a b : α) : Prop := ∀ us vs, f a ++ us = f b ++ vs → a = b ∧ us = vs

theorem ToldApart.of_eq (h : a = b) : ToldApart f a b := by
  rintro us vs hf
  subst h
  exact ⟨rfl, List.append_cancel_left hf⟩

/-- Lists are told apart item by item. -/
theorem ToldApart.flatMap (h : List.Forall₂ (ToldApart f) as bs) : ToldApart (List.flatMap f) as bs := by
  induction h with
  | nil => exact .of_eq rfl
  | cons hab _ ih =>
      intro us vs hf
      rw [List.flatMap_cons, List.flatMap_cons, List.append_assoc, List.append_assoc] at hf
      obtain ⟨rfl, hrest⟩ := hab _ _ hf
      obtain ⟨rfl, hend⟩ := ih us vs hrest
      exact ⟨rfl, hend⟩

/-- Lists of one length are told apart with something between their items as well. -/
theorem ToldApart.intercalate (separator : List β) (h : List.Forall₂ (ToldApart f) as bs) :
    ToldApart (fun l => separator.intercalate (l.map f)) as bs := by
  induction h with
  | nil => exact .of_eq rfl
  | @cons a b as bs hab hrest ih =>
      intro us vs hf
      cases hrest with
      | nil =>
          simp only [List.map_cons, List.map_nil, List.intercalate_singleton] at hf
          obtain ⟨rfl, hend⟩ := hab us vs hf
          exact ⟨rfl, hend⟩
      | cons =>
          simp only [List.map_cons, List.intercalate_cons_cons, List.append_assoc] at hf ih
          obtain ⟨rfl, htail⟩ := hab _ _ hf
          obtain ⟨hitems, hend⟩ := ih us vs (by simpa using List.append_cancel_left htail)
          rw [hitems]
          exact ⟨rfl, hend⟩

end ToldApart

namespace Binary64

variable {x y : Binary64}

theorem eq_of_negative_of_magnitude (hsign : x.negative = y.negative) (h : x.magnitude = y.magnitude) : x = y := by
  obtain ⟨x⟩ := x
  obtain ⟨y⟩ := y
  simp only [negative, magnitude, signBit, ge_iff_le, decide_eq_decide] at hsign h
  have hx := x.toNat_lt
  have hy := y.toNat_lt
  congr 1
  rw [← UInt64.toNat_inj]
  omega

/-- Floats of one value are the same, zeros apart. -/
theorem eq_or_isZero_of_numEq (h : x.numEq y) : x = y ∨ x.isZero ∧ y.isZero := by
  rw [numEq, compare?] at h
  split at h
  · cases h
  · have hposition : x.position = y.position := by simpa using h
    simp only [position, Int.ofNat_eq_natCast] at hposition
    simp only [isZero, beq_iff_eq]
    cases hx : x.negative <;> cases hy : y.negative <;>
      simp only [hx, hy, if_true, if_false, Bool.false_eq_true] at hposition
    · exact .inl (eq_of_negative_of_magnitude (hx.trans hy.symm) (by omega))
    · right; omega
    · right; omega
    · exact .inl (eq_of_negative_of_magnitude (hx.trans hy.symm) (by omega))

theorem numEq_of_numEq_right {x y z : Binary64} (hx : x.numEq z) (hy : y.numEq z) : x.numEq y := by
  simp only [numEq, compare?, beq_iff_eq] at hx hy ⊢
  split at hx
  · cases hx
  · rename_i hxz
    split at hy
    · cases hy
    · rename_i hyz
      rw [Bool.or_eq_true, not_or] at hxz hyz
      have hposition : x.position = y.position := by simp_all
      simp [hxz.1, hyz.1, hposition]

end Binary64

/-! ## Documents -/

namespace Json

theorem toList_floatText_of_isZero {x : Binary64} (h : x.isZero) :
    (floatText x).toList = if x.negative then ['-', '0', '.', '0'] else ['0', '.', '0'] := by
  rw [floatText, if_pos h]
  cases x.negative <;> rfl

/-- Equal numbers are told apart by their texts. -/
theorem Number.toldApart {m n : Number} (h : m.numEq n) : ToldApart (fun m => m.print.toList) m n := by
  cases m with
  | integer a =>
      cases n with
      | integer b => exact .of_eq (congrArg _ (eq_of_beq h))
      | float y => cases h
  | float x =>
      cases n with
      | integer b => cases h
      | float y =>
          rcases Binary64.eq_or_isZero_of_numEq h with rfl | ⟨hx, hy⟩
          · exact .of_eq rfl
          · by_cases hsign : x.negative = y.negative
            · have hmagnitude : x.magnitude = y.magnitude := (eq_of_beq hx).trans (eq_of_beq hy).symm
              exact .of_eq (congrArg _ (Binary64.eq_of_negative_of_magnitude hsign hmagnitude))
            · -- One zero begins with its sign and the other with its digit.
              intro us vs ht
              simp only [print, toList_floatText_of_isZero hx, toList_floatText_of_isZero hy] at ht
              cases hnx : x.negative <;> cases hny : y.negative <;> simp_all

theorem printItems_eq (items : List Json) : printItems items = items.map print := by
  induction items with
  | nil => rfl
  | cons j rest ih => rw [printItems, ih, List.map_cons]

theorem printMembers_eq (members : List (String × Json)) :
    printMembers members = members.map fun m => quoted m.1 ++ ":" ++ m.2.print := by
  induction members with
  | nil => rfl
  | cons m rest ih => rw [printMembers, ih, List.map_cons]

theorem toldApart_member {m n : String × Json} (hname : m.1 = n.1) (h : ToldApart (fun j => j.print.toList) m.2 n.2) :
    ToldApart (fun m : String × Json => (quoted m.1 ++ ":" ++ m.2.print).toList) m n := by
  obtain ⟨k, a⟩ := m
  obtain ⟨l, b⟩ := n
  obtain rfl : k = l := hname
  intro us vs ht
  simp only [String.toList_append, List.append_assoc] at ht
  obtain ⟨hab, hrest⟩ := h us vs (List.append_cancel_left (List.append_cancel_left ht))
  exact ⟨congrArg _ hab, hrest⟩

/-- Lists whose items are told apart by their texts are told apart by the list of these texts. -/
theorem toldApart_listed {α : Type} {f : α → String} {as bs : List α} (front back : String)
    (h : List.Forall₂ (ToldApart fun a => (f a).toList) as bs) :
    ToldApart (fun l => (front ++ ",".intercalate (l.map f) ++ back).toList) as bs := by
  intro us vs ht
  simp only [String.toList_append, String.toList_intercalate, List.map_map, List.append_assoc] at ht
  exact (ToldApart.intercalate _ h _ _ (List.append_cancel_left ht)).imp_right List.append_cancel_left

mutual

/-- Equal documents are told apart by their texts. -/
theorem toldApart : ∀ {a b : Json}, a.equiv b → ToldApart (fun j => j.print.toList) a b
  | .null, b, h => by
      cases b with
      | null => exact .of_eq rfl
      | _ => cases h
  | .bool a, b, h => by
      cases b with
      | bool b => exact .of_eq (congrArg _ (eq_of_beq h))
      | _ => cases h
  | .number m, b, h => by
      cases b with
      | number n =>
          intro us vs ht
          exact (Number.toldApart h us vs ht).imp_left (congrArg _)
      | _ => cases h
  | .text s, b, h => by
      cases b with
      | text t => exact .of_eq (congrArg _ (eq_of_beq h))
      | _ => cases h
  | .array as, b, h => by
      cases b with
      | array bs =>
          intro us vs ht
          simp only [print, printItems_eq] at ht
          exact (toldApart_listed "[" "]" (toldApart_items h) us vs ht).imp_left (congrArg _)
      | _ => cases h
  | .object as, b, h => by
      cases b with
      | object bs =>
          intro us vs ht
          simp only [print, printMembers_eq] at ht
          exact (toldApart_listed "\x7b" "\x7d" (toldApart_members h) us vs ht).imp_left (congrArg _)
      | _ => cases h

theorem toldApart_items : ∀ {as bs : List Json}, equivItems as bs →
    List.Forall₂ (ToldApart fun j => j.print.toList) as bs
  | [], bs, h => by
      cases bs with
      | nil => exact .nil
      | cons => cases h
  | a :: as, bs, h => by
      cases bs with
      | nil => cases h
      | cons b bs =>
          rw [equivItems, Bool.and_eq_true] at h
          exact .cons (toldApart h.1) (toldApart_items h.2)

theorem toldApart_members : ∀ {as bs : List (String × Json)}, equivMembers as bs →
    List.Forall₂ (ToldApart fun m : String × Json => (quoted m.1 ++ ":" ++ m.2.print).toList) as bs
  | [], bs, h => by
      cases bs with
      | nil => exact .nil
      | cons => cases h
  | (k, a) :: as, bs, h => by
      cases bs with
      | nil => cases h
      | cons n bs =>
          rw [equivMembers, Bool.and_eq_true, Bool.and_eq_true, beq_iff_eq] at h
          exact .cons (toldApart_member h.1.1 (toldApart h.1.2)) (toldApart_members h.2)

end

mutual

/-- The floats of a document, from the first to the last. -/
def floats : Json → List Binary64
  | .number (.float x) => [x]
  | .array items => floatsOfItems items
  | .object members => floatsOfMembers members
  | _ => []

def floatsOfItems : List Json → List Binary64
  | [] => []
  | j :: rest => floats j ++ floatsOfItems rest

def floatsOfMembers : List (String × Json) → List Binary64
  | [] => []
  | (_, j) :: rest => floats j ++ floatsOfMembers rest

end

mutual

/-- A document without zeros among its floats is equal to itself only. -/
theorem eq_of_equiv : ∀ {a b : Json}, (∀ x ∈ a.floats, x.isZero = false) → a.equiv b → a = b
  | .null, b, _, h => by
      cases b with
      | null => rfl
      | _ => cases h
  | .bool a, b, _, h => by
      cases b with
      | bool b => exact congrArg _ (eq_of_beq h)
      | _ => cases h
  | .number (.integer m), b, _, h => by
      cases b with
      | number n =>
          cases n with
          | integer n => exact congrArg _ (congrArg _ (eq_of_beq h))
          | float y => cases h
      | _ => cases h
  | .number (.float x), b, hz, h => by
      cases b with
      | number n =>
          cases n with
          | integer n => cases h
          | float y =>
              rcases Binary64.eq_or_isZero_of_numEq h with rfl | ⟨hx, _⟩
              · rfl
              · rw [hz x List.mem_cons_self] at hx
                cases hx
      | _ => cases h
  | .text s, b, _, h => by
      cases b with
      | text t => exact congrArg _ (eq_of_beq h)
      | _ => cases h
  | .array as, b, hz, h => by
      cases b with
      | array bs => exact congrArg _ (eq_of_equivItems hz h)
      | _ => cases h
  | .object as, b, hz, h => by
      cases b with
      | object bs => exact congrArg _ (eq_of_equivMembers hz h)
      | _ => cases h

theorem eq_of_equivItems : ∀ {as bs : List Json}, (∀ x ∈ floatsOfItems as, x.isZero = false) →
    equivItems as bs → as = bs
  | [], bs, _, h => by
      cases bs with
      | nil => rfl
      | cons => cases h
  | a :: as, bs, hz, h => by
      cases bs with
      | nil => cases h
      | cons b bs =>
          rw [floatsOfItems, List.forall_mem_append] at hz
          rw [equivItems, Bool.and_eq_true] at h
          rw [eq_of_equiv hz.1 h.1, eq_of_equivItems hz.2 h.2]

theorem eq_of_equivMembers : ∀ {as bs : List (String × Json)}, (∀ x ∈ floatsOfMembers as, x.isZero = false) →
    equivMembers as bs → as = bs
  | [], bs, _, h => by
      cases bs with
      | nil => rfl
      | cons => cases h
  | (k, a) :: as, bs, hz, h => by
      cases bs with
      | nil => cases h
      | cons n bs =>
          rw [floatsOfMembers, List.forall_mem_append] at hz
          rw [equivMembers, Bool.and_eq_true, Bool.and_eq_true, beq_iff_eq] at h
          rw [eq_of_equiv hz.1 h.1.2, eq_of_equivMembers hz.2 h.2, h.1.1]

end

theorem Number.numEq_of_numEq_right {l m n : Number} (hl : l.numEq n) (hm : m.numEq n) : l.numEq m := by
  cases n with
  | integer n =>
      cases l with
      | integer l =>
          cases m with
          | integer m => exact beq_iff_eq.mpr ((eq_of_beq hl).trans (eq_of_beq hm).symm)
          | float y => cases hm
      | float x => cases hl
  | float z =>
      cases l with
      | integer l => cases hl
      | float x =>
          cases m with
          | integer m => cases hm
          | float y => exact Binary64.numEq_of_numEq_right hl hm

mutual

/-- Documents that are equal to a third are equal. -/
theorem equiv_of_equiv_right : ∀ {a b c : Json}, a.equiv c → b.equiv c → a.equiv b
  | a, b, .null, ha, hb => by
      cases a <;> cases b <;> first
        | rfl
        | exact absurd ha Bool.false_ne_true
        | exact absurd hb Bool.false_ne_true
  | a, b, .bool c, ha, hb => by
      cases a <;> cases b <;> first
        | exact beq_iff_eq.mpr ((eq_of_beq ha).trans (eq_of_beq hb).symm)
        | exact absurd ha Bool.false_ne_true
        | exact absurd hb Bool.false_ne_true
  | a, b, .number c, ha, hb => by
      cases a <;> cases b <;> first
        | exact Number.numEq_of_numEq_right ha hb
        | exact absurd ha Bool.false_ne_true
        | exact absurd hb Bool.false_ne_true
  | a, b, .text c, ha, hb => by
      cases a <;> cases b <;> first
        | exact beq_iff_eq.mpr ((eq_of_beq ha).trans (eq_of_beq hb).symm)
        | exact absurd ha Bool.false_ne_true
        | exact absurd hb Bool.false_ne_true
  | a, b, .array cs, ha, hb => by
      cases a <;> cases b <;> first
        | exact equivItems_of_equivItems_right ha hb
        | exact absurd ha Bool.false_ne_true
        | exact absurd hb Bool.false_ne_true
  | a, b, .object cs, ha, hb => by
      cases a <;> cases b <;> first
        | exact equivMembers_of_equivMembers_right ha hb
        | exact absurd ha Bool.false_ne_true
        | exact absurd hb Bool.false_ne_true

theorem equivItems_of_equivItems_right : ∀ {as bs cs : List Json}, equivItems as cs → equivItems bs cs →
    equivItems as bs
  | as, bs, [], ha, hb => by
      cases as <;> cases bs <;> first
        | rfl
        | exact absurd ha Bool.false_ne_true
        | exact absurd hb Bool.false_ne_true
  | as, bs, c :: cs, ha, hb => by
      cases as with
      | nil => cases ha
      | cons a as =>
          cases bs with
          | nil => cases hb
          | cons b bs =>
              rw [equivItems, Bool.and_eq_true] at ha hb ⊢
              exact ⟨equiv_of_equiv_right ha.1 hb.1, equivItems_of_equivItems_right ha.2 hb.2⟩

theorem equivMembers_of_equivMembers_right : ∀ {as bs cs : List (String × Json)}, equivMembers as cs →
    equivMembers bs cs → equivMembers as bs
  | as, bs, [], ha, hb => by
      cases as <;> cases bs <;> first
        | rfl
        | exact absurd ha Bool.false_ne_true
        | exact absurd hb Bool.false_ne_true
  | as, bs, (k, c) :: cs, ha, hb => by
      cases as with
      | nil => cases ha
      | cons a as =>
          cases bs with
          | nil => cases hb
          | cons b bs =>
              obtain ⟨l, a⟩ := a
              obtain ⟨m, b⟩ := b
              rw [equivMembers, Bool.and_eq_true, Bool.and_eq_true, beq_iff_eq] at ha hb ⊢
              exact ⟨⟨ha.1.1.trans hb.1.1.symm, equiv_of_equiv_right ha.1.2 hb.1.2⟩,
                equivMembers_of_equivMembers_right ha.2 hb.2⟩

end

end Json

/-! ## Values -/

namespace Value

/-- A value as records and documents are made: a map has every name once, and the floats of a document are finite. -/
inductive WellFormed : Value → Prop
  | scalar {v : Value} (h : v.isScalar) : WellFormed v
  | json {j : Json} (finite : ∀ x ∈ j.floats, x.isFinite) : WellFormed (.json j)
  | list {items : List Value} (within : ∀ v ∈ items, WellFormed v) : WellFormed (.list items)
  | map {entries : List (String × Value)} (names : (entries.map Prod.fst).Nodup)
      (within : ∀ e ∈ entries, WellFormed e.2) : WellFormed (.map entries)

/-- A value in which there is nothing to turn round: no map with two entries, and no zero among the floats of a
document. -/
inductive OneSpelling : Value → Prop
  | scalar {v : Value} (h : v.isScalar) : OneSpelling v
  | json {j : Json} (nonzero : ∀ x ∈ j.floats, x.isZero = false) : OneSpelling (.json j)
  | list {items : List Value} (within : ∀ v ∈ items, OneSpelling v) : OneSpelling (.list items)
  | map {entries : List (String × Value)} (sole : entries.length ≤ 1)
      (within : ∀ e ∈ entries, OneSpelling e.2) : OneSpelling (.map entries)

variable {a b : Value}

theorem equivItems_iff {as bs : List Value} : equivItems as bs ↔ List.Forall₂ (fun a b => a.equiv b = true) as bs := by
  induction as generalizing bs with
  | nil => cases bs <;> simp [equivItems]
  | cons a rest ih =>
      cases bs with
      | nil => simp [equivItems]
      | cons b bs => rw [equivItems, Bool.and_eq_true, ih, List.forall₂_cons]

theorem equivEntries_iff {as bs : List (String × Value)} :
    equivEntries as bs ↔ ∀ e ∈ as, ∃ b, bs.lookup e.1 = some b ∧ e.2.equiv b := by
  induction as with
  | nil => simp [equivEntries]
  | cons e rest ih =>
      obtain ⟨k, a⟩ := e
      rw [equivEntries, Bool.and_eq_true, ih, List.forall_mem_cons]
      cases bs.lookup k <;> simp

theorem forall₂_equiv_right {as bs cs : List Value}
    (h : ∀ b ∈ bs, ∀ a c : Value, a.equiv c → b.equiv c → a.equiv b)
    (ha : List.Forall₂ (fun a c => a.equiv c = true) as cs) (hb : List.Forall₂ (fun b c => b.equiv c = true) bs cs) :
    List.Forall₂ (fun a b => a.equiv b = true) as bs := by
  induction hb generalizing as with
  | nil =>
      cases ha
      exact .nil
  | @cons b c bs cs hbc _ ih =>
      cases ha with
      | cons hac hrest =>
          exact .cons (h b List.mem_cons_self _ c hac hbc) (ih (fun b hb => h b (List.mem_cons_of_mem _ hb)) hrest)

/-- Values that are equal to a third are equal. -/
theorem equiv_of_equiv_right (hwell : b.WellFormed) (ha : a.equiv c) (hb : b.equiv c) : a.equiv b := by
  induction hwell generalizing a c with
  | @scalar b hscalar =>
      obtain rfl := (equiv_iff_of_isScalar hscalar).mp hb
      exact ha
  | @json j _ =>
      cases c with
      | json l =>
          cases a with
          | json k => exact Json.equiv_of_equiv_right ha hb
          | _ => cases ha
      | _ => cases hb
  | @list bs _ ih =>
      cases c with
      | list cs =>
          cases a with
          | list as =>
              rw [equiv, equivItems_iff] at ha hb ⊢
              exact forall₂_equiv_right (fun b hb _ _ => ih b hb) ha hb
          | _ => cases ha
      | _ => cases hb
  | @map bs names _ ih =>
      cases c with
      | map cs =>
          cases a with
          | map as =>
              rw [equiv, Bool.and_eq_true, beq_iff_eq, equivEntries_iff] at ha hb ⊢
              refine ⟨ha.1.trans hb.1.symm, fun e he => ?_⟩
              obtain ⟨v, hv, hev⟩ := ha.2 e he
              -- As many names as the third has, and all of them there, are all of its names.
              have hkeys : cs.map Prod.fst ⊆ bs.map Prod.fst := by
                have hsub : bs.map Prod.fst ⊆ cs.map Prod.fst := fun k hk => by
                  obtain ⟨e', he', rfl⟩ := List.mem_map.mp hk
                  obtain ⟨w, hw, _⟩ := hb.2 e' he'
                  exact mem_keys_of_lookup hw
                exact ((List.subperm_of_subset names hsub).perm_of_length_le (by simp [hb.1])).symm.subset
              obtain ⟨e', he', hname⟩ := List.mem_map.mp (hkeys (mem_keys_of_lookup hv))
              obtain ⟨w, hw, hew⟩ := hb.2 e' he'
              rw [hname, hv] at hw
              obtain rfl := Option.some.inj hw
              exact ⟨e'.2, hname ▸ (lookup_eq_some_iff_mem names).mpr he', ih e' he' hev hew⟩
          | _ => cases ha
      | _ => cases hb

theorem fedItems_eq (items : List Value) : fedItems items = items.flatMap fed := by
  induction items with
  | nil => rfl
  | cons v rest ih => rw [fedItems, ih, List.flatMap_cons]

/-- Entries that are fed alike in their order are the same if the values found under their names are told apart. -/
theorem eq_of_fedEntries {as bs : List (String × Value)} {us vs : List HashPiece} (hnames : (as.map Prod.fst).Nodup)
    (hlength : as.length = bs.length) (h : ∀ e ∈ as, ∃ b, bs.lookup e.1 = some b ∧ ToldApart fed e.2 b)
    (hf : fedEntries as ++ us = fedEntries bs ++ vs) : as = bs ∧ us = vs := by
  induction as generalizing bs with
  | nil =>
      obtain rfl := List.length_eq_zero_iff.mp hlength.symm
      exact ⟨rfl, hf⟩
  | cons e as ih =>
      obtain ⟨k, a⟩ := e
      cases bs with
      | nil => cases hlength
      | cons e' bs =>
          obtain ⟨l, b⟩ := e'
          rw [List.map_cons, List.nodup_cons] at hnames
          simp only [fedEntries, List.cons_append, List.append_assoc] at hf
          obtain ⟨hname, hvalues⟩ := List.cons.inj hf
          obtain rfl := HashPiece.text.inj hname
          obtain ⟨b', hb', htold⟩ := h _ List.mem_cons_self
          rw [List.lookup_cons_self] at hb'
          obtain rfl := Option.some.inj hb'
          obtain ⟨rfl, hrest⟩ := htold _ _ hvalues
          have hbelow : ∀ e ∈ as, ∃ b, bs.lookup e.1 = some b ∧ ToldApart fed e.2 b := by
            intro e he
            obtain ⟨b, hb, htold⟩ := h e (List.mem_cons_of_mem _ he)
            have hne : e.1 ≠ k := by
              rintro rfl
              exact hnames.1 (List.mem_map.mpr ⟨e, he, rfl⟩)
            rw [List.lookup_cons, beq_eq_false_iff_ne.mpr hne] at hb
            exact ⟨b, hb, htold⟩
          obtain ⟨rfl, hend⟩ := ih hnames.2 (Nat.succ.inj hlength) hbelow hrest
          exact ⟨rfl, hend⟩

/-- Equal values are told apart by what they feed. -/
theorem toldApart (ha : a.WellFormed) (h : a.equiv b) : ToldApart fed a b := by
  induction ha generalizing b with
  | scalar hscalar => exact .of_eq ((equiv_iff_of_isScalar hscalar).mp h)
  | @json j _ =>
      cases b with
      | json k =>
          intro us vs hf
          obtain ⟨htext, hend⟩ := List.cons.inj (List.cons.inj hf).2
          have hprint : j.print.toList ++ [] = k.print.toList ++ [] := by rw [HashPiece.text.inj htext]
          exact ⟨congrArg _ (Json.toldApart h [] [] hprint).1, hend⟩
      | _ => cases h
  | @list items _ ih =>
      cases b with
      | list bs =>
          intro us vs hf
          have htold : List.Forall₂ (ToldApart fed) items bs :=
            ((List.forall₂_and_left _ _).mpr ⟨ih, equivItems_iff.mp h⟩).imp fun _ _ hv => hv.1 hv.2
          simp only [fed, fedItems_eq, List.cons_append] at hf
          have hitems := (List.cons.inj (List.cons.inj hf).2).2
          exact (ToldApart.flatMap htold us vs hitems).imp_left (congrArg _)
      | _ => cases h
  | @map entries names _ ih =>
      cases b with
      | map bs =>
          intro us vs hf
          rw [equiv, Bool.and_eq_true, beq_iff_eq] at h
          have htold : ∀ e ∈ entries, ∃ b, bs.lookup e.1 = some b ∧ ToldApart fed e.2 b := fun e he => by
            obtain ⟨b, hb, hequiv⟩ := equivEntries_iff.mp h.2 e he
            exact ⟨b, hb, ih e he hequiv⟩
          have hentries := (List.cons.inj (List.cons.inj hf).2).2
          exact (eq_of_fedEntries names h.1 htold hentries).imp_left (congrArg _)
      | _ => cases h

/-- Equal values are fed alike exactly if they are the same. -/
theorem fed_eq_iff (ha : a.WellFormed) (h : a.equiv b) : a.fed = b.fed ↔ a = b := by
  refine ⟨fun hf => (toldApart ha h [] [] ?_).1, congrArg fed⟩
  rw [hf]

/-- One entry at most is the same as what is found under its name. -/
theorem eq_of_sole {as bs : List (String × Value)} (hsole : as.length ≤ 1) (hlength : as.length = bs.length)
    (h : ∀ e ∈ as, bs.lookup e.1 = some e.2) : as = bs := by
  cases as with
  | nil => exact (List.length_eq_zero_iff.mp hlength.symm).symm
  | cons e rest =>
      obtain rfl : rest = [] := List.length_eq_zero_iff.mp (Nat.le_zero.mp (Nat.le_of_succ_le_succ hsole))
      obtain ⟨e', rfl⟩ := List.length_eq_one_iff.mp hlength.symm
      exact congrArg (fun e => [e]) (List.mem_singleton.mp (mem_of_lookup (h e List.mem_cons_self)))

/-- A value of one spelling is equal to itself only. -/
theorem eq_of_equiv (ha : a.OneSpelling) (h : a.equiv b) : a = b := by
  induction ha generalizing b with
  | scalar hscalar => exact (equiv_iff_of_isScalar hscalar).mp h
  | json nonzero =>
      cases b with
      | json k => exact congrArg _ (Json.eq_of_equiv nonzero h)
      | _ => cases h
  | list _ ih =>
      cases b with
      | list bs =>
          have hitems := ((List.forall₂_and_left _ _).mpr ⟨ih, equivItems_iff.mp h⟩).imp fun _ _ hv => hv.1 hv.2
          rw [List.forall₂_eq_eq_eq] at hitems
          exact congrArg _ hitems
      | _ => cases h
  | @map entries sole _ ih =>
      cases b with
      | map bs =>
          rw [equiv, Bool.and_eq_true, beq_iff_eq] at h
          refine congrArg _ (eq_of_sole sole h.1 fun e he => ?_)
          obtain ⟨b, hb, hequiv⟩ := equivEntries_iff.mp h.2 e he
          rw [hb, ih e he hequiv]
      | _ => cases h

end Value

/-! ## Turned round -/

namespace Binary64

/-- A zero with the other sign; any other float is left as it is. -/
def resigned (x : Binary64) : Binary64 := if x.isZero then x.neg else x

variable {x : Binary64}

theorem eq_ofMagnitude_of_isZero (h : x.isZero) : x = ofMagnitude x.negative 0 := by
  have hzero : x.magnitude = 0 := eq_of_beq h
  cases hx : x.negative with
  | false => exact eq_of_negative_of_magnitude hx hzero
  | true => exact eq_of_negative_of_magnitude hx hzero

theorem isFinite_resigned (h : x.isFinite) : x.resigned.isFinite := by
  rw [resigned]
  split
  · next hzero =>
    rw [eq_ofMagnitude_of_isZero hzero]
    cases x.negative <;> decide
  · exact h

theorem numEq_resigned (h : x.isFinite) : x.numEq x.resigned := by
  rw [resigned]
  split
  · next hzero =>
    rw [eq_ofMagnitude_of_isZero hzero]
    cases x.negative <;> decide
  · have hnan : x.isNaN = false := by
      simp only [isFinite, isNaN, decide_eq_true_eq, decide_eq_false_iff_not] at h ⊢
      omega
    simp [numEq, compare?, hnan]

theorem isZero_eq_false_of_resigned (h : x.resigned = x) : x.isZero = false := by
  rw [← Bool.not_eq_true]
  intro hzero
  rw [resigned, if_pos hzero, eq_ofMagnitude_of_isZero hzero] at h
  cases hx : x.negative <;> rw [hx] at h <;> exact absurd h (by decide)

end Binary64

namespace Json

mutual

/-- A document with the other sign at every zero among its floats. -/
def resigned : Json → Json
  | .number (.float x) => .number (.float x.resigned)
  | .array items => .array (resignedItems items)
  | .object members => .object (resignedMembers members)
  | j => j

def resignedItems : List Json → List Json
  | [] => []
  | j :: rest => resigned j :: resignedItems rest

def resignedMembers : List (String × Json) → List (String × Json)
  | [] => []
  | (name, j) :: rest => (name, resigned j) :: resignedMembers rest

end

mutual

theorem floats_resigned : ∀ j : Json, j.resigned.floats = j.floats.map Binary64.resigned
  | .null | .bool _ | .number (.integer _) | .text _ => rfl
  | .number (.float _) => rfl
  | .array items => floatsOfItems_resigned items
  | .object members => floatsOfMembers_resigned members

theorem floatsOfItems_resigned : ∀ items : List Json,
    floatsOfItems (resignedItems items) = (floatsOfItems items).map Binary64.resigned
  | [] => rfl
  | j :: rest => by
      rw [resignedItems, floatsOfItems, floatsOfItems, List.map_append, floats_resigned j, floatsOfItems_resigned rest]

theorem floatsOfMembers_resigned : ∀ members : List (String × Json),
    floatsOfMembers (resignedMembers members) = (floatsOfMembers members).map Binary64.resigned
  | [] => rfl
  | (_, j) :: rest => by
      rw [resignedMembers, floatsOfMembers, floatsOfMembers, List.map_append, floats_resigned j,
        floatsOfMembers_resigned rest]

end

mutual

/-- A document is equal to itself with the other signs. -/
theorem equiv_resigned : ∀ {j : Json}, (∀ x ∈ j.floats, x.isFinite) → j.equiv j.resigned
  | .null, _ => rfl
  | .bool b, _ => beq_self_eq_true b
  | .number (.integer n), _ => beq_self_eq_true n
  | .number (.float x), h => Binary64.numEq_resigned (h x List.mem_cons_self)
  | .text s, _ => beq_self_eq_true s
  | .array _, h => equivItems_resigned h
  | .object _, h => equivMembers_resigned h

theorem equivItems_resigned : ∀ {items : List Json}, (∀ x ∈ floatsOfItems items, x.isFinite) →
    equivItems items (resignedItems items)
  | [], _ => rfl
  | j :: rest, h => by
      rw [floatsOfItems, List.forall_mem_append] at h
      rw [resignedItems, equivItems, equiv_resigned h.1, equivItems_resigned h.2, Bool.and_true]

theorem equivMembers_resigned : ∀ {members : List (String × Json)}, (∀ x ∈ floatsOfMembers members, x.isFinite) →
    equivMembers members (resignedMembers members)
  | [], _ => rfl
  | (_, j) :: rest, h => by
      rw [floatsOfMembers, List.forall_mem_append] at h
      rw [resignedMembers, equivMembers, beq_self_eq_true, equiv_resigned h.1, equivMembers_resigned h.2,
        Bool.and_true, Bool.and_true]

end

end Json

namespace Value

variable {a b : Value}

mutual

/-- A value with its maps turned round and the other sign at the zeros of its documents. -/
def respelled : Value → Value
  | .json j => .json j.resigned
  | .list items => .list (respelledItems items)
  | .map entries => .map (respelledEntries entries).reverse
  | v => v

def respelledItems : List Value → List Value
  | [] => []
  | v :: rest => respelled v :: respelledItems rest

def respelledEntries : List (String × Value) → List (String × Value)
  | [] => []
  | (name, v) :: rest => (name, respelled v) :: respelledEntries rest

end

theorem respelled_of_isScalar {v : Value} (h : v.isScalar) : v.respelled = v := by
  cases v <;> first | rfl | cases h

theorem respelledItems_eq (items : List Value) : respelledItems items = items.map respelled := by
  induction items with
  | nil => rfl
  | cons v rest ih => rw [respelledItems, ih, List.map_cons]

theorem respelledEntries_eq (entries : List (String × Value)) :
    respelledEntries entries = entries.map fun e => (e.1, e.2.respelled) := by
  induction entries with
  | nil => rfl
  | cons e rest ih => rw [respelledEntries, ih, List.map_cons]

theorem keys_respelledEntries (entries : List (String × Value)) :
    (respelledEntries entries).map Prod.fst = entries.map Prod.fst := by
  rw [respelledEntries_eq, List.map_map]
  rfl

theorem WellFormed.respelled {v : Value} (h : v.WellFormed) : v.respelled.WellFormed := by
  induction h with
  | scalar hscalar =>
      rw [respelled_of_isScalar hscalar]
      exact .scalar hscalar
  | json finite =>
      refine .json fun x hx => ?_
      rw [Json.floats_resigned] at hx
      obtain ⟨y, hy, rfl⟩ := List.mem_map.mp hx
      exact Binary64.isFinite_resigned (finite y hy)
  | list _ ih =>
      refine .list fun w hw => ?_
      rw [respelledItems_eq] at hw
      obtain ⟨v, hv, rfl⟩ := List.mem_map.mp hw
      exact ih v hv
  | map names _ ih =>
      refine .map ?_ fun e he => ?_
      · rw [List.map_reverse, List.nodup_reverse, keys_respelledEntries]
        exact names
      · rw [List.mem_reverse, respelledEntries_eq] at he
        obtain ⟨e', he', rfl⟩ := List.mem_map.mp he
        exact ih e' he'

theorem equiv_respelled {v : Value} (h : v.WellFormed) : v.equiv v.respelled := by
  induction h with
  | scalar hscalar => rw [respelled_of_isScalar hscalar, equiv_iff_of_isScalar hscalar]
  | json finite => exact Json.equiv_resigned finite
  | list _ ih =>
      rw [respelled, equiv, equivItems_iff, respelledItems_eq, List.forall₂_map_right_iff, List.forall₂_same]
      exact ih
  | @map entries names _ ih =>
      have hnames : ((respelledEntries entries).reverse.map Prod.fst).Nodup := by
        rw [List.map_reverse, List.nodup_reverse, keys_respelledEntries]
        exact names
      rw [respelled, equiv, Bool.and_eq_true, beq_iff_eq, equivEntries_iff, List.length_reverse]
      refine ⟨by rw [respelledEntries_eq, List.length_map], fun e he => ⟨e.2.respelled, ?_, ih e he⟩⟩
      rw [lookup_eq_some_iff_mem hnames, List.mem_reverse, respelledEntries_eq]
      exact List.mem_map.mpr ⟨e, he, rfl⟩

/-- A list without repetition that reads the same backwards has one item at most. -/
theorem length_le_one_of_reverse_eq {α : Type} {l : List α} (hnd : l.Nodup) (h : l.reverse = l) : l.length ≤ 1 := by
  cases l with
  | nil => exact Nat.zero_le 1
  | cons a rest =>
      -- The first item is the last one too.
      have hlast : (a :: rest).getLast? = some a := by
        rw [← h, List.getLast?_reverse, List.head?_cons]
      cases rest with
      | nil => exact Nat.le_refl 1
      | cons b rest =>
          rw [List.getLast?_cons_cons] at hlast
          exact absurd (List.mem_of_getLast? hlast) (List.nodup_cons.mp hnd).1

/-- A value that stays the same when it is turned round has nothing in it to turn round. -/
theorem oneSpelling_of_respelled {v : Value} (h : v.WellFormed) (heq : v.respelled = v) : v.OneSpelling := by
  induction h with
  | scalar hscalar => exact .scalar hscalar
  | @json j _ =>
      refine .json fun x hx => Binary64.isZero_eq_false_of_resigned ?_
      have hfloats : j.floats.map Binary64.resigned = j.floats.map id := by
        rw [← Json.floats_resigned, Value.json.inj heq, List.map_id]
      exact List.map_inj_left.mp hfloats x hx
  | @list items _ ih =>
      have hitems : items.map Value.respelled = items.map id := by
        rw [← respelledItems_eq, Value.list.inj heq, List.map_id]
      exact .list fun v hv => ih v hv (List.map_inj_left.mp hitems v hv)
  | @map entries names _ ih =>
      have hentries := Value.map.inj heq
      have hsole : entries.length ≤ 1 := by
        have hnames := congrArg (List.map Prod.fst) hentries
        rw [List.map_reverse, keys_respelledEntries] at hnames
        rw [← List.length_map Prod.fst]
        exact length_le_one_of_reverse_eq names hnames
      refine .map hsole fun e he => ih e he ?_
      obtain ⟨e', rfl⟩ : ∃ e', entries = [e'] := List.length_eq_one_iff.mp (by
        have := List.length_pos_of_mem he
        omega)
      obtain rfl := List.mem_singleton.mp he
      exact congrArg Prod.snd (List.singleton_inj.mp hentries)

/-- Equal values are fed to a hasher alike exactly if they are the same, and a value is fed like all that it is equal
to exactly if it has one spelling: no map of two entries in it, and no zero among the floats of its documents. -/
theorem fed_of_equal (ha : a.WellFormed) :
    (∀ b : Value, a.equiv b → (a.fed = b.fed ↔ a = b)) ∧
      ((∀ b : Value, b.WellFormed → a.equiv b → a.fed = b.fed) ↔ a.OneSpelling) := by
  refine ⟨fun b h => fed_eq_iff ha h, fun h => ?_, fun h b _ hb => congrArg fed (eq_of_equiv h hb)⟩
  have hfed := h _ ha.respelled (equiv_respelled ha)
  exact oneSpelling_of_respelled ha ((fed_eq_iff ha (equiv_respelled ha)).mp hfed).symm

/-- Two entries in one order and in the other. -/
def oneTwo : Value := .map [("a", .int 1), ("b", .int 2)]

def twoOne : Value := .map [("b", .int 2), ("a", .int 1)]

theorem wellFormed_pair {k l : String} (m n : Int64) (h : k ≠ l) : WellFormed (.map [(k, .int m), (l, .int n)]) := by
  refine .map (by simp [h]) fun e he => .scalar ?_
  simp only [List.mem_cons, List.not_mem_nil, or_false] at he
  rcases he with rfl | rfl <;> rfl

theorem fed_of_oneTwo : oneTwo.WellFormed ∧ oneTwo.fed ≠ twoOne.fed ∧ ¬ oneTwo.OneSpelling := by
  have hwell : oneTwo.WellFormed := wellFormed_pair 1 2 (by decide)
  have hdiffer : oneTwo.fed ≠ twoOne.fed :=
    fun h => absurd (((fed_of_equal hwell).1 twoOne (by decide)).mp h) (by decide)
  exact ⟨hwell, hdiffer, fun h => hdiffer ((fed_of_equal hwell).2.mpr h _ (wellFormed_pair 2 1 (by decide)) (by decide))⟩

/-- The two orders are equal, yet they are fed differently, and both stay where a value is kept once. -/
theorem oneTwo_kept_twice :
    oneTwo.equiv twoOne ∧ oneTwo.fed ≠ twoOne.fed ∧ distinctOf [oneTwo, twoOne] = [oneTwo, twoOne] := by
  decide

end Value

end RecordMapper
