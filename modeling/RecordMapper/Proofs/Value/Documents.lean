import RecordMapper.Value.Document
import RecordMapper.Proofs.Json.Merging
import RecordMapper.Proofs.Value.Hashing

/-!
# Documents — values written as documents and read back

Reading a document gives a value of the kinds that documents have, and
writing such a value gives the document again: integers of a signed word
stay integers and finite floats stay floats, at every depth
(`toJson_ofJson_iff`). The other way round a map comes back with its
entries in the order of their names, which is the same map
(`equiv_ofJson_toJson_iff`). Whatever has no form of its own in a
document does not come back.
-/

namespace RecordMapper

open scoped List

namespace Json

/-- A document whose numbers are integers of a signed word and finite floats, and whose objects have their members
in the order of their names, each name once. -/
inductive Regular : Json → Prop
  | null : Regular .null
  | bool (b : Bool) : Regular (.bool b)
  | integer {n : Int} (fits : FitsWord n) : Regular (.number (.integer n))
  | float {x : Binary64} (finite : x.isFinite) : Regular (.number (.float x))
  | text (s : String) : Regular (.text s)
  | array {items : List Json} (within : ∀ j ∈ items, Regular j) : Regular (.array items)
  | object {members : List (String × Json)} (names : (members.map Prod.fst).Pairwise (· < ·))
      (within : ∀ m ∈ members, Regular m.2) : Regular (.object members)

variable {members more : List (String × Json)} {name : String} {v : Json}

/-! ## Objects of given members -/

/-- A member of a new name is one more. -/
theorem insertMember_perm (h : name ∉ members.map Prod.fst) : insertMember name v members ~ (name, v) :: members := by
  induction members with
  | nil => exact .refl _
  | cons m rest ih =>
      obtain ⟨k, w⟩ := m
      rw [List.map_cons, List.mem_cons, not_or] at h
      rw [insertMember, if_neg h.1]
      split
      · exact .refl _
      · exact ((ih h.2).cons (k, w)).trans (.swap _ _ _)

theorem foldl_insertMember_perm (h : ((members ++ more).map Prod.fst).Nodup) :
    more.foldl (fun acc (k, v) => insertMember k v acc) members ~ members ++ more := by
  induction more generalizing members with
  | nil => rw [List.append_nil]; exact .refl _
  | cons m more ih =>
      obtain ⟨k, w⟩ := m
      have hmoved : (k, w) :: (members ++ more) ~ members ++ (k, w) :: more := List.perm_middle.symm
      have hfresh := (hmoved.map Prod.fst).nodup_iff.mpr h
      rw [List.map_cons, List.nodup_cons, List.map_append, List.mem_append, not_or] at hfresh
      have hinserted : insertMember k w members ++ more ~ members ++ (k, w) :: more :=
        ((insertMember_perm hfresh.1.1).append_right more).trans hmoved
      exact (ih ((hinserted.map Prod.fst).nodup_iff.mpr h)).trans hinserted

/-- However an object is made of members, it has them in the order of their names. -/
theorem sorted_of_ofMembers_eq (h : ofMembers more = .object members) : (members.map Prod.fst).Pairwise (· < ·) := by
  obtain rfl := Json.object.inj h
  exact List.foldlRecOn (motive := fun acc : List (String × Json) => (acc.map Prod.fst).Pairwise (· < ·)) more _
    .nil fun _ hacc _ _ => sorted_insertMember hacc

/-- Members of distinct names are the members of the object that is made of them. -/
theorem exists_ofMembers_eq (h : (more.map Prod.fst).Nodup) : ∃ members, ofMembers more = .object members ∧
    members ~ more := by
  refine ⟨_, rfl, ?_⟩
  rw [← List.nil_append more] at h
  exact foldl_insertMember_perm h

/-- Members in the order of their names make the object of just these members. -/
theorem ofMembers_of_sorted (h : (members.map Prod.fst).Pairwise (· < ·)) : ofMembers members = .object members := by
  obtain ⟨made, hobject, hperm⟩ := exists_ofMembers_eq (nodup_names h)
  have hmade : made.Pairwise fun m n => m.1 < n.1 := List.pairwise_map.mp (sorted_of_ofMembers_eq hobject)
  have hmembers : members.Pairwise fun m n => m.1 < n.1 := List.pairwise_map.mp h
  have hsame : made = members :=
    List.Perm.eq_of_pairwise (fun _ _ _ _ hmn hnm => absurd hnm (String.lt_asymm hmn)) hmade hmembers hperm
  rw [hobject, hsame]

end Json

namespace Value

/-- A value of the kinds that documents have: null, truth values, integers, finite floats, texts, and lists and maps
of such values. -/
inductive Documentary : Value → Prop
  | null : Documentary .null
  | bool (b : Bool) : Documentary (.bool b)
  | int (n : Int64) : Documentary (.int n)
  | float {x : Binary64} (finite : x.isFinite) : Documentary (.float x)
  | text (s : String) : Documentary (.text s)
  | list {items : List Value} (within : ∀ v ∈ items, Documentary v) : Documentary (.list items)
  | map {entries : List (String × Value)} (within : ∀ e ∈ entries, Documentary e.2) : Documentary (.map entries)

/-! ## Item by item and entry by entry -/

theorem itemsToJson_eq (items : List Value) : itemsToJson items = items.map toJson := by
  induction items with
  | nil => rfl
  | cons v rest ih => rw [itemsToJson, ih, List.map_cons]

theorem entriesToJson_eq (entries : List (String × Value)) :
    entriesToJson entries = entries.map fun e => (e.1, e.2.toJson) := by
  induction entries with
  | nil => rfl
  | cons e rest ih => rw [entriesToJson, ih, List.map_cons]

theorem itemsOfJson_eq (items : List Json) : itemsOfJson items = items.map ofJson := by
  induction items with
  | nil => rfl
  | cons j rest ih => rw [itemsOfJson, ih, List.map_cons]

theorem entriesOfJson_eq (members : List (String × Json)) :
    entriesOfJson members = members.map fun m => (m.1, ofJson m.2) := by
  induction members with
  | nil => rfl
  | cons m rest ih => rw [entriesOfJson, ih, List.map_cons]

theorem toJson_ofJson_array (items : List Json) :
    (ofJson (.array items)).toJson = .array (items.map fun j => (ofJson j).toJson) := by
  rw [ofJson, toJson, itemsToJson_eq, itemsOfJson_eq, List.map_map]
  rfl

theorem toJson_ofJson_object (members : List (String × Json)) :
    (ofJson (.object members)).toJson = .ofMembers (members.map fun m => (m.1, (ofJson m.2).toJson)) := by
  rw [ofJson, toJson, entriesToJson_eq, entriesOfJson_eq, List.map_map]
  rfl

/-! ## Documents read and written -/

theorem toJson_ofNumber_iff {n : Json.Number} : (ofNumber n).toJson = .number n ↔ (Json.number n).Regular := by
  cases n with
  | integer n =>
      cases hword : int64? n with
      | some w =>
          have hn := toInt_of_int64? hword
          have hfits : FitsWord n := by
            have hlow := w.le_toInt
            have hhigh := w.toInt_lt
            constructor <;> omega
          refine iff_of_true ?_ (.integer hfits)
          rw [ofNumber, hword]
          exact congrArg Json.int hn
      | none =>
          -- An integer of more than a word is read as a float, and written as one.
          refine iff_of_false ?_ fun h => ?_
          · rw [ofNumber, hword]
            show Json.ofFloat _ ≠ _
            rw [Json.ofFloat]
            split <;> rintro ⟨⟩
          · cases h with
            | integer fits => rw [int64?, if_pos fits] at hword; cases hword
  | float x =>
      show Json.ofFloat x = _ ↔ _
      rw [Json.ofFloat]
      split
      · rename_i hfinite
        exact iff_of_true rfl (.float hfinite)
      · rename_i hfinite
        refine iff_of_false ?_ fun h => ?_
        · rintro ⟨⟩
        · cases h with
          | float finite => exact hfinite finite

theorem toJson_ofJson {j : Json} (h : j.Regular) : (ofJson j).toJson = j := by
  induction h with
  | null | bool | text => rfl
  | integer fits => exact toJson_ofNumber_iff.mpr (.integer fits)
  | float finite => exact toJson_ofNumber_iff.mpr (.float finite)
  | array _ ih => rw [toJson_ofJson_array, List.map_congr_left ih, List.map_id']
  | @object members names _ ih =>
      have hmembers : members.map (fun m => (m.1, (ofJson m.2).toJson)) = members :=
        (List.map_congr_left fun m hm => by rw [ih m hm]).trans (List.map_id' members)
      rw [toJson_ofJson_object, hmembers, Json.ofMembers_of_sorted names]

/-- An object that comes back has its members in the order of their names, and each of them comes back. -/
theorem members_of_toJson_ofJson {members : List (String × Json)}
    (h : (ofJson (.object members)).toJson = .object members) :
    (members.map Prod.fst).Pairwise (· < ·) ∧ members.map (fun m => (m.1, (ofJson m.2).toJson)) = members := by
  rw [toJson_ofJson_object] at h
  have hnames := Json.sorted_of_ofMembers_eq h
  have hkept : ((members.map fun m => (m.1, (ofJson m.2).toJson)).map Prod.fst).Pairwise (· < ·) := by
    rw [List.map_map]
    exact hnames
  rw [Json.ofMembers_of_sorted hkept] at h
  exact ⟨hnames, Json.object.inj h⟩

mutual

/-- A document that comes back is regular. -/
theorem regular_of_toJson_ofJson : ∀ {j : Json}, (ofJson j).toJson = j → j.Regular
  | .null, _ => .null
  | .bool b, _ => .bool b
  | .number _, h => toJson_ofNumber_iff.mp h
  | .text s, _ => .text s
  | .array items, h => by
      rw [toJson_ofJson_array] at h
      exact .array (regular_items (Json.array.inj h))
  | .object members, h => by
      obtain ⟨hnames, hmembers⟩ := members_of_toJson_ofJson h
      exact .object hnames (regular_members hmembers)

theorem regular_items : ∀ {items : List Json}, items.map (fun j => (ofJson j).toJson) = items →
    ∀ j ∈ items, j.Regular
  | [], _ => List.forall_mem_nil _
  | _ :: _, h => by
      rw [List.map_cons, List.cons.injEq] at h
      exact List.forall_mem_cons.mpr ⟨regular_of_toJson_ofJson h.1, regular_items h.2⟩

theorem regular_members : ∀ {members : List (String × Json)},
    members.map (fun m => (m.1, (ofJson m.2).toJson)) = members → ∀ m ∈ members, m.2.Regular
  | [], _ => List.forall_mem_nil _
  | (_, _) :: _, h => by
      rw [List.map_cons, List.cons.injEq, Prod.mk.injEq] at h
      exact List.forall_mem_cons.mpr ⟨regular_of_toJson_ofJson h.1.2, regular_members h.2⟩

end

/-! ## Values written and read -/

/-- What is read from a document is no document itself. -/
theorem equiv_ofJson_json (j k : Json) : (ofJson j).equiv (.json k) = false := by
  cases j with
  | number n =>
      rw [ofJson, ofNumber.eq_def]
      split
      · split <;> rfl
      · rfl
  | _ => rfl

theorem equiv_ofJson_toJson_of_isScalar {v : Value} (h : v.isScalar) :
    (ofJson v.toJson).equiv v ↔ v.Documentary := by
  cases v with
  | null => exact iff_of_true rfl .null
  | bool b => exact iff_of_true (beq_self_eq_true b) (.bool b)
  | int n =>
      refine iff_of_true ?_ (.int n)
      show (ofNumber (.integer n.toInt)).equiv (.int n) = true
      rw [ofNumber, int64?_toInt]
      exact beq_self_eq_true n
  | text s => exact iff_of_true (beq_self_eq_true s) (.text s)
  | float x =>
      rw [toJson, Json.ofFloat]
      split
      · rename_i hfinite
        exact iff_of_true (beq_self_eq_true x) (.float hfinite)
      · rename_i hfinite
        refine iff_of_false Bool.false_ne_true fun h => ?_
        cases h with
        | float finite => exact hfinite finite
  | bytes | date | instant | uuid => exact iff_of_false Bool.false_ne_true fun h => nomatch h
  | json | list | map => cases h

theorem equiv_ofJson_toJson_list (items : List Value) :
    (ofJson (toJson (.list items))).equiv (.list items) ↔ ∀ v ∈ items, (ofJson v.toJson).equiv v = true := by
  rw [toJson, ofJson, itemsToJson_eq, itemsOfJson_eq, List.map_map, equiv, equivItems_iff, List.forall₂_map_left_iff,
    List.forall₂_same]
  rfl

/-- The entries of a map come back in another order, each with what comes back of its value. -/
theorem equiv_ofJson_toJson_map {entries : List (String × Value)} (names : (entries.map Prod.fst).Nodup) :
    (ofJson (toJson (.map entries))).equiv (.map entries) ↔ ∀ e ∈ entries, (ofJson e.2.toJson).equiv e.2 = true := by
  have hwritten : ((entriesToJson entries).map Prod.fst).Nodup := by
    rw [entriesToJson_eq, List.map_map]
    exact names
  obtain ⟨members, hobject, hmembers⟩ := Json.exists_ofMembers_eq hwritten
  have hback : entriesOfJson members ~ entries.map fun e => (e.1, ofJson e.2.toJson) := by
    have hread := hmembers.map fun m => (m.1, ofJson m.2)
    rw [entriesToJson_eq, List.map_map] at hread
    rw [entriesOfJson_eq]
    exact hread
  have hlength : (entriesOfJson members).length = entries.length := by rw [hback.length_eq, List.length_map]
  rw [toJson, hobject, ofJson, equiv, hlength, beq_self_eq_true, Bool.true_and, equivEntries_iff]
  constructor
  · intro hall e he
    obtain ⟨v, hv, hequiv⟩ := hall (e.1, ofJson e.2.toJson) (hback.mem_iff.mpr (List.mem_map_of_mem he))
    rw [(lookup_eq_some_iff_mem names).mpr he] at hv
    obtain rfl := Option.some.inj hv
    exact hequiv
  · intro hall m hm
    obtain ⟨e, he, rfl⟩ := List.mem_map.mp (hback.mem_iff.mp hm)
    exact ⟨e.2, (lookup_eq_some_iff_mem names).mpr he, hall e he⟩

/-- A value whose maps have every name once comes back from its document as an equal one exactly if it is of the
kinds that documents have. -/
theorem equiv_ofJson_toJson_iff {v : Value} (h : v.WellFormed) : (ofJson v.toJson).equiv v ↔ v.Documentary := by
  induction h with
  | scalar hscalar => exact equiv_ofJson_toJson_of_isScalar hscalar
  | json =>
      rw [equiv_ofJson_json]
      exact iff_of_false Bool.false_ne_true fun h => nomatch h
  | @list items _ ih =>
      rw [equiv_ofJson_toJson_list]
      constructor
      · exact fun hall => .list fun v hv => (ih v hv).mp (hall v hv)
      · intro hdoc v hv
        cases hdoc with
        | list within => exact (ih v hv).mpr (within v hv)
  | @map entries names _ ih =>
      rw [equiv_ofJson_toJson_map names]
      constructor
      · exact fun hall => .map fun e he => (ih e he).mp (hall e he)
      · intro hdoc e he
        cases hdoc with
        | map within => exact (ih e he).mpr (within e he)

/-- A document read as a value is written as the same document exactly if its numbers are integers of a signed word
and finite floats and its members stand in their order; and a value written as a document is read as an
equal value, whatever the order of the entries of its maps, exactly if it is of the kinds that
documents have. -/
theorem documents_read_back :
    (∀ j : Json, (ofJson j).toJson = j ↔ j.Regular) ∧
    ∀ v : Value, v.WellFormed → ((ofJson v.toJson).equiv v ↔ v.Documentary) :=
  ⟨fun _ => ⟨regular_of_toJson_ofJson, toJson_ofJson⟩, fun _ => equiv_ofJson_toJson_iff⟩

/-! ### A record with a list of records -/

/-- A record whose names are not in their order. -/
def befriended : Value := .map [("id", .int 1), ("friends", .list [.map [("id", .int 2)], .map [("rate", .null)]])]

/-- It comes back with its names in their order; an integer of more than a word comes back as a float. -/
theorem befriended_read_back : befriended.WellFormed ∧ (ofJson befriended.toJson).equiv befriended ∧
    ofJson befriended.toJson ≠ befriended ∧ (ofJson (.int 9223372036854775808)).toJson ≠ .int 9223372036854775808 := by
  have hscalar : ∀ (name : String) {v : Value}, v.isScalar → WellFormed (.map [(name, v)]) := fun name v h =>
    .map (List.nodup_singleton name) (List.forall_mem_singleton.mpr (.scalar h))
  have hwell : befriended.WellFormed := by
    refine .map (by decide) (List.forall_mem_cons.mpr ⟨.scalar rfl, List.forall_mem_singleton.mpr ?_⟩)
    exact .list (List.forall_mem_cons.mpr ⟨hscalar "id" rfl, List.forall_mem_singleton.mpr (hscalar "rate" rfl)⟩)
  have hdoc : befriended.Documentary := by
    refine .map (List.forall_mem_cons.mpr ⟨.int 1, List.forall_mem_singleton.mpr ?_⟩)
    exact .list (List.forall_mem_cons.mpr ⟨.map (List.forall_mem_singleton.mpr (.int 2)),
      List.forall_mem_singleton.mpr (.map (List.forall_mem_singleton.mpr .null))⟩)
  refine ⟨hwell, (documents_read_back.2 befriended hwell).mpr hdoc, by decide, fun hback => ?_⟩
  cases (documents_read_back.1 _).mp hback with
  | integer fits => exact absurd fits.2 (by decide)

end Value

end RecordMapper
