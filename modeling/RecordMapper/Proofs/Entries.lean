import Mathlib.Data.List.Nodup
import RecordMapper.Value.Keyed
import RecordMapper.Value.Record

/-!
# Entries — laws of ordered association lists

Putting and erasing an entry, seen through the keys and through the
look-up. The keys of a list without repeated keys stay without
repetition, a put touches one key only, and a look-up that finds
something names a key of the list.

The second half reads the same laws for entries under values, where
the key of a sole entry also answers to what is only equal to it
(`Keyed.seat`).
-/

namespace RecordMapper

variable {κ α : Type} [BEq κ] [LawfulBEq κ]

/-! ## Keys and look-ups -/

theorem lookup_isSome_iff_mem_keys {entries : List (κ × α)} {k : κ} :
    (entries.lookup k).isSome ↔ k ∈ entries.map Prod.fst := by
  rw [List.lookup_isSome_iff, List.mem_map]
  constructor
  · rintro ⟨e, he, hk⟩
    exact ⟨e, he, (eq_of_beq hk).symm⟩
  · rintro ⟨e, he, rfl⟩
    exact ⟨e, he, by simp⟩

theorem lookup_eq_none_iff_not_mem_keys {entries : List (κ × α)} {k : κ} :
    entries.lookup k = none ↔ k ∉ entries.map Prod.fst := by
  rw [← lookup_isSome_iff_mem_keys, Option.not_isSome_iff_eq_none]

theorem mem_keys_of_lookup {entries : List (κ × α)} {k : κ} {a : α}
    (h : entries.lookup k = some a) : k ∈ entries.map Prod.fst :=
  lookup_isSome_iff_mem_keys.mp (by rw [h]; rfl)

/-- What a look-up finds stands in the list. -/
theorem mem_of_lookup {entries : List (κ × α)} {k : κ} {a : α} (h : entries.lookup k = some a) :
    (k, a) ∈ entries := by
  obtain ⟨before, after, rfl, _⟩ := List.lookup_eq_some_iff.mp h
  exact List.mem_append_right before List.mem_cons_self

/-- Where no key is repeated, a look-up finds just the entries that stand in the list. -/
theorem lookup_eq_some_iff_mem {entries : List (κ × α)} (hnd : (entries.map Prod.fst).Nodup) {k : κ}
    {a : α} : entries.lookup k = some a ↔ (k, a) ∈ entries := by
  induction entries with
  | nil => simp
  | cons e rest ih =>
      obtain ⟨l, b⟩ := e
      rw [List.map_cons, List.nodup_cons] at hnd
      rw [List.lookup_cons, List.mem_cons]
      by_cases hk : k = l
      · subst hk
        simp only [beq_self_eq_true, Option.some.injEq, Prod.mk.injEq, true_and]
        constructor
        · exact fun hb => .inl hb.symm
        · rintro (hb | hmem)
          · exact hb.symm
          · exact absurd (List.mem_map_of_mem hmem) hnd.1
      · simp only [beq_eq_false_iff_ne.mpr hk, ih hnd.2, Prod.mk.injEq, hk, false_and, false_or]

/-- Where no key is repeated, the order of the entries does not matter to a look-up. -/
theorem lookup_eq_of_perm {entries others : List (κ × α)} (hnd : (entries.map Prod.fst).Nodup)
    (hp : others.Perm entries) (k : κ) : others.lookup k = entries.lookup k := by
  have hnd' : (others.map Prod.fst).Nodup := ((hp.map Prod.fst).nodup_iff).mpr hnd
  refine Option.ext fun a => ?_
  rw [lookup_eq_some_iff_mem hnd, lookup_eq_some_iff_mem hnd', hp.mem_iff]

/-! ## Putting an entry -/

theorem lookup_insertEntry_self (entries : List (κ × α)) (k : κ) (v : α) :
    (insertEntry entries k v).lookup k = some v := by
  induction entries with
  | nil => simp [insertEntry]
  | cons e rest ih =>
      obtain ⟨l, b⟩ := e
      rw [insertEntry]
      split
      · rename_i hl
        rw [eq_of_beq hl]
        exact List.lookup_cons_self
      · rename_i hl
        have hkl : (k == l) = false := by
          rw [beq_eq_false_iff_ne]
          rintro rfl
          exact hl (beq_self_eq_true k)
        rw [List.lookup_cons, hkl]
        exact ih

theorem lookup_insertEntry_ne (entries : List (κ × α)) {k k' : κ} (h : k' ≠ k) (v : α) :
    (insertEntry entries k v).lookup k' = entries.lookup k' := by
  induction entries with
  | nil => simp [insertEntry, h]
  | cons e rest ih =>
      obtain ⟨l, b⟩ := e
      rw [insertEntry]
      split
      · rename_i hl
        have hlk : (k' == l) = false := by
          rw [eq_of_beq hl]
          exact beq_eq_false_iff_ne.mpr h
        rw [List.lookup_cons, List.lookup_cons, hlk]
      · rw [List.lookup_cons, List.lookup_cons, ih]

/-- Of the entries that are put in one by one the last under a key is found. -/
theorem lookup_foldl_insertEntry (more entries : List (κ × α)) (k : κ) :
    (more.foldl (fun entries e => insertEntry entries e.1 e.2) entries).lookup k =
      (more.reverse.lookup k).or (entries.lookup k) := by
  induction more generalizing entries with
  | nil => rfl
  | cons e rest ih =>
      rw [List.foldl_cons, ih, List.reverse_cons, List.lookup_append, Option.or_assoc]
      by_cases hk : k = e.1
      · rw [hk, lookup_insertEntry_self, List.lookup_cons_self]
        rfl
      · rw [lookup_insertEntry_ne _ hk, List.lookup_cons, beq_eq_false_iff_ne.mpr hk]
        rfl

/-- Putting an entry in that is there changes nothing. -/
theorem insertEntry_of_lookup {entries : List (κ × α)} {k : κ} {v : α} (h : entries.lookup k = some v) :
    insertEntry entries k v = entries := by
  induction entries with
  | nil => cases h
  | cons e rest ih =>
      obtain ⟨k', v'⟩ := e
      rw [List.lookup_cons] at h
      rw [insertEntry]
      by_cases hk : k' = k
      · subst hk
        rw [beq_self_eq_true] at h ⊢
        rw [Option.some.inj h]
        rfl
      · rw [beq_eq_false_iff_ne.mpr (Ne.symm hk)] at h
        rw [beq_eq_false_iff_ne.mpr hk, ih h]
        rfl

/-- A put replaces what its key counts for in a sum. -/
theorem sum_insertEntry (f : α → Nat) (entries : List (κ × α)) (k : κ) (v : α) :
    ((insertEntry entries k v).map fun e => f e.2).foldr (· + ·) 0 + ((entries.lookup k).map f).getD 0 =
      (entries.map fun e => f e.2).foldr (· + ·) 0 + f v := by
  induction entries with
  | nil => simp [insertEntry]
  | cons e rest ih =>
      obtain ⟨l, b⟩ := e
      rw [insertEntry, List.lookup_cons]
      by_cases hl : l = k
      · subst hl
        simp only [beq_self_eq_true, if_true, List.map_cons, List.foldr_cons, Option.map_some, Option.getD_some]
        omega
      · simp only [beq_eq_false_iff_ne.mpr hl, beq_eq_false_iff_ne.mpr (Ne.symm hl), Bool.false_eq_true, if_false,
          List.map_cons, List.foldr_cons]
        omega

/-- What stands in a list after a put is the new entry or stood there before. -/
theorem mem_insertEntry {entries : List (κ × α)} {k : κ} {v : α} {e : κ × α}
    (h : e ∈ insertEntry entries k v) : e = (k, v) ∨ e ∈ entries := by
  induction entries with
  | nil => exact .inl (List.mem_singleton.mp h)
  | cons f rest ih =>
      obtain ⟨l, b⟩ := f
      rw [insertEntry] at h
      split at h
      · rename_i hl
        rcases List.mem_cons.mp h with rfl | hrest
        · exact .inl (by rw [eq_of_beq hl])
        · exact .inr (List.mem_cons_of_mem _ hrest)
      · rcases List.mem_cons.mp h with rfl | hrest
        · exact .inr List.mem_cons_self
        · exact (ih hrest).imp_right (List.mem_cons_of_mem _)

/-- A key that is present keeps its place. -/
theorem keys_insertEntry_of_mem {entries : List (κ × α)} {k : κ} (v : α)
    (h : k ∈ entries.map Prod.fst) :
    (insertEntry entries k v).map Prod.fst = entries.map Prod.fst := by
  induction entries with
  | nil => cases h
  | cons e rest ih =>
      obtain ⟨l, b⟩ := e
      rw [insertEntry]
      split
      · rename_i hl
        simp [eq_of_beq hl]
      · rename_i hl
        rcases List.mem_cons.mp h with rfl | hmem
        · exact absurd (beq_self_eq_true _) hl
        · simp only [List.map_cons, ih hmem]

/-- An entry with a new key stands at the end. -/
theorem insertEntry_of_not_mem {entries : List (κ × α)} {k : κ} (v : α) (h : k ∉ entries.map Prod.fst) :
    insertEntry entries k v = entries ++ [(k, v)] := by
  induction entries with
  | nil => rfl
  | cons e rest ih =>
      obtain ⟨l, b⟩ := e
      simp only [List.map_cons, List.mem_cons, not_or] at h
      have hl : (l == k) = false := beq_eq_false_iff_ne.mpr (Ne.symm h.1)
      simp [insertEntry, hl, ih h.2]

theorem keys_insertEntry_of_not_mem {entries : List (κ × α)} {k : κ} (v : α)
    (h : k ∉ entries.map Prod.fst) :
    (insertEntry entries k v).map Prod.fst = entries.map Prod.fst ++ [k] := by
  rw [insertEntry_of_not_mem v h, List.map_append]
  rfl

theorem mem_keys_insertEntry {entries : List (κ × α)} {k k' : κ} {v : α} :
    k' ∈ (insertEntry entries k v).map Prod.fst ↔ k' = k ∨ k' ∈ entries.map Prod.fst := by
  by_cases hk : k ∈ entries.map Prod.fst
  · rw [keys_insertEntry_of_mem v hk]
    exact ⟨Or.inr, fun h => h.elim (fun e => e ▸ hk) id⟩
  · rw [keys_insertEntry_of_not_mem v hk, List.mem_append, List.mem_singleton, or_comm]

theorem nodup_keys_insertEntry {entries : List (κ × α)} (k : κ) (v : α)
    (h : (entries.map Prod.fst).Nodup) : ((insertEntry entries k v).map Prod.fst).Nodup := by
  by_cases hk : k ∈ entries.map Prod.fst
  · rwa [keys_insertEntry_of_mem v hk]
  · rw [keys_insertEntry_of_not_mem v hk]
    exact List.Nodup.append h (by simp) (by simpa using hk)

/-- Of entries whose keys pass a test, one that is put in is among them if its key passes. -/
theorem filter_insertEntry (p : κ → Bool) (entries : List (κ × α)) (k : κ) (v : α) :
    (insertEntry entries k v).filter (fun e => p e.1) =
      if p k then insertEntry (entries.filter fun e => p e.1) k v else entries.filter fun e => p e.1 := by
  induction entries with
  | nil =>
      rw [insertEntry, List.filter_cons]
      rfl
  | cons e rest ih =>
      obtain ⟨l, b⟩ := e
      rw [insertEntry]
      by_cases hl : l = k
      · subst hl
        rw [beq_self_eq_true, if_pos rfl, List.filter_cons, List.filter_cons]
        cases hp : p l with
        | true => simp [insertEntry]
        | false => simp
      · rw [beq_eq_false_iff_ne.mpr hl, if_neg Bool.false_ne_true, List.filter_cons, List.filter_cons, ih]
        cases p l <;> cases p k <;> simp [insertEntry, hl]

/-! ## Erasing an entry -/

omit [LawfulBEq κ] in
theorem keys_eraseEntry (entries : List (κ × α)) (k : κ) :
    (eraseEntry entries k).map Prod.fst = (entries.map Prod.fst).filter fun k' => !(k' == k) := by
  rw [eraseEntry, List.filter_map]
  rfl

theorem mem_keys_eraseEntry {entries : List (κ × α)} {k k' : κ} :
    k' ∈ (eraseEntry entries k).map Prod.fst ↔ k' ∈ entries.map Prod.fst ∧ k' ≠ k := by
  rw [keys_eraseEntry, List.mem_filter]
  simp

/-- Of entries whose keys pass a test the others are not found. -/
theorem lookup_filter_keys (p : κ → Bool) (entries : List (κ × α)) (k : κ) :
    (entries.filter fun e => p e.1).lookup k = if p k then entries.lookup k else none := by
  induction entries with
  | nil => exact (ite_self none).symm
  | cons e rest ih =>
      obtain ⟨l, b⟩ := e
      rw [List.filter_cons, List.lookup_cons]
      by_cases hl : k = l
      · subst hl
        rw [beq_self_eq_true]
        cases hk : p k with
        | true => exact List.lookup_cons_self
        | false => exact ih.trans (by rw [hk]; rfl)
      · rw [beq_eq_false_iff_ne.mpr hl, ← ih]
        split
        · rw [List.lookup_cons, beq_eq_false_iff_ne.mpr hl]
        · rfl

theorem lookup_eraseEntry_ne (entries : List (κ × α)) {k k' : κ} (h : k' ≠ k) :
    (eraseEntry entries k).lookup k' = entries.lookup k' :=
  (lookup_filter_keys (fun k' => !(k' == k)) entries k').trans (if_pos (by simp [h]))

/-- Erasing a key undoes a put under it, but for the place of a key that was there. -/
theorem eraseEntry_insertEntry (entries : List (κ × α)) (k : κ) (v : α) :
    eraseEntry (insertEntry entries k v) k = eraseEntry entries k := by
  induction entries with
  | nil => simp [insertEntry, eraseEntry]
  | cons e rest ih =>
      obtain ⟨l, b⟩ := e
      rw [insertEntry]
      split
      · rename_i hl
        simp [eraseEntry, hl]
      · unfold eraseEntry at ih ⊢
        rw [List.filter_cons, List.filter_cons, ih]

/-! ## Entries under values -/

namespace Keyed

variable {entries : Keyed α} {k : Value}

theorem seat_of_mem (h : k ∈ entries.map Prod.fst) : seat entries k = k := by
  obtain ⟨a, ha⟩ := Option.isSome_iff_exists.mp (lookup_isSome_iff_mem_keys.mpr h)
  exact seat_of_lookup ha

theorem get?_of_mem (h : k ∈ entries.map Prod.fst) : get? entries k = entries.lookup k := by
  rw [get?, seat_of_mem h]

theorem get?_isSome_of_mem (h : k ∈ entries.map Prod.fst) : (get? entries k).isSome := by
  rw [get?_of_mem h]
  exact lookup_isSome_iff_mem_keys.mpr h

/-- What is found stands under the seat of the key. -/
theorem seat_mem_of_get? {a : α} (h : get? entries k = some a) :
    seat entries k ∈ entries.map Prod.fst :=
  mem_keys_of_lookup h

/-- The seat of a key is the key itself, or the key of the sole entry. -/
theorem seat_eq_or_sole (entries : Keyed α) (k : Value) :
    seat entries k = k ∨ entries.map Prod.fst = [seat entries k] ∧ k.equiv (seat entries k) := by
  unfold seat
  split
  · split
    · rename_i only a hk
      exact .inr ⟨rfl, hk⟩
    · exact .inl rfl
  · exact .inl rfl

/-- The seat of a key is told by the keys of the entries. -/
theorem seat_congr {β : Type} {others : Keyed β}
    (h : entries.map Prod.fst = others.map Prod.fst) (k : Value) : seat entries k = seat others k := by
  match entries, others, h with
  | [], [], _ => rfl
  | [(a, _)], [(b, _)], h =>
      simp only [List.map_cons, List.map_nil, List.cons.injEq, and_true] at h
      subst h
      rfl
  | _ :: _ :: _, _ :: _ :: _, _ => rfl

theorem keys_erase (entries : Keyed α) (k : Value) :
    (erase entries k).map Prod.fst =
      (entries.map Prod.fst).filter fun k' => !(k' == seat entries k) :=
  keys_eraseEntry entries _

theorem mem_keys_erase {k' : Value} :
    k' ∈ (erase entries k).map Prod.fst ↔ k' ∈ entries.map Prod.fst ∧ k' ≠ seat entries k :=
  mem_keys_eraseEntry

/-- Erasing from entries and from more entries leaves the one below the other: a key that a sole entry
answers to is gone from both or was in neither. -/
theorem erase_keys_subset {β : Type} {others : Keyed β} (hnd : (entries.map Prod.fst).Nodup)
    (h : entries.map Prod.fst ⊆ others.map Prod.fst) (k : Value) :
    (erase entries k).map Prod.fst ⊆ (erase others k).map Prod.fst := by
  intro k' hk'
  obtain ⟨hmem, hne⟩ := mem_keys_erase.mp hk'
  refine mem_keys_erase.mpr ⟨h hmem, ?_⟩
  rcases seat_eq_or_sole others k with hs | ⟨hs, _⟩
  · -- the larger list erases `k` itself, which the smaller one does not keep
    rw [hs]
    rintro rfl
    exact hne (seat_of_mem hmem).symm
  · -- a sole entry above leaves room for that one entry below
    rintro rfl
    have hsub : entries.map Prod.fst ⊆ [seat others k] := hs ▸ h
    have hone : entries.map Prod.fst = [seat others k] := by
      have hlen := hnd.length_le_of_subset hsub
      match hm : entries.map Prod.fst with
      | [] => rw [hm] at hmem; cases hmem
      | [x] => rw [hm] at hsub; rw [List.mem_singleton.mp (hsub (List.mem_singleton_self x))]
      | _ :: _ :: _ => rw [hm] at hlen; simp at hlen
    exact hne (seat_congr (hone.trans hs.symm) k).symm

end Keyed

end RecordMapper

/-!
## Records — what stands under a name

A name that is put into a record or taken out of it changes what stands
under that name and nothing else; a record extended by others keeps what
they do not name. A record can be restricted to some names, and then has
under those what it had.
-/

namespace RecordMapper.Record

variable {r more : Record} {name other : String} {v : Value}

theorem getD_eq (r : Record) (name : String) : r.getD name = (r.lookup name).getD .null := rfl

@[simp] theorem lookup_insert_self (r : Record) (name : String) (v : Value) :
    (r.insert name v).lookup name = some v := lookup_insertEntry_self r name v

theorem lookup_insert_ne (r : Record) (h : other ≠ name) (v : Value) :
    (r.insert name v).lookup other = r.lookup other := lookup_insertEntry_ne r h v

theorem lookup_erase_self (r : Record) (name : String) : (r.erase name).lookup name = none :=
  lookup_eq_none_iff_not_mem_keys.mpr fun h => (mem_keys_eraseEntry.mp h).2 rfl

theorem lookup_erase_ne (r : Record) (h : other ≠ name) : (r.erase name).lookup other = r.lookup other :=
  lookup_eraseEntry_ne r h

/-- A record extended by others keeps what they do not name. -/
theorem lookup_extend_of_not_mem (r : Record) (h : ∀ e ∈ more, e.1 ≠ name) :
    (r.extend more).lookup name = r.lookup name := by
  rw [extend]
  induction more generalizing r with
  | nil => rfl
  | cons e rest ih =>
      rw [List.foldl_cons, ih _ fun x hx => h x (List.mem_cons_of_mem e hx)]
      exact lookup_insert_ne r (Ne.symm (h e List.mem_cons_self)) e.2

/-- A record extended by others has what they agree on. -/
theorem lookup_extend_of_mem (r : Record) (hall : ∀ e ∈ more, e.1 = name → e.2 = v)
    (hmem : ∃ e ∈ more, e.1 = name) : (r.extend more).lookup name = some v := by
  rw [extend]
  induction more generalizing r with
  | nil => simp at hmem
  | cons e rest ih =>
      have hrest : ∀ x ∈ rest, x.1 = name → x.2 = v := fun x hx => hall x (List.mem_cons_of_mem e hx)
      rw [List.foldl_cons]
      by_cases hlater : ∃ x ∈ rest, x.1 = name
      · exact ih _ hrest hlater
      · have hnone : ∀ x ∈ rest, x.1 ≠ name := fun x hx hname => hlater ⟨x, hx, hname⟩
        have hhere : e.1 = name := by
          obtain ⟨x, hx, hname⟩ := hmem
          rcases List.mem_cons.mp hx with rfl | hx
          · exact hname
          · exact absurd hname (hnone x hx)
        rw [← extend, lookup_extend_of_not_mem _ hnone, hhere, hall e List.mem_cons_self hhere]
        exact lookup_insert_self r name v

/-- What stands in a record extended by others stood in it or in them. -/
theorem mem_extend {e : String × Value} (h : e ∈ r.extend more) : e ∈ r ∨ e ∈ more := by
  refine List.foldlRecOn (motive := fun (out : Record) => e ∈ out → e ∈ r ∨ e ∈ more) more _ .inl
    (fun out ih x hx he => ?_) h
  rcases mem_insertEntry he with rfl | hout
  · exact .inr hx
  · exact ih hout

theorem has_eq_isSome (r : Record) (name : String) : r.has name = (r.lookup name).isSome := by
  rw [Bool.eq_iff_iff, lookup_isSome_iff_mem_keys, has, List.any_eq_true, List.mem_map]
  simp only [beq_iff_eq]

/-! ## Records that differ under one name -/

/-- Two records with the same names, under all of which but one they have the same values. -/
def SameBeside (name : String) (r r' : Record) : Prop :=
  ∀ other, (r'.lookup other).isSome = (r.lookup other).isSome ∧ (other ≠ name → r'.lookup other = r.lookup other)

theorem sameBeside_insert (r : Record) (name : String) (v v' : Value) :
    SameBeside name (r.insert name v) (r.insert name v') := by
  intro other
  by_cases h : other = name
  · subst h
    rw [lookup_insert_self, lookup_insert_self]
    exact ⟨rfl, fun h => absurd rfl h⟩
  · rw [lookup_insert_ne _ h, lookup_insert_ne _ h]
    exact ⟨rfl, fun _ => rfl⟩

theorem SameBeside.insert {r r' : Record} (h : SameBeside name r r') (column : String) (v : Value) :
    SameBeside name (r.insert column v) (r'.insert column v) := by
  intro other
  by_cases hcolumn : other = column
  · subst hcolumn
    rw [lookup_insert_self, lookup_insert_self]
    exact ⟨rfl, fun _ => rfl⟩
  · rw [lookup_insert_ne _ hcolumn, lookup_insert_ne _ hcolumn]
    exact h other

/-! ## Some names alone -/

/-- The record with those names alone that pass a test. -/
def restrict (keeps : String → Bool) (r : Record) : Record := r.filter fun e => keeps e.1

variable {keeps : String → Bool}

theorem restrict_insert (r : Record) (name : String) (v : Value) : (r.insert name v).restrict keeps =
    if keeps name then (r.restrict keeps).insert name v else r.restrict keeps := filter_insertEntry keeps r name v

theorem lookup_restrict (h : keeps name) (r : Record) : (r.restrict keeps).lookup name = r.lookup name :=
  (lookup_filter_keys keeps r name).trans (if_pos h)

theorem getD_restrict (h : keeps name) (r : Record) : (r.restrict keeps).getD name = r.getD name := by
  rw [getD_eq, lookup_restrict h, getD_eq]

theorem restrict_extend (r more : Record) :
    (r.extend more).restrict keeps = (r.restrict keeps).extend (more.restrict keeps) := by
  rw [extend]
  induction more generalizing r with
  | nil => rfl
  | cons e rest ih =>
      have hrest : restrict keeps (e :: rest) = if keeps e.1 then e :: restrict keeps rest else restrict keeps rest :=
        List.filter_cons
      rw [List.foldl_cons, ih, restrict_insert, hrest]
      split
      · rfl
      · rfl

end RecordMapper.Record
