import RecordMapper.Proofs.Read.Unfiltered
import RecordMapper.Proofs.Store.Selection

/-!
# Narrowed — windows and conditions put on a queryset

A queryset is narrowed to a window by slices and to a part of its rows by
conditions; the second half is about the latter.

## Windows — slices of slices

However often a queryset is sliced, it keeps one window: an offset and
perhaps a limit. Each slice is relative to the window that it finds, and
an offset stops at the largest number of rows that can be counted. On
lists that can be counted the one window keeps what the slices keep one
after the other (`kept_after`), so a queryset that was sliced selects the
slices of its rows (`select_after`).
-/

namespace RecordMapper

/-- A call that narrows the window of a queryset. -/
inductive WindowCall
  /-- From one place up to another, or to the end. -/
  | slice (first : Nat) (last : Option Nat)
  | skip (n : Nat)
  | take (n : Nat)

namespace WindowCall

/-- The queryset after a call. -/
def apply (c : WindowCall) (qs : Queryset) : Queryset :=
  match c with
  | .slice first last => qs.slice first last
  | .skip n => qs.skip n
  | .take n => qs.take n

/-- What a call keeps of a list: a slice that ends before it begins keeps nothing. -/
def cut {α : Type} (c : WindowCall) (xs : List α) : List α :=
  match c with
  | .slice first (some last) => (xs.drop first).take (last - first)
  | .slice first none => xs.drop first
  | .skip n => xs.drop n
  | .take n => xs.take n

end WindowCall

namespace Queryset

/-- The queryset after some calls. -/
def after (qs : Queryset) (calls : List WindowCall) : Queryset := calls.foldl (fun qs c => c.apply qs) qs

/-- What the window of a queryset keeps of a list. -/
def kept {α : Type} (qs : Queryset) (xs : List α) : List α :=
  match qs.limit with
  | some n => (xs.drop qs.offset).take n
  | .none => xs.drop qs.offset

variable {α : Type} {xs : List α} {qs : Queryset}

theorem kept_eq_window (qs : Queryset) (pks : List Value) : qs.kept pks = Store.window qs.offset qs.limit pks := rfl

/-! ### One call -/

/-- An offset that stops at the largest count drops what the whole offset drops. -/
theorem drop_saturated (hcount : xs.length ≤ maxCount) (first more : Nat) :
    xs.drop (min (first + more) maxCount) = (xs.drop first).drop more := by
  rw [List.drop_drop]
  by_cases hfits : first + more ≤ maxCount
  · rw [Nat.min_eq_left hfits]
  · rw [List.drop_eq_nil_of_le (by omega), List.drop_eq_nil_of_le (by omega)]

theorem kept_slice (hcount : xs.length ≤ maxCount) (qs : Queryset) (first : Nat) (last : Option Nat) :
    (qs.slice first last).kept xs = (WindowCall.slice first last).cut (qs.kept xs) := by
  simp only [kept, slice, drop_saturated hcount]
  cases qs.limit with
  | none => cases last <;> rfl
  | some n =>
      cases last with
      | none => simp only [Option.map_some, Option.map_none, tighter, WindowCall.cut, List.drop_take]
      | some last =>
          simp only [Option.map_some, tighter, WindowCall.cut, List.drop_take, List.take_take]
          rw [Nat.min_comm]

/-- A call keeps its part of what the window kept. -/
theorem kept_apply (hcount : xs.length ≤ maxCount) (qs : Queryset) (c : WindowCall) :
    (c.apply qs).kept xs = c.cut (qs.kept xs) := by
  cases c with
  | slice first last => exact kept_slice hcount qs first last
  | skip n => exact kept_slice hcount qs n Option.none
  | take n => exact kept_slice hcount qs 0 (some n)

/-! ### All calls -/

/-- The one window keeps what the calls keep one after the other of what was kept before. -/
theorem kept_after (hcount : xs.length ≤ maxCount) (qs : Queryset) (calls : List WindowCall) :
    (qs.after calls).kept xs = calls.foldl (fun xs c => c.cut xs) (qs.kept xs) := by
  induction calls generalizing qs with
  | nil => rfl
  | cons c calls ih =>
      rw [List.foldl_cons, ← kept_apply hcount]
      exact ih (c.apply qs)

/-- The calls change nothing but the window. -/
theorem after_eq (qs : Queryset) (calls : List WindowCall) :
    qs.after calls = { qs with offset := (qs.after calls).offset, limit := (qs.after calls).limit } := by
  induction calls generalizing qs with
  | nil => cases qs; rfl
  | cons c calls ih =>
      show (c.apply qs).after calls = _
      rw [ih]
      cases c <;> rfl

theorem none_after (qs : Queryset) (calls : List WindowCall) : (qs.after calls).none = qs.none := by
  rw [after_eq]

/-- The rows of a queryset after some calls are the slices of its rows. -/
theorem select_after {reg : Registry} {st : Store} {rows : List Value} (hsliced : qs.isSliced = false)
    (hrows : Store.select reg st qs = .ok rows) (hcount : rows.length ≤ maxCount) (calls : List WindowCall) :
    Store.select reg st (qs.after calls) = .ok (calls.foldl (fun rows c => c.cut rows) rows) := by
  obtain ⟨hoffset, hlimit⟩ := isSliced_eq_false.mp hsliced
  have hwhole : qs.kept rows = rows := by simp [kept, hoffset, hlimit]
  rw [after_eq, Store.select_windowed hsliced hrows, ← kept_eq_window, kept_after hcount, hwhole]

/-- However a queryset without a window is sliced, its window keeps of any list that can be counted what the slices
keep one after the other, the rows that it selects are those slices of the rows it selected, and nothing can be
selected exactly if the limit is zero. -/
theorem slices_one_by_one (hsliced : qs.isSliced = false) (hopen : qs.none = false) (calls : List WindowCall) :
    (∀ {α : Type} (xs : List α), xs.length ≤ maxCount →
      (qs.after calls).kept xs = calls.foldl (fun xs c => c.cut xs) xs) ∧
    ((qs.after calls).isNone = true ↔ (qs.after calls).limit = some 0) ∧
    ∀ reg st rows, Store.select reg st qs = .ok rows → rows.length ≤ maxCount →
      Store.select reg st (qs.after calls) = .ok (calls.foldl (fun rows c => c.cut rows) rows) := by
  obtain ⟨hoffset, hlimit⟩ := isSliced_eq_false.mp hsliced
  refine ⟨fun xs hcount => ?_, ?_, fun reg st rows hrows hcount => select_after hsliced hrows hcount calls⟩
  · have hwhole : qs.kept xs = xs := by simp [kept, hoffset, hlimit]
    rw [kept_after hcount, hwhole]
  · simp [isNone, none_after, hopen]

/-- Two slices, the largest offset and a slice that ends before it begins. -/
def endlessSlices : List WindowCall := [.slice 3 (some 9), .slice 1 (some 3), .skip maxCount, .slice 5 (some 2)]

/-- The first two keep the fifth and the sixth of some numbers, all of them nothing. -/
theorem numbers_sliced :
    ((all default).after (endlessSlices.take 2)).kept [10, 11, 12, 13, 14, 15] = [14, 15] ∧
      ((all default).after endlessSlices).isNone = true := by
  have hfresh : (all default).isSliced = false := rfl
  constructor
  · have hslices := slices_one_by_one hfresh rfl (endlessSlices.take 2)
    exact hslices.1 [10, 11, 12, 13, 14, 15] (by decide)
  · have hslices := slices_one_by_one hfresh rfl endlessSlices
    exact hslices.2.1.mpr (by decide)

end Queryset

end RecordMapper

/-!
## Parting — a condition and its opposite part the rows

The operators on conditions join what they are given into one list, or
cancel a negation against another. Whatever they join, the parts are
asked in the order they were written in, so a condition made by them has
the truth and the first failure of asking one part after the other. A
queryset that is filtered by a condition therefore selects what the
queryset that excludes it leaves out.
-/

namespace RecordMapper

namespace Condition

variable {values : String → Outcome (List Value)}

theorem anyHolds_singleton (q : Condition) : anyHolds values [q] = q.holds values := by
  rw [anyHolds]
  rcases q.holds values with e | b
  · rfl
  · cases b <;> rfl

theorem anyHolds_append (ps qs : List Condition) : anyHolds values (ps ++ qs) =
    (do if ← anyHolds values ps then return true else anyHolds values qs) := by
  induction ps with
  | nil => rfl
  | cons p ps ih =>
      rw [List.cons_append, anyHolds, anyHolds]
      rcases p.holds values with e | b
      · rfl
      · cases b
        · exact ih
        · rfl

/-- Of two conditions the second is asked where the first does not hold. -/
theorem holds_or (p q : Condition) : (p.or q).holds values =
    (do if ← p.holds values then return true else q.holds values) := by
  have hpair : anyHolds values [p, q] = (do if ← p.holds values then return true else q.holds values) := by
    rw [anyHolds, anyHolds_singleton]
  cases p with
  | any ps =>
      cases q with
      | any qs => exact anyHolds_append ps qs
      | _ => exact (anyHolds_append ps _).trans (by rw [anyHolds_singleton]; rfl)
  | _ =>
      cases q with
      | any qs => rfl
      | _ => exact hpair

theorem holds_negate (p : Condition) : p.negate.holds values = (do return !(← p.holds values)) := by
  cases p with
  | not part =>
      -- A second negation takes the first back.
      rw [negate, holds]
      rcases part.holds values with e | b
      · rfl
      · cases b <;> rfl
  | _ => rfl

/-- The opposite of a condition can be asked where the condition can. -/
theorem exists_holds_negate {q : Condition} :
    (∃ b, q.negate.holds values = .ok b) ↔ ∃ b, q.holds values = .ok b := by
  rw [holds_negate]
  rcases q.holds values with e | b
  · exact ⟨fun ⟨_, h⟩ => (nomatch h), fun ⟨_, h⟩ => (nomatch h)⟩
  · exact ⟨fun _ => ⟨b, rfl⟩, fun _ => ⟨!b, rfl⟩⟩

end Condition

namespace Store

open scoped List

variable {reg : Registry} {st : Store} {m : Model} {named : Named} {terms : List SortTerm} {rows : List Value}

/-! ### Selections that succeed -/

/-- Keys can be sorted if every term has a value on each of them. -/
theorem exists_sortKeys_iff {pks : List Value} :
    (∃ sorted, sortKeys terms pks = .ok sorted) ↔ ∀ pk ∈ pks, ∀ t ∈ terms, ∃ v, t.value pk = .ok v := by
  rw [sortKeys]
  constructor
  · rintro ⟨sorted, h⟩ pk hpk t ht
    rw [if_neg fun hnone => List.ne_nil_of_mem ht (List.isEmpty_iff.mp hnone)] at h
    obtain ⟨keyed, hkeyed, _⟩ := Outcome.bind_eq_ok.mp h
    obtain ⟨_, _, hrow⟩ := Outcome.exists_of_mapM hkeyed hpk
    obtain ⟨vs, hvs, _⟩ := Outcome.bind_eq_ok.mp hrow
    obtain ⟨v, _, hv⟩ := Outcome.exists_of_mapM hvs ht
    exact ⟨v, hv⟩
  · intro h
    split
    · exact ⟨pks, rfl⟩
    · have hrow : ∀ pk ∈ pks, ∃ e, (terms.mapM (fun t => t.value pk) >>= fun vs => pure (vs, pk)) = .ok e ∧ True :=
        fun pk hpk => by
          obtain ⟨vs, hvs, _⟩ := Outcome.exists_mapM fun t ht => (h pk hpk t ht).imp fun v hv => ⟨hv, trivial⟩
          exact ⟨(vs, pk), by rw [hvs]; rfl, trivial⟩
      obtain ⟨keyed, hkeyed, _⟩ := Outcome.exists_mapM hrow
      exact ⟨_, by rw [hkeyed]; rfl⟩

/-- Keys can be sorted if both parts of them can. -/
theorem exists_sortKeys_parts {pks : List Value} (p : Value → Bool) :
    (∃ sorted, sortKeys terms (pks.filter p) = .ok sorted) ∧
      (∃ sorted, sortKeys terms (pks.filter fun pk => !p pk) = .ok sorted) ↔
    ∃ sorted, sortKeys terms pks = .ok sorted := by
  simp only [exists_sortKeys_iff, List.mem_filter]
  constructor
  · rintro ⟨hkept, hleft⟩ pk hpk
    cases hp : p pk with
    | true => exact hkept pk ⟨hpk, hp⟩
    | false => exact hleft pk ⟨hpk, by rw [hp]; rfl⟩
  · exact fun h => ⟨fun pk hpk => h pk hpk.1, fun pk hpk => h pk hpk.1⟩

/-- The keys that pass a condition, in the order they were inserted. -/
def passing (reg : Registry) (st : Store) (m : Model) (named : Named) (condition : Option Condition) : List Value :=
  (st.keys m).filter fun pk => (passes reg st m named condition pk).toOption == some true

theorem mem_passing {condition : Option Condition} {pk : Value} : pk ∈ passing reg st m named condition ↔
    pk ∈ st.keys m ∧ passes reg st m named condition pk = .ok true := by
  rw [passing, List.mem_filter, beq_iff_eq, Outcome.toOption_eq_some]

/-- Without a window the selected rows are the passing ones, sorted, where each row can be asked. -/
theorem selectKeys_eq_ok_iff {condition : Option Condition} :
    selectKeys reg st m named condition terms 0 none none = .ok rows ↔
      (∀ pk ∈ st.keys m, ∃ b, passes reg st m named condition pk = .ok b) ∧
        sortKeys terms (passing reg st m named condition) = .ok rows := by
  rw [selectKeys_unlinked]
  constructor
  · intro h
    obtain ⟨selected, hselected, h⟩ := Outcome.bind_eq_ok.mp h
    obtain ⟨sorted, hsorted, h⟩ := Outcome.bind_eq_ok.mp h
    cases h
    obtain ⟨hasked, rfl⟩ := Outcome.filterM_eq_ok hselected
    exact ⟨hasked, hsorted⟩
  · rintro ⟨hasked, hsorted⟩
    have hselected : (st.keys m).filterM (passes reg st m named condition) =
        .ok (passing reg st m named condition) := Outcome.filterM_ok fun pk hpk => by
      obtain ⟨b, hb⟩ := hasked pk hpk
      rw [hb]
      cases b <;> rfl
    rw [hselected, Outcome.ok_bind, hsorted]
    rfl

/-! ### Rows that pass and rows that do not -/

/-- Whether a condition is found to hold of a row. -/
def tells (reg : Registry) (st : Store) (m : Model) (named : Named) (q : Condition) (pk : Value) : Bool :=
  (q.holds (columnValues reg st m named pk)).toOption == some true

theorem tells_iff {q : Condition} {pk : Value} :
    tells reg st m named q pk ↔ q.holds (columnValues reg st m named pk) = .ok true := by
  rw [tells, beq_iff_eq, Outcome.toOption_eq_some]

/-- Where a condition can be asked, it or its opposite is found to hold. -/
theorem tells_negate {q : Condition} {pk : Value}
    (hasked : ∃ b, q.holds (columnValues reg st m named pk) = .ok b) :
    tells reg st m named q.negate pk = !tells reg st m named q pk := by
  obtain ⟨b, hb⟩ := hasked
  rw [tells, tells, Condition.holds_negate, hb]
  cases b <;> rfl

variable {qs : Queryset} {q : Condition}

/-- One condition more is asked of the rows that pass the others. -/
theorem exists_passes_filter {pk : Value} : (∃ b, passes reg st m named (qs.filter q).condition pk = .ok b) ↔
    (∃ b, passes reg st m named qs.condition pk = .ok b) ∧
      (passes reg st m named qs.condition pk = .ok true →
        ∃ b, q.holds (columnValues reg st m named pk) = .ok b) := by
  rw [passes_filter]
  rcases passes reg st m named qs.condition pk with e | b
  · exact ⟨fun ⟨_, h⟩ => (nomatch h), fun ⟨⟨_, h⟩, _⟩ => (nomatch h)⟩
  · cases b with
    | true => exact ⟨fun h => ⟨⟨true, rfl⟩, fun _ => h⟩, fun h => h.2 rfl⟩
    | false => exact ⟨fun _ => ⟨⟨false, rfl⟩, fun h => (nomatch h)⟩, fun _ => ⟨false, rfl⟩⟩

theorem passing_filter : passing reg st m named (qs.filter q).condition =
    (passing reg st m named qs.condition).filter (tells reg st m named q) := by
  rw [passing, passing, List.filter_filter]
  refine List.filter_congr fun pk _ => ?_
  rw [passes_filter, tells]
  rcases passes reg st m named qs.condition pk with e | b
  · exact (Bool.and_false _).symm
  · cases b with
    | true => exact (Bool.and_true _).symm
    | false => exact (Bool.and_false _).symm

theorem annotationsOf_filter : Expression.annotationsOf reg st (qs.filter q) = Expression.annotationsOf reg st qs := by
  cases qs
  rfl

section Open

variable (hsliced : qs.isSliced = false) (hopen : qs.none = false)

include hsliced hopen

/-- A queryset without a window selects the rows that pass its condition, in its order. -/
theorem select_eq_ok_iff : select reg st qs = .ok rows ↔
    (∀ pk ∈ st.keys qs.model,
      ∃ b, passes reg st qs.model (Expression.annotationsOf reg st qs) qs.condition pk = .ok b) ∧
    sortKeys (Expression.sortTerms reg st qs.model (Expression.annotationsOf reg st qs) qs.ordering)
      (passing reg st qs.model (Expression.annotationsOf reg st qs) qs.condition) = .ok rows := by
  obtain ⟨hoffset, hlimit⟩ := Queryset.isSliced_eq_false.mp hsliced
  have hsome : qs.isNone = false := by simp [Queryset.isNone, hopen, hlimit]
  rw [select_eq, hsome, if_neg Bool.false_ne_true, hoffset, hlimit, selectKeys_eq_ok_iff]

/-- Filtered by one condition more it selects those of them that pass it, where each can be asked. -/
theorem select_filter_eq_ok_iff : select reg st (qs.filter q) = .ok rows ↔
    (∀ pk ∈ st.keys qs.model,
      ∃ b, passes reg st qs.model (Expression.annotationsOf reg st qs) qs.condition pk = .ok b) ∧
    (∀ pk ∈ passing reg st qs.model (Expression.annotationsOf reg st qs) qs.condition,
      ∃ b, q.holds (columnValues reg st qs.model (Expression.annotationsOf reg st qs) pk) = .ok b) ∧
    sortKeys (Expression.sortTerms reg st qs.model (Expression.annotationsOf reg st qs) qs.ordering)
      ((passing reg st qs.model (Expression.annotationsOf reg st qs) qs.condition).filter
        (tells reg st qs.model (Expression.annotationsOf reg st qs) q)) = .ok rows := by
  have hfiltered : (qs.filter q).isSliced = false := hsliced
  rw [select_eq_ok_iff hfiltered hopen, annotationsOf_filter, passing_filter]
  simp only [exists_passes_filter, mem_passing]
  constructor
  · rintro ⟨hasked, hsorted⟩
    exact ⟨fun pk hpk => (hasked pk hpk).1, fun pk hpk => (hasked pk hpk.1).2 hpk.2, hsorted⟩
  · rintro ⟨hasked, htold, hsorted⟩
    exact ⟨fun pk hpk => ⟨hasked pk hpk, fun hpass => htold pk ⟨hpk, hpass⟩⟩, hsorted⟩

/-- What a queryset without a window excludes is left over from what it keeps. -/
theorem select_exclude_eq_ok_iff : select reg st (qs.exclude q) = .ok rows ↔
    (∀ pk ∈ st.keys qs.model,
      ∃ b, passes reg st qs.model (Expression.annotationsOf reg st qs) qs.condition pk = .ok b) ∧
    (∀ pk ∈ passing reg st qs.model (Expression.annotationsOf reg st qs) qs.condition,
      ∃ b, q.holds (columnValues reg st qs.model (Expression.annotationsOf reg st qs) pk) = .ok b) ∧
    sortKeys (Expression.sortTerms reg st qs.model (Expression.annotationsOf reg st qs) qs.ordering)
      ((passing reg st qs.model (Expression.annotationsOf reg st qs) qs.condition).filter
        fun pk => !tells reg st qs.model (Expression.annotationsOf reg st qs) q pk) = .ok rows := by
  rw [Queryset.exclude, select_filter_eq_ok_iff hsliced hopen]
  simp only [Condition.exists_holds_negate]
  refine and_congr_right fun _ => and_congr_right fun hasked => ?_
  rw [List.filter_congr fun pk hpk => tells_negate (hasked pk hpk)]

/-- The rows that are kept and those that are excluded can be selected if the rows can, and each of them be asked. -/
theorem exists_select_parts_iff :
    (∃ kept, select reg st (qs.filter q) = .ok kept) ∧ (∃ left, select reg st (qs.exclude q) = .ok left) ↔
      ∃ rows, select reg st qs = .ok rows ∧ ∀ pk ∈ rows,
        ∃ b, q.holds (columnValues reg st qs.model (Expression.annotationsOf reg st qs) pk) = .ok b := by
  simp only [select_eq_ok_iff hsliced hopen, select_filter_eq_ok_iff hsliced hopen,
    select_exclude_eq_ok_iff hsliced hopen]
  constructor
  · rintro ⟨⟨kept, hpasses, hasked, hkept⟩, left, _, _, hleft⟩
    obtain ⟨rows, hrows⟩ := (exists_sortKeys_parts _).mp ⟨⟨kept, hkept⟩, left, hleft⟩
    exact ⟨rows, ⟨hpasses, hrows⟩, fun pk hpk => hasked pk ((sortKeys_perm hrows).subset hpk)⟩
  · rintro ⟨rows, ⟨hpasses, hrows⟩, hasked⟩
    have hasked := fun pk hpk => hasked pk ((sortKeys_perm hrows).symm.subset hpk)
    obtain ⟨⟨kept, hkept⟩, left, hleft⟩ := (exists_sortKeys_parts _).mpr ⟨rows, hrows⟩
    exact ⟨⟨kept, hpasses, hasked, hkept⟩, left, hpasses, hasked, hleft⟩

/-- What is kept passes the condition, what is excluded does not, and together they are the rows. -/
theorem select_parts {kept left : List Value} (hrows : select reg st qs = .ok rows)
    (hkept : select reg st (qs.filter q) = .ok kept) (hleft : select reg st (qs.exclude q) = .ok left) :
    (kept ++ left).Perm rows ∧
      (∀ pk ∈ kept, q.holds (columnValues reg st qs.model (Expression.annotationsOf reg st qs) pk) = .ok true) ∧
      ∀ pk ∈ left, q.holds (columnValues reg st qs.model (Expression.annotationsOf reg st qs) pk) = .ok false := by
  obtain ⟨_, hrows⟩ := (select_eq_ok_iff hsliced hopen).mp hrows
  obtain ⟨_, hasked, hkept⟩ := (select_filter_eq_ok_iff hsliced hopen).mp hkept
  obtain ⟨_, _, hleft⟩ := (select_exclude_eq_ok_iff hsliced hopen).mp hleft
  have hkept := sortKeys_perm hkept
  have hleft := sortKeys_perm hleft
  refine ⟨?_, fun pk hpk => ?_, fun pk hpk => ?_⟩
  · calc kept ++ left
      _ ~ _ := hkept.append hleft
      _ ~ _ := List.filter_append_perm _ _
      _ ~ rows := (sortKeys_perm hrows).symm
  · exact tells_iff.mp (List.mem_filter.mp (hkept.subset hpk)).2
  · obtain ⟨hpass, hnot⟩ := List.mem_filter.mp (hleft.subset hpk)
    obtain ⟨b, hb⟩ := hasked pk hpass
    cases b with
    | true => rw [tells_iff.mpr hb] at hnot; cases hnot
    | false => exact hb

end Open

/-- A condition made by an operator comes to what asking its parts one after the other comes to, failures included;
so the rows of a queryset without a window are parted by a condition. Those it keeps and those it excludes
are selected exactly if the rows are and each of them can be asked, they are all of the rows, and none is
in both parts. -/
theorem filter_and_exclude :
    (∀ (p q : Condition) (values : String → Outcome (List Value)),
      (p.and q).holds values = (do if ← p.holds values then q.holds values else return false) ∧
      (p.or q).holds values = (do if ← p.holds values then return true else q.holds values) ∧
      p.negate.holds values = (do return !(← p.holds values))) ∧
    ∀ (reg : Registry) (st : Store) (qs : Queryset) (q : Condition), qs.isSliced = false →
      ((∃ kept, select reg st (qs.filter q) = .ok kept) ∧ (∃ left, select reg st (qs.exclude q) = .ok left) ↔
        ∃ rows, select reg st qs = .ok rows ∧ ∀ pk ∈ rows,
          ∃ b, q.holds (columnValues reg st qs.model (Expression.annotationsOf reg st qs) pk) = .ok b) ∧
      ∀ rows kept left, select reg st qs = .ok rows → select reg st (qs.filter q) = .ok kept →
        select reg st (qs.exclude q) = .ok left →
        (kept ++ left).Perm rows ∧ kept.Disjoint left ∧
        (∀ pk ∈ kept, q.holds (columnValues reg st qs.model (Expression.annotationsOf reg st qs) pk) = .ok true) ∧
        ∀ pk ∈ left, q.holds (columnValues reg st qs.model (Expression.annotationsOf reg st qs) pk) = .ok false := by
  refine ⟨fun p q values => ⟨Condition.holds_and p q, Condition.holds_or p q, Condition.holds_negate p⟩,
    fun reg st qs q hsliced => ?_⟩
  cases hopen : qs.none with
  | true =>
      have hnone : qs.isNone := by simp [Queryset.isNone, hopen]
      have hkept : (qs.filter q).isNone := hnone
      have hleft : (qs.exclude q).isNone := hnone
      rw [select_of_isNone hnone, select_of_isNone hkept, select_of_isNone hleft]
      refine ⟨⟨fun _ => ⟨[], rfl, by simp⟩, fun _ => ⟨⟨[], rfl⟩, [], rfl⟩⟩, fun rows kept left hrows hkept hleft => ?_⟩
      cases hrows
      cases hkept
      cases hleft
      simp
  | false =>
      refine ⟨exists_select_parts_iff hsliced hopen, fun rows kept left hrows hkept hleft => ?_⟩
      obtain ⟨hperm, hholds, hfails⟩ := select_parts hsliced hopen hrows hkept hleft
      refine ⟨hperm, fun pk hin hout => ?_, hholds, hfails⟩
      cases (hholds pk hin).symm.trans (hfails pk hout)

/-! ### Articles of few words -/

open Registry (built modelOf writers writings)

/-- The articles of an author. -/
def authored : Queryset :=
  { Queryset.all (modelOf (built writers) "article") with condition := some (.test "author" (.isNull false)) }

/-- Fewer than 500 words. -/
def short : Condition := .test "words" (.lt (.int 500))

theorem authored_parted :
    authored.isSliced = false ∧
      ∃ kept left, select (built writers) writings (authored.filter short) = .ok kept ∧
        select (built writers) writings (authored.exclude short) = .ok left ∧
        (kept ++ left).Perm [.int 1, .int 2] ∧ kept.Disjoint left := by
  have hsliced : authored.isSliced = false := rfl
  have hrows : select (built writers) writings authored = .ok [.int 1, .int 2] := rfl
  obtain ⟨hselect, hparts⟩ := filter_and_exclude.2 (built writers) writings authored short hsliced
  have hasked : ∀ pk ∈ [Value.int 1, .int 2], ∃ b, short.holds (columnValues (built writers) writings authored.model
      (Expression.annotationsOf (built writers) writings authored) pk) = .ok b := by
    simp only [List.forall_mem_cons]
    exact ⟨⟨true, rfl⟩, ⟨false, rfl⟩, fun _ h => nomatch h⟩
  obtain ⟨⟨kept, hkept⟩, left, hleft⟩ := hselect.mpr ⟨_, hrows, hasked⟩
  obtain ⟨hperm, hdisjoint, _⟩ := hparts _ _ _ hrows hkept hleft
  exact ⟨hsliced, kept, left, hkept, hleft, hperm, hdisjoint⟩

/-- A part that decides hides the failure of the parts behind it. -/
example : (short.or (.test "pages" (.isNull true))).holds (columnValues (built writers) writings authored.model
    (fun _ => none) (.int 1)) = .ok true := rfl

end Store

end RecordMapper
