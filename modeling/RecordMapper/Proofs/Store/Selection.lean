import Mathlib.Data.List.Perm.Subperm
import RecordMapper.Store.Select
import RecordMapper.Proofs.Outcomes

/-!
# Selection — the keys a queryset selects are keys of its model

Sorting rearranges the keys that passed and the window cuts out a run of
them, so what is selected stands in the model's table, no key more often
than there.
-/

namespace RecordMapper

open scoped List

/-! ## Sorting rearranges -/

theorem insertFromEnd_perm {α : Type} (less : α → α → Bool) (x : α) (xs : List α) :
    (insertFromEnd less x xs).Perm (x :: xs) := by
  induction xs with
  | nil => exact .refl _
  | cons y ys ih =>
      rw [insertFromEnd]
      split
      · exact (ih.cons y).trans (.swap x y ys)
      · exact .refl _

theorem forall_mem_insertFromEnd {α : Type} {less : α → α → Bool} {P : α → Prop} {x : α} {xs : List α} (hx : P x)
    (hxs : ∀ y ∈ xs, P y) : ∀ y ∈ insertFromEnd less x xs, P y := fun y hy =>
  List.forall_mem_cons.mpr ⟨hx, hxs⟩ y ((insertFromEnd_perm less x xs).subset hy)

private theorem foldl_insertFromEnd_perm {α : Type} (less : α → α → Bool) (xs acc : List α) :
    (xs.foldl (fun acc x => insertFromEnd less x acc) acc).Perm (xs ++ acc) := by
  induction xs generalizing acc with
  | nil => exact .refl _
  | cons x rest ih =>
      rw [List.foldl_cons]
      refine (ih _).trans ?_
      calc rest ++ insertFromEnd less x acc
        _ ~ rest ++ (x :: acc) := (insertFromEnd_perm less x acc).append_left rest
        _ ~ x :: (rest ++ acc) := List.perm_middle

theorem stableSort_perm {α : Type} (less : α → α → Bool) (xs : List α) :
    (stableSort less xs).Perm xs := by
  rw [stableSort]
  refine (List.reverse_perm _).trans ?_
  simpa using foldl_insertFromEnd_perm less xs []

/-! ## One condition more -/

namespace Condition

variable {values : String → Outcome (List Value)}

theorem allHold_singleton (q : Condition) : allHold values [q] = q.holds values := by
  rw [allHold]
  rcases q.holds values with e | b
  · rfl
  · cases b <;> rfl

theorem allHold_append (ps qs : List Condition) : allHold values (ps ++ qs) =
    (do if ← allHold values ps then allHold values qs else return false) := by
  induction ps with
  | nil => rfl
  | cons p ps ih =>
      rw [List.cons_append, allHold, allHold]
      rcases p.holds values with e | b
      · rfl
      · cases b
        · rfl
        · exact ih

/-- Conditions that can all be told hold together if each does. -/
theorem allHold_eq_ok {qs : List Condition} {holding : Bool} (htells : ∀ q ∈ qs, ∃ b, q.holds values = .ok b)
    (hholding : holding ↔ ∀ q ∈ qs, q.holds values = .ok true) : allHold values qs = .ok holding := by
  induction qs with
  | nil =>
      obtain rfl : holding = true := hholding.mpr fun q hq => absurd hq List.not_mem_nil
      rfl
  | cons q rest ih =>
      obtain ⟨⟨b, hb⟩, hrest⟩ := List.forall_mem_cons.mp htells
      rw [List.forall_mem_cons, hb] at hholding
      rw [allHold, hb, Outcome.ok_bind]
      cases b with
      | true => exact ih hrest (hholding.trans (and_iff_right rfl))
      | false =>
          obtain rfl : holding = false := Bool.eq_false_iff.mpr fun h => by cases (hholding.mp h).1
          rfl

/-- Of two conditions the second is asked where the first holds. -/
theorem holds_and (p q : Condition) : (p.and q).holds values =
    (do if ← p.holds values then q.holds values else return false) := by
  have hpair : allHold values [p, q] = (do if ← p.holds values then q.holds values else return false) := by
    rw [allHold, allHold_singleton]
  cases p with
  | all ps =>
      cases q with
      | all qs => exact allHold_append ps qs
      | _ => exact (allHold_append ps _).trans (by rw [allHold_singleton]; rfl)
  | _ =>
      cases q with
      | all qs => rfl
      | _ => exact hpair

end Condition

theorem Queryset.isSliced_eq_false {qs : Queryset} : qs.isSliced = false ↔ qs.offset = 0 ∧ qs.limit = Option.none := by
  simp [isSliced]

namespace Store

variable {reg : Registry} {st : Store}

theorem sortKeys_perm {terms : List SortTerm} {pks sorted : List Value}
    (h : sortKeys terms pks = .ok sorted) : sorted.Perm pks := by
  rw [sortKeys] at h
  split at h
  · cases h
    exact .refl _
  · obtain ⟨keyed, hkeyed, h⟩ := Outcome.bind_eq_ok.mp h
    cases h
    have hsnd : keyed.map Prod.snd = pks := by
      refine List.forall₂_eq_eq_eq ▸ List.forall₂_map_left_iff.mpr ?_
      refine (Outcome.mapM_eq_ok.mp hkeyed).flip.imp fun e pk hrow => ?_
      obtain ⟨_, _, hrow⟩ := Outcome.bind_eq_ok.mp hrow
      cases hrow
      rfl
    exact hsnd ▸ (stableSort_perm _ keyed).map Prod.snd

theorem window_sublist (offset : Nat) (limit : Option Nat) (pks : List Value) :
    (window offset limit pks).Sublist pks := by
  unfold window
  split
  · exact (List.take_sublist _ _).trans (List.drop_sublist _ _)
  · exact List.drop_sublist _ _

/-! ## The selected keys -/

theorem selectKeys_subperm {m : Model} {named : Named} {condition : Option Condition}
    {terms : List SortTerm} {offset : Nat} {limit : Option Nat} {link : Option (String × Value)}
    {pks : List Value} (h : selectKeys reg st m named condition terms offset limit link = .ok pks) :
    pks.Subperm (st.keys m) := by
  obtain ⟨selected, hselected, h⟩ := Outcome.bind_eq_ok.mp h
  obtain ⟨sorted, hsorted, h⟩ := Outcome.bind_eq_ok.mp h
  cases h
  have hwindow : window offset limit sorted <+~ selected :=
    (window_sublist offset limit sorted).subperm.trans (sortKeys_perm hsorted).subperm
  exact hwindow.trans (Outcome.filterM_sublist hselected).subperm

/-- A selected key passed the condition. -/
theorem passes_of_mem_selectKeys {m : Model} {named : Named} {condition : Option Condition}
    {terms : List SortTerm} {offset : Nat} {limit : Option Nat} {link : Option (String × Value)}
    {pks : List Value} (h : selectKeys reg st m named condition terms offset limit link = .ok pks)
    {pk : Value} (hpk : pk ∈ pks) : passes reg st m named condition pk = .ok true := by
  obtain ⟨selected, hselected, h⟩ := Outcome.bind_eq_ok.mp h
  obtain ⟨sorted, hsorted, h⟩ := Outcome.bind_eq_ok.mp h
  cases h
  have hmem : pk ∈ selected := (sortKeys_perm hsorted).subset ((window_sublist offset limit sorted).subset hpk)
  obtain ⟨b, hb, h⟩ := Outcome.bind_eq_ok.mp (Outcome.filterM_mem hselected pk hmem)
  cases b with
  | true => exact hb
  | false => cases h

/-- A row passes one more condition after the others. -/
theorem passes_filter {m : Model} {named : Named} (qs : Queryset) (q : Condition) (pk : Value) :
    passes reg st m named (qs.filter q).condition pk =
      (do
        if ← passes reg st m named qs.condition pk then q.holds (columnValues reg st m named pk) else return false) := by
  rw [Queryset.filter]
  cases qs.condition with
  | none => rfl
  | some p => exact Condition.holds_and p q

section Unwindowed

variable {m : Model} {named : Named} {condition : Option Condition} {terms : List SortTerm}
  {link : Option (String × Value)} {rows : List Value}

/-- Where no linked value is to be reached, rows are selected by the condition alone. -/
theorem selectKeys_unlinked (offset : Nat) (limit : Option Nat) :
    selectKeys reg st m named condition terms offset limit none = (do
      let selected ← (st.keys m).filterM (passes reg st m named condition)
      return window offset limit (← sortKeys terms selected)) := by
  have htest : (fun pk => do
      if ← passes reg st m named condition pk then reaches reg st m named none pk else return false) =
        passes reg st m named condition := by
    funext pk
    rcases passes reg st m named condition pk with e | b
    · rfl
    · cases b <;> rfl
  rw [selectKeys, htest]

/-- A window is cut from the rows that are selected without one. -/
theorem selectKeys_window (h : selectKeys reg st m named condition terms 0 none link = .ok rows) (offset : Nat)
    (limit : Option Nat) :
    selectKeys reg st m named condition terms offset limit link = .ok (window offset limit rows) := by
  obtain ⟨selected, hselected, h⟩ := Outcome.bind_eq_ok.mp h
  obtain ⟨sorted, hsorted, h⟩ := Outcome.bind_eq_ok.mp h
  cases h
  rw [selectKeys, hselected, Outcome.ok_bind, hsorted]
  rfl

/-- Without terms to sort by the rows are the same. -/
theorem selectKeys_unordered (h : selectKeys reg st m named condition terms 0 none link = .ok rows) :
    ∃ rows', selectKeys reg st m named condition [] 0 none link = .ok rows' ∧ rows'.Perm rows := by
  obtain ⟨selected, hselected, h⟩ := Outcome.bind_eq_ok.mp h
  obtain ⟨sorted, hsorted, h⟩ := Outcome.bind_eq_ok.mp h
  cases h
  refine ⟨selected, ?_, (sortKeys_perm hsorted).symm⟩
  rw [selectKeys, hselected, Outcome.ok_bind]
  rfl

end Unwindowed

/-- A queryset selects nothing, or the keys that its parts say. -/
theorem select_eq (qs : Queryset) : select reg st qs = if qs.isNone then .ok [] else
    selectKeys reg st qs.model (Expression.annotationsOf reg st qs) qs.condition
      (Expression.sortTerms reg st qs.model (Expression.annotationsOf reg st qs) qs.ordering) qs.offset qs.limit
      none := by
  cases qs
  rfl

theorem select_subperm {qs : Queryset} {pks : List Value} (h : select reg st qs = .ok pks) :
    pks.Subperm (st.keys qs.model) := by
  rw [select_eq] at h
  split at h
  · cases h
    exact List.nil_subperm
  · exact selectKeys_subperm h

/-! ## Querysets without a window -/

variable {qs : Queryset} {rows : List Value}

/-- A queryset that is given a window selects that window of the rows it selects without one. -/
theorem select_windowed (hsliced : qs.isSliced = false) (h : select reg st qs = .ok rows) (offset : Nat)
    (limit : Option Nat) :
    select reg st { qs with offset := offset, limit := limit } = .ok (window offset limit rows) := by
  obtain ⟨m, condition, annotations, ordering, offset₀, limit₀, nothing, database⟩ := qs
  obtain ⟨rfl, rfl⟩ : offset₀ = 0 ∧ limit₀ = none := Queryset.isSliced_eq_false.mp hsliced
  simp only [select, Expression.keysOf] at h ⊢
  cases nothing with
  | true =>
      cases h
      cases limit <;> simp [window]
  | false =>
      have hkeys := selectKeys_window h offset limit
      split
      · rename_i hnone
        have hempty : limit = some 0 := by simpa using hnone
        simp [hempty, window]
      · exact hkeys

/-- A slice of a queryset without a window selects that slice of the rows. -/
theorem select_slice (hsliced : qs.isSliced = false) (h : select reg st qs = .ok rows) (first : Nat)
    (last : Option Nat) :
    select reg st (qs.slice first last) = .ok (window (min first maxCount) (last.map (· - first)) rows) := by
  obtain ⟨hoffset, hlimit⟩ := Queryset.isSliced_eq_false.mp hsliced
  rw [Queryset.slice, hoffset, hlimit, Nat.zero_add, Option.map_none, Queryset.tighter]
  exact select_windowed hsliced h (min first maxCount) (last.map (· - first))

/-- Querysets that differ in their conditions select the same if these pass the same rows. -/
theorem select_congr {qs' : Queryset} (hmodel : qs'.model = qs.model) (hnone : qs'.isNone = qs.isNone)
    (hordering : qs'.ordering = qs.ordering) (hoffset : qs'.offset = qs.offset) (hlimit : qs'.limit = qs.limit)
    (hnamed : Expression.annotationsOf reg st qs' = Expression.annotationsOf reg st qs)
    (hpasses : ∀ pk ∈ st.keys qs.model,
      passes reg st qs.model (Expression.annotationsOf reg st qs) qs'.condition pk =
        passes reg st qs.model (Expression.annotationsOf reg st qs) qs.condition pk) :
    select reg st qs' = select reg st qs := by
  rw [select_eq, select_eq, hmodel, hnone, hordering, hoffset, hlimit, hnamed, selectKeys_unlinked, selectKeys_unlinked,
    Outcome.filterM_congr hpasses]

theorem select_of_isNone (h : qs.isNone) : select reg st qs = .ok [] := (select_eq qs).trans (if_pos h)

/-- Without their order the rows are the same. -/
theorem select_unordered (h : select reg st qs = .ok rows) (hsliced : qs.isSliced = false) :
    ∃ rows', select reg st qs.unordered = .ok rows' ∧ rows'.Perm rows := by
  obtain ⟨m, condition, annotations, ordering, offset, limit, nothing, database⟩ := qs
  obtain ⟨rfl, rfl⟩ : offset = 0 ∧ limit = none := Queryset.isSliced_eq_false.mp hsliced
  simp only [select, Expression.keysOf, Queryset.unordered] at h ⊢
  cases nothing with
  | true =>
      cases h
      exact ⟨[], rfl, .refl _⟩
  | false => exact selectKeys_unordered h

end Store

end RecordMapper

/-!
## Sorting — a part of the sorted rows is the sorted part

A stable sort puts the elements of a part of a list into the order that
they have in the whole sorted list, provided the test that it goes by
does not contradict itself (`Coherent`): no element is less both ways,
and what is not less is handed on. For the terms of an order the
first always holds, since values are compared alike from both sides; the
second is to be asked for, as values without an order are not told apart
and may stand between others that are.
-/

namespace RecordMapper

/-! ## Sorting by a test -/

section StableSort

variable {α : Type} {less : α → α → Bool} {all xs acc : List α} {x : α}

/-- A test that does not contradict itself on some elements. -/
structure Coherent (less : α → α → Bool) (all : List α) : Prop where
  asymm : ∀ a ∈ all, ∀ b ∈ all, less a b = true → less b a = false
  handedOn : ∀ a ∈ all, ∀ b ∈ all, ∀ c ∈ all, less a b = false → less b c = false → less a c = false

theorem insertFromEnd_eq_cons (h : ∀ y ∈ acc, less x y = false) : insertFromEnd less x acc = x :: acc := by
  cases acc with
  | nil => rfl
  | cons y ys => rw [insertFromEnd, h y List.mem_cons_self, if_neg Bool.false_ne_true]

/-- What an element is not less than, it is not less than anything behind. -/
theorem not_less_behind (hc : Coherent less all) (hx : x ∈ all) {y : α} {ys : List α}
    (hacc : ∀ z ∈ y :: ys, z ∈ all) (hsorted : (y :: ys).Pairwise fun a b => less a b = false)
    (h : less x y = false) : ∀ z ∈ y :: ys, less x z = false := by
  intro z hz
  rcases List.mem_cons.mp hz with rfl | hz'
  · exact h
  · exact hc.handedOn x hx y (hacc y List.mem_cons_self) z (hacc z hz) h ((List.pairwise_cons.mp hsorted).1 z hz')

theorem pairwise_insertFromEnd (hc : Coherent less all) (hx : x ∈ all) (hacc : ∀ y ∈ acc, y ∈ all)
    (hsorted : acc.Pairwise fun a b => less a b = false) :
    (insertFromEnd less x acc).Pairwise fun a b => less a b = false := by
  induction acc with
  | nil => simp [insertFromEnd]
  | cons y ys ih =>
      rw [insertFromEnd]
      split
      · rename_i hless
        obtain ⟨hy, hys⟩ := List.pairwise_cons.mp hsorted
        refine List.pairwise_cons.mpr ⟨fun z hz => ?_, ih (fun z hz => hacc z (List.mem_cons_of_mem y hz)) hys⟩
        rcases List.mem_cons.mp ((insertFromEnd_perm less x ys).mem_iff.mp hz) with rfl | hz
        · exact hc.asymm z hx y (hacc y List.mem_cons_self) hless
        · exact hy z hz
      · rename_i hless
        exact List.pairwise_cons.mpr
          ⟨not_less_behind hc hx hacc hsorted (Bool.eq_false_iff.mpr hless), hsorted⟩

theorem filter_insertFromEnd (p : α → Bool) (hc : Coherent less all) (hx : x ∈ all)
    (hacc : ∀ y ∈ acc, y ∈ all) (hsorted : acc.Pairwise fun a b => less a b = false) :
    (insertFromEnd less x acc).filter p =
      if p x then insertFromEnd less x (acc.filter p) else acc.filter p := by
  induction acc with
  | nil => cases hp : p x <;> simp [insertFromEnd, hp]
  | cons y ys ih =>
      have ih := ih (fun z hz => hacc z (List.mem_cons_of_mem y hz)) (List.pairwise_cons.mp hsorted).2
      rw [insertFromEnd]
      split
      · rename_i hless
        rw [List.filter_cons, ih, List.filter_cons]
        cases p x <;> cases p y <;> simp [insertFromEnd, hless]
      · rename_i hless
        have hnot := not_less_behind hc hx hacc hsorted (Bool.eq_false_iff.mpr hless)
        rw [List.filter_cons, insertFromEnd_eq_cons fun z hz => hnot z (List.mem_filter.mp hz).1]

/-- The sorted part of a list is the part of the sorted list. -/
theorem filter_stableSort (p : α → Bool) (hc : Coherent less xs) :
    (stableSort less xs).filter p = stableSort less (xs.filter p) := by
  -- The elements met so far are sorted, and so are those of the part.
  have hfold : ∀ rest acc : List α, (∀ x ∈ rest, x ∈ xs) → (∀ y ∈ acc, y ∈ xs) →
      (acc.Pairwise fun a b => less a b = false) →
      (rest.foldl (fun acc x => insertFromEnd less x acc) acc).filter p =
        (rest.filter p).foldl (fun acc x => insertFromEnd less x acc) (acc.filter p) := by
    intro rest
    induction rest with
    | nil => exact fun _ _ _ _ => rfl
    | cons x rest ih =>
        intro acc hrest hacc hsorted
        have hx := hrest x List.mem_cons_self
        rw [List.foldl_cons, ih _ (fun z hz => hrest z (List.mem_cons_of_mem x hz))
          (forall_mem_insertFromEnd hx hacc) (pairwise_insertFromEnd hc hx hacc hsorted),
          filter_insertFromEnd p hc hx hacc hsorted, List.filter_cons]
        split <;> rfl
  rw [stableSort, stableSort, List.filter_reverse, hfold xs [] (fun _ h => h) (by simp) .nil]
  rfl

/-- Nothing in a sorted list is less than what stands before it. -/
theorem pairwise_stableSort (hc : Coherent less xs) : (stableSort less xs).Pairwise fun a b => less b a = false := by
  have hfold : ∀ rest acc : List α, (∀ x ∈ rest, x ∈ xs) → (∀ y ∈ acc, y ∈ xs) →
      (acc.Pairwise fun a b => less a b = false) →
      (rest.foldl (fun acc x => insertFromEnd less x acc) acc).Pairwise fun a b => less a b = false := by
    intro rest
    induction rest with
    | nil => exact fun _ _ _ hsorted => hsorted
    | cons x rest ih =>
        intro acc hrest hacc hsorted
        have hx := hrest x List.mem_cons_self
        exact ih _ (fun z hz => hrest z (List.mem_cons_of_mem x hz)) (forall_mem_insertFromEnd hx hacc)
          (pairwise_insertFromEnd hc hx hacc hsorted)
  exact List.pairwise_reverse.mpr (hfold xs [] (fun _ h => h) (by simp) .nil)

/-- A list whose elements are not told apart is sorted already. -/
theorem stableSort_eq_self (h : ∀ a ∈ xs, ∀ b ∈ xs, less a b = false) : stableSort less xs = xs := by
  have hfold : ∀ rest acc : List α, (∀ x ∈ rest, x ∈ xs) → (∀ y ∈ acc, y ∈ xs) →
      rest.foldl (fun acc x => insertFromEnd less x acc) acc = rest.reverse ++ acc := by
    intro rest
    induction rest with
    | nil => exact fun _ _ _ => rfl
    | cons x rest ih =>
        intro acc hrest hacc
        have hx := hrest x List.mem_cons_self
        rw [List.foldl_cons, insertFromEnd_eq_cons fun y hy => h x hx y (hacc y hy),
          ih (x :: acc) (fun z hz => hrest z (List.mem_cons_of_mem x hz)) (List.forall_mem_cons.mpr ⟨hx, hacc⟩),
          List.reverse_cons, List.append_assoc, List.singleton_append]
  rw [stableSort, hfold xs [] (fun _ h => h) (by simp), List.append_nil, List.reverse_reverse]

/-- A part whose elements are not told apart stands in the sorted list as it stood. -/
theorem filter_stableSort_eq_filter (p : α → Bool) (hc : Coherent less xs)
    (h : ∀ a ∈ xs, ∀ b ∈ xs, p a → p b → less a b = false) : (stableSort less xs).filter p = xs.filter p := by
  rw [filter_stableSort p hc]
  refine stableSort_eq_self fun a ha b hb => ?_
  obtain ⟨ha, hpa⟩ := List.mem_filter.mp ha
  obtain ⟨hb, hpb⟩ := List.mem_filter.mp hb
  exact h a ha b hb hpa hpb

theorem insertFromEnd_map {β : Type} (f : β → α) (y : β) (ys : List β) :
    insertFromEnd less (f y) (ys.map f) = (insertFromEnd (fun a b => less (f a) (f b)) y ys).map f := by
  induction ys with
  | nil => rfl
  | cons z zs ih =>
      rw [List.map_cons, insertFromEnd, insertFromEnd, ih]
      split <;> rfl

/-- Images are sorted as their elements are by their images. -/
theorem stableSort_map {β : Type} (f : β → α) (ys : List β) :
    stableSort less (ys.map f) = (stableSort (fun a b => less (f a) (f b)) ys).map f := by
  have hfold : ∀ acc : List β, (ys.map f).foldl (fun acc x => insertFromEnd less x acc) (acc.map f) =
      (ys.foldl (fun acc y => insertFromEnd (fun a b => less (f a) (f b)) y acc) acc).map f := by
    induction ys with
    | nil => exact fun _ => rfl
    | cons y ys ih =>
        intro acc
        rw [List.map_cons, List.foldl_cons, List.foldl_cons, insertFromEnd_map, ih]
  rw [stableSort, stableSort, List.map_reverse]
  exact congrArg List.reverse (hfold [])

end StableSort

/-! ## Comparing from both sides -/

theorem Value.compareBytes_swap (as bs : List UInt8) : (compareBytes as bs).swap = compareBytes bs as := by
  induction as generalizing bs with
  | nil => cases bs <;> rfl
  | cons a as ih =>
      cases bs with
      | nil => rfl
      | cons b bs => rw [compareBytes, compareBytes, Ordering.swap_then, ih, Nat.compare_swap]

theorem Date.order_swap (a b : Date) : (a.order b).swap = b.order a := by
  simp only [Date.order, Ordering.swap_then, Int.compare_swap, Nat.compare_swap]

theorem Instant.order_swap (a b : Instant) : (a.order b).swap = b.order a := by
  simp only [Instant.order, Ordering.swap_then, Int.compare_swap, Nat.compare_swap]

theorem Uuid.order_swap (a b : Uuid) : (a.order b).swap = b.order a := by
  simp only [Uuid.order, Nat.compare_swap]

theorem Binary64.compare?_swap (x y : Binary64) : (x.compare? y).map Ordering.swap = y.compare? x := by
  unfold Binary64.compare?
  rw [Bool.or_comm y.isNaN]
  split
  · rfl
  · rw [Option.map_some, Int.compare_swap]

mutual

theorem Value.compare?_swap : ∀ a b : Value, (a.compare? b).map Ordering.swap = b.compare? a
  | .list as, .list bs => by rw [Value.compare?, Value.compare?, Value.compareItems?_swap as bs]
  | .list _, .null | .list _, .bool _ | .list _, .int _ | .list _, .float _ | .list _, .text _
  | .list _, .bytes _ | .list _, .date _ | .list _, .instant _ | .list _, .uuid _
  | .list _, .json _ | .list _, .map _ => rfl
  | .null, b => by cases b <;> rfl
  | .bool a, b => by
    cases b with
    | bool b => cases a <;> cases b <;> rfl
    | _ => rfl
  | .int a, b => by
    cases b with
    | int b => exact congrArg some (Int.compare_swap ..)
    | float b => exact Binary64.compare?_swap ..
    | _ => rfl
  | .float a, b => by
    cases b with
    | int b => exact Binary64.compare?_swap ..
    | float b => exact Binary64.compare?_swap ..
    | _ => rfl
  | .text a, b => by
    cases b with
    | text b =>
        have hswap : compare b a = (compare a b).swap := Std.OrientedCmp.eq_swap
        exact congrArg some hswap.symm
    | _ => rfl
  | .bytes a, b => by
    cases b with
    | bytes b => exact congrArg some (Value.compareBytes_swap ..)
    | _ => rfl
  | .date a, b => by
    cases b with
    | date b => exact congrArg some (Date.order_swap ..)
    | _ => rfl
  | .instant a, b => by
    cases b with
    | instant b => exact congrArg some (Instant.order_swap ..)
    | _ => rfl
  | .uuid a, b => by
    cases b with
    | uuid b => exact congrArg some (Uuid.order_swap ..)
    | _ => rfl
  | .json _, b => by cases b <;> rfl
  | .map _, b => by cases b <;> rfl

theorem Value.compareItems?_swap :
    ∀ as bs : List Value, (Value.compareItems? as bs).map Ordering.swap = Value.compareItems? bs as
  | [], [] => rfl
  | [], _ :: _ => rfl
  | _ :: _, [] => rfl
  | a :: as, b :: bs => by
    have hitem := Value.compare?_swap a b
    have hrest := Value.compareItems?_swap as bs
    rw [Value.compareItems?, Value.compareItems?, ← hitem]
    cases hab : a.compare? b with
    | none => rfl
    | some o => cases o <;> first | exact hrest | rfl

end

namespace SortTerm

theorem order_swap (t : SortTerm) (a b : Value) : (t.order a b).swap = t.order b a := by
  unfold order
  cases a.isNull <;> cases b.isNull
  · rw [← Value.compare?_swap a b]
    cases a.compare? b with
    | none => cases t.descending <;> rfl
    | some o => cases t.descending <;> cases o <;> rfl
  · cases t.nullFirst <;> rfl
  · cases t.nullFirst <;> rfl
  · rfl

theorem orderAll_swap (terms : List SortTerm) (as bs : List Value) :
    (orderAll terms as bs).swap = orderAll terms bs as := by
  induction terms generalizing as bs with
  | nil => rfl
  | cons t ts ih =>
      cases as with
      | nil => cases bs <;> rfl
      | cons a as =>
          cases bs with
          | nil => rfl
          | cons b bs => rw [orderAll, orderAll, Ordering.swap_then, order_swap, ih]

/-- Lists of values that terms put in an order: what does not come before another does not come before
what that does not come before either. -/
def Ranks (terms : List SortTerm) (values : List (List Value)) : Prop :=
  ∀ a ∈ values, ∀ b ∈ values, ∀ c ∈ values,
    orderAll terms a b ≠ .lt → orderAll terms b c ≠ .lt → orderAll terms a c ≠ .lt

instance (terms : List SortTerm) (values : List (List Value)) : Decidable (Ranks terms values) :=
  inferInstanceAs (Decidable (∀ a ∈ values, ∀ b ∈ values, ∀ c ∈ values,
    orderAll terms a b ≠ .lt → orderAll terms b c ≠ .lt → orderAll terms a c ≠ .lt))

theorem Ranks.coherent {terms : List SortTerm} {keyed : List (List Value × Value)}
    (h : Ranks terms (keyed.map Prod.fst)) :
    Coherent (fun a b => orderAll terms a.1 b.1 == .lt) keyed where
  asymm a _ b _ hab := by
    rw [beq_iff_eq] at hab
    rw [← orderAll_swap terms a.1 b.1, hab]
    rfl
  handedOn a ha b hb c hc hab hbc := by
    rw [beq_eq_false_iff_ne] at hab hbc ⊢
    exact h a.1 (List.mem_map_of_mem ha) b.1 (List.mem_map_of_mem hb) c.1 (List.mem_map_of_mem hc) hab hbc

end SortTerm

/-! ## Sorted keys -/

namespace Store

/-- The values that rows are sorted by. -/
def ranksOf (terms : List SortTerm) (pks : List Value) : Outcome (List (List Value)) :=
  pks.mapM fun pk => terms.mapM fun t => t.value pk

/-- Sorting a part of some keys gives that part of the sorted keys. -/
theorem sortKeys_filter {terms : List SortTerm} {pks sorted : List Value} (h : sortKeys terms pks = .ok sorted)
    (hranks : ∀ values, ranksOf terms pks = .ok values → SortTerm.Ranks terms values) (p : Value → Bool) :
    sortKeys terms (pks.filter p) = .ok (sorted.filter p) := by
  rw [sortKeys] at h ⊢
  split
  · rename_i hnone
    rw [if_pos hnone] at h
    cases h
    rfl
  · rename_i hsome
    rw [if_neg hsome] at h
    obtain ⟨keyed, hkeyed, h⟩ := Outcome.bind_eq_ok.mp h
    cases h
    -- Each key stands beside the values that it is sorted by.
    have hbeside : List.Forall₂ (fun pk e => (terms.mapM fun t => t.value pk) = .ok e.1 ∧ e.2 = pk) pks keyed := by
      refine Outcome.mapM_forall₂ hkeyed fun pk _ e he => ?_
      obtain ⟨values, hvalues, he⟩ := Outcome.bind_eq_ok.mp he
      cases he
      exact ⟨hvalues, rfl⟩
    have hvalues : ranksOf terms pks = .ok (keyed.map Prod.fst) :=
      Outcome.mapM_eq_ok.mpr (List.forall₂_map_right_iff.mpr (hbeside.imp fun _ _ h => h.1))
    have hpart := Outcome.mapM_filter hkeyed (p := p) (q := fun e => p e.2) fun pk _ e he => by
      obtain ⟨_, _, he⟩ := Outcome.bind_eq_ok.mp he
      cases he
      rfl
    rw [hpart, Outcome.ok_bind, ← filter_stableSort _ (hranks _ hvalues).coherent, Outcome.pure_eq_ok, List.filter_map]
    rfl

end Store

end RecordMapper
