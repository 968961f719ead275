import Mathlib.Data.List.Forall2
import RecordMapper.Proofs.Entries

/-!
# Plain values — keys that mean what they are

Booleans, integers, texts, bytes, dates, instants and identifiers are
equal, equivalent and of one rank exactly when they are the same. Floats
and documents are not like that, and null is no key; but every scalar,
floats and null included, is equivalent to itself only. Of a list of
values those that are not null are `given`.
-/

namespace RecordMapper

theorem Date.order_eq_iff {a b : Date} : a.order b = .eq ↔ a = b := by
  obtain ⟨ay, am, ad⟩ := a
  obtain ⟨by', bm, bd⟩ := b
  simp [Date.order, Ordering.then_eq_eq]

theorem Instant.order_eq_iff {a b : Instant} : a.order b = .eq ↔ a = b := by
  obtain ⟨as, an⟩ := a
  obtain ⟨bs, bn⟩ := b
  simp [Instant.order, Ordering.then_eq_eq]

theorem Uuid.order_eq_iff {a b : Uuid} : a.order b = .eq ↔ a = b := by
  obtain ⟨a⟩ := a
  obtain ⟨b⟩ := b
  simp [Uuid.order, BitVec.toNat_inj]

namespace Value

theorem compareBytes_eq_iff {as bs : List UInt8} : compareBytes as bs = .eq ↔ as = bs := by
  induction as generalizing bs with
  | nil => cases bs <;> simp [compareBytes]
  | cons a rest ih =>
      cases bs with
      | nil => simp [compareBytes]
      | cons b bs => simp [compareBytes, Ordering.then_eq_eq, ih, UInt8.toNat_inj]

/-- A value of which there is only one way to write it: a scalar that is neither null nor a float. -/
def isPlain : Value → Bool
  | .bool _ | .int _ | .text _ | .bytes _ | .date _ | .instant _ | .uuid _ => true
  | _ => false

/-- A value that holds no other values and no document. -/
def isScalar : Value → Bool
  | .json _ | .list _ | .map _ => false
  | _ => true

variable {a b : Value}

theorem isScalar_of_isPlain (h : a.isPlain) : a.isScalar := by
  cases a <;> first | rfl | cases h

theorem ne_null_of_isPlain (h : b.isPlain) : b ≠ .null := by
  rintro rfl
  cases h

theorem isNull_iff : b.isNull = true ↔ b = .null := by
  cases b <;> simp [isNull]

theorem isNull_of_isPlain (h : b.isPlain) : b.isNull = false :=
  Bool.eq_false_iff.mpr fun hnull => ne_null_of_isPlain h (isNull_iff.mp hnull)

theorem equiv_iff_of_isPlain (h : b.isPlain) : a.equiv b = true ↔ a = b := by
  cases b <;> first
    | exact absurd h Bool.false_ne_true
    | cases a <;> simp [equiv, same]

theorem equiv_iff_of_isScalar (h : a.isScalar) : a.equiv b = true ↔ a = b := by
  cases a <;> first
    | exact absurd h Bool.false_ne_true
    | cases b <;> simp [equiv, same]

theorem equiv_iff_of_isPlain_left (h : a.isPlain) : a.equiv b = true ↔ a = b :=
  equiv_iff_of_isScalar (isScalar_of_isPlain h)

theorem equiv_null_iff : null.equiv a = true ↔ a = .null :=
  (equiv_iff_of_isScalar rfl).trans eq_comm

theorem numEq_iff_of_isPlain (ha : a = .null ∨ a.isPlain) (h : b.isPlain) : a.numEq b = true ↔ a = b := by
  rcases ha with rfl | ha
  · cases b <;> first
      | exact absurd h Bool.false_ne_true
      | simp [numEq, compare?]
  · cases b <;> cases a <;> first
      | exact absurd h Bool.false_ne_true
      | exact absurd ha Bool.false_ne_true
      | simp [numEq, compare?, Date.order_eq_iff, Instant.order_eq_iff, Uuid.order_eq_iff,
          compareBytes_eq_iff, Int64.toInt_inj]

/-- What equals a plain value and is no float is that value. -/
theorem numEq_iff_of_ne_float (ha : ∀ x, a ≠ .float x) (h : b.isPlain) : a.numEq b = true ↔ a = b := by
  by_cases hplain : a = .null ∨ a.isPlain
  · exact numEq_iff_of_isPlain hplain h
  · rw [not_or] at hplain
    have hne : a ≠ b := by
      rintro rfl
      exact hplain.2 h
    refine iff_of_false ?_ hne
    cases a <;> cases b <;> simp_all [numEq, compare?, isPlain]

end Value

/-- A plain key comes down to itself alone. -/
theorem Keyed.seat_of_isPlain {α : Type} {entries : Keyed α} {k : Value} (h : k.isPlain) : seat entries k = k := by
  rcases seat_eq_or_sole entries k with hseat | ⟨_, hequiv⟩
  · exact hseat
  · exact ((Value.equiv_iff_of_isPlain_left h).mp hequiv).symm

/-- The values that are not null. -/
def given (vs : List Value) : List Value := vs.filter fun v => !v.isNull

theorem mem_given {v : Value} {vs : List Value} : v ∈ given vs ↔ v ∈ vs ∧ v ≠ .null := by
  rw [given, List.mem_filter, Bool.not_eq_true', Bool.eq_false_iff, Ne, Value.isNull_iff]

@[simp] theorem given_given (vs : List Value) : given (given vs) = given vs := by
  simp [given]

theorem given_append (us vs : List Value) : given (us ++ vs) = given us ++ given vs :=
  List.filter_append ..

/-- What is given in pieces is given in all. -/
theorem given_flatten {α : Type} {f : α → List Value} {xs : List α} {pieces : List (List Value)}
    (h : List.Forall₂ (fun x vs => given vs = given (f x)) xs pieces) :
    given pieces.flatten = given (xs.flatMap f) := by
  induction h with
  | nil => rfl
  | cons hhead _ ih => rw [List.flatten_cons, List.flatMap_cons, given_append, given_append, hhead, ih]

theorem given_flatten_sublist {α : Type} {f : α → List Value} {xs : List α} {pieces : List (List Value)}
    (h : List.Forall₂ (fun x vs => (given vs).Sublist (given (f x))) xs pieces) :
    (given pieces.flatten).Sublist (given (xs.flatMap f)) := by
  induction h with
  | nil => exact .refl _
  | cons hhead _ ih =>
      rw [List.flatten_cons, List.flatMap_cons, given_append, given_append]
      exact hhead.append ih

/-- Null adds nothing to what is collected if it leads nowhere. -/
theorem flatMap_given {α : Type} {f : Value → List α} (h : f .null = []) (vs : List Value) :
    (given vs).flatMap f = vs.flatMap f := by
  induction vs with
  | nil => rfl
  | cons v rest ih =>
      rw [given, List.filter_cons, List.flatMap_cons]
      cases hv : v.isNull with
      | true =>
          rw [Value.isNull_iff.mp hv, h, List.nil_append]
          exact ih
      | false => exact congrArg (f v ++ ·) ih

end RecordMapper
