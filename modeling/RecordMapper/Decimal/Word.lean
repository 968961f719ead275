/-!
Integers that a signed word of 64 bits can hold. Every reader of whole numbers stops at this range, and
arithmetic leaves it for floats.
-/

namespace RecordMapper

/-- The range of a signed word of 64 bits. -/
abbrev FitsWord (n : Int) : Prop := -9223372036854775808 ≤ n ∧ n ≤ 9223372036854775807

/-- The word that holds an integer, if one does. -/
def int64? (n : Int) : Option Int64 := if FitsWord n then some (Int64.ofInt n) else none

theorem toInt_of_int64? {n : Int} {w : Int64} (h : int64? n = some w) : w.toInt = n := by
  unfold int64? at h
  split at h
  · next fits => cases h; exact Int64.toInt_ofInt_of_le (by omega) (by omega)
  · cases h

theorem int64?_toInt (w : Int64) : int64? w.toInt = some w := by
  have low := w.le_toInt
  have high := w.toInt_lt
  have fits : FitsWord w.toInt := by constructor <;> omega
  simp [int64?, fits]

end RecordMapper
