import RecordMapper.Json.Printer
import RecordMapper.Value.Record

/-!
Entries under keys that are values.

A key is found by what is the same as it. The key of a sole entry is also found by what is only equal to
it, up to the order of map entries and the zeros of floats. Putting an entry always goes by sameness.

Tables of several entries look for a key among those that have its hash. What is fed to the hasher is
first the kind of a value and then what it holds: a float as its word, a document as its text, a list as
its length and its items, a map as its length and its entries in their order.
-/

namespace RecordMapper

/-- Entries under keys, each key once, in order. -/
abbrev Keyed (α : Type) := List (Value × α)

namespace Keyed

/-- The key that a look-up comes down to: that of a sole entry if it is equal, otherwise the key asked
for. -/
def seat {α : Type} (entries : Keyed α) (k : Value) : Value :=
  match entries with
  | [(only, _)] => if k.equiv only then only else k
  | _ => k

/-- What stands under a key. -/
def get? {α : Type} (entries : Keyed α) (k : Value) : Option α := entries.lookup (seat entries k)

/-- The entries without what stands under a key. -/
def erase {α : Type} (entries : Keyed α) (k : Value) : Keyed α := eraseEntry entries (seat entries k)

/-- What stands under each of some keys, every entry taken out as it is found. -/
def drain {α : Type} (entries : Keyed α) : List Value → List (Option α)
  | [] => []
  | k :: rest => get? entries k :: drain (erase entries k) rest

/-- A key that is present is its own seat. -/
theorem seat_of_lookup {α : Type} {entries : Keyed α} {k : Value} {a : α}
    (h : entries.lookup k = some a) : seat entries k = k := by
  unfold seat
  split
  · next only b =>
    by_cases hk : k = only
    · simp [hk]
    · rw [List.lookup_cons, beq_eq_false_iff_ne.2 hk] at h
      cases h
  · rfl

@[simp] theorem length_drain {α : Type} (entries : Keyed α) (ks : List Value) :
    (drain entries ks).length = ks.length := by
  induction ks generalizing entries with
  | nil => rfl
  | cons k rest ih => simp [drain, ih]

end Keyed

/-- A piece of what is fed to a hasher. -/
inductive HashPiece
  | kind (index : Nat)
  | flag (b : Bool)
  | integer (n : Int64)
  | word (bits : UInt64)
  | text (s : String)
  | length (n : Nat)
  | bytes (bs : List UInt8)
  | day (d : Date)
  | time (second nanos : Nat)
  | identifier (u : Uuid)
  deriving DecidableEq, Repr

namespace Value

mutual

/-- What hashing a value feeds. -/
def fed : Value → List HashPiece
  | .null => [.kind 0]
  | .bool b => [.kind 1, .flag b]
  | .int n => [.kind 2, .integer n]
  | .float x => [.kind 3, .word x.bits]
  | .text s => [.kind 4, .text s]
  | .bytes bs => [.kind 5, .length bs.length, .bytes bs]
  | .date d => [.kind 6, .day d]
  | .instant t => [.kind 7, .day t.date, .time (Int.fmod t.seconds 86400).toNat t.nanos]
  | .uuid u => [.kind 8, .identifier u]
  | .json j => [.kind 9, .text j.print]
  | .list items => .kind 10 :: .length items.length :: fedItems items
  | .map entries => .kind 11 :: .length entries.length :: fedEntries entries

/-- What the items of a list feed, one after another. -/
def fedItems : List Value → List HashPiece
  | [] => []
  | v :: rest => fed v ++ fedItems rest

/-- What the entries of a map feed in their order, each name before its value. -/
def fedEntries : List (String × Value) → List HashPiece
  | [] => []
  | (name, v) :: rest => .text name :: fed v ++ fedEntries rest

end

end Value

end RecordMapper
