import RecordMapper.Calendar.Instant
import RecordMapper.Json.Basic
import RecordMapper.Text.Hex

/-!
Values of columns, keys and results, and records of named values.

There are two notions of equality. Equality of values (`=`) is identity of everything that is written
down: the order of the entries of a map, the word of a float. It is what tells keys apart. `equiv` is
what conditions on whole values use, and what finds a key that is the only one: it forgets the order of a
map's entries and compares the floats inside a JSON document by value.
-/

namespace RecordMapper

/-- A value. Integers have 64 bits; a map keeps its entries in order. -/
inductive Value
  | null
  | bool (b : Bool)
  | int (n : Int64)
  | float (x : Binary64)
  | text (s : String)
  | bytes (bs : List UInt8)
  | date (d : Date)
  | instant (t : Instant)
  | uuid (u : Uuid)
  | json (j : Json)
  | list (items : List Value)
  | map (entries : List (String × Value))
  deriving Repr, Inhabited

/-- Named values in order. Every operation on records keeps a name at most once. -/
abbrev Record := List (String × Value)

namespace Value

mutual

/-- Whether two values are the same. -/
def same : Value → Value → Bool
  | .null, .null => true
  | .bool a, .bool b => a == b
  | .int a, .int b => a == b
  | .float a, .float b => a == b
  | .text a, .text b => a == b
  | .bytes a, .bytes b => a == b
  | .date a, .date b => a == b
  | .instant a, .instant b => a == b
  | .uuid a, .uuid b => a == b
  | .json a, .json b => a == b
  | .list as, .list bs => sameItems as bs
  | .map as, .map bs => sameEntries as bs
  | _, _ => false

/-- Item by item. -/
def sameItems : List Value → List Value → Bool
  | [], [] => true
  | a :: as, b :: bs => same a b && sameItems as bs
  | _, _ => false

/-- Entry by entry, in order. -/
def sameEntries : List (String × Value) → List (String × Value) → Bool
  | [], [] => true
  | (k, a) :: as, (l, b) :: bs => k == l && same a b && sameEntries as bs
  | _, _ => false

end

mutual

theorem same_iff : ∀ a b : Value, same a b = true ↔ a = b
  | .null, b => by cases b <;> simp [same]
  | .bool _, b => by cases b <;> simp [same]
  | .int _, b => by cases b <;> simp [same]
  | .float _, b => by cases b <;> simp [same]
  | .text _, b => by cases b <;> simp [same]
  | .bytes _, b => by cases b <;> simp [same]
  | .date _, b => by cases b <;> simp [same]
  | .instant _, b => by cases b <;> simp [same]
  | .uuid _, b => by cases b <;> simp [same]
  | .json _, b => by cases b <;> simp [same]
  | .list as, .list bs => by simp [same, sameItems_iff as bs]
  | .list _, .null | .list _, .bool _ | .list _, .int _ | .list _, .float _ | .list _, .text _
  | .list _, .bytes _ | .list _, .date _ | .list _, .instant _ | .list _, .uuid _
  | .list _, .json _ | .list _, .map _ => by simp [same]
  | .map as, .map bs => by simp [same, sameEntries_iff as bs]
  | .map _, .null | .map _, .bool _ | .map _, .int _ | .map _, .float _ | .map _, .text _
  | .map _, .bytes _ | .map _, .date _ | .map _, .instant _ | .map _, .uuid _
  | .map _, .json _ | .map _, .list _ => by simp [same]

theorem sameItems_iff : ∀ as bs : List Value, sameItems as bs = true ↔ as = bs
  | [], [] => by simp [sameItems]
  | [], _ :: _ => by simp [sameItems]
  | _ :: _, [] => by simp [sameItems]
  | a :: as, b :: bs => by simp [sameItems, same_iff a b, sameItems_iff as bs]

theorem sameEntries_iff : ∀ as bs : List (String × Value), sameEntries as bs = true ↔ as = bs
  | [], [] => by simp [sameEntries]
  | [], _ :: _ => by simp [sameEntries]
  | _ :: _, [] => by simp [sameEntries]
  | (k, a) :: as, (l, b) :: bs => by
    simp [sameEntries, same_iff a b, sameEntries_iff as bs]

end

instance : DecidableEq Value := fun a b => decidable_of_iff _ (same_iff a b)

mutual

/-- Equality of values up to the order of map entries and the two zeros of JSON floats. -/
def equiv : Value → Value → Bool
  | .json a, .json b => a.equiv b
  | .list as, .list bs => equivItems as bs
  | .map as, .map bs => as.length == bs.length && equivEntries as bs
  | a, b => a.same b

/-- Item by item. -/
def equivItems : List Value → List Value → Bool
  | [], [] => true
  | a :: as, b :: bs => equiv a b && equivItems as bs
  | _, _ => false

/-- Every entry has a partner of the same name. -/
def equivEntries : List (String × Value) → List (String × Value) → Bool
  | [], _ => true
  | (k, a) :: as, bs =>
    (match bs.lookup k with
      | some b => equiv a b
      | none => false) && equivEntries as bs

end

/-- Byte strings compare by their first unequal byte; one before its extensions. -/
def compareBytes : List UInt8 → List UInt8 → Ordering
  | [], [] => .eq
  | [], _ :: _ => .lt
  | _ :: _, [] => .gt
  | a :: as, b :: bs => (compare a.toNat b.toNat).then (compareBytes as bs)

mutual

/-- The order of two values, if they have one: values of one kind, and integers with floats as
numbers. Documents and maps have no order. -/
def compare? : Value → Value → Option Ordering
  | .null, .null => some .eq
  | .bool a, .bool b => some (compare a b)
  | .int a, .int b => some (compare a.toInt b.toInt)
  | .float a, .float b => a.compare? b
  | .int a, .float b => (Binary64.ofInt a.toInt).compare? b
  | .float a, .int b => a.compare? (Binary64.ofInt b.toInt)
  | .text a, .text b => some (compare a b)
  | .bytes a, .bytes b => some (compareBytes a b)
  | .date a, .date b => some (a.order b)
  | .instant a, .instant b => some (a.order b)
  | .uuid a, .uuid b => some (a.order b)
  | .list as, .list bs => compareItems? as bs
  | _, _ => none

/-- Lists compare by their first items that are not equal; a list before its extensions. -/
def compareItems? : List Value → List Value → Option Ordering
  | [], [] => some .eq
  | [], _ :: _ => some .lt
  | _ :: _, [] => some .gt
  | a :: as, b :: bs =>
    match compare? a b with
    | some .eq => compareItems? as bs
    | other => other

end

/-- Whether two values are ordered and neither is less. -/
def numEq (a b : Value) : Bool := a.compare? b == some .eq

def isNull : Value → Bool
  | .null => true
  | _ => false

def asBool? : Value → Option Bool
  | .bool b => some b
  | _ => none

def asInt? : Value → Option Int64
  | .int n => some n
  | _ => none

/-- A number as a float. -/
def asFloat? : Value → Option Binary64
  | .int n => some (Binary64.ofInt n.toInt)
  | .float x => some x
  | _ => none

def asText? : Value → Option String
  | .text s => some s
  | _ => none

def asList? : Value → Option (List Value)
  | .list items => some items
  | _ => none

def asMap? : Value → Option Record
  | .map entries => some entries
  | _ => none

/-- The values that a value stands for: null for none, a list for its items, any other for itself. -/
def items : Value → List Value
  | .null => []
  | .list items => items
  | v => [v]

end Value

end RecordMapper
