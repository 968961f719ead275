import RecordMapper.Expression

/-!
Building querysets. A window counts rows in a machine word, so an offset stops at the largest of them.
-/

namespace RecordMapper

/-- The largest number of rows that can be counted. -/
def maxCount : Nat := UInt64.size - 1

namespace Queryset

/-- Every row of a model. -/
def all (m : Model) : Queryset := ⟨m, Option.none, [], [], 0, Option.none, false, Option.none⟩

instance : Inhabited Queryset := ⟨all default⟩

/-- Whether only a window of the rows is meant. -/
def isSliced (qs : Queryset) : Bool := qs.offset > 0 || qs.limit.isSome

/-- Whether nothing can be selected. -/
def isNone (qs : Queryset) : Bool := qs.none || qs.limit == some 0

/-- The rows that pass one more condition. -/
def filter (qs : Queryset) (q : Condition) : Queryset :=
  { qs with condition := some (match qs.condition with
      | some p => p.and q
      | .none => q) }

/-- The rows that do not pass a condition. -/
def exclude (qs : Queryset) (q : Condition) : Queryset := qs.filter q.negate

/-- The rows whose primary key is one of the given values. -/
def pkIn (qs : Queryset) (keys : List Value) : Queryset :=
  qs.filter (.test qs.model.pkName (.oneOf keys))

/-- The rows with a named expression beside their columns. -/
def annotate (qs : Queryset) (name : String) (e : Expression) : Queryset :=
  { qs with annotations := insertEntry qs.annotations name e }

/-- The rows in another order. -/
def orderBy (qs : Queryset) (terms : List OrderTerm) : Queryset := { qs with ordering := terms }

/-- The smaller of two limits, of which either may be absent. -/
def tighter : Option Nat → Option Nat → Option Nat
  | some a, some b => some (min a b)
  | some a, .none => some a
  | .none, b => b

/-- The rows from `first` up to `last` of the present window. -/
def slice (qs : Queryset) (first : Nat) (last : Option Nat) : Queryset :=
  { qs with
    offset := min (qs.offset + first) maxCount
    limit := tighter (qs.limit.map (· - first)) (last.map (· - first)) }

/-- The window without its first rows. -/
def skip (qs : Queryset) (n : Nat) : Queryset := qs.slice n Option.none

/-- The first rows of the window. -/
def take (qs : Queryset) (n : Nat) : Queryset := qs.slice 0 (some n)

/-- Nothing. -/
def nothing (qs : Queryset) : Queryset := { qs with none := true }

/-- The same rows of a certain database. -/
def on (qs : Queryset) (database : String) : Queryset := { qs with database := some database }

/-- The rows without a window. -/
def unsliced (qs : Queryset) : Queryset := { qs with offset := 0, limit := Option.none }

/-- The rows in no particular order. -/
def unordered (qs : Queryset) : Queryset := { qs with ordering := [] }

end Queryset

/-- A named expression to fetch. -/
structure SelectColumn where
  label : String
  expr : Expression
  deriving Inhabited

/-- A path fetched under its own name. -/
def SelectColumn.ofPath (path : String) : SelectColumn := ⟨path, .column path⟩

end RecordMapper
