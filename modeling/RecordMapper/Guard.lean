import RecordMapper.Value.Keyed

/-!
The rows that are known while nested rows are resolved.

A row is recorded as a snapshot when its direct columns are fetched and again when it is finished. A
nested resolution that meets a recorded row takes it instead of resolving it once more, which is what
ends the resolution of schemas that contain themselves.
-/

namespace RecordMapper

/-- Rows that may stand for one another: rows of one schema under one selection of its fields. -/
structure GuardKey where
  schema : Nat
  scope : String
  deriving DecidableEq, Repr, Inhabited

/-- The recorded rows by key and primary key, in the order they were first recorded. -/
structure Guard where
  families : List (GuardKey × Keyed Record)
  deriving DecidableEq, Repr, Inhabited

namespace Guard

def empty : Guard := ⟨[]⟩

/-- The rows recorded under a key. -/
def rows (g : Guard) (key : GuardKey) : Keyed Record := (g.families.lookup key).getD []

/-- The recorded row of a primary key. -/
def get? (g : Guard) (key : GuardKey) (pk : Value) : Option Record := Keyed.get? (g.rows key) pk

def contains (g : Guard) (key : GuardKey) (pk : Value) : Bool := (g.get? key pk).isSome

/-- The number of rows recorded under a key. -/
def count (g : Guard) (key : GuardKey) : Nat := (g.rows key).length

/-- Records finished rows in the place of whatever is recorded. -/
def register (g : Guard) (key : GuardKey) (rows : List (Value × Record)) : Guard :=
  ⟨insertEntry g.families key (rows.foldl (fun acc e => insertEntry acc e.1 e.2) (g.rows key))⟩

/-- Records rows of primary keys that are not recorded yet. -/
def registerMissing (g : Guard) (key : GuardKey) (rows : List (Value × Record)) : Guard :=
  ⟨insertEntry g.families key
    (rows.foldl (fun acc e => if (acc.lookup e.1).isSome then acc else acc ++ [e]) (g.rows key))⟩

/-- Those of the given primary keys that are not recorded, in their order. -/
def unresolved (g : Guard) (key : GuardKey) (pks : List Value) : List Value :=
  pks.filter fun pk => !g.contains key pk

end Guard

end RecordMapper
