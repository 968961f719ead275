import RecordMapper.Expression
import RecordMapper.Guard
import RecordMapper.Scope

/-!
The context of a call: which database, which fields, which policy on failures.
-/

namespace RecordMapper

/-- What a call says besides the rows it asks for. It is handed down, narrowed, to nested schemas. -/
structure Context where
  /-- The database to work with, if it is fixed. -/
  database : Option String := none
  /-- The only fields that take part, if there are any. -/
  includes : Option Scope := none
  /-- Fields that do not take part. -/
  excludes : Option Scope := none
  /-- At most one row is expected. -/
  single : Bool := false
  /-- Expressions fetched beside the fields. -/
  forced : List (String × Expression) := []
  /-- Failures of fields are reported even where the fields ask for silence. -/
  raises : Bool := false
  /-- Isolated fields may be resolved side by side. -/
  concurrent : Bool := true
  /-- What a violated constraint is reported as. -/
  remap : Option (Failure → Failure) := none

namespace Context

instance : Inhabited Context := ⟨{}⟩

/-- A scope that names something. -/
def given? (s : Option Scope) : Option Scope := s.filter (!·.isEmpty)

/-- Whether a field takes part. A primary key always does; fields to include win over fields to
exclude, and a field is excluded only if nothing below it is named. -/
def inScope (c : Context) (name : String) (isPrimaryKey : Bool) : Bool :=
  if isPrimaryKey then true
  else
    match given? c.includes with
    | some included => included.contains name
    | none =>
      match c.excludes with
      | some excluded => !excluded.isLeaf name
      | none => true

/-- The names of an ordered association list, sorted. -/
def sortedNames {α : Type} (entries : List (String × α)) : List String :=
  (Scope.sortedByName (entries.map fun e => (e.1, e.1))).map Prod.fst

/-- A text for the selection of fields. -/
def selectionText (c : Context) : String :=
  (match given? c.includes with
    | some s => "+(" ++ s.canonical ++ ")"
    | none =>
      match given? c.excludes with
      | some s => "-(" ++ s.canonical ++ ")"
      | none => "")
  ++ (if c.forced.isEmpty then "" else "*(" ++ ",".intercalate (sortedNames c.forced) ++ ")")

/-- The key under which rows of a schema are recorded in this context. -/
def guardKey (c : Context) (schema : Nat) : GuardKey := ⟨schema, c.selectionText⟩

/-- The context for the schema below a field: scopes narrow to the field's names, and what concerns the
top alone is dropped. -/
def derive (c : Context) (field : String) : Context :=
  { c with
    includes := given? (c.includes.bind (·.child? field))
    excludes := given? (c.excludes.bind (·.child? field))
    single := false
    forced := [] }

/-- The failure to report for a failure of a write. -/
def mapFailure (c : Context) (f : Failure) : Failure :=
  match c.remap with
  | some remap => if f.isIntegrity then remap f else f
  | none => f

end Context

end RecordMapper
