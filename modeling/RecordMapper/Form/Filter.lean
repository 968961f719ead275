import RecordMapper.Failure
import RecordMapper.Queryset
import RecordMapper.Registry.Output

/-!
Filters of a query form: inputs that narrow the rows.
-/

namespace RecordMapper

/-- What an input of a form is about. -/
inductive FormTarget
  | path (path : String)
  | expression (e : Expression)
  deriving Inhabited

/-- Checks that the target means something on a model. -/
def FormTarget.check (reg : Registry) (m : Model) : FormTarget → Outcome Unit
  | .path p => (reg.resolvePath m p).map fun _ => ()
  | .expression e => (reg.outputType m e).map fun _ => ()

/-- A filter. Without a test of its own it asks for the input value, or for one of the values if the
input is a list. A condition made from the input goes before both. -/
structure FormFilter where
  name : String
  target : FormTarget
  test : Option (Value → Lookup) := none
  condition : Option (Value → Outcome Condition) := none
  /-- The form needs the input. -/
  required : Bool := false
  /-- A condition that cannot be made is left out. -/
  silent : Bool := false
  deriving Inhabited

namespace FormFilter

/-- Checks that the filter means something on a model. -/
def check (reg : Registry) (m : Model) (f : FormFilter) : Outcome Unit :=
  if f.condition.isSome then .ok () else f.target.check reg m

/-- The name under which a filtered expression is annotated. -/
def label (f : FormFilter) : String := "__filter_" ++ f.name

/-- The test of the input value. -/
def lookupOf (f : FormFilter) (v : Value) : Lookup :=
  match f.test with
  | some test => test v
  | none =>
    match v with
    | .list items => .oneOf items
    | v => .exact v

/-- The rows that pass the filter. -/
def apply (f : FormFilter) (qs : Queryset) (v : Value) : Outcome Queryset :=
  match f.condition with
  | some make =>
    match make v with
    | .ok q => .ok (qs.filter q)
    | .error e => if f.silent then .ok qs else .error e
  | none =>
    match f.target with
    | .path path => .ok (qs.filter (.test path (f.lookupOf v)))
    | .expression e => .ok ((qs.annotate f.label e).filter (.test f.label (f.lookupOf v)))

end FormFilter

end RecordMapper
