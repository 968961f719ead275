import RecordMapper.Registry.Basic
import RecordMapper.Text.Dotted

/-!
Dotted paths: names of relations, each looked up on the model the one before leads to, and at the end
the name of any field.
-/

namespace RecordMapper

/-- One step of a path: a field and the model it was looked up on. -/
structure PathStep where
  model : Model
  field : Field
  deriving DecidableEq, Repr, Inhabited

/-- A path whose every step is known: the steps before the last, which are relations, and the last. -/
structure ResolvedPath where
  before : List PathStep
  last : PathStep
  deriving DecidableEq, Repr, Inhabited

namespace ResolvedPath

def steps (p : ResolvedPath) : List PathStep := p.before ++ [p.last]

/-- Whether every row leads to at most one value. -/
def isSingle (p : ResolvedPath) : Bool := p.steps.all fun s => !s.field.type.isMany

/-- Whether the path is a column of the model it starts at. -/
def isDirectColumn (p : ResolvedPath) : Bool := p.before.isEmpty && p.last.field.isConcrete

/-- Whether relations stand before the end. -/
def isTraversal (p : ResolvedPath) : Bool := !p.before.isEmpty

/-- The path from the end back to the start, if every step is a relation. -/
def reversePath? (p : ResolvedPath) : Option String :=
  (p.steps.reverse.mapM fun (s : PathStep) => s.field.type.reverseName?).map (".".intercalate ·)

end ResolvedPath

namespace Registry

/-- The steps that the names of a path stand for. `start` and `whole` name the path in a failure. -/
def resolveNames (reg : Registry) (start whole : String) (m : Model) : List String → Outcome ResolvedPath
  | [] => .error (.fieldNotFound start whole)
  | [name] => do
    let f ← reg.field m name
    return ⟨[], ⟨m, f⟩⟩
  | name :: rest => do
    let f ← reg.field m name
    if f.isRelation then
      let next ← reg.related m f
      let tail ← resolveNames reg start whole next rest
      return { tail with before := ⟨m, f⟩ :: tail.before }
    else throw (.fieldNotFound start whole)

/-- The steps of a path that starts at a model. -/
def resolvePath (reg : Registry) (m : Model) (path : String) : Outcome ResolvedPath :=
  let names := dottedNames path
  if names.any (· == "") then .error (.fieldNotFound m.name path)
  else reg.resolveNames m.name path m names

/-- The model at the end of a path that ends with a relation. -/
def targetModel (reg : Registry) (p : ResolvedPath) : Outcome (Option Model) :=
  if p.last.field.isRelation then (reg.related p.last.model p.last.field).map some else .ok none

/-- Checks that every path of a condition leads somewhere. -/
def checkCondition (reg : Registry) (m : Model) (q : Condition) : Outcome Unit :=
  q.paths.forM fun path => (reg.resolvePath m path).map fun _ => ()

end Registry

end RecordMapper
