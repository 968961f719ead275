import RecordMapper.Registry.Path
import RecordMapper.Text.LetterCase

/-!
The type of the values of an expression on a model.
-/

namespace RecordMapper

namespace Failure

def unknownFunction (name : String) : Failure := .notSupported ("Unknown function " ++ name ++ "()")

def functionWithoutArguments (name : String) : Failure := .notSupported (name ++ "() without arguments")

end Failure

/-- The type a value of a field has once it is read: a generated key is an integer. -/
def FieldType.scalar : FieldType → FieldType
  | .auto => .integer
  | t => t

/-- The type of a literal. -/
def Value.fieldType : Value → FieldType
  | .bool _ => .boolean
  | .int _ => .integer
  | .float _ => .float
  | .date _ => .date
  | .instant _ => .instant
  | .uuid _ => .uuid
  | .json _ | .list _ | .map _ => .json
  | .null | .text _ | .bytes _ => .text

namespace Registry

/-- The type of the values along a path; a relation gives the keys of its target. -/
def pathType (reg : Registry) (m : Model) (path : String) : Outcome FieldType := do
  let p ← reg.resolvePath m path
  if p.last.field.isRelation then
    let target ← reg.related p.last.model p.last.field
    let pk ← reg.field target target.pkName
    return pk.type.scalar
  else return p.last.field.type.scalar

/-- The type of a function's values, given that of its first argument. -/
def callType (name : String) (first : Option (Outcome FieldType)) : Outcome FieldType :=
  match upperText name with
  | "LOWER" | "UPPER" | "CONCAT" => .ok .char
  | "LENGTH" => .ok .integer
  | "ABS" | "COALESCE" =>
    match first with
    | some t => t
    | none => .error (.functionWithoutArguments name)
  | other => .error (.unknownFunction other)

mutual

/-- The type of the values of an expression on a model. A function has that of its first argument
where it keeps it, a choice that of its first branch, and arithmetic is on floats as soon as one of its
operands is. -/
def outputType (reg : Registry) (m : Model) (e : Expression) : Outcome FieldType :=
  match e with
  | .column path => reg.pathType m path
  | .literal v => .ok v.fieldType
  | .call name args => callType name (firstOutputType reg m args)
  | .aggregate func e _ _ =>
    match func with
    | .count => .ok .integer
    | .avg => .ok .float
    | _ => outputType reg m e
  | .choose whens otherwise =>
    match whenOutputType reg m whens with
    | some t => t
    | none =>
      match otherwise with
      | some e => outputType reg m e
      | none => .ok .text
  | .subquery rows _ _ value => outputType reg rows.model value
  | .arith op l r =>
    match op with
    | .div => .ok .float
    | _ => do
      let left ← outputType reg m l
      let right ← outputType reg m r
      return if left = .float ∨ right = .float then .float else left
termination_by structural e

/-- The type of the first of several expressions. -/
def firstOutputType (reg : Registry) (m : Model) (args : List Expression) : Option (Outcome FieldType) :=
  match args with
  | [] => none
  | e :: _ => some (outputType reg m e)
termination_by structural args

/-- The type of the first of several branches. -/
def whenOutputType (reg : Registry) (m : Model) (whens : List (Condition × Expression)) :
    Option (Outcome FieldType) :=
  match whens with
  | [] => none
  | (_, e) :: _ => some (outputType reg m e)
termination_by structural whens

end

end Registry

end RecordMapper
