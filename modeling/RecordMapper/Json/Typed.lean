import RecordMapper.Failure
import RecordMapper.Json.Basic

/-!
Reading values of other types out of JSON documents, and writing them as documents.
-/

namespace RecordMapper

/-- A document that is not of the shape asked for. -/
def Failure.unexpectedDocument (expected : String) : Failure := .serialization ("expected " ++ expected)

/-- An object without a member that is asked for. -/
def Failure.missingMember (name : String) : Failure := .serialization ("missing field " ++ name)

/-- Types whose values are read from documents. -/
class Json.Readable (α : Type) where
  decode : Json → Outcome α

/-- Types whose values are written as documents. -/
class Json.Writable (α : Type) where
  encode : α → Json

namespace Json

export Readable (decode)
export Writable (encode)

instance : Readable Json := ⟨.ok⟩

instance : Readable String := ⟨fun j =>
  match j with
  | .text s => .ok s
  | _ => .error (.unexpectedDocument "a string")⟩

instance : Readable Bool := ⟨fun j =>
  match j with
  | .bool b => .ok b
  | _ => .error (.unexpectedDocument "a boolean")⟩

instance : Readable Nat := ⟨fun j =>
  match j with
  | .number (.integer n) => if 0 ≤ n then .ok n.toNat else .error (.unexpectedDocument "a natural number")
  | _ => .error (.unexpectedDocument "a natural number")⟩

instance {α : Type} [Readable α] : Readable (Option α) := ⟨fun j =>
  match j with
  | .null => .ok none
  | j => (decode j).map some⟩

instance {α : Type} [Readable α] : Readable (List α) := ⟨fun j =>
  match j with
  | .array items => items.mapM decode
  | _ => .error (.unexpectedDocument "an array")⟩

instance {α β : Type} [Readable α] [Readable β] : Readable (α × β) := ⟨fun j =>
  match j with
  | .array [a, b] => do return (← decode a, ← decode b)
  | _ => .error (.unexpectedDocument "a pair")⟩

/-- The member of an object that has to be there. -/
def need {α : Type} [Readable α] (j : Json) (name : String) : Outcome α :=
  match j.member? name with
  | some v => decode v
  | none => .error (.missingMember name)

/-- The member of an object, if it is there and not null. -/
def opt {α : Type} [Readable α] (j : Json) (name : String) : Outcome (Option α) :=
  match j.member? name with
  | none => .ok none
  | some v => decode v

/-- The member of an object, or another value if it is not there or null. -/
def optD {α : Type} [Readable α] (j : Json) (name : String) (other : α) : Outcome α :=
  (opt j name).map fun v => v.getD other

instance : Writable Json := ⟨id⟩

instance : Writable String := ⟨.text⟩

instance : Writable Bool := ⟨.bool⟩

instance : Writable Nat := ⟨fun n => .int (Int.ofNat n)⟩

instance {α : Type} [Writable α] : Writable (List α) := ⟨fun items => .array (items.map encode)⟩

instance {α β : Type} [Writable α] [Writable β] : Writable (α × β) :=
  ⟨fun (a, b) => .array [encode a, encode b]⟩

instance {α : Type} [Writable α] : Writable (Option α) := ⟨fun v =>
  match v with
  | some a => encode a
  | none => .null⟩

end Json

end RecordMapper
