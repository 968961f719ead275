import RecordMapper.Queryset
import RecordMapper.Value.Keyed

/-!
Declarations of schema fields: what a field is called, where its value comes from, and what it takes part
in: reading, updating, creating.
-/

namespace RecordMapper

/-- What is done with a schema. -/
inductive Operation
  | read
  | update
  | create
  deriving DecidableEq, Repr, Inhabited

/-- The letter of an operation. -/
def Operation.letter : Operation → String
  | .read => "r"
  | .update => "w"
  | .create => "a"

/-- The operation of a letter. -/
def Operation.ofLetter? (letter : String) : Option Operation :=
  [Operation.read, .update, .create].find? fun o => o.letter == letter

/-- The operations a field takes part in. -/
structure Mode where
  read : Bool := true
  update : Bool := true
  create : Bool := true
  deriving DecidableEq, Repr, Inhabited

/-- A letter that is no flag of a mode. -/
def Failure.unknownModeFlag (flag : Char) (flags : String) : Failure :=
  .classification ("Unknown mode flag '" ++ String.singleton flag ++ "' in '" ++ flags ++ "'")

namespace Mode

def readOnly : Mode := ⟨true, false, false⟩

/-- The mode of a string of flags: `r` reads, `w` writes, `a` writes new rows only. -/
def parse (flags : String) : Outcome Mode :=
  flags.toList.foldlM (fun mode flag =>
    match flag with
    | 'r' => .ok { mode with read := true }
    | 'w' => .ok { mode with update := true, create := true }
    | 'a' => .ok { mode with create := true }
    | other => .error (.unknownModeFlag other flags)) (⟨false, false, false⟩ : Mode)

/-- Whether a field of this mode takes part in an operation. -/
def allows (m : Mode) : Operation → Bool
  | .read => m.read
  | .update => m.update
  | .create => m.create

/-- The mode without writing. -/
def withoutWriting (m : Mode) : Mode := ⟨m.read, false, false⟩

/-- The flags of a mode; `w` implies `a`. -/
def text (m : Mode) : String :=
  (if m.read then "r" else "") ++ (if m.update then "w" else if m.create then "a" else "")

end Mode

/-- What a function of primary keys returns for a row. -/
inductive FunctionOutput
  /-- The keys of the rows of a queryset. -/
  | queryset (qs : Queryset)
  | keys (pks : List Value)
  | key (pk : Value)
  | value (v : Value)
  deriving Inhabited

/-- A function of primary keys. -/
inductive KeyFunction
  /-- One result for all rows. -/
  | constant (result : Outcome FunctionOutput)
  /-- One result for each key. -/
  | perKey (result : Value → Outcome FunctionOutput)
  /-- One call with all keys; a key without a result has no values. -/
  | batch (results : List Value → Outcome (Keyed FunctionOutput))
  deriving Inhabited

/-- A function as the source of a field. -/
structure FieldFunction where
  call : KeyFunction
  /-- The model whose keys the results are; otherwise they are plain values. -/
  related : Option String
  deriving Inhabited

/-- A value computed from other fields of a row. -/
structure Property where
  deps : List String
  compute : Record → Value
  deriving Inhabited

/-- Where the value of a field comes from. -/
inductive FieldSource
  /-- The model path of the field's own name, if there is one. -/
  | implicit
  | path (path : String)
  | expression (e : Expression)
  | queryset (qs : Queryset)
  | function (f : FieldFunction)
  | property (p : Property)
  deriving Inhabited

/-- The schema of the rows behind a relation. -/
inductive NestedRef
  /-- A schema of the catalog. -/
  | schema (id : Nat)
  /-- The schema that the field belongs to. -/
  | self
  /-- A slot of the catalog, which may be filled later. -/
  | slot (name : String)
  deriving DecidableEq, Repr, Inhabited

/-- The value of a field that the data of a new row leaves out. -/
inductive DefaultValue
  | fixed (v : Value)
  /-- The present, as a day or an instant. -/
  | now
  deriving DecidableEq, Repr, Inhabited

/-- The declaration of a schema field. -/
structure FieldDecl where
  name : String
  source : FieldSource := .implicit
  nested : Option NestedRef := none
  /-- Whether one value is meant or a list, if it is said. -/
  single : Option Bool := none
  /-- Flags of a mode, if they are given. -/
  mode : Option String := none
  /-- A failure to resolve the field leaves it empty. -/
  silent : Bool := false
  default : Option DefaultValue := none
  /-- The path back to the row, for querysets. -/
  link : Option String := none
  deriving Inhabited

end RecordMapper
