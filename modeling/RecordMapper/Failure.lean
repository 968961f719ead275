import RecordMapper.Value.Record

/-!
What can go wrong, and how it is reported.

A failure is a cause, possibly wrapped by the schema field it was met in. Its kind, its root cause, its
message and its status are functions of it. Where a module has causes of its own it names each of them
with a function that builds the failure.
-/

namespace RecordMapper

/-- A fault found in input: a message with a code, or a collection of faults by field name. -/
inductive Fault
  | mk (message code : String) (params : List (String × String)) (fields : List (String × List Fault))
  deriving Repr, Inhabited

namespace Fault

def message : Fault → String
  | .mk message _ _ _ => message

def code : Fault → String
  | .mk _ code _ _ => code

def params : Fault → List (String × String)
  | .mk _ _ params _ => params

def fields : Fault → List (String × List Fault)
  | .mk _ _ _ fields => fields

/-- A fault with a message and a code. -/
def plain (message code : String) : Fault := .mk message code [] []

/-- A fault that collects faults of several fields. -/
def ofFields (fields : List (String × List Fault)) : Fault := .mk "" "" [] (entriesOf fields)

/-- A fault of one field. -/
def forField (field message code : String) : Fault := ofFields [(field, [plain message code])]

/-- The fault with a parameter set. -/
def withParam (f : Fault) (key value : String) : Fault :=
  .mk f.message f.code (insertEntry f.params key value) f.fields

mutual

/-- The message of a fault; without one, the messages of its fields behind the fields' names. -/
def render : Fault → String
  | .mk message _ _ fields =>
    if message != "" then message else "; ".intercalate (renderFields fields)

/-- The messages of the faults of several fields. -/
def renderFields : List (String × List Fault) → List String
  | [] => []
  | (field, faults) :: rest => renderFaults field faults ++ renderFields rest

/-- The messages of the faults of one field. -/
def renderFaults (field : String) : List Fault → List String
  | [] => []
  | f :: rest => (field ++ ": " ++ render f) :: renderFaults field rest

end

end Fault

/-- The reasons why an operation does not succeed. -/
inductive Failure
  /-- A model has no field of this name, or no such path starts at it. -/
  | fieldNotFound (model field : String)
  /-- A schema field is declared in a way that has no meaning. -/
  | classification (reason : String)
  /-- Data without a primary key was to be updated. -/
  | missingPrimaryKey (reason : String)
  /-- A row that was to be updated does not exist. -/
  | updateFailed (reason : String)
  /-- A single row was asked for and none is there. -/
  | emptyQueryset (reason : String)
  /-- A single object was asked for and none is there. -/
  | doesNotExist (reason : String)
  /-- A single object was asked for and several are there. -/
  | multipleObjects (reason : String)
  /-- The database rejects a statement. -/
  | database (reason : String)
  /-- A constraint would be violated. -/
  | integrity (reason : String)
  /-- The database cannot be worked with. -/
  | operational (reason : String)
  /-- The shape of a query has no evaluation. -/
  | notSupported (reason : String)
  /-- An isolated field of a schema could not be resolved. -/
  | isolatedField (field : String) (source : Failure)
  /-- A relation of a saved record could not be saved. -/
  | relation (field : String) (source : Failure)
  /-- Input was found faulty. -/
  | validation (fault : Fault)
  /-- A declaration or a setting is missing or wrong. -/
  | configuration (reason : String)
  /-- Data does not have the shape that was asked for. -/
  | serialization (reason : String)
  /-- A file could not be read. -/
  | io (reason : String)
  /-- A failure that the caller defined. -/
  | custom (text : String)
  deriving Repr, Inhabited

/-- The reasons without what they carry. -/
inductive Failure.Kind
  | fieldNotFound
  | classification
  | missingPrimaryKey
  | updateFailed
  | emptyQueryset
  | doesNotExist
  | multipleObjects
  | database
  | integrity
  | operational
  | notSupported
  | isolatedField
  | relation
  | validation
  | configuration
  | serialization
  | io
  | custom
  deriving DecidableEq, Repr, Inhabited

namespace Failure

/-- The name of a kind. -/
def Kind.name : Kind → String
  | .fieldNotFound => "FieldNotFound"
  | .classification => "Classification"
  | .missingPrimaryKey => "MissingPrimaryKey"
  | .updateFailed => "UpdateFailed"
  | .emptyQueryset => "EmptyQueryset"
  | .doesNotExist => "DoesNotExist"
  | .multipleObjects => "MultipleObjectsReturned"
  | .database => "Database"
  | .integrity => "Integrity"
  | .operational => "Operational"
  | .notSupported => "NotSupported"
  | .isolatedField => "IsolatedField"
  | .relation => "Relation"
  | .validation => "Validation"
  | .configuration => "Configuration"
  | .serialization => "Serialization"
  | .io => "Io"
  | .custom => "Custom"

/-- Every kind. -/
def Kind.all : List Kind :=
  [.fieldNotFound, .classification, .missingPrimaryKey, .updateFailed, .emptyQueryset, .doesNotExist,
    .multipleObjects, .database, .integrity, .operational, .notSupported, .isolatedField, .relation,
    .validation, .configuration, .serialization, .io, .custom]

/-- The kind of a name. -/
def Kind.ofName? (name : String) : Option Kind := Kind.all.find? fun k => k.name == name

/-- The failure of a kind that carries nothing but a text. -/
def ofReason? (k : Kind) (reason : String) : Option Failure :=
  match k with
  | .classification => some (.classification reason)
  | .missingPrimaryKey => some (.missingPrimaryKey reason)
  | .updateFailed => some (.updateFailed reason)
  | .emptyQueryset => some (.emptyQueryset reason)
  | .doesNotExist => some (.doesNotExist reason)
  | .multipleObjects => some (.multipleObjects reason)
  | .database => some (.database reason)
  | .integrity => some (.integrity reason)
  | .operational => some (.operational reason)
  | .notSupported => some (.notSupported reason)
  | .configuration => some (.configuration reason)
  | .serialization => some (.serialization reason)
  | .io => some (.io reason)
  | .custom => some (.custom reason)
  | _ => none

def kind : Failure → Kind
  | .fieldNotFound .. => .fieldNotFound
  | .classification _ => .classification
  | .missingPrimaryKey _ => .missingPrimaryKey
  | .updateFailed _ => .updateFailed
  | .emptyQueryset _ => .emptyQueryset
  | .doesNotExist _ => .doesNotExist
  | .multipleObjects _ => .multipleObjects
  | .database _ => .database
  | .integrity _ => .integrity
  | .operational _ => .operational
  | .notSupported _ => .notSupported
  | .isolatedField .. => .isolatedField
  | .relation .. => .relation
  | .validation _ => .validation
  | .configuration _ => .configuration
  | .serialization _ => .serialization
  | .io _ => .io
  | .custom _ => .custom

/-- The innermost cause, behind the fields it was met in. -/
def root : Failure → Failure
  | .isolatedField _ source => source.root
  | .relation _ source => source.root
  | f => f

/-- Whether the root cause is a violated constraint. -/
def isIntegrity (f : Failure) : Bool := f.root.kind = .integrity

/-- The text of a failure. -/
def message : Failure → String
  | .fieldNotFound model field => "Field not found: " ++ model ++ "." ++ field
  | .classification reason => "Classification error: " ++ reason
  | .missingPrimaryKey reason => "Missing primary key: " ++ reason
  | .updateFailed reason => "Update failed: " ++ reason
  | .emptyQueryset reason => "Empty queryset: " ++ reason
  | .doesNotExist reason => "Object does not exist: " ++ reason
  | .multipleObjects reason => "Multiple objects returned when one expected: " ++ reason
  | .database reason => "Database error: " ++ reason
  | .integrity reason => "Integrity error: " ++ reason
  | .operational reason => "Operational error: " ++ reason
  | .notSupported reason => "Not supported: " ++ reason
  | .isolatedField field source => "Failed to resolve field '" ++ field ++ "': " ++ source.message
  | .relation field source => "Failed to save relation '" ++ field ++ "': " ++ source.message
  | .validation fault => "Validation error: " ++ fault.render
  | .configuration reason => "Configuration error: " ++ reason
  | .serialization reason => "Serialization error: " ++ reason
  | .io reason => "IO error: " ++ reason
  | .custom text => text

/-- The status an HTTP answer about a failure carries. -/
def status (f : Failure) : Nat :=
  match f.root with
  | .validation _ | .missingPrimaryKey _ => 400
  | .doesNotExist _ | .emptyQueryset _ => 404
  | .integrity _ => 409
  | _ => 500

end Failure

/-- Results that may fail. -/
abbrev Outcome (α : Type) := Except Failure α

/-- Which failures of a part of a job are passed over. -/
inductive Forgiveness
  /-- No failure is passed over. -/
  | none
  /-- Every failure is passed over. -/
  | all
  /-- Failures whose root cause has one of these kinds are passed over. -/
  | only (kinds : List Failure.Kind)
  deriving DecidableEq, Repr, Inhabited

namespace Forgiveness

/-- Whether a failure is passed over. -/
def allows (p : Forgiveness) (f : Failure) : Bool :=
  match p with
  | .none => false
  | .all => true
  | .only kinds => kinds.contains f.root.kind

/-- Whether any failure at all can be passed over. -/
def skipsAny : Forgiveness → Bool
  | .none => false
  | .all => true
  | .only kinds => !kinds.isEmpty

end Forgiveness

end RecordMapper
