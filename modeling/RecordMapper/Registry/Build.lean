import RecordMapper.Registry.Basic

/-!
Building a registry from declarations.

Names must be unique, parents known and without cycles, a primary key declared once for every
inheritance, relations must lead to known models, and the model that links a many-to-many relation must
have a foreign key to each side. The other side of every relation becomes a field of its target.
-/

namespace RecordMapper

namespace Failure

def modelDeclaredTwice (name : String) : Failure :=
  .configuration ("Model '" ++ name ++ "' is declared twice")

def unknownParent (name parent : String) : Failure :=
  .configuration ("Model '" ++ name ++ "' inherits from unknown model '" ++ parent ++ "'")

def inheritanceCycle (name : String) : Failure :=
  .configuration ("Inheritance cycle involving model '" ++ name ++ "'")

def primaryKeyCount (name : String) : Failure :=
  .configuration ("Model '" ++ name ++ "' must declare exactly one primary key")

def primaryKeyRedeclared (name : String) : Failure :=
  .configuration ("Model '" ++ name ++ "' inherits its primary key and cannot declare another")

def unknownTarget (model field target : String) : Failure :=
  .configuration ("Relation '" ++ model ++ "." ++ field ++ "' points at unknown model '" ++ target ++ "'")

def reverseClash (name model : String) : Failure :=
  .configuration ("Reverse relation '" ++ name ++ "' clashes with an existing field on '" ++ model ++ "'")

def linkNotForeignKey (through link expected : String) : Failure :=
  .configuration ("'" ++ through ++ "." ++ link ++ "' must be a foreign key to '" ++ expected ++ "'")

end Failure

namespace Registry

/-- The first name of a list that occurred before. -/
def repeated? (seen : List String) : List String → Option String
  | [] => none
  | n :: rest => if seen.contains n then some n else repeated? (n :: seen) rest

/-- The declaration of a name. -/
def declOf? (decls : List ModelDecl) (name : String) : Option ModelDecl := decls.find? (·.name == name)

/-- The declaration at the top of an inheritance, reached in at most `steps` steps. -/
def topDecl? (decls : List ModelDecl) : Nat → ModelDecl → Option ModelDecl
  | 0, _ => none
  | steps + 1, d =>
    match d.parent with
    | none => some d
    | some p => (declOf? decls p).bind (topDecl? decls steps)

/-- The name of the primary key of a declared model: that of the one key at the top of its
inheritance. -/
def keyName (decls : List ModelDecl) (d : ModelDecl) : Outcome String :=
  match topDecl? decls (decls.length + 1) d with
  | none => .error (.inheritanceCycle d.name)
  | some top =>
    match top.fields.filter Field.primaryKey with
    | [key] =>
      if top.name != d.name && d.fields.any Field.primaryKey then .error (.primaryKeyRedeclared d.name)
      else .ok key.name
    | _ => .error (.primaryKeyCount top.name)

/-- The name that the other side of a relation has unless one is given. -/
def defaultRelatedName (owner : String) : FieldType → String
  | .oneToOne .. => owner
  | _ => owner ++ "_set"

/-- The type of the other side of a declared relation. -/
def reverseType (owner field : String) : FieldType → FieldType
  | .oneToOne .. => .reverseOneToOne owner field
  | .manyToMany .. => .reverseManyToMany owner field
  | _ => .reverseForeignKey owner field

/-- The models that a declared relation needs besides its own. -/
def neededModels : FieldType → List String
  | .foreignKey target _ => [target]
  | .oneToOne target _ => [target]
  | .manyToMany target through .. => [target, through]
  | _ => []

/-- A declared field with the name of its other side settled, and that other side with its target. -/
def settleField (decls : List ModelDecl) (owner : String) (f : Field) :
    Outcome (Field × Option (String × Field)) :=
  match neededModels f.type with
  | [] => .ok (f, none)
  | target :: others =>
    match (target :: others).find? fun name => (declOf? decls name).isNone with
    | some missing => .error (.unknownTarget owner f.name missing)
    | none =>
      let name := (f.type.reverseName?).getD (defaultRelatedName owner f.type)
      .ok ({ f with type := f.type.withRelatedName name },
        some (target, { name := name, type := reverseType owner f.name f.type }))

/-- Hangs the other side of a relation on its target. -/
def attach (models : List Model) (target : String) (f : Field) : Outcome (List Model) :=
  match models.find? (·.name == target) with
  | none => .ok models
  | some m =>
    if m.localFields.any (·.name == f.name) then .error (.reverseClash f.name m.name)
    else .ok (models.map fun m => if m.name == target then { m with reverse := m.reverse ++ [f] } else m)

/-- The two foreign keys that the linking model of a many-to-many field must have. -/
def checkLink (reg : Registry) (through link expected : String) : Outcome Unit := do
  let throughModel ← reg.model through
  let f ← reg.field throughModel link
  match f.type with
  | .foreignKey target _ =>
    if target == expected then return () else throw (.linkNotForeignKey through link expected)
  | _ => throw (.linkNotForeignKey through link expected)

/-- Checks the linking model of a field, if the field has one. -/
def checkThrough (reg : Registry) (m : Model) (f : Field) : Outcome Unit :=
  match f.type with
  | .manyToMany target through sourceField targetField _ => do
    checkLink reg through sourceField m.name
    checkLink reg through targetField target
  | _ => .ok ()

/-- The declared fields of a model with their other sides settled. -/
def settleModel (decls : List ModelDecl) (d : ModelDecl) (pkName : String) :
    Outcome (Model × List (String × Field)) := do
  let settled ← d.fields.mapM (settleField decls d.name)
  return (⟨d.name, d.parent, pkName, settled.map Prod.fst, []⟩, settled.filterMap Prod.snd)

/-- The registry of a list of declarations. -/
def build (decls : List ModelDecl) : Outcome Registry := do
  if let some name := repeated? [] (decls.map ModelDecl.name) then
    throw (.modelDeclaredTwice name)
  for d in decls do
    if let some p := d.parent then
      if (declOf? decls p).isNone then throw (.unknownParent d.name p)
  let keys ← decls.mapM (keyName decls)
  let settled ← (decls.zip keys).mapM fun (d, key) => settleModel decls d key
  let models ← (settled.flatMap Prod.snd).foldlM (fun models (target, f) => attach models target f)
    (settled.map Prod.fst)
  let reg : Registry := ⟨models⟩
  for m in reg.models do
    for f in m.own do
      checkThrough reg m f
  return reg

end Registry

end RecordMapper
