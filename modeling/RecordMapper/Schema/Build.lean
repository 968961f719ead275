import RecordMapper.Schema.Classify

/-!
Building a schema from the declarations of its fields. Every schema has the primary key; where none of
the declared fields is it, it is added in front and can only be read.
-/

namespace RecordMapper

namespace Failure

def fieldDeclaredTwice (schema field : String) : Failure :=
  .classification (schema ++ ": field '" ++ field ++ "' is declared twice")

def shadowedKey (schema field : String) : Failure :=
  .classification (schema ++ ": field '" ++ field ++ "' shadows the primary key")

def unknownDependency (schema field missing : String) : Failure :=
  .classification (schema ++ ": property '" ++ field ++ "' depends on unknown field '" ++ missing ++ "'")

end Failure

namespace Schema

/-- The fields of declarations, in order, no name twice. -/
def classifyAll (reg : Registry) (cat : Catalog) (name : String) (m : Model) (decls : List FieldDecl) :
    Outcome (List (String × SchemaField)) :=
  decls.foldlM (fun fields d =>
    if fields.any (·.1 == d.name) then .error (.fieldDeclaredTwice name d.name)
    else (SchemaField.classify reg cat m d).map fun f => fields ++ [(d.name, f)]) []

/-- The fields with the primary key among them, and its name. -/
def withKey (reg : Registry) (cat : Catalog) (name : String) (m : Model)
    (fields : List (String × SchemaField)) : Outcome (List (String × SchemaField) × String) := do
  match fields.find? fun e => e.2.isPrimaryKey with
  | some (pk, _) => return (fields, pk)
  | none =>
    if fields.any (·.1 == m.pkName) then throw (.shadowedKey name m.pkName)
    let f ← SchemaField.classify reg cat m { name := m.pkName, mode := some "r" }
    return ((m.pkName, f) :: fields, m.pkName)

/-- The fields that a property needs must exist. -/
def checkProperty (name : String) (fields : List (String × SchemaField)) (f : SchemaField) : Outcome Unit :=
  match f.property with
  | none => .ok ()
  | some p =>
    match p.deps.find? fun dep => !fields.any (·.1 == dep) with
    | some missing => .error (.unknownDependency name f.name missing)
    | none => .ok ()

/-- The schema of a list of declarations, under the next identity of a catalog. -/
def build (reg : Registry) (cat : Catalog) (name : String) (m : Model) (decls : List FieldDecl) :
    Outcome Schema := do
  let fields ← classifyAll reg cat name m decls
  let (fields, pkName) ← withKey reg cat name m fields
  fields.forM fun e => checkProperty name fields e.2
  return { id := cat.next, name, model := m, fields, pkName }

end Schema

end RecordMapper
