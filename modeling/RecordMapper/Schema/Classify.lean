import RecordMapper.Registry.Path
import RecordMapper.Registry.Output
import RecordMapper.Schema.Basic

/-!
From declarations to fields of a schema.

A declared path that ends in a column and crosses no to-many relation is selected with the row. A path
to a relation is isolated, except that a foreign key without a nested schema is read as the key it
holds. A path through a to-many relation to a column is isolated as well: it is cut behind the last such
relation, so that each related row gives one value.
-/

namespace RecordMapper

namespace Failure

/-- A field whose declaration contradicts the model or itself. -/
def fieldConflict (model field reason : String) : Failure :=
  .classification (model ++ "." ++ field ++ ": " ++ reason)

def schemaOnExpression (model field : String) : Failure :=
  fieldConflict model field "an expression cannot carry a schema"

def schemaOnProperty (model field : String) : Failure :=
  fieldConflict model field "a property cannot carry a schema"

def schemaOnPlainFunction (model field : String) : Failure :=
  fieldConflict model field "a function returning plain values cannot carry a schema"

def schemaWithoutRelation (model field : String) : Failure :=
  fieldConflict model field "a nested schema needs a related model"

def unreadableKey (model field : String) : Failure :=
  fieldConflict model field "a primary key must stay readable"

def singleOfMany (model field path : String) : Failure :=
  fieldConflict model field ("'" ++ path ++ "' is a to-many path")

def pathNotRelation (model field path : String) : Failure :=
  fieldConflict model field ("'" ++ path ++ "' is not a relation")

def pathWithoutRelation (model field path : String) : Failure :=
  fieldConflict model field ("'" ++ path ++ "' has no relation prefix")

def oneWayPath (model field : String) : Failure :=
  fieldConflict model field "relation path cannot be traversed backwards"

def forwardNotManyToMany (model field forward : String) : Failure :=
  fieldConflict model field ("'" ++ forward ++ "' is not a many-to-many field")

def noLinkBack (owner field target : String) : Failure :=
  fieldConflict owner field ("no relation on '" ++ target ++ "' leads back to '" ++ owner ++ "'")

def ambiguousLinkBack (owner field target : String) (candidates : List String) : Failure :=
  fieldConflict owner field ("ambiguous link back from '" ++ target ++ "': " ++ ", ".intercalate candidates)

def unrelatedSchema (model field bound related : String) : Failure :=
  fieldConflict model field
    ("nested schema is bound to '" ++ bound ++ "', which is unrelated to '" ++ related ++ "'")

end Failure

namespace SchemaField

/-- Fails unless one of two models inherits from the other. -/
def checkBinding (reg : Registry) (m : Model) (name : String) (related bound : Model) : Outcome Unit :=
  if reg.isSubModel bound related || reg.isSubModel related bound then .ok ()
  else .error (.unrelatedSchema m.name name bound.name related.name)

/-- The path back over a path of relations. -/
def linkBack (m : Model) (name : String) (p : ResolvedPath) : Outcome String :=
  match p.reversePath? with
  | some link => .ok link
  | none => .error (.oneWayPath m.name name)

/-- How the far side of a many-to-many field is written: with the two foreign keys exchanged. -/
def reverseManyToManyWrite (reg : Registry) (m : Model) (name declaring forward : String) :
    Outcome RelationWrite := do
  let owner ← reg.model declaring
  let f ← reg.field owner forward
  match f.type with
  | .manyToMany _ through sourceField targetField _ =>
    return .manyToMany (← reg.model through) targetField sourceField
  | _ => throw (.forwardNotManyToMany m.name name forward)

/-- How a relation is written that no column of the model holds. -/
def relationWriteOf (reg : Registry) (m : Model) (name : String) (f : Field) :
    Outcome (Option RelationWrite) := do
  match f.type with
  | .manyToMany _ through sourceField targetField _ =>
    return some (.manyToMany (← reg.model through) sourceField targetField)
  | .reverseManyToMany declaring forward => return some (← reverseManyToManyWrite reg m name declaring forward)
  | .reverseForeignKey related field | .reverseOneToOne related field =>
    let r ← reg.model related
    let f ← reg.field r field
    return some (.reverse r field f.null)
  | _ => return none

/-- The path up to and with the last to-many relation, and the names behind it. -/
def cutAtMany (p : ResolvedPath) : Option (ResolvedPath × List String) :=
  let steps := p.steps
  match ((steps.zip (List.range steps.length)).reverse.find? fun e => e.1.field.type.isMany) with
  | none => none
  | some (s, i) => some (⟨steps.take i, s⟩, (steps.drop (i + 1)).map fun s => s.field.name)

/-- A field by a path that crosses a to-many relation and ends in a column. -/
def ofManyPath (reg : Registry) (m : Model) (d : FieldDecl) (path : String) (p : ResolvedPath)
    (f : SchemaField) : Outcome SchemaField := do
  match cutAtMany p with
  | none => throw (.pathWithoutRelation m.name d.name path)
  | some (before, behind) =>
    match ← reg.targetModel before with
    | none => throw (.pathWithoutRelation m.name d.name path)
    | some target =>
      let link ← linkBack m d.name before
      return { f with
        relatedModel := some target
        relatedSingle := false
        kind := .isolated (.relation target link (".".intercalate behind)) }

/-- A field by a path that ends in a relation. -/
def ofRelationPath (reg : Registry) (m : Model) (d : FieldDecl) (path : String) (p : ResolvedPath)
    (f : SchemaField) : Outcome SchemaField := do
  match ← reg.targetModel p with
  | none => throw (.pathNotRelation m.name d.name path)
  | some target =>
    let f := { f with relatedModel := some target, relatedSingle := d.single.getD p.isSingle }
    if d.nested.isNone && p.isSingle && p.last.field.isConcrete then
      return { f with kind := .column path }
    let link ← linkBack m d.name p
    let f := { f with kind := .isolated (.relation target link target.pkName) }
    if p.before.isEmpty && (f.mode.update || f.mode.create) then
      return { f with relationWrite := ← relationWriteOf reg m d.name p.last.field }
    return f

/-- A field by a path. -/
def ofPath (reg : Registry) (m : Model) (d : FieldDecl) (path : String) (f : SchemaField) :
    Outcome SchemaField := do
  let p ← reg.resolvePath m path
  let last := p.last.field
  let f := { f with
    modelField := some last
    isPrimaryKey := p.before.isEmpty && last.name == m.pkName }
  if d.single == some true && !p.isSingle then throw (.singleOfMany m.name d.name path)
  let f := if p.isDirectColumn then { f with column := some last.name } else f
  if last.isRelation then ofRelationPath reg m d path p f
  else if d.nested.isSome then throw (.pathNotRelation m.name d.name path)
  else if p.isSingle then return { f with kind := .column path }
  else ofManyPath reg m d path p f

/-- The path from the model of a queryset back to the owner of the field. A relation of the field's name
decides; otherwise just one relation may lead back. -/
def detectLink (reg : Registry) (owner target : Model) (name : String) : Outcome String := do
  let named ← match reg.field? owner name with
    | some f =>
      if f.isRelation then do
        let related ← reg.related owner f
        pure (if reg.isSubModel related target || reg.isSubModel target related then f.type.reverseName?
          else none)
      else pure none
    | none => pure none
  match named with
  | some link => return link
  | none =>
    let lineage := (reg.lineage owner).map (·.name)
    let candidates := (reg.fields target).filter fun f =>
      match f.type.relatedModel? with
      | some name => lineage.contains name
      | none => false
    match candidates.map (·.name) with
    | [link] => return link
    | [] => throw (.noLinkBack owner.name name target.name)
    | many => throw (.ambiguousLinkBack owner.name name target.name many)

/-- A field by a queryset. -/
def ofQueryset (reg : Registry) (m : Model) (d : FieldDecl) (qs : Queryset) (f : SchemaField) :
    Outcome SchemaField := do
  let target := qs.model
  let link ← match d.link with
    | some link => do
      let _ ← reg.resolvePath target link
      pure link
    | none => detectLink reg m target d.name
  return { f with
    relatedModel := some target
    relatedSingle := d.single.getD false
    kind := .isolated (.queryset qs link target.pkName) }

/-- A field by a function. -/
def ofFunction (reg : Registry) (m : Model) (d : FieldDecl) (g : FieldFunction) (f : SchemaField) :
    Outcome SchemaField := do
  let f := { f with kind := .isolated (.function g) }
  match g.related with
  | none =>
    if d.nested.isSome then throw (.schemaOnPlainFunction m.name d.name)
    return { f with relatedSingle := d.single.getD true }
  | some related =>
    return { f with relatedModel := some (← reg.model related), relatedSingle := d.single.getD false }

/-- The field of a declaration as far as its source says. -/
def ofSource (reg : Registry) (m : Model) (d : FieldDecl) (f : SchemaField) : Outcome SchemaField := do
  match d.source with
  | .implicit =>
    if !d.name.toList.contains '.' && (reg.field? m d.name).isNone then
      if d.nested.isSome then throw (.fieldNotFound m.name d.name) else return f
    else ofPath reg m d d.name f
  | .path path => ofPath reg m d path f
  | .expression e =>
    if d.nested.isSome then throw (.schemaOnExpression m.name d.name)
    let _ ← reg.outputType m e
    return { f with kind := .expression e, mode := f.mode.withoutWriting }
  | .queryset qs => ofQueryset reg m d qs f
  | .function g => ofFunction reg m d g f
  | .property p =>
    if d.nested.isSome then throw (.schemaOnProperty m.name d.name)
    return { f with property := some p, mode := f.mode.withoutWriting }

/-- A stamped column is not written from data, and takes the present when a row is created. -/
def withStamps (f : SchemaField) : SchemaField :=
  match f.modelField with
  | some column =>
    if f.column.isSome && (column.autoNow || column.autoNowAdd) then
      { f with mode := f.mode.withoutWriting, default := some (f.default.getD .now) }
    else f
  | none => f

/-- Checks that a nested schema is bound to the model that the field leads to. A slot is checked when it
is resolved. -/
def checkNested (reg : Registry) (cat : Catalog) (m : Model) (f : SchemaField) : Outcome Unit :=
  match f.nested with
  | none => .ok ()
  | some r =>
    match f.relatedModel with
    | none => .error (.schemaWithoutRelation m.name f.name)
    | some related =>
      match r with
      | .self => checkBinding reg m f.name related m
      | .slot _ => .ok ()
      | .schema id =>
        match cat.schema? id with
        | some s => checkBinding reg m f.name related s.model
        | none => .ok ()

/-- The field of a declaration. -/
def classify (reg : Registry) (cat : Catalog) (m : Model) (d : FieldDecl) : Outcome SchemaField := do
  let mode ← match d.mode with
    | some flags => Mode.parse flags
    | none => pure {}
  let f ← ofSource reg m d
    { name := d.name, kind := .unmapped, mode, nested := d.nested, relatedSingle := d.single.getD false,
      silent := d.silent, default := d.default }
  let f := f.withStamps
  if f.isPrimaryKey && !f.mode.read then throw (.unreadableKey m.name d.name)
  let f :=
    if f.isIsolated && f.column.isNone && f.relationWrite.isNone then
      { f with mode := f.mode.withoutWriting }
    else f
  checkNested reg cat m f
  return f

end SchemaField

end RecordMapper
