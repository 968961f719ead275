import RecordMapper.Read.Rows
import RecordMapper.Save.Options
import RecordMapper.Save.Relation

/-!
Saving data through a schema.

Data with a primary key updates its row. Where there is no such row, a row of the parent model is
extended, or a row is created. The relations follow: keys first, then objects, which are saved through
the nested schema. A relation whose failure is passed over leaves no trace in a transaction.
-/

namespace RecordMapper

namespace Failure

def noRowToUpdate (schema : String) (pk : Value) : Failure :=
  .updateFailed (schema ++ " with pk " ++ pk.render ++ " does not exist")

def noKeyInData (schema : String) : Failure :=
  .missingPrimaryKey (schema ++ " data carries no primary key")

end Failure

/-- A row that was written: its key, whether it is new, and what there is to write besides. -/
structure WrittenRow where
  pk : Value
  created : Bool
  parts : SaveParts

namespace Save

/-- Creates the row of some data. -/
def createRow (t : WriteTarget) (s : Schema) (pk : Option Value) (data extra : Record) : Job WrittenRow := do
  let now ← Job.clock
  let parts := SaveParts.split s .create data
  let key ← Job.insert t.database s.model (parts.createColumns s now pk extra)
  return ⟨key, true, parts⟩

/-- Whether the parent model has a row of the key. -/
def parentHas (app : Application) (t : WriteTarget) (s : Schema) (pk : Value) : Job Bool :=
  match app.registry.parent? s.model with
  | some parent => Job.any t.database ((Queryset.all parent).pkIn [pk])
  | none => return false

/-- Extends a row of the parent model to a row of the schema's model. -/
def extendParent (app : Application) (t : WriteTarget) (s : Schema) (pk : Value) (data extra : Record) :
    Job WrittenRow := do
  let now ← Job.clock
  let parts := SaveParts.split s .create data
  let columns := parts.createColumns s now (some pk) extra
  Job.insertChild t.database s.model (columns.localTo app.registry s.model)
  let rest := columns.withoutKey s.model
  if !rest.isEmpty then
    let _ ← Job.update t.database ((Queryset.all s.model).pkIn [pk]) rest
  return ⟨pk, true, parts⟩

/-- Updates, extends or creates the row of some data. -/
def writeRow (app : Application) (t : WriteTarget) (s : Schema) (o : SaveOptions) (data extra : Record) :
    Job WrittenRow := do
  match s.keyOf? data with
  | none =>
    if o.mustUpdate then throw (.noKeyInData s.name)
    createRow t s none data extra
  | some pk =>
    if o.mustCreate then createRow t s (some pk) data extra
    else
      let now ← Job.clock
      let parts := SaveParts.split s .update data
      let columns := parts.updateColumns s now extra
      let target := (Queryset.all s.model).pkIn [pk]
      let affected ←
        if columns.isEmpty then Job.count t.database target
        else Job.update t.database target columns
      if affected > 0 then return ⟨pk, false, parts⟩
      if ← parentHas app t s pk then extendParent app t s pk data extra
      else if o.mustUpdate then throw (.noRowToUpdate s.name pk)
      else createRow t s (some pk) data extra

/-- Saves records one after another; a failed one has no key where failures are passed over. -/
def each (save : Record → Job Value) (t : WriteTarget) (o : SaveOptions) (items : List Record) :
    Job (List (Option Value)) :=
  items.mapM fun item =>
    if o.skipFailed then do
      match ← Job.attempt (Job.atomicIf t.transactional t.database (save item)) with
      | .ok pk => return some pk
      | .error _ => return none
    else do return some (← save item)

/-- Saves the objects of a relation and completes it. `save` saves a record through a schema with
further columns. -/
def objects (app : Application) (t : WriteTarget)
    (save : Schema → SaveOptions → Record → Record → Job Value) (s : Schema) (o : SaveOptions)
    (pk : Value) (created : Bool) (f : SchemaField) (v : Value) : Job Unit := do
  match ← Job.ofOutcome (app.nested? s f), f.relationWrite with
  | some nested, some w =>
    let saved ← each (fun item => save nested o.nested item (w.stamped pk)) t o.nested v.objects
    w.complete t.database pk (saved.filterMap id) created
  | _, _ => return ()

/-- Writes a relation, passing over the failures that the options pass over. -/
def relation (t : WriteTarget) (o : SaveOptions) (f : SchemaField) (write : Job Unit) : Job Unit := do
  match ← Job.attempt (Job.atomicIf (t.transactional && o.forgiveRelations.skipsAny) t.database write) with
  | .ok () => return ()
  | .error e => if o.forgiveRelations.allows e then return () else throw (.relation f.name e)

/-- Writes the relations of a row: those given by keys, then those given by objects. -/
def relations (app : Application) (t : WriteTarget)
    (save : Schema → SaveOptions → Record → Record → Job Value) (s : Schema) (o : SaveOptions)
    (row : WrittenRow) : Job Unit := do
  row.parts.keys.forM fun (f, v) => relation t o f
    (match f.relationWrite with
      | some w => w.assign t.database row.pk (f.relationKeys v) row.created
      | none => return ())
  row.parts.objects.forM fun (f, v) => relation t o f
    (objects app t save s o row.pk row.created f v)

/-- Saves a record with its relations, whose objects are nested at most so many levels deep. -/
def rowWithin (app : Application) (t : WriteTarget) : Nat → Schema → SaveOptions → Record → Record → Job Value
  | 0, _, _, _, _ => return .null
  | levels + 1, s, o, data, extra => do
    let row ← writeRow app t s o data extra
    if o.withRelations then relations app t (rowWithin app t levels) s o row
    return row.pk

/-- Saves a record with its relations. -/
def row (app : Application) (t : WriteTarget) (s : Schema) (o : SaveOptions) (data : Record) : Job Value :=
  rowWithin app t (Value.entriesDepth data + 1) s o data []

/-- A job with the failures of its context's choice. -/
def mapped {α : Type} (ctx : Context) (j : Job α) : Job α := do
  match ← Job.attempt j with
  | .ok a => return a
  | .error e => throw (ctx.mapFailure e)

end Save

namespace Application

/-- Saves a record, in a transaction if one is wanted, and yields its primary key. -/
def save (app : Application) (s : Schema) (data : Record) (ctx : Context) (o : SaveOptions) : Job Value :=
  Save.mapped ctx do
    Job.ofOutcome o.check
    let t ← Job.ofOutcome (WriteTarget.of app.connections ctx o)
    Job.atomicIf t.transactional t.database (Save.row app t s o data)

/-- Saves records one after another, in one transaction if one is wanted, and yields their keys. -/
def saveAll (app : Application) (s : Schema) (data : List Record) (ctx : Context) (o : SaveOptions) :
    Job (List (Option Value)) :=
  Save.mapped ctx do
    Job.ofOutcome o.check
    let t ← Job.ofOutcome (WriteTarget.of app.connections ctx o)
    Job.atomicIf t.transactional t.database (Save.each (Save.row app t s o) t o data)

end Application

end RecordMapper
