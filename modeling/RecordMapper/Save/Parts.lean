import RecordMapper.Read.Source

/-!
Saved data, taken apart by how each part is written: columns of the row, keys of relations, and objects
of relations.
-/

namespace RecordMapper

/-- The parts of saved data. -/
structure SaveParts where
  columns : Record
  /-- Relations given by the keys of their rows. -/
  keys : List (SchemaField × Value)
  /-- Relations given by objects to save. -/
  objects : List (SchemaField × Value)
  deriving Inhabited

mutual

/-- How deep maps are nested in a value. -/
def Value.depth : Value → Nat
  | .list items => Value.itemsDepth items
  | .map entries => 1 + Value.entriesDepth entries
  | _ => 0

/-- How deep maps are nested in the items of a list. -/
def Value.itemsDepth : List Value → Nat
  | [] => 0
  | v :: rest => max v.depth (Value.itemsDepth rest)

/-- How deep maps are nested in the entries of a record. -/
def Value.entriesDepth : List (String × Value) → Nat
  | [] => 0
  | (_, v) :: rest => max v.depth (Value.entriesDepth rest)

end

namespace Value

/-- Whether a value is or lists an object. -/
def holdsObjects : Value → Bool
  | .map _ => true
  | .list items => items.any fun v =>
    match v with
    | .map _ => true
    | _ => false
  | _ => false

/-- The objects that a value is or lists. -/
def objects (v : Value) : List Record := v.items.filterMap asMap?

end Value

namespace SchemaField

/-- A value as the field's column holds it: of an object of the related model its key. -/
def keyOf (f : SchemaField) (v : Value) : Value :=
  match v with
  | .map entries =>
    match f.relatedModel with
    | some m => ((Record.get? entries m.pkName).or (Record.get? entries "pk")).getD .null
    | none => .null
  | v => v

/-- The keys that a value gives for a relation, each once. -/
def relationKeys (f : SchemaField) (v : Value) : List Value :=
  distinctOf ((v.items.map f.keyOf).filter fun k => !k.isNull)

end SchemaField

namespace SaveParts

/-- The parts with one more entry of the data. Names of no field, the primary key, and fields that do
not take part in the operation are passed over. -/
def addEntry (s : Schema) (op : Operation) (parts : SaveParts) (entry : String × Value) : SaveParts :=
  match s.field? entry.1 with
  | none => parts
  | some f =>
    if f.isPrimaryKey || !f.mode.allows op then parts
    else if f.relationWrite.isSome then
      if f.nested.isSome && entry.2.holdsObjects then
        { parts with objects := parts.objects ++ [(f, entry.2)] }
      else { parts with keys := parts.keys ++ [(f, entry.2)] }
    else
      match f.column with
      | some column => { parts with columns := parts.columns.insert column (f.keyOf entry.2) }
      | none => parts

/-- The parts of data for an operation. -/
def split (s : Schema) (op : Operation) (data : Record) : SaveParts :=
  data.foldl (addEntry s op) ⟨[], [], []⟩

/-- The columns of a new row: those given, the key, further columns, and defaults for what is left. -/
def createColumns (s : Schema) (now : Instant) (parts : SaveParts) (pk : Option Value) (extra : Record) :
    Record :=
  let given := match pk with
    | some pk => parts.columns.insert s.model.pkName pk
    | none => parts.columns
  s.fieldList.foldl (fun out f =>
    match f.column, f.defaultAt now with
    | some column, some v => if out.has column then out else out.insert column v
    | _, _ => out) (given.extend extra)

/-- The columns that change in an existing row: those given, further columns, and the stamps of
changes. -/
def updateColumns (s : Schema) (now : Instant) (parts : SaveParts) (extra : Record) : Record :=
  s.fieldList.foldl (fun out f =>
    match f.column, f.modelField with
    | some column, some m => if m.autoNow && !f.isPrimaryKey then out.insert column (f.stamp now) else out
    | _, _ => out) (parts.columns.extend extra)

end SaveParts

namespace Record

/-- The part of a row that stands in the model's own table. -/
def localTo (reg : Registry) (m : Model) (columns : Record) : Record :=
  columns.filter fun e => (reg.localColumns m).any (·.name == e.1)

/-- The row without its primary key. -/
def withoutKey (m : Model) (columns : Record) : Record := (columns.erase m.pkName).erase "pk"

end Record

end RecordMapper
