import RecordMapper.Schema.Declaration

/-!
Schemas: fields over a model, each with one way to be read and at most one way to be written.

A field is either selected with the row (a column, an expression), or isolated, which means resolved by
queries of its own, or not read from the model at all.
-/

namespace RecordMapper

/-- How an isolated field is resolved. -/
inductive Isolation
  /-- Rows of `target` whose path `link` leads back to the row; `value` is read from each. -/
  | relation (target : Model) (link value : String)
  /-- Rows of a queryset whose path `link` leads back to the row; `value` is read from each. -/
  | queryset (qs : Queryset) (link value : String)
  | function (f : FieldFunction)
  deriving Inhabited

/-- How a field is read. -/
inductive FieldKind
  | column (path : String)
  | expression (e : Expression)
  | isolated (how : Isolation)
  | unmapped
  deriving Inhabited

/-- How a relation that is no column is written. -/
inductive RelationWrite
  /-- By rows of `through`, whose column `own` holds this side and `other` the other. -/
  | manyToMany (through : Model) (own other : String)
  /-- By the foreign key `field` of the related rows. -/
  | reverse (related : Model) (field : String) (nullable : Bool)
  deriving DecidableEq, Repr, Inhabited

/-- A field of a schema. -/
structure SchemaField where
  name : String
  kind : FieldKind
  mode : Mode
  isPrimaryKey : Bool := false
  /-- The model field at the end of the path, if the field is declared by one. -/
  modelField : Option Field := none
  /-- The model on the other side, if the field is a relation. -/
  relatedModel : Option Model := none
  nested : Option NestedRef := none
  /-- Whether the field holds one related value or a list. -/
  relatedSingle : Bool := false
  silent : Bool := false
  /-- The column written with the row. -/
  column : Option String := none
  /-- How the relation is written, if it is written apart from the row. -/
  relationWrite : Option RelationWrite := none
  default : Option DefaultValue := none
  property : Option Property := none
  deriving Inhabited

namespace SchemaField

def isIsolated (f : SchemaField) : Bool :=
  match f.kind with
  | .isolated _ => true
  | _ => false

def isExpression (f : SchemaField) : Bool :=
  match f.kind with
  | .expression _ => true
  | _ => false

def isUnmapped (f : SchemaField) : Bool :=
  match f.kind with
  | .unmapped => true
  | _ => false

/-- Whether a schema made for an operation has the field. -/
def participates (f : SchemaField) (op : Operation) : Bool := f.isPrimaryKey || f.mode.allows op

/-- The words for what holds of a field. -/
def traits (f : SchemaField) : List String :=
  ([("pk", f.isPrimaryKey), ("expression", f.isExpression), ("isolated", f.isIsolated),
    ("unmapped", f.isUnmapped), ("schema", f.nested.isSome), ("single", f.relatedSingle),
    ("silent", f.silent), ("relation_update", f.relationWrite.isSome), ("reads", f.participates .read),
    ("updates", f.participates .update), ("creates", f.participates .create)].filter Prod.snd).map
    Prod.fst

/-- The value of an isolated field before it is resolved. -/
def placeholder (f : SchemaField) : Value := if f.relatedSingle then .null else .list []

/-- The present as a value of the field's column. -/
def stamp (f : SchemaField) (now : Instant) : Value :=
  match f.modelField with
  | some m =>
    match m.type with
    | .date => .date now.date
    | _ => .instant now
  | none => .instant now

/-- The value the field takes when it is left out, at a given time. -/
def defaultAt (f : SchemaField) (now : Instant) : Option Value :=
  f.default.map fun d =>
    match d with
    | .fixed v => v
    | .now => f.stamp now

end SchemaField

/-- A schema. Its identity tells it from schemas of the same shape. -/
structure Schema where
  id : Nat
  name : String
  model : Model
  fields : List (String × SchemaField)
  /-- The name of the primary key field. -/
  pkName : String
  /-- The operation that the schema is made for, if there is one. -/
  operation : Option Operation := none
  deriving Inhabited

namespace Schema

/-- The field of a name; `pk` stands for the primary key. -/
def field? (s : Schema) (name : String) : Option SchemaField :=
  s.fields.lookup (if name == "pk" then s.pkName else name)

/-- The fields in order. -/
def fieldList (s : Schema) : List SchemaField := s.fields.map Prod.snd

end Schema

/-- The schemas of an application by identity, slots that stand for schemas, and the schemas made for
one operation that exist already. -/
structure Catalog where
  schemas : List (Nat × Schema) := []
  slots : List (String × Nat) := []
  variants : List ((Nat × Operation) × Nat) := []
  /-- The identity of the next schema. -/
  next : Nat := 1
  deriving Inhabited

/-- A slot that stands for no schema yet. -/
def Failure.emptySlot (owner : String) : Failure :=
  .configuration ("Nested schema slot used by '" ++ owner ++ "' was never filled")

namespace Catalog

def schema? (c : Catalog) (id : Nat) : Option Schema := c.schemas.lookup id

/-- Adds a schema under its identity. -/
def add (c : Catalog) (s : Schema) : Catalog :=
  { c with schemas := c.schemas ++ [(s.id, s)], next := max c.next (s.id + 1) }

/-- Lets a slot stand for a schema; `none` if it does already. -/
def fill? (c : Catalog) (slot : String) (id : Nat) : Option Catalog :=
  if (c.slots.lookup slot).isSome then none else some { c with slots := c.slots ++ [(slot, id)] }

/-- The schema that a reference of a field of `owner` means. -/
def resolve (c : Catalog) (owner : Schema) (r : NestedRef) : Outcome Schema :=
  match r with
  | .self => .ok owner
  | .schema id =>
    match c.schema? id with
    | some s => .ok s
    | none => .error (.emptySlot owner.name)
  | .slot name =>
    match (c.slots.lookup name).bind c.schema? with
    | some s => .ok s
    | none => .error (.emptySlot owner.name)

/-- The schema with those fields alone that take part in an operation. It is made once. -/
def variant (c : Catalog) (s : Schema) (op : Operation) : Schema × Catalog :=
  match (c.variants.lookup (s.id, op)).bind c.schema? with
  | some v => (v, c)
  | none =>
    let v : Schema :=
      { s with
        id := c.next
        name := s.name ++ "[" ++ op.letter ++ "]"
        fields := s.fields.filter fun e => e.2.participates op
        operation := some op }
    (v, { c.add v with variants := c.variants ++ [((s.id, op), v.id)] })

end Catalog

end RecordMapper
