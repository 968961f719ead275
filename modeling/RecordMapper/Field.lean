import RecordMapper.Value.Basic

/-!
Fields of models: columns of a type, and relations to other models.

A relation is declared on one side. Its other side is a field too; it is derived when the registry is
built and names the declaring model and field.
-/

namespace RecordMapper

/-- What a field holds. -/
inductive FieldType
  /-- An integer key that the database generates. -/
  | auto
  | integer
  | float
  | boolean
  | char
  | text
  | date
  | instant
  | uuid
  | json
  /-- The key of one row of another model. -/
  | foreignKey (target : String) (relatedName : Option String)
  /-- The key of one row of another model, which no other row may hold. -/
  | oneToOne (target : String) (relatedName : Option String)
  /-- Rows of another model, linked by rows of the model `through`. -/
  | manyToMany (target through sourceField targetField : String) (relatedName : Option String)
  /-- The rows whose foreign key points here. -/
  | reverseForeignKey (model field : String)
  /-- The row whose one-to-one field points here. -/
  | reverseOneToOne (model field : String)
  /-- The rows whose many-to-many field leads here. -/
  | reverseManyToMany (model field : String)
  deriving DecidableEq, Repr, Inhabited

namespace FieldType

/-- The model on the other side of a relation. -/
def relatedModel? : FieldType → Option String
  | .foreignKey target _ => some target
  | .oneToOne target _ => some target
  | .manyToMany target .. => some target
  | .reverseForeignKey model _ => some model
  | .reverseOneToOne model _ => some model
  | .reverseManyToMany model _ => some model
  | _ => none

def isRelation (t : FieldType) : Bool := t.relatedModel?.isSome

/-- Whether the values stand in the rows of the model itself. -/
def isConcrete : FieldType → Bool
  | .manyToMany .. | .reverseForeignKey .. | .reverseOneToOne .. | .reverseManyToMany .. => false
  | _ => true

/-- Whether one row can have several values. -/
def isMany : FieldType → Bool
  | .manyToMany .. | .reverseForeignKey .. | .reverseManyToMany .. => true
  | _ => false

def isAuto : FieldType → Bool
  | .auto => true
  | _ => false

/-- The name of the relation seen from the other side. -/
def reverseName? : FieldType → Option String
  | .foreignKey _ relatedName => relatedName
  | .oneToOne _ relatedName => relatedName
  | .manyToMany _ _ _ _ relatedName => relatedName
  | .reverseForeignKey _ field => some field
  | .reverseOneToOne _ field => some field
  | .reverseManyToMany _ field => some field
  | _ => none

/-- The word for a type. -/
def name : FieldType → String
  | .auto => "auto"
  | .integer => "int"
  | .float => "float"
  | .boolean => "bool"
  | .char => "char"
  | .text => "text"
  | .date => "date"
  | .instant => "datetime"
  | .uuid => "uuid"
  | .json => "json"
  | .foreignKey .. => "fk"
  | .oneToOne .. => "o2o"
  | .manyToMany .. => "m2m"
  | .reverseForeignKey .. => "rfk"
  | .reverseOneToOne .. => "ro2o"
  | .reverseManyToMany .. => "rm2m"

/-- The type of a word, if it is no relation. -/
def ofName? (word : String) : Option FieldType :=
  [FieldType.auto, .integer, .float, .boolean, .char, .text, .date, .instant, .uuid, .json].find?
    fun t => t.name == word

/-- The names a relation is made of: models, fields, and the name of the other side if there is one. -/
def references : FieldType → List (Option String)
  | .foreignKey target relatedName => [some target, relatedName]
  | .oneToOne target relatedName => [some target, relatedName]
  | .manyToMany target through s t relatedName => [some target, some through, some s, some t, relatedName]
  | .reverseForeignKey model field => [some model, some field]
  | .reverseOneToOne model field => [some model, some field]
  | .reverseManyToMany model field => [some model, some field]
  | _ => []

/-- The type with a name given to the other side of a declared relation. -/
def withRelatedName (name : String) : FieldType → FieldType
  | .foreignKey target _ => .foreignKey target (some name)
  | .oneToOne target _ => .oneToOne target (some name)
  | .manyToMany target through s t _ => .manyToMany target through s t (some name)
  | t => t

end FieldType

/-- A field of a model. -/
structure Field where
  name : String
  type : FieldType
  primaryKey : Bool := false
  null : Bool := false
  unique : Bool := false
  /-- The value of a new row that gives none. -/
  default : Option Value := none
  /-- Stamped with the time of every save. -/
  autoNow : Bool := false
  /-- Stamped with the time a row is created. -/
  autoNowAdd : Bool := false
  deriving DecidableEq, Repr, Inhabited

namespace Field

/-- A field of the given name and type; a one-to-one field is unique. -/
def of (name : String) (type : FieldType) : Field :=
  match type with
  | .oneToOne .. => { name, type, unique := true }
  | _ => { name, type }

/-- A key that the database generates. -/
def autoKey (name : String) : Field := { name, type := .auto, primaryKey := true, unique := true }

/-- The field as the primary key of its model. -/
def asPrimaryKey (f : Field) : Field := { f with primaryKey := true, unique := true }

def isRelation (f : Field) : Bool := f.type.isRelation

def isConcrete (f : Field) : Bool := f.type.isConcrete

/-- Whether the database or the clock gives the value. -/
def isGenerated (f : Field) : Bool := f.type.isAuto || f.autoNow || f.autoNowAdd

/-- The words for what holds of a field. -/
def traits (f : Field) : List String :=
  ([("pk", f.primaryKey), ("null", f.null), ("unique", f.unique), ("auto_now", f.autoNow),
    ("auto_now_add", f.autoNowAdd), ("relation", f.isRelation), ("concrete", f.isConcrete),
    ("many", f.type.isMany), ("generated", f.isGenerated)].filter Prod.snd).map Prod.fst

end Field

end RecordMapper
