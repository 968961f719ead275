import RecordMapper.Queryset

/-!
Registries of models: inheritance, fields by name, and the other side of relations.
-/

namespace RecordMapper

/-- The models of an application, in the order of their declarations. -/
structure Registry where
  models : List Model
  deriving DecidableEq, Repr, Inhabited

/-- No model of this name is registered. -/
def Failure.unknownModel (name : String) : Failure := .configuration ("Unknown model '" ++ name ++ "'")

namespace Registry

/-- The model of a name, if it is registered. -/
def find? (reg : Registry) (name : String) : Option Model := reg.models.find? (·.name == name)

/-- The model of a name. -/
def model (reg : Registry) (name : String) : Outcome Model :=
  match reg.find? name with
  | some m => .ok m
  | none => .error (.unknownModel name)

/-- The parent of a model. -/
def parent? (reg : Registry) (m : Model) : Option Model := m.parent.bind reg.find?

/-- A model and its ancestors, nearest first. In a registry no chain is longer than the number of
models, so as many steps suffice. -/
def ancestry (reg : Registry) : Nat → Model → List Model
  | 0, m => [m]
  | steps + 1, m =>
    match reg.parent? m with
    | some p => m :: ancestry reg steps p
    | none => [m]

/-- A model and its ancestors, nearest first. -/
def lineage (reg : Registry) (m : Model) : List Model := reg.ancestry reg.models.length m

/-- Whether a model is another or inherits from it. -/
def isSubModel (reg : Registry) (m other : Model) : Bool :=
  (reg.lineage m).any (·.name == other.name)

/-- The model at the top of the inheritance, whose table holds every key of the family. -/
def rootOf (reg : Registry) (m : Model) : Model := (reg.lineage m).getLastD m

/-- Every field of a model: those of its ancestors first, and of each model the declared ones before
the other sides of relations. -/
def fields (reg : Registry) (m : Model) : List Field :=
  (reg.lineage m).reverse.flatMap Model.localFields

/-- The fields with a column, inherited ones included. -/
def concreteFields (reg : Registry) (m : Model) : List Field := (reg.fields m).filter Field.isConcrete

/-- The field of a name, the nearest one of an inheritance; `pk` stands for the primary key. -/
def field? (reg : Registry) (m : Model) (name : String) : Option Field :=
  (reg.lineage m).findSome? fun level => level.localFields.find? (·.name == m.fieldName name)

/-- The field of a name. -/
def field (reg : Registry) (m : Model) (name : String) : Outcome Field :=
  match reg.field? m name with
  | some f => .ok f
  | none => .error (.fieldNotFound m.name (m.fieldName name))

/-- The primary key field of a model. -/
def pkField? (reg : Registry) (m : Model) : Option Field := reg.field? m m.pkName

/-- The columns of the model's own table: its key and the columns it declares. -/
def localColumns (reg : Registry) (m : Model) : List Field :=
  (if m.parent.isSome then (reg.pkField? m).toList else []) ++ m.own.filter Field.isConcrete

/-- The model on the other side of a relation field. -/
def related (reg : Registry) (m : Model) (f : Field) : Outcome Model :=
  match f.type.relatedModel? with
  | some target => reg.model target
  | none => .error (.classification ("Field '" ++ m.name ++ "." ++ f.name ++ "' is not a relation"))

end Registry

end RecordMapper
