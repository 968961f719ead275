import RecordMapper.Registry.Path
import RecordMapper.Store.Basic

/-!
Following paths from row to row.
-/

namespace RecordMapper

/-- The other side of a relation is missing its many-to-many field. -/
def Failure.notManyToMany (model field : String) : Failure :=
  .database ("'" ++ model ++ "." ++ field ++ "' is not a many-to-many field")

namespace Store

/-- What the linking rows say stands on the other side of a key. -/
def linked (reg : Registry) (st : Store) (through own other : String) (key : Value) :
    Outcome (List Value) := do
  let m ← reg.model through
  return ((st.keys m).filter fun row => (cell reg st m row own).equiv key).map
    fun row => cell reg st m row other

/-- The keys of the rows whose foreign key holds a value. -/
def referencing (reg : Registry) (st : Store) (owner : Model) (field : String) (key : Value) : List Value :=
  (st.keys owner).filter fun row => (cell reg st owner row field).equiv key

/-- What one step leads to from the row of a key: a relation to the keys of the related rows, a column
to its value. -/
def step (reg : Registry) (st : Store) (m : Model) (f : Field) (key : Value) : Outcome (List Value) :=
  match f.type with
  | .manyToMany _ through own other _ => linked reg st through own other key
  | .reverseManyToMany owner forward => do
    let ownerModel ← reg.model owner
    let declared ← reg.field ownerModel forward
    match declared.type with
    | .manyToMany _ through own other _ => linked reg st through other own key
    | _ => throw (.notManyToMany owner forward)
  | .reverseForeignKey owner field => do
    return referencing reg st (← reg.model owner) field key
  | .reverseOneToOne owner field => do
    return referencing reg st (← reg.model owner) field key
  | _ => .ok [cell reg st m key f.name]

/-- What the names of a path lead to from rows of a model. Null ends a branch, and nothing is looked up
behind the last branch. `start` and `whole` name the path in a failure. -/
def follow (reg : Registry) (st : Store) (start whole : String) (m : Model) :
    List Value → List String → Outcome (List Value)
  | [], _ => .ok []
  | _, [] => .ok []
  | keys, name :: rest => do
    let f ← reg.field m name
    let reached ← keys.mapM (step reg st m f)
    match rest with
    | [] => return reached.flatten
    | _ =>
      if f.isRelation then
        let target ← reg.related m f
        follow reg st start whole target (reached.flatten.filter fun v => !v.isNull) rest
      else throw (.fieldNotFound start whole)

/-- What a path leads to from the row of a key. -/
def pathValues (reg : Registry) (st : Store) (m : Model) (pk : Value) (path : String) :
    Outcome (List Value) :=
  follow reg st m.name path m [pk] (dottedNames path)

end Store

end RecordMapper
