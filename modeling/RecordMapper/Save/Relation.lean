import RecordMapper.Save.Parts
import RecordMapper.Steps

/-!
Writing the relations of a saved row that no column of it holds.

The keys given for a many-to-many relation become rows of its through model: rows for other keys are
deleted and missing ones inserted. The keys given for the other side of a foreign key have it pointed at
the row; where it may be null, rows that are not given are released.
-/

namespace RecordMapper

namespace RelationWrite

/-- The through rows that are missing for keys, given the rows that exist. -/
def missingLinks (own other : String) (pk : Value) (keys : List Value) (existing : List Record) :
    List Record :=
  let present := existing.filterMap fun row => row.get? other
  (keys.filter fun k => !present.contains k).map fun k => Record.ofList [(own, pk), (other, k)]

/-- The through rows of an owner. -/
def throughRows (through : Model) (own : String) (pk : Value) : Queryset :=
  (Queryset.all through).filter (.test own (.exact pk))

/-- The related rows of an owner whose keys are none of those given. -/
def otherRows (related : Model) (field : String) (pk : Value) (keys : List Value) : Queryset :=
  ((Queryset.all related).filter (.test field (.exact pk))).exclude (.test related.pkName (.oneOf keys))

/-- Makes the relation of an owner consist of the rows of given keys. `created` says that the owner is
new, so that it has no related rows yet. -/
def assign (database : String) (pk : Value) (keys : List Value) (created : Bool) : RelationWrite → Job Unit
  | .manyToMany through own other => do
    let linked := throughRows through own pk
    if !created then
      let _ ← Job.delete database (linked.exclude (.test other (.oneOf keys)))
    let existing ← if created then pure [] else Job.fetch database linked [.ofPath other]
    (missingLinks own other pk keys existing).forM fun row => do
      let _ ← Job.insert database through row
  | .reverse related field nullable => do
    if !created && nullable then
      let _ ← Job.update database (otherRows related field pk keys) [(field, .null)]
    if !keys.isEmpty then
      let _ ← Job.update database ((Queryset.all related).pkIn keys) [(field, pk)]

/-- The columns that an object saved for an owner takes beside its own. -/
def stamped (pk : Value) : RelationWrite → Record
  | .manyToMany .. => []
  | .reverse _ field _ => [(field, pk)]

/-- Completes a relation whose objects are saved, given their keys: through rows for them, or no other
related rows beside them. -/
def complete (database : String) (pk : Value) (saved : List Value) (created : Bool) (w : RelationWrite) :
    Job Unit := do
  match w with
  | .manyToMany .. => assign database pk saved created w
  | .reverse related field _ =>
    if !created then
      let _ ← Job.delete database (otherRows related field pk saved)

end RelationWrite

end RecordMapper
