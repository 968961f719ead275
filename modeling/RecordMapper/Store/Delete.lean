import RecordMapper.Store.Write

/-!
Removing rows, and with them the rows that refer to them.
-/

namespace RecordMapper.Store

/-- The models that share the keys of a model: the top of its inheritance and all below it. -/
def family (reg : Registry) (m : Model) : List Model :=
  reg.models.filter fun other => reg.isSubModel other (reg.rootOf m)

/-- Removes a row from all tables of a family. -/
def eraseFrom (family : List Model) (st : Store) (pk : Value) : Store :=
  family.foldl (fun st m => st.eraseRow m pk) st

/-- Removes rows from all tables of a family one after another, and yields the keys that had a row when
their turn came. -/
def eraseAll (family : List Model) (st : Store) : List Value → List Value × Store
  | [] => ([], st)
  | pk :: rest =>
    if family.any fun m => st.contains m pk then
      let (removed, st) := eraseAll family (eraseFrom family st pk) rest
      (pk :: removed, st)
    else eraseAll family st rest

/-- The columns that refer to rows of a family, each with the model that declares it. -/
def referringColumns (reg : Registry) (family : List Model) : List (Model × Field) :=
  reg.models.flatMap fun m =>
    (m.own.filter fun f =>
      f.isForeignKey && (match f.type.relatedModel? with
        | some target => family.any (·.name == target)
        | none => false)).map fun f => (m, f)

/-- The keys of the rows in which a column holds one of the given keys. -/
def referringKeys (reg : Registry) (st : Store) (m : Model) (f : Field) (removed : List Value) :
    List Value :=
  (st.keys m).filter fun key => removed.any fun pk => pk.equiv (cell reg st m key f.name)

/-- Removes rows of a model and, column by column, the rows that refer to them. Every level removes a
row, so the number of rows is enough fuel. -/
def deleteRows (reg : Registry) : Nat → Store → Model → List Value → Store
  | 0, st, _, _ => st
  | fuel + 1, st, m, pks =>
    let family := family reg m
    let (removed, st) := eraseAll family st pks
    if removed.isEmpty then st
    else
      (referringColumns reg family).foldl (fun st (owner, f) =>
        let referring := referringKeys reg st owner f removed
        if referring.isEmpty then st else deleteRows reg fuel st owner referring) st

/-- Removes the rows that a queryset selects, and yields their number. -/
def delete (reg : Registry) (st : Store) (qs : Queryset) : Outcome (Nat × Store) := do
  let pks ← select reg st qs
  return (pks.length, deleteRows reg (st.size + 1) st qs.model pks)

end RecordMapper.Store
