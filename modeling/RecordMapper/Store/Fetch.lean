import RecordMapper.Store.Select

/-!
Fetching columns of selected rows.
-/

namespace RecordMapper

namespace Registry

mutual

/-- Whether an aggregate outside subqueries collects from a to-many relation. -/
def aggregatesMany (reg : Registry) (m : Model) (e : Expression) : Bool :=
  match e with
  | .column _ => false
  | .literal _ => false
  | .call _ args => argsAggregateMany reg m args
  | .aggregate _ e _ _ =>
    e.columns.any fun path =>
      match reg.resolvePath m path with
      | .ok resolved => !resolved.isSingle
      | .error _ => false
  | .choose whens otherwise => whensAggregateMany reg m whens || otherwiseAggregatesMany reg m otherwise
  | .subquery .. => false
  | .arith _ l r => aggregatesMany reg m l || aggregatesMany reg m r
termination_by structural e

/-- Whether one of several expressions has such an aggregate. -/
def argsAggregateMany (reg : Registry) (m : Model) (args : List Expression) : Bool :=
  match args with
  | [] => false
  | e :: rest => aggregatesMany reg m e || argsAggregateMany reg m rest
termination_by structural args

/-- Whether one of several branches has such an aggregate. -/
def whensAggregateMany (reg : Registry) (m : Model) (whens : List (Condition × Expression)) : Bool :=
  match whens with
  | [] => false
  | (_, e) :: rest => aggregatesMany reg m e || whensAggregateMany reg m rest
termination_by structural whens

/-- Whether the last branch has such an aggregate. -/
def otherwiseAggregatesMany (reg : Registry) (m : Model) (otherwise : Option Expression) : Bool :=
  match otherwise with
  | none => false
  | some e => aggregatesMany reg m e
termination_by structural otherwise

end

end Registry

namespace Store

/-- The values of a column on a row: those a path leads to, null if none, and otherwise one value. -/
def columnCells (reg : Registry) (st : Store) (m : Model) (named : Named) (pk : Value) (e : Expression) :
    Outcome (List Value) :=
  match e with
  | .column path => do
    let vs ← columnValues reg st m named pk path
    return if vs.isEmpty then [.null] else vs
  | e => do return [← e.eval reg st m named pk]

/-- The records of one row: one for every combination of the values of its columns. -/
def rowRecords (reg : Registry) (st : Store) (m : Model) (named : Named) (columns : List SelectColumn)
    (pk : Value) : Outcome (List Record) :=
  columns.foldlM (fun records column => do
    let cells ← columnCells reg st m named pk column.expr
    return records.flatMap fun r => cells.map fun v => r.insert column.label v) [[]]

/-- The records of the rows that a queryset selects. A path through a to-many relation gives a record
for every related value, so a window does not go together with an aggregate over such a path. -/
def fetch (reg : Registry) (st : Store) (qs : Queryset) (columns : List SelectColumn) :
    Outcome (List Record) := do
  let exprs := columns.map SelectColumn.expr ++ qs.annotations.map Prod.snd ++ qs.ordering.map OrderTerm.expr
  if qs.isSliced && exprs.any (reg.aggregatesMany qs.model) then
    throw (.aggregateOnSlice qs.model.name)
  let named := Expression.annotationsOf reg st qs
  let pks ← select reg st qs
  return (← pks.mapM (rowRecords reg st qs.model named columns)).flatten

end Store

end RecordMapper
