import RecordMapper.Context
import RecordMapper.Read.Detach
import RecordMapper.Schema.Basic
import RecordMapper.Value.Keyed

/-!
The plan of a read: what is fetched with the rows and what is added to them afterwards.
-/

namespace RecordMapper

/-- The parts of a read, each in the order of the schema's fields. -/
structure ReadPlan where
  /-- What is fetched with the rows. -/
  columns : List SelectColumn
  /-- The fields that are resolved by queries of their own. -/
  isolated : List SchemaField
  /-- The values of fields before they are resolved or computed. -/
  initial : Record
  /-- The fields that are computed from others. -/
  computed : List SchemaField
  /-- The names of the finished rows. -/
  output : List String
  deriving Inhabited

namespace ReadPlan

/-- The fields that a context asks for. -/
def requested (s : Schema) (ctx : Context) : List SchemaField :=
  s.fieldList.filter fun f => (f.isPrimaryKey || f.mode.read) && ctx.inScope f.name f.isPrimaryKey

/-- The names of fields and of what their properties depend on. -/
def neededNames (fields : List SchemaField) : List String :=
  fields.map (·.name) ++ fields.flatMap fun f =>
    match f.property with
    | some p => p.deps
    | none => []

/-- An expression as it is fetched: on a window of rows its aggregates are detached. -/
def prepare (reg : Registry) (m : Model) (sliced : Bool) (e : Expression) : Outcome Expression :=
  if sliced then reg.detach m e else .ok e

/-- The plan with one more field. -/
def addField (reg : Registry) (m : Model) (sliced : Bool) (now : Instant) (plan : ReadPlan)
    (f : SchemaField) : Outcome ReadPlan := do
  match f.kind with
  | .column path => return { plan with columns := plan.columns ++ [⟨f.name, .column path⟩] }
  | .expression e =>
    let e ← prepare reg m sliced e
    return { plan with columns := plan.columns ++ [⟨f.name, e⟩] }
  | .isolated _ =>
    return { plan with
      isolated := plan.isolated ++ [f]
      initial := plan.initial.insert f.name f.placeholder }
  | .unmapped =>
    if f.property.isSome then
      return { plan with
        computed := plan.computed ++ [f]
        initial := plan.initial.insert f.name .null }
    else return { plan with initial := plan.initial.insert f.name ((f.defaultAt now).getD .null) }

/-- The plan with an expression that the context asks for beside the fields. -/
def addForced (reg : Registry) (m : Model) (sliced : Bool) (plan : ReadPlan)
    (e : String × Expression) : Outcome ReadPlan := do
  let value ← prepare reg m sliced e.2
  return { plan with
    columns := plan.columns ++ [⟨e.1, value⟩]
    output := plan.output ++ [e.1] }

/-- The plan for reading a schema in a context. -/
def make (reg : Registry) (s : Schema) (ctx : Context) (sliced : Bool) (now : Instant) :
    Outcome ReadPlan := do
  let asked := requested s ctx
  let needed := neededNames asked
  let plan ← (s.fieldList.filter fun f => needed.contains f.name).foldlM
    (addField reg s.model sliced now) ⟨[], [], [], [], asked.map (·.name)⟩
  ctx.forced.foldlM (addForced reg s.model sliced) plan

/-- A fetched row with the initial values of the other fields. -/
def prefill (plan : ReadPlan) (row : Record) : Record := row.extend plan.initial

/-- The value of every computed field put into the row. -/
def compute (plan : ReadPlan) (row : Record) : Record :=
  plan.computed.foldl (fun row f =>
    match f.property with
    | some p => row.insert f.name (p.compute row)
    | none => row) row

/-- The values of some names, each taken out of the row, so that a repeated name ends as null. -/
def takeOut : List String → Record → Record → Record
  | [], _, out => out
  | name :: rest, row, out => takeOut rest (row.erase name) (out.insert name (row.getD name))

/-- The finished row: computed fields added, and only the names asked for. -/
def finish (plan : ReadPlan) (row : Record) : Record := takeOut plan.output (plan.compute row) []

end ReadPlan

/-- Of rows with one key the first, in the order given or in the order of the rows. -/
def distinctRows (order : Option (List Value)) (pkName : String) (rows : List Record) : List Record :=
  let byKey := rows.foldl (fun (acc : Keyed Record) row =>
    let pk := row.getD pkName
    if (acc.lookup pk).isSome then acc else acc ++ [(pk, row)]) []
  match order with
  | some pks => (Keyed.drain byKey pks).filterMap id
  | none => byKey.map Prod.snd

end RecordMapper
