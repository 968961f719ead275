import RecordMapper.Decimal.Word
import RecordMapper.Read.Collect
import RecordMapper.Read.Plan
import RecordMapper.Read.Source
import RecordMapper.Schema.Classify
import RecordMapper.Value.Document

/-!
Reading a schema: the rows of a source with every field that the context asks for.

The rows are fetched with one query and recorded in the guard; then the isolated fields are resolved,
those with a nested schema by reading it for the related keys that the guard does not know. The finished
rows replace the recorded ones.
-/

namespace RecordMapper

/-- Computations of a read, which may fail and leave what they recorded in the guard either way. -/
abbrev Reading := ExceptT Failure (StateT Guard Steps)

namespace Reading

/-- A job as part of a read. -/
def ofJob {α : Type} (j : Job α) : Reading α :=
  ExceptT.mk fun g => j.run.bind fun r => .done (r, g)

/-- A known result as part of a read. -/
def ofOutcome {α : Type} (r : Outcome α) : Reading α := ofJob (Job.ofOutcome r)

/-- The guard. -/
def guard : Reading Guard := ExceptT.mk fun g => .done (.ok g, g)

/-- Changes the guard. -/
def record (change : Guard → Guard) : Reading Unit := ExceptT.mk fun g => .done (.ok (), change g)

/-- The outcome of a part, whether it succeeds or not. -/
def attempt {α : Type} (r : Reading α) : Reading (Outcome α) :=
  ExceptT.mk fun g => (r.run g).bind fun (outcome, g) => .done (.ok outcome, g)

end Reading

/-- The nested schema of a field, checked against the model that the field leads to. -/
def Application.nested? (app : Application) (owner : Schema) (f : SchemaField) : Outcome (Option Schema) := do
  match f.nested with
  | none => return none
  | some r =>
    let s ← app.catalog.resolve owner r
    match f.relatedModel with
    | some related =>
      SchemaField.checkBinding app.registry owner.model f.name related s.model
      return some s
    | none => return some s

namespace Reading

/-- The values of an isolated field, given its links. `read` reads nested schemas. -/
def materialize (app : Application) (read : Schema → Source → Context → Reading (List Record))
    (s : Schema) (ctx : Context) (f : SchemaField) (links : Links) : Reading (Keyed Value) := do
  match ← ofOutcome (app.nested? s f) with
  | none => return f.shape links some
  | some nested =>
    let below := ctx.derive f.name
    let key := below.guardKey nested.id
    let missing := (← guard).unresolved key links.related
    if !missing.isEmpty then
      let _ ← read nested (.keys missing) below
    let g ← guard
    return f.shape links fun pk => (g.get? key pk).map .map

/-- The rows with the values of one isolated field put in. -/
def resolveField (app : Application) (read : Schema → Source → Context → Reading (List Record))
    (s : Schema) (ctx : Context) (rows : List Record) (c : Collecting) : Reading (List Record) := do
  match ← attempt (materialize app read s ctx c.field c.links) with
  | .ok values => return assignField s.pkName c.field.name values rows
  | .error e =>
    match c.field.report? ctx e with
    | some e => throw e
    | none => return rows

/-- The rows of a source, at most so many levels of nested schemas deep. `together` says whether the
links of several fields are collected side by side. -/
def rowsWithin (app : Application) (together : Bool) : Nat → Schema → Source → Context → Reading (List Record)
  | 0, _, _, _ => return []
  | levels + 1, s, src, ctx => do
    match ← ofOutcome (s.request? app.registry src ctx.single) with
    | none => return []
    | some request =>
      let now ← ofJob Job.clock
      let plan ← ofOutcome (ReadPlan.make app.registry s ctx request.rows.isSliced now)
      let fetched ← ofJob (app.fetch ctx request.rows plan.columns)
      let rows := distinctRows request.order s.pkName fetched
      if rows.isEmpty then return []
      let rows := rows.map plan.prefill
      let pks := rows.map (·.getD s.pkName)
      let key := ctx.guardKey s.id
      record (·.registerMissing key (rows.map fun row => (row.getD s.pkName, plan.finish row)))
      let collected ← ofJob
        (if together && ctx.concurrent then Collecting.sideBySide app ctx pks plan.isolated
          else Collecting.inTurn app ctx pks plan.isolated)
      let rows ← collected.foldlM (resolveField app (rowsWithin app together levels) s ctx) rows
      let finished := rows.map plan.finish
      record (·.register key (finished.map fun row => (row.getD s.pkName, row)))
      return finished

end Reading

namespace World

/-- The number of rows in all databases. -/
def rowCount (w : World) : Nat := (w.databases.map fun e => e.2.store.size).foldr (· + ·) 0

/-- A number of levels that no read exceeds. Every level but the first records a row under a key that
had none for it; a key is a schema with a part of the included scope and a part of the excluded one. -/
def levels (w : World) (cat : Catalog) (ctx : Context) : Nat :=
  let parts (s : Option Scope) : Nat := (s.map Scope.size).getD 0 + 1
  (cat.schemas.length + 1) * parts ctx.includes * parts ctx.excludes * (w.rowCount + 1) + 2

/-- What works with the databases of a world. -/
def application (w : World) (cat : Catalog) : Application := ⟨w.registry, cat, w.connections⟩

/-- Reads the rows of a source: their values, what the guard knows afterwards, and the world after
the read. -/
def readRows (w : World) (cat : Catalog) (together : Bool) (s : Schema) (src : Source) (ctx : Context)
    (g : Guard) : (Outcome (List Record) × Guard) × World :=
  w.run ((Reading.rowsWithin (w.application cat) together (w.levels cat ctx) s src ctx).run.run g)

end World

/-- A field of an instance that does not have the shape asked for. -/
def Failure.unreadableField (name shape : String) : Failure :=
  .serialization ("field '" ++ name ++ "' is not " ++ shape)

/-- A row of a schema. -/
structure Instance where
  schema : Schema
  data : Record
  deriving Inhabited

/-- A single row was asked for and none is there. -/
def Failure.noRows (schema : String) : Failure := .emptyQueryset (schema ++ " matched no rows")

namespace Instance

/-- The value of a field; `pk` stands for the primary key. -/
def get? (i : Instance) (name : String) : Option Value :=
  i.data.get? (if name == "pk" then i.schema.pkName else name)

/-- The primary key. -/
def pk? (i : Instance) : Option Value := i.data.get? i.schema.pkName

/-- A field read as an integer of 64 bits. -/
def integer (i : Instance) (name : String) : Outcome Int :=
  match (i.data.getD name).toJson with
  | .number (.integer n) =>
    if FitsWord n then .ok n else .error (.unreadableField name "an integer")
  | _ => .error (.unreadableField name "an integer")

/-- A field read as a text. -/
def text (i : Instance) (name : String) : Outcome String :=
  match (i.data.getD name).toJson with
  | .text s => .ok s
  | _ => .error (.unreadableField name "a text")

/-- The first of some rows of a schema. -/
def first (s : Schema) (rows : List Record) : Outcome Instance :=
  match rows with
  | row :: _ => .ok ⟨s, row⟩
  | [] => .error (.noRows s.name)

end Instance

end RecordMapper
