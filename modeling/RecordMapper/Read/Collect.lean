import RecordMapper.Context
import RecordMapper.Read.Links
import RecordMapper.Steps

/-!
Collecting the links of the isolated fields of a read.

Fields are collected one after another or side by side, and what needs no query is settled at once.
A few fields play rounds: in a round every field that is not finished sends its next query, in the order
of the fields, and a failure ends the read. Many fields run laps, each from the end where the last one
stopped, and a failure ends the read once all fields before it are finished. A field that passes over
its failure has no links.
-/

namespace RecordMapper

/-- What reads and writes work with: models, schemas, and the databases there are. -/
structure Application where
  registry : Registry
  catalog : Catalog
  connections : Connections
  deriving Inhabited

namespace Application

/-- The database that a queryset is asked of in a context. -/
def databaseOf (app : Application) (ctx : Context) (qs : Queryset) : Outcome String :=
  app.connections.resolve (qs.database.or ctx.database)

/-- The records of a queryset. -/
def fetch (app : Application) (ctx : Context) (qs : Queryset) (columns : List SelectColumn) :
    Job (List Record) := do
  let database ← Job.ofOutcome (app.databaseOf ctx qs)
  if qs.isNone then return []
  Job.fetch database qs columns

end Application

/-- The failure of a field as the read reports it; `none` if the field passes over it. -/
def SchemaField.report? (f : SchemaField) (ctx : Context) (e : Failure) : Option Failure :=
  if f.silent && !ctx.raises then none else some (.isolatedField f.name e)

/-- A field whose links are being collected: those found and the steps that are left. -/
structure Collecting where
  field : SchemaField
  todo : List LinkStep
  links : Links
  deriving Inhabited

namespace Collecting

/-- Takes the steps that send no query, up to the next one that does. -/
def settle (app : Application) (ctx : Context) (f : SchemaField) : List LinkStep → Links → Outcome Collecting
  | [], links => .ok ⟨f, [], links⟩
  | step :: rest, links =>
    match step.query? with
    | none => settle app ctx f rest (links.extend (step.links []))
    | some (qs, _) => do
      let _ ← app.databaseOf ctx qs
      if qs.isNone then settle app ctx f rest (links.extend (step.links []))
      else return ⟨f, step :: rest, links⟩

/-- What a failure makes of the field. -/
def recovered (ctx : Context) (f : SchemaField) : Outcome Collecting → Outcome Collecting
  | .ok c => .ok c
  | .error e =>
    match f.report? ctx e with
    | some e => .error e
    | none => .ok ⟨f, [], []⟩

/-- The field before its first query. -/
def start (app : Application) (ctx : Context) (owners : List Value) (f : SchemaField) : Outcome Collecting :=
  recovered ctx f (f.linkSteps owners >>= fun steps => settle app ctx f steps [])

/-- Sends the next query, if there is one. -/
def advance (app : Application) (ctx : Context) (c : Collecting) : Job Collecting :=
  match c.todo with
  | [] => return c
  | step :: rest => do
    let fetched ← Job.attempt (match step.query? with
      | some (qs, columns) => app.fetch ctx qs columns
      | none => return [])
    Job.ofOutcome (recovered ctx c.field (fetched >>= fun rows =>
      settle app ctx c.field rest (c.links.extend (step.links rows))))

/-- Sends up to so many queries, one after another. -/
def advanceBy (app : Application) (ctx : Context) : Nat → Collecting → Job Collecting
  | 0, c => return c
  | n + 1, c => do advanceBy app ctx n (← c.advance app ctx)

/-- Plays so many rounds, in each of which every field sends its next query. -/
def rounds (app : Application) (ctx : Context) : Nat → List Collecting → Job (List Collecting)
  | 0, cs => return cs
  | n + 1, cs => do rounds app ctx n (← cs.mapM (advance app ctx))

/-- Collects the links of fields one after another. -/
def inTurn (app : Application) (ctx : Context) (owners : List Value) (fields : List SchemaField) :
    Job (List Collecting) :=
  fields.mapM fun f => do
    let c ← Job.ofOutcome (start app ctx owners f)
    advanceBy app ctx c.todo.length c

/-- The largest number of steps that a field has left. -/
def longest (cs : List Collecting) : Nat := (cs.map fun c => c.todo.length).foldl max 0

/-- The failure that ends laps: that of a field behind finished ones alone. -/
def due? : List (Outcome Collecting) → Option Failure
  | [] => none
  | .ok c :: rest => if c.todo.isEmpty then due? rest else none
  | .error e :: _ => some e

/-- Lets the fields at some places send their next queries, one after another. -/
def lap (app : Application) (ctx : Context) :
    List Nat → List (Outcome Collecting) → Job (List (Outcome Collecting))
  | [], cs => return cs
  | i :: rest, cs =>
    match cs[i]? with
    | some (.ok c) => do
      let cs := cs.set i (← Job.attempt (c.advance app ctx))
      match due? cs with
      | some e => throw e
      | none => lap app ctx rest cs
    | _ => lap app ctx rest cs

/-- Runs so many laps, the first through the given places. -/
def laps (app : Application) (ctx : Context) :
    Nat → List Nat → List (Outcome Collecting) → Job (List (Outcome Collecting))
  | 0, _, cs => return cs
  | n + 1, places, cs => do laps app ctx n places.reverse (← lap app ctx places cs)

/-- Collects the links of fields in rounds. -/
def inRounds (app : Application) (ctx : Context) (owners : List Value) (fields : List SchemaField) :
    Job (List Collecting) := do
  let cs ← Job.ofOutcome (fields.mapM (start app ctx owners))
  rounds app ctx (longest cs) cs

/-- Collects the links of fields in laps. -/
def inLaps (app : Application) (ctx : Context) (owners : List Value) (fields : List SchemaField) :
    Job (List Collecting) := do
  let cs := fields.map (start app ctx owners)
  match due? cs with
  | some e => throw e
  | none =>
    let cs ← laps app ctx (longest (cs.filterMap Except.toOption)) (List.range cs.length).reverse cs
    Job.ofOutcome (cs.mapM id)

/-- The largest number of fields that play rounds. -/
def roundSize : Nat := 30

/-- Collects the links of fields side by side. -/
def sideBySide (app : Application) (ctx : Context) (owners : List Value) (fields : List SchemaField) :
    Job (List Collecting) :=
  if fields.length ≤ roundSize then inRounds app ctx owners fields else inLaps app ctx owners fields

end Collecting

end RecordMapper
