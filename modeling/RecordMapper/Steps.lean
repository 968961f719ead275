import RecordMapper.Database

/-!
Computations that talk to databases.

A computation is either finished or asks for one thing and goes on with the answer, so that it can be
run to its end or one call at a time beside others. A job is a computation that may fail.
-/

namespace RecordMapper

/-- A computation that calls databases and reads the clock. -/
inductive Steps (α : Type)
  | done (a : α)
  | ask (database : String) (c : Call) (next : Outcome c.Reply → Steps α)
  | clock (next : Instant → Steps α)

namespace Steps

/-- One computation after another. -/
def bind {α β : Type} : Steps α → (α → Steps β) → Steps β
  | .done a, f => f a
  | .ask database c next, f => .ask database c fun r => bind (next r) f
  | .clock next, f => .clock fun t => bind (next t) f

instance : Monad Steps where
  pure := .done
  bind := bind

end Steps

/-- A computation that may fail. -/
abbrev Job := ExceptT Failure Steps

namespace Job

/-- Calls a database. -/
def ask (database : String) (c : Call) : Job c.Reply := ExceptT.mk (.ask database c .done)

/-- Reads the clock. -/
def clock : Job Instant := ExceptT.mk (.clock fun t => .done (.ok t))

/-- Fetches columns of the rows of a queryset. -/
def fetch (database : String) (qs : Queryset) (columns : List SelectColumn) : Job (List Record) :=
  ask database (.fetch qs columns)

/-- Counts the rows of a queryset. -/
def count (database : String) (qs : Queryset) : Job Nat := ask database (.count qs)

/-- Whether a queryset has a row; one is enough to know. -/
def any (database : String) (qs : Queryset) : Job Bool :=
  if qs.isNone then return false
  else do return (← count database (qs.unordered.take 1)) > 0

/-- The row of a queryset that has one row at most, with all its columns. -/
def only (reg : Registry) (database : String) (qs : Queryset) : Job (Option Record) := do
  let columns := (reg.concreteFields qs.model).map fun f => SelectColumn.ofPath f.name
  match ← fetch database (qs.take 2) columns with
  | [] => return none
  | [row] => return some row
  | _ => throw (.multipleObjects qs.model.name)

/-- Inserts a row and yields its key. -/
def insert (database : String) (m : Model) (values : Record) : Job Value := ask database (.insert m values)

/-- Inserts the part of a row that stands in the model's own table. -/
def insertChild (database : String) (m : Model) (values : Record) : Job Unit :=
  ask database (.insertChild m values)

/-- Updates the rows of a queryset and yields their number. -/
def update (database : String) (qs : Queryset) (values : Record) : Job Nat :=
  ask database (.update qs values)

/-- Deletes the rows of a queryset and yields the number of rows that are gone. -/
def delete (database : String) (qs : Queryset) : Job Nat := ask database (.delete qs)

/-- A result that is known already. -/
def ofOutcome {α : Type} (r : Outcome α) : Job α := ExceptT.mk (.done r)

/-- The outcome of a job, whether it succeeds or not. -/
def attempt {α : Type} (j : Job α) : Job (Outcome α) := ExceptT.mk (j.run.bind fun r => .done (.ok r))

/-- Runs a job in a transaction: its changes are kept if it succeeds and undone if it fails. -/
def atomic {α : Type} (database : String) (j : Job α) : Job α := do
  ask database .begin
  match ← attempt j with
  | .ok a => do
    ask database .commit
    return a
  | .error f => do
    let _ ← attempt (ask database .rollback)
    throw f

/-- Runs a job in a transaction if one is wanted. -/
def atomicIf {α : Type} (wanted : Bool) (database : String) (j : Job α) : Job α :=
  if wanted then atomic database j else j

end Job

/-- No database is registered under this name. -/
def Failure.unknownDatabase (name : String) : Failure :=
  .operational ("Unknown database alias '" ++ name ++ "'")

/-- The names of the databases that can be called, and the one that is meant when none is named. -/
structure Connections where
  names : List String
  main : String
  deriving DecidableEq, Repr, Inhabited

/-- The database that a name stands for. -/
def Connections.resolve (c : Connections) (name : Option String) : Outcome String :=
  let name := name.getD c.main
  if c.names.contains name then .ok name else .error (.unknownDatabase name)

/-- The databases of an application with a clock. The clock advances by `tick` nanoseconds whenever it
is read. -/
structure World where
  registry : Registry
  databases : List (String × Database)
  main : String
  clock : Instant
  tick : Nat
  deriving DecidableEq, Repr, Inhabited

namespace World

def connections (w : World) : Connections := ⟨w.databases.map Prod.fst, w.main⟩

/-- The database of a name; one that is not registered is empty. -/
def database (w : World) (name : String) : Database := (w.databases.lookup name).getD .empty

def setDatabase (w : World) (name : String) (db : Database) : World :=
  { w with databases := insertEntry w.databases name db }

/-- The world with its clock advanced. -/
def ticked (w : World) : World := { w with clock := w.clock.later w.tick }

/-- The answer to a call, and the world after it. -/
def perform (w : World) (name : String) (c : Call) : Outcome c.Reply × World :=
  match w.databases.lookup name with
  | none => (.error (.unknownDatabase name), w)
  | some db =>
    let (r, db) := db.perform w.registry w.clock c
    (r, (w.setDatabase name db).ticked)

/-- Runs a computation to its end. -/
def run {α : Type} : Steps α → World → α × World
  | .done a, w => (a, w)
  | .ask name c next, w =>
    let (r, w) := w.perform name c
    run (next r) w
  | .clock next, w => run (next w.clock) w.ticked

/-- Runs a job to its end. -/
def runJob {α : Type} (j : Job α) (w : World) : Outcome α × World := run j.run w

end World

end RecordMapper
