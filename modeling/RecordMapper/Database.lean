import RecordMapper.Store.Delete
import RecordMapper.Store.Fetch

/-!
A database: a store, the states that open transactions return to, and a log of statements.

A statement that fails changes nothing but the log. Transactions nest; opening and closing them is not a
statement. A statement on a queryset that can select nothing is not executed at all.
-/

namespace RecordMapper

/-- There is no transaction to close. -/
def Failure.noTransaction : Failure := .operational "no transaction is active"

/-- What a database can be asked. -/
inductive Call
  | fetch (qs : Queryset) (columns : List SelectColumn)
  | count (qs : Queryset)
  | insert (m : Model) (values : Record)
  | insertChild (m : Model) (values : Record)
  | update (qs : Queryset) (values : Record)
  | delete (qs : Queryset)
  | begin
  | commit
  | rollback

namespace Call

/-- What a database answers. -/
def Reply : Call → Type
  | .fetch .. => List Record
  | .count _ => Nat
  | .insert .. => Value
  | .insertChild .. => Unit
  | .update .. => Nat
  | .delete _ => Nat
  | .begin => Unit
  | .commit => Unit
  | .rollback => Unit

/-- The statement a call is logged as, if it is one. -/
def statement? : Call → Option String
  | .fetch qs _ => if qs.isNone then none else some ("SELECT " ++ qs.model.name)
  | .count qs => if qs.isNone then none else some ("COUNT " ++ qs.model.name)
  | .insert m _ => some ("INSERT " ++ m.name)
  | .insertChild m _ => some ("INSERT " ++ m.name)
  | .update qs _ => if qs.isNone then none else some ("UPDATE " ++ qs.model.name)
  | .delete qs => if qs.isNone then none else some ("DELETE " ++ qs.model.name)
  | .begin => none
  | .commit => none
  | .rollback => none

end Call

/-- A database. The latest savepoint stands first. -/
structure Database where
  store : Store
  savepoints : List Store
  /-- The statements since the log was last cleared, oldest first. -/
  log : List String
  deriving DecidableEq, Repr, Inhabited

namespace Database

def empty : Database := ⟨Store.empty, [], []⟩

def inTransaction (db : Database) : Bool := !db.savepoints.isEmpty

/-- The number of statements since the log was last cleared. -/
def statementCount (db : Database) : Nat := db.log.length

/-- Whether the statements in the log are as many as expected, or at most as many. -/
def keepsTo (db : Database) (expected : Nat) (atMost : Bool) : Bool :=
  if atMost then db.statementCount ≤ expected else db.statementCount == expected

def clearLog (db : Database) : Database := { db with log := [] }

/-- Opens a transaction, or a savepoint within one. -/
def begin (db : Database) : Database := { db with savepoints := db.store :: db.savepoints }

/-- Closes the innermost transaction and keeps its changes. -/
def commit (db : Database) : Outcome Unit × Database :=
  match db.savepoints with
  | [] => (.error .noTransaction, db)
  | _ :: rest => (.ok (), { db with savepoints := rest })

/-- Closes the innermost transaction and undoes its changes. -/
def rollback (db : Database) : Outcome Unit × Database :=
  match db.savepoints with
  | [] => (.error .noTransaction, db)
  | before :: rest => (.ok (), { db with store := before, savepoints := rest })

/-- The database with a statement logged, if there is one. -/
def logged (db : Database) (statement : Option String) : Database :=
  { db with log := db.log ++ statement.toList }

/-- The answer of a change and the database after it; a change that fails leaves the store. -/
def changed {α : Type} (db : Database) (r : Outcome (α × Store)) : Outcome α × Database :=
  match r with
  | .ok (a, st) => (.ok a, { db with store := st })
  | .error f => (.error f, db)

/-- The answer to a call and the database after it. `now` is the time of the call. -/
def perform (reg : Registry) (now : Instant) (db : Database) (c : Call) : Outcome c.Reply × Database :=
  let db := db.logged c.statement?
  match c with
  | .fetch qs columns => (if qs.isNone then .ok [] else db.store.fetch reg qs columns, db)
  | .count qs => (if qs.isNone then .ok (0 : Nat) else (Store.select reg db.store qs).map List.length, db)
  | .insert m values => db.changed (Store.insert reg now db.store m values)
  | .insertChild m values =>
    db.changed ((Store.insertChild reg now db.store m values).map fun st => ((), st))
  | .update qs values => if qs.isNone then (.ok (0 : Nat), db) else db.changed (Store.update reg db.store qs values)
  | .delete qs => if qs.isNone then (.ok (0 : Nat), db) else db.changed (Store.delete reg db.store qs)
  | .begin => (.ok (), db.begin)
  | .commit => db.commit
  | .rollback => db.rollback

end Database

end RecordMapper
