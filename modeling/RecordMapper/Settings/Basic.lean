import RecordMapper.Json.Typed

/-!
Settings of an application: its databases, its log, and what queries do by default.
-/

namespace RecordMapper

/-- How a database is reached. -/
structure DatabaseSettings where
  engine : String := "memory"
  name : String := "default"
  host : String := ""
  port : Nat := 0
  /-- What an engine needs besides, by name. -/
  options : List (String × String) := []
  deriving DecidableEq, Repr, Inhabited

/-- What queries do by default. -/
structure QuerySettings where
  /-- The mark of descending keys. -/
  mark : String := "-"
  /-- No limit of a query form is larger. -/
  maxLimit : Option Nat := none
  /-- Isolated fields may be resolved side by side. -/
  concurrent : Bool := true
  /-- A save of many records passes over those that fail. -/
  skipFailed : Bool := false
  deriving DecidableEq, Repr, Inhabited

/-- The settings of an application. -/
structure Settings where
  debug : Bool := true
  logLevel : String := "info"
  /-- The databases by name. -/
  databases : List (String × DatabaseSettings) := [("default", {})]
  /-- The database that is meant when none is named. -/
  main : String := "default"
  query : QuerySettings := {}
  deriving DecidableEq, Repr

namespace Settings

instance : Inhabited Settings := ⟨{}⟩

end Settings

namespace Json

instance : Writable DatabaseSettings := ⟨fun d =>
  .ofMembers [("engine", encode d.engine), ("name", encode d.name), ("host", encode d.host),
    ("port", encode d.port), ("options", .ofMembers (d.options.map fun (k, v) => (k, encode v)))]⟩

instance : Writable QuerySettings := ⟨fun q =>
  .ofMembers [("order_prefix", encode q.mark), ("max_limit", encode q.maxLimit),
    ("concurrent_isolation", encode q.concurrent), ("ignore_bulk_errors", encode q.skipFailed)]⟩

instance : Writable Settings := ⟨fun s =>
  .ofMembers [("debug", encode s.debug), ("log_level", encode s.logLevel),
    ("databases", .ofMembers (s.databases.map fun (k, d) => (k, encode d))),
    ("default_database", encode s.main), ("query", encode s.query)]⟩

/-- The object that an array of values is when its members have the given names in order. Objects stay
as they are. -/
def named (names : List String) (j : Json) : Outcome Json :=
  match j with
  | .object members => .ok (.object members)
  | .array items =>
    if items.length == names.length then .ok (.ofMembers (names.zip items))
    else .error (.unexpectedDocument (toString names.length ++ " elements"))
  | _ => .error (.unexpectedDocument "an object")

/-- The members of an object, each read in the same way. -/
def entries {α : Type} [Readable α] (j : Json) : Outcome (List (String × α)) :=
  match j with
  | .object members => members.mapM fun (k, v) => do return (k, ← decode v)
  | _ => .error (.unexpectedDocument "an object")

/-- A natural number below a limit. -/
def natBelow (limit : Nat) (j : Json) : Outcome Nat := do
  let n ← decode j
  if n < limit then return n else throw (.unexpectedDocument "a smaller number")

instance : Readable DatabaseSettings := ⟨fun j => do
  let j ← named ["engine", "name", "host", "port", "options"] j
  return {
    engine := ← need j "engine"
    name := ← need j "name"
    host := ← need j "host"
    port := ← natBelow UInt16.size (← need j "port")
    options := ← entries (← need j "options") }⟩

instance : Readable QuerySettings := ⟨fun j => do
  let j ← named ["order_prefix", "max_limit", "concurrent_isolation", "ignore_bulk_errors"] j
  return {
    mark := ← need j "order_prefix"
    maxLimit := ← (← opt j "max_limit").mapM (natBelow UInt64.size)
    concurrent := ← need j "concurrent_isolation"
    skipFailed := ← need j "ignore_bulk_errors" }⟩

instance : Readable Settings := ⟨fun j => do
  let j ← named ["debug", "log_level", "databases", "default_database", "query"] j
  return {
    debug := ← need j "debug"
    logLevel := ← need j "log_level"
    databases := ← entries (← need j "databases")
    main := ← need j "default_database"
    query := ← need j "query" }⟩

end Json

end RecordMapper
