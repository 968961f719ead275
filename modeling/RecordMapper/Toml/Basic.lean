import RecordMapper.Json.Basic
import RecordMapper.Value.Record

/-!
TOML documents: tables of values, and the rules by which lines add to them.

A table is made by its header, implied by the header of a table below it, or made by a dotted key. Only
an implied table can still get a header, and only a dotted key adds to what dotted keys made.
-/

namespace RecordMapper

namespace Toml

/-- How a table came to be. -/
inductive Origin
  | header
  | implied
  | dotted
  deriving DecidableEq, Repr, Inhabited

end Toml

/-- A value of a TOML document. -/
inductive Toml
  | text (s : String)
  | integer (n : Int)
  | float (x : Binary64)
  | bool (b : Bool)
  /-- A day, a time of day, or both. -/
  | time (s : String)
  | array (items : List Toml)
  /-- A table written as a value, which nothing is added to. -/
  | inline (entries : List (String × Toml))
  | table (origin : Toml.Origin) (entries : List (String × Toml))
  /-- Tables that have one header in common. -/
  | tables (rows : List (List (String × Toml)))
  deriving Inhabited

namespace Toml

/-- The entries of a table. -/
abbrev Entries := List (String × Toml)

/-- Changes the table at a path of header names, making those that are missing. Of several tables with
one header the last is meant. -/
def alterAt (change : Entries → Option Entries) : List String → Entries → Option Entries
  | [], entries => change entries
  | name :: rest, entries =>
    match entries.lookup name with
    | none => (alterAt change rest []).map fun below => insertEntry entries name (.table .implied below)
    | some (.table origin below) =>
      (alterAt change rest below).map fun below => insertEntry entries name (.table origin below)
    | some (.tables rows) =>
      (alterAt change rest (rows.getLastD [])).map fun below =>
        insertEntry entries name (.tables (rows.dropLast ++ [below]))
    | some _ => none

/-- Gives a table its header. A table that was implied so far moves behind the other entries. -/
def openTable (path : List String) (name : String) (root : Entries) : Option Entries :=
  alterAt (fun entries =>
    match entries.lookup name with
    | none => some (insertEntry entries name (.table .header []))
    | some (.table .implied below) =>
      some (insertEntry (eraseEntry entries name) name (.table .header below))
    | some _ => none) path root

/-- Adds one more table of a header. -/
def openRow (path : List String) (name : String) (root : Entries) : Option Entries :=
  alterAt (fun entries =>
    match entries.lookup name with
    | none => some (insertEntry entries name (.tables [[]]))
    | some (.tables rows) => some (insertEntry entries name (.tables (rows ++ [[]])))
    | some _ => none) path root

/-- Puts a value under a dotted key. `open_` says that the table reached so far takes keys of this
form. -/
def assign (value : Toml) (name : String) (open_ : Bool) : List String → Entries → Option Entries
  | [], entries =>
    if open_ && (entries.lookup name).isNone then some (insertEntry entries name value) else none
  | first :: rest, entries =>
    match entries.lookup first with
    | none =>
      (assign value name true rest []).map fun below => insertEntry entries first (.table .dotted below)
    | some (.table .header _) => none
    | some (.table origin below) =>
      (assign value name (origin == .dotted) rest below).map fun below =>
        insertEntry entries first (.table origin below)
    | some (.tables rows) =>
      (assign value name false rest (rows.getLastD [])).map fun below =>
        insertEntry entries first (.tables (rows.dropLast ++ [below]))
    | some _ => none

end Toml

end RecordMapper
