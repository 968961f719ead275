import RecordMapper.Registry.Basic
import RecordMapper.Value.Keyed

/-!
Stored rows: one table for each model, rows by primary key in the order they were inserted.

A model that inherits has a table of its own columns alone; the row of a key is spread over the tables
of the model and its ancestors.
-/

namespace RecordMapper

/-- The rows of one model and the largest integer key the table has seen. -/
structure Table where
  rows : Keyed Record
  lastId : Int64
  deriving DecidableEq, Repr, Inhabited

/-- The tables of a database, by the names of their models. -/
structure Store where
  tables : List (String × Table)
  deriving DecidableEq, Repr, Inhabited

namespace Store

def empty : Store := ⟨[]⟩

/-- The table of a model; one that was never written to is empty. -/
def table (st : Store) (m : Model) : Table := (st.tables.lookup m.name).getD ⟨[], 0⟩

/-- The store with the table of a model replaced. -/
def setTable (st : Store) (m : Model) (t : Table) : Store := ⟨insertEntry st.tables m.name t⟩

/-- The primary keys of a model's rows, in the order they were inserted. -/
def keys (st : Store) (m : Model) : List Value := (st.table m).rows.map Prod.fst

/-- The part of a row that stands in the model's own table. -/
def row? (st : Store) (m : Model) (pk : Value) : Option Record := Keyed.get? (st.table m).rows pk

def contains (st : Store) (m : Model) (pk : Value) : Bool := (st.row? m pk).isSome

/-- Writes the part of a row that stands in the model's own table. -/
def setRow (st : Store) (m : Model) (pk : Value) (row : Record) : Store :=
  let t := st.table m
  st.setTable m { t with rows := insertEntry t.rows pk row }

/-- Removes the part of a row that stands in the model's own table. -/
def eraseRow (st : Store) (m : Model) (pk : Value) : Store :=
  let t := st.table m
  st.setTable m { t with rows := Keyed.erase t.rows pk }

/-- The number of rows in all tables. -/
def size (st : Store) : Nat := (st.tables.map fun e => e.2.rows.length).foldr (· + ·) 0

/-- The model of an inheritance whose table holds a column. -/
def columnOwner? (reg : Registry) (m : Model) (name : String) : Option Model :=
  if name == m.pkName then some m
  else (reg.lineage m).find? fun level => level.own.any fun f => f.name == name && f.isConcrete

/-- The value of a column in the row of a key; null where nothing is stored. -/
def cell (reg : Registry) (st : Store) (m : Model) (pk : Value) (name : String) : Value :=
  if name == "pk" || name == m.pkName then pk
  else
    match columnOwner? reg m name with
    | none => .null
    | some owner =>
      match st.row? owner pk with
      | some row => row.getD name
      | none => .null

/-- Every column of the row of a key. -/
def fullRow (reg : Registry) (st : Store) (m : Model) (pk : Value) : Record :=
  Record.ofList ((reg.concreteFields m).map fun f => (f.name, cell reg st m pk f.name))

/-- Every row of a model with all its columns. -/
def rows (reg : Registry) (st : Store) (m : Model) : List Record :=
  (st.keys m).map (fullRow reg st m)

end Store

end RecordMapper
