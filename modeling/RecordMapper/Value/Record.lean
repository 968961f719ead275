import RecordMapper.Value.Basic

/-!
Records as ordered association lists: each name stands at most once, at the place where it was first
inserted.
-/

namespace RecordMapper.Record

/-- The value under a name. -/
def get? (r : Record) (name : String) : Option Value := r.lookup name

/-- The value under a name, null if there is none. -/
def getD (r : Record) (name : String) : Value := (r.lookup name).getD .null

def has (r : Record) (name : String) : Bool := r.any (·.1 == name)

def names (r : Record) : List String := r.map Prod.fst

end RecordMapper.Record

namespace RecordMapper

/-- Ordered association lists: puts a value under a key, in the key's place if it has one and at the
end otherwise. -/
def insertEntry {κ α : Type} [BEq κ] (entries : List (κ × α)) (key : κ) (value : α) : List (κ × α) :=
  match entries with
  | [] => [(key, value)]
  | (k, v) :: rest => if k == key then (k, value) :: rest else (k, v) :: insertEntry rest key value

/-- Ordered association lists: without the entry of a key. -/
def eraseEntry {κ α : Type} [BEq κ] (entries : List (κ × α)) (key : κ) : List (κ × α) :=
  entries.filter fun e => !(e.1 == key)

/-- The ordered association list of a sequence of entries: of two with one key the later gives the
value and the earlier the place. -/
def entriesOf {κ α : Type} [BEq κ] (entries : List (κ × α)) : List (κ × α) :=
  entries.foldl (fun acc e => insertEntry acc e.1 e.2) []

/-- The elements of a list without repetitions, each at its first place. -/
def distinctOf {α : Type} [BEq α] (xs : List α) : List α :=
  xs.foldl (fun acc x => if acc.contains x then acc else acc ++ [x]) []

/-- Puts a value under a name. -/
def Record.insert (r : Record) (name : String) (v : Value) : Record := insertEntry r name v

/-- The record without a name. -/
def Record.erase (r : Record) (name : String) : Record := eraseEntry r name

/-- The record of a list of named values; a repeated name keeps its first place and its last value. -/
def Record.ofList (entries : List (String × Value)) : Record := entriesOf entries

/-- The names and values of a second record put into a first. -/
def Record.extend (r : Record) (more : Record) : Record := more.foldl (fun acc e => acc.insert e.1 e.2) r

end RecordMapper
