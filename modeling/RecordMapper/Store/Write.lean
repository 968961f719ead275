import RecordMapper.Store.Select

/-!
Changing stored rows under the constraints of their columns.

A column that may not be null holds a value, a unique column no value twice, a foreign key a key of its
target. The rules are checked for the whole row after a change, for every model of the inheritance.
-/

namespace RecordMapper

namespace Failure

def noSuchColumn (model column : String) : Failure :=
  .database ("table " ++ model ++ " has no column named " ++ column)

def notNullViolated (model column : String) : Failure :=
  .integrity ("NOT NULL constraint failed: " ++ model ++ "." ++ column)

def uniqueViolated (model column : String) : Failure :=
  .integrity ("UNIQUE constraint failed: " ++ model ++ "." ++ column)

def foreignKeyViolated (model column : String) : Failure :=
  .integrity ("FOREIGN KEY constraint failed: " ++ model ++ "." ++ column)

def noParentTable (model : String) : Failure := .notSupported ("'" ++ model ++ "' has no parent table")

def updatesPrimaryKey (model : String) : Failure :=
  .notSupported ("updating the primary key of '" ++ model ++ "'")

end Failure

/-- The present as a value of a column: a day for a column of days, otherwise an instant. -/
def FieldType.stamp (now : Instant) : FieldType → Value
  | .date => .date now.date
  | _ => .instant now

/-- The value of a column in a new row that does not give one. -/
def Field.initial (now : Instant) (f : Field) : Value :=
  if f.autoNow || f.autoNowAdd then f.type.stamp now else f.default.getD .null

/-- Whether a field holds the key of another row. -/
def Field.isForeignKey (f : Field) : Bool :=
  match f.type with
  | .foreignKey .. => true
  | .oneToOne .. => true
  | _ => false

namespace Store

/-- Every name must be that of a column. -/
def checkColumns (reg : Registry) (m : Model) (values : Record) : Outcome Unit :=
  values.forM fun (name, _) =>
    if name == "pk" then .ok ()
    else
      match reg.field? m name with
      | some f => if f.isConcrete then .ok () else .error (.noSuchColumn m.name name)
      | none => .error (.noSuchColumn m.name name)

/-- The primary key that values give. -/
def givenKey? (m : Model) (values : Record) : Option Value :=
  ((values.get? m.pkName).or (values.get? "pk")).filter fun v => !v.isNull

/-- The part of a new row that stands in the table of one model. -/
def localRow (reg : Registry) (now : Instant) (m : Model) (pk : Value) (values : Record) : Record :=
  Record.ofList ((reg.localColumns m).map fun f =>
    (f.name, if f.primaryKey then pk else (values.get? f.name).getD (f.initial now)))

/-- Checks the constraints of one column of a row. -/
def checkCell (reg : Registry) (st : Store) (m : Model) (pk : Value) (f : Field) : Outcome Unit := do
  let v := cell reg st m pk f.name
  if f.primaryKey then return ()
  if v.isNull then
    if f.null then return () else throw (.notNullViolated m.name f.name)
  if f.unique && (st.keys m).any fun other =>
      !(other.equiv pk) && (cell reg st m other f.name).equiv v then
    throw (.uniqueViolated m.name f.name)
  if f.isForeignKey then
    let target ← reg.related m f
    if !st.contains target v then throw (.foreignKeyViolated m.name f.name)

/-- Checks the constraints of a row in the tables of a model and its ancestors. -/
def checkRow (reg : Registry) (st : Store) (m : Model) (pk : Value) : Outcome Unit :=
  (reg.lineage m).forM fun level => (reg.localColumns level).forM (checkCell reg st level pk)

/-- The key of a new row: the given one, the next of the table where keys are generated, or the initial
value of the key's column. -/
def newKey (reg : Registry) (now : Instant) (st : Store) (m : Model) (pkField : Field) (values : Record) :
    Value :=
  match givenKey? m values with
  | some pk => pk
  | none =>
    if pkField.type.isAuto then .int ((st.table (reg.rootOf m)).lastId + 1) else pkField.initial now

/-- The store that remembers an integer key as used. -/
def noteKey (st : Store) (root : Model) (pk : Value) : Store :=
  match pk with
  | .int n =>
    let t := st.table root
    st.setTable root { t with lastId := if t.lastId.toInt < n.toInt then n else t.lastId }
  | _ => st

/-- Inserts a row, spread over the tables of its inheritance, and yields its key. -/
def insert (reg : Registry) (now : Instant) (st : Store) (m : Model) (values : Record) :
    Outcome (Value × Store) := do
  checkColumns reg m values
  let root := reg.rootOf m
  let pkField ← reg.field m m.pkName
  let pk := newKey reg now st m pkField values
  if pk.isNull then throw (.notNullViolated root.name m.pkName)
  if st.contains root pk then throw (.uniqueViolated root.name m.pkName)
  let st := noteKey st root pk
  let st := (reg.lineage m).reverse.foldl (fun st level =>
    st.setRow level pk (localRow reg now level pk values)) st
  checkRow reg st m pk
  return (pk, st)

/-- Inserts the part of a row that stands in the model's own table, below an existing row of its
parent. -/
def insertChild (reg : Registry) (now : Instant) (st : Store) (m : Model) (values : Record) :
    Outcome Store := do
  checkColumns reg m values
  match givenKey? m values, reg.parent? m with
  | none, _ => throw (.notNullViolated m.name m.pkName)
  | some _, none => throw (.noParentTable m.name)
  | some pk, some parent =>
    if !st.contains parent pk then throw (.foreignKeyViolated m.name m.pkName)
    if st.contains m pk then throw (.uniqueViolated m.name m.pkName)
    let st := st.setRow m pk (localRow reg now m pk values)
    checkRow reg st m pk
    return st

/-- Writes one column of a row into the table that holds it. -/
def setCell (reg : Registry) (st : Store) (m : Model) (pk : Value) (name : String) (v : Value) : Store :=
  match columnOwner? reg m name with
  | none => st
  | some owner =>
    match st.row? owner pk with
    | some row => st.setRow owner (Keyed.seat (st.table owner).rows pk) (row.insert name v)
    | none => st

/-- Updates the rows that a queryset selects and yields their number. -/
def update (reg : Registry) (st : Store) (qs : Queryset) (values : Record) : Outcome (Nat × Store) := do
  let m := qs.model
  checkColumns reg m values
  if values.has "pk" || values.has m.pkName then throw (.updatesPrimaryKey m.name)
  let pks ← select reg st qs
  let st := pks.foldl (fun st pk =>
    values.foldl (fun st (name, v) => setCell reg st m pk name v) st) st
  pks.forM (checkRow reg st m)
  return (pks.length, st)

end Store

end RecordMapper
