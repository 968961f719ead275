import RecordMapper.Context
import RecordMapper.Steps

/-!
What a save may do, and where it writes.
-/

namespace RecordMapper

/-- The transaction a save runs in. -/
inductive TransactionWish
  /-- No transaction. -/
  | none
  /-- A transaction on the database of the call. -/
  | main
  /-- A transaction on the named database, which is then written to. -/
  | on (database : String)
  deriving DecidableEq, Repr, Inhabited

/-- The options of a save. -/
structure SaveOptions where
  /-- Insert without trying an update first. -/
  mustCreate : Bool := false
  /-- Never insert. -/
  mustUpdate : Bool := false
  /-- Write relations too. -/
  withRelations : Bool := true
  /-- The failures of relations that are passed over. -/
  forgiveRelations : Forgiveness := .none
  /-- In a save of many records, pass over those that fail. -/
  skipFailed : Bool := false
  transaction : TransactionWish := .main
  deriving DecidableEq, Repr, Inhabited

/-- Options that contradict each other. -/
def Failure.contradictoryOptions : Failure :=
  .configuration "must_create and must_update are mutually exclusive"

namespace SaveOptions

/-- Fails where the options contradict each other. -/
def check (o : SaveOptions) : Outcome Unit :=
  if o.mustCreate && o.mustUpdate then .error .contradictoryOptions else .ok ()

/-- The options for the objects of a relation. -/
def nested (o : SaveOptions) : SaveOptions :=
  { o with mustCreate := false, mustUpdate := false, withRelations := true, transaction := .none }

end SaveOptions

/-- The database a save writes to, and whether it opens a transaction there. -/
structure WriteTarget where
  database : String
  transactional : Bool
  deriving DecidableEq, Repr, Inhabited

/-- Where a save in a context writes. -/
def WriteTarget.of (connections : Connections) (ctx : Context) (o : SaveOptions) : Outcome WriteTarget := do
  match o.transaction with
  | .none => return ⟨← connections.resolve ctx.database, false⟩
  | .main => return ⟨← connections.resolve ctx.database, true⟩
  | .on database => return ⟨← connections.resolve (some database), true⟩

end RecordMapper
