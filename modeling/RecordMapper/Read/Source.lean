import RecordMapper.Context
import RecordMapper.Registry.Basic
import RecordMapper.Schema.Basic

/-!
What a schema is read for, and the queryset that it comes down to.
-/

namespace RecordMapper

/-- The rows that a schema is read for. -/
inductive Source
  | queryset (qs : Queryset)
  | key (pk : Value)
  | keys (pks : List Value)
  /-- The rows whose keys are carried by records. -/
  | records (rs : List Record)
  deriving Inhabited

/-- A queryset with the order its rows are wanted in, if that is an order of keys. -/
structure Request where
  rows : Queryset
  order : Option (List Value)
  deriving Inhabited

/-- A queryset of a model that the schema is not about. -/
def Failure.foreignRows (schema model : String) : Failure :=
  .configuration ("Schema '" ++ schema ++ "' cannot read '" ++ model ++ "' rows")

namespace Schema

/-- The primary key that a record carries: under the name of the key field, under `pk`, or under the
name of the key column. -/
def keyOf? (s : Schema) (data : Record) : Option Value :=
  (((data.get? s.pkName).or (data.get? "pk")).or (data.get? s.model.pkName)).filter fun v => !v.isNull

/-- The request for rows of given keys: each key once, null for none. -/
def requestOfKeys (s : Schema) (pks : List Value) (single : Bool) : Option Request :=
  let wanted := distinctOf (pks.filter fun v => !v.isNull)
  let wanted := if single then wanted.take 1 else wanted
  if wanted.isEmpty then none
  else some ⟨(Queryset.all s.model).pkIn wanted, some wanted⟩

/-- The request that a source comes down to; `none` where no row can be meant. -/
def request? (reg : Registry) (s : Schema) (src : Source) (single : Bool) : Outcome (Option Request) :=
  match src with
  | .queryset qs =>
    if !reg.isSubModel qs.model s.model then .error (.foreignRows s.name qs.model.name)
    else if qs.isNone then .ok none
    else .ok (some ⟨if single then qs.take 1 else qs, none⟩)
  | .key pk => .ok (s.requestOfKeys [pk] single)
  | .keys pks => .ok (s.requestOfKeys pks single)
  | .records rs => .ok (s.requestOfKeys (rs.filterMap s.keyOf?) single)

end Schema

end RecordMapper
