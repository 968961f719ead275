import RecordMapper.Schema.Basic
import RecordMapper.Value.Keyed

/-!
Links: for an isolated field, the related values of every row, which is called their owner.

Finding them takes a list of steps. A step either has its values at once or sends one query.
-/

namespace RecordMapper

/-- The related values of each owner, owners in the order they were first met. -/
abbrev Links := Keyed (List Value)

/-- A part of finding the links of a field. -/
inductive LinkStep
  /-- The same known values for each owner. -/
  | known (owners values : List Value)
  /-- For each owner the keys of the rows of a queryset. -/
  | keys (owners : List Value) (rows : Queryset)
  /-- Rows whose path `link` leads back to their owner; `value` is the related value. -/
  | joined (owners : List Value) (rows : Queryset) (link value : String)
  deriving Inhabited

namespace Links

/-- Links put into others, owner by owner. -/
def extend (links more : Links) : Links := more.foldl (fun acc e => insertEntry acc e.1 e.2) links

/-- The names under which a joined query fetches the owner, the key and the value of a row. -/
def ownerLabel : String := "__owner"

def keyLabel : String := "__key"

def valueLabel : String := "__value"

/-- The links that fetched rows say. Rows without a value or with an unknown owner say nothing, and a
row counts once for its owner. -/
def ofRows (owners : List Value) (rows : List Record) : Links :=
  (rows.foldl (fun (acc : Links × List (Value × Value)) row =>
    let owner := row.getD ownerLabel
    let key := row.getD keyLabel
    let value := row.getD valueLabel
    if value.isNull || !owners.contains owner || acc.2.contains (owner, key) then acc
    else (insertEntry acc.1 owner ((acc.1.lookup owner).getD [] ++ [value]), (owner, key) :: acc.2))
    ([], [])).1

/-- Every related value once, in the order of the owners. -/
def related (links : Links) : List Value := distinctOf (links.flatMap Prod.snd)

end Links

namespace LinkStep

/-- The query of a step, if it sends one. -/
def query? : LinkStep → Option (Queryset × List SelectColumn)
  | .known .. => none
  | .keys _ rows => some (rows, [.ofPath rows.model.pkName])
  | .joined _ rows link value =>
    some (rows, [⟨Links.ownerLabel, .column link⟩, ⟨Links.keyLabel, .column rows.model.pkName⟩,
      ⟨Links.valueLabel, .column value⟩])

/-- The links that a step finds, given the rows its query fetched. -/
def links (step : LinkStep) (rows : List Record) : Links :=
  match step with
  | .known owners values => owners.map fun o => (o, values)
  | .keys owners qs =>
    let keys := distinctOf ((rows.map (·.getD qs.model.pkName)).filter fun v => !v.isNull)
    owners.map fun o => (o, keys)
  | .joined owners .. => Links.ofRows owners rows

end LinkStep

namespace SchemaField

/-- The step that the output of a function asks for. -/
def outputStep (f : SchemaField) (owners : List Value) : FunctionOutput → LinkStep
  | .queryset qs => .keys owners qs
  | .keys pks => .known owners (pks.filter fun v => !v.isNull)
  | .key pk => .known owners pk.items
  | .value v => .known owners (if f.relatedSingle then [v] else v.items)

/-- The steps that a function asks for. -/
def functionSteps (f : SchemaField) (g : KeyFunction) (owners : List Value) : Outcome (List LinkStep) := do
  match g with
  | .constant result => return [f.outputStep owners (← result)]
  | .perKey result => owners.mapM fun pk => (result pk).map (f.outputStep [pk])
  | .batch results =>
    let outputs ← results owners
    return (owners.zip (Keyed.drain outputs owners)).map fun
      | (pk, some out) => f.outputStep [pk] out
      | (pk, none) => .known [pk] []

/-- The steps that find the links of an isolated field. A queryset with a window is queried for each
owner, since its window counts the rows of one owner. -/
def linkSteps (f : SchemaField) (owners : List Value) : Outcome (List LinkStep) :=
  match f.kind with
  | .isolated (.relation target link value) =>
    .ok [.joined owners ((Queryset.all target).filter (.test link (.oneOf owners))) link value]
  | .isolated (.queryset qs link value) =>
    if qs.isSliced then
      .ok (owners.map fun pk => .joined [pk] (qs.filter (.test link (.exact pk))) link value)
    else .ok [.joined owners (qs.filter (.test link (.oneOf owners))) link value]
  | .isolated (.function g) => f.functionSteps g.call owners
  | _ => .ok []

/-- The value of the field for each owner, made of those related values that `look` knows. -/
def shape (f : SchemaField) (links : Links) (look : Value → Option Value) : Keyed Value :=
  links.map fun (owner, values) =>
    let found := values.filterMap look
    (owner, if f.relatedSingle then found.headD .null else .list found)

end SchemaField

/-- The rows with the value of a field put in wherever their owner has one. -/
def assignField (pkName name : String) (values : Keyed Value) (rows : List Record) : List Record :=
  rows.map fun row =>
    match Keyed.get? values (row.getD pkName) with
    | some v => row.insert name v
    | none => row

end RecordMapper
