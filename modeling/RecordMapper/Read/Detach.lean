import RecordMapper.Registry.Path

/-!
Aggregates on a window of rows.

A window counts the records of a fetch, and an aggregate over a to-many relation would be cut short by
it. Such an aggregate is detached: it becomes a subquery over the related rows, which no window of the
outer rows touches.
-/

namespace RecordMapper

/-- An aggregate whose relation cannot be followed back. -/
def Failure.undetachable (path : String) : Failure :=
  .notSupported ("aggregate over '" ++ path ++ "' on a sliced queryset")

namespace ResolvedPath

/-- The names of the fields of some steps, joined to a path. -/
def joinNames (steps : List PathStep) : String := ".".intercalate (steps.map fun s => s.field.name)

/-- The path up to and with its first to-many relation, and the steps behind it. -/
def cutAtFirstMany? (p : ResolvedPath) : Option (ResolvedPath × List PathStep) :=
  match p.steps.span fun s => !s.field.type.isMany with
  | (before, s :: rest) => some (⟨before, s⟩, rest)
  | (_, []) => none

end ResolvedPath

namespace Condition

/-- A condition on a row seen from the related rows that `path` leads to, whose primary key is `pk`.
Paths that do not go through `path` stay. -/
def rootedAt (path pk : String) (q : Condition) : Condition :=
  q.mapPaths fun field =>
    if field == path then pk
    else if (path ++ ".").toList.isPrefixOf field.toList then
      String.ofList (field.toList.drop (path.length + 1))
    else field

end Condition

namespace Registry

/-- An aggregate over a path: through a to-many relation, a subquery over the related rows. -/
def detachAggregate (reg : Registry) (m : Model) (func : Aggregate) (e : Expression) (distinct : Bool)
    (filter : Option Condition) : Outcome Expression := do
  match e with
  | .column path =>
    match (← reg.resolvePath m path).cutAtFirstMany? with
    | none => return .aggregate func e distinct filter
    | some (hop, rest) =>
      match ← reg.targetModel hop, hop.reversePath? with
      | some target, some link =>
        let column := if rest.isEmpty then target.pkName else ResolvedPath.joinNames rest
        let filter := filter.map (·.rootedAt (ResolvedPath.joinNames hop.steps) target.pkName)
        return .subquery (Queryset.all target) link m.pkName
          (.aggregate func (.column column) distinct filter)
      | _, _ => throw (.undetachable path)
  | e => return .aggregate func e distinct filter

mutual

/-- The expression with every aggregate over a to-many relation detached. -/
def detach (reg : Registry) (m : Model) (e : Expression) : Outcome Expression :=
  match e with
  | .column path => .ok (.column path)
  | .literal v => .ok (.literal v)
  | .call name args => (detachAll reg m args).map (.call name)
  | .aggregate func of distinct filter => reg.detachAggregate m func of distinct filter
  | .choose whens otherwise => do
    let whens ← detachWhens reg m whens
    let otherwise ← detachOtherwise reg m otherwise
    return .choose whens otherwise
  | .subquery rows link outer value => .ok (.subquery rows link outer value)
  | .arith op l r => do
    let l ← detach reg m l
    let r ← detach reg m r
    return .arith op l r
termination_by structural e

/-- Expression by expression. -/
def detachAll (reg : Registry) (m : Model) (args : List Expression) : Outcome (List Expression) :=
  match args with
  | [] => .ok []
  | e :: rest => do
    let e ← detach reg m e
    let rest ← detachAll reg m rest
    return e :: rest
termination_by structural args

/-- Branch by branch. -/
def detachWhens (reg : Registry) (m : Model) (whens : List (Condition × Expression)) :
    Outcome (List (Condition × Expression)) :=
  match whens with
  | [] => .ok []
  | (q, e) :: rest => do
    let e ← detach reg m e
    let rest ← detachWhens reg m rest
    return (q, e) :: rest
termination_by structural whens

/-- The last branch. -/
def detachOtherwise (reg : Registry) (m : Model) (otherwise : Option Expression) :
    Outcome (Option Expression) :=
  match otherwise with
  | none => .ok none
  | some e => (detach reg m e).map some
termination_by structural otherwise

end

end Registry

end RecordMapper
