import RecordMapper.Queryset
import RecordMapper.Store.Path
import RecordMapper.Store.Scalar

/-!
What expressions and querysets mean on a store.

An expression means a function from rows to values. Annotations are such functions by name; while one
of them is evaluated its own name means the column again. A queryset means a list of keys: those rows
that pass its condition, sorted by its terms, cut to its window.
-/

namespace RecordMapper

namespace Failure

/-- A path that had to end with a relation. -/
def notARelation (path model : String) : Failure :=
  .database ("'" ++ path ++ "' is not a relation on '" ++ model ++ "'")

/-- A window cannot be combined with an aggregate over rows that a join would multiply. -/
def aggregateOnSlice (model : String) : Failure :=
  .notSupported ("aggregate over a to-many relation on a sliced '" ++ model ++ "' queryset")

end Failure

namespace Condition

mutual

/-- Whether a condition holds, given what its paths lead to. A test passes if one of the values does,
or null if there are none. Conjunctions and disjunctions stop at the first part that decides. -/
def holds (values : String → Outcome (List Value)) : Condition → Outcome Bool
  | .test path lookup => do
    let vs ← values path
    return if vs.isEmpty then lookup.holds .null else vs.any lookup.holds
  | .all parts => allHold values parts
  | .any parts => anyHolds values parts
  | .not part => do return !(← holds values part)

/-- Whether every part holds. -/
def allHold (values : String → Outcome (List Value)) : List Condition → Outcome Bool
  | [] => .ok true
  | q :: rest => do if ← holds values q then allHold values rest else return false

/-- Whether one of the parts holds. -/
def anyHolds (values : String → Outcome (List Value)) : List Condition → Outcome Bool
  | [] => .ok false
  | q :: rest => do if ← holds values q then return true else anyHolds values rest

end

end Condition

/-- A value for every row of a model, by the row's key. -/
abbrev RowValue := Value → Outcome Value

/-- What names mean besides columns. -/
abbrev Named := String → Option RowValue

/-- What an expression means once the other names are given a meaning. -/
abbrev OpenValue := Named → RowValue

/-- Ties named meanings together: each may use the others, but not itself. -/
def Named.tie : Nat → List (String × OpenValue) → Named
  | 0, _ => fun _ => none
  | steps + 1, meanings => fun name =>
    (meanings.lookup name).map fun meaning => meaning (tie steps (eraseEntry meanings name))

/-- The meanings of annotations. -/
def Named.ofMeanings (meanings : List (String × OpenValue)) : Named := tie meanings.length meanings

/-- A term of an order by what its expression means. -/
structure SortTerm where
  value : RowValue
  descending : Bool
  nulls : NullPlace

namespace SortTerm

/-- Whether null comes before other values under a term. -/
def nullFirst (t : SortTerm) : Bool :=
  match t.nulls with
  | .first => true
  | .last => false
  | .least => !t.descending

/-- How two values are ordered under a term. Values without an order are not told apart. -/
def order (t : SortTerm) (a b : Value) : Ordering :=
  match a.isNull, b.isNull with
  | true, true => .eq
  | true, false => if t.nullFirst then .lt else .gt
  | false, true => if t.nullFirst then .gt else .lt
  | false, false =>
    let o := (a.compare? b).getD .eq
    if t.descending then o.swap else o

/-- How two rows are ordered by the values of several terms: by the first that tells them apart. -/
def orderAll : List SortTerm → List Value → List Value → Ordering
  | t :: ts, a :: as, b :: bs => (t.order a b).then (orderAll ts as bs)
  | _, _, _ => .eq

end SortTerm

/-- Puts an element behind the last one of a reversed list that it is not less than. -/
def insertFromEnd {α : Type} (less : α → α → Bool) (x : α) : List α → List α
  | [] => [x]
  | y :: ys => if less x y then y :: insertFromEnd less x ys else x :: y :: ys

/-- A sorted list that keeps the order of elements neither of which is less. -/
def stableSort {α : Type} (less : α → α → Bool) (xs : List α) : List α :=
  (xs.foldl (fun acc x => insertFromEnd less x acc) []).reverse

namespace Store

/-- What a path or the name of an annotation leads to from a row. -/
def columnValues (reg : Registry) (st : Store) (m : Model) (named : Named) (pk : Value) (path : String) :
    Outcome (List Value) :=
  match named path with
  | some value => do return [← value pk]
  | none => pathValues reg st m pk path

/-- The first value of a path, null if there is none. -/
def columnValue (reg : Registry) (st : Store) (m : Model) (named : Named) (pk : Value) (path : String) :
    Outcome Value := do
  return (← columnValues reg st m named pk path).headD .null

/-- The names before and up to the last to-many relation of a path, and those behind it. -/
def splitAtMany (steps : List PathStep) (names : List String) : Option (List String × List String) :=
  match (steps.zip (List.range steps.length)).reverse.find? fun e => e.1.field.type.isMany with
  | none => none
  | some (_, i) => some (names.take (i + 1), names.drop (i + 1))

/-- The path below a row that `path` leads to, seen from the row it starts at. -/
def below? (path inner : String) : Option String :=
  let start := (path ++ ".").toList
  if start.isPrefixOf inner.toList then some (String.ofList (inner.toList.drop start.length)) else none

/-- Whether a filter holds for a related row: paths through `path` start at the related row. -/
def relatedPasses (reg : Registry) (st : Store) (m : Model) (named : Named) (pk : Value) (path : String)
    (target : Model) (related : Value) (filter : Option Condition) : Outcome Bool :=
  match filter with
  | none => .ok true
  | some q =>
    q.holds fun p =>
      if p == path then .ok [related]
      else
        match below? path p with
        | some inner => pathValues reg st target related inner
        | none => columnValues reg st m named pk p

/-- What the names behind a related row lead to; none lead to the row itself. -/
def readBehind (reg : Registry) (st : Store) (target : Model) (behind : List String) (related : Value) :
    Outcome (List Value) :=
  match behind with
  | [] => .ok [related]
  | _ => pathValues reg st target related (".".intercalate behind)

/-- The values that an aggregate over a path collects behind its last to-many relation. -/
def valuesBehind (reg : Registry) (st : Store) (m : Model) (named : Named) (pk : Value)
    (before behind : List String) (filter : Option Condition) : Outcome (List Value) := do
  let path := ".".intercalate before
  let resolved ← reg.resolvePath m path
  match ← reg.targetModel resolved with
  | none => throw (.notARelation path m.name)
  | some target =>
    let reached ← pathValues reg st m pk path
    let collected ← (reached.filter fun v => !v.isNull).mapM fun related => do
      if ← relatedPasses reg st m named pk path target related filter then
        readBehind reg st target behind related
      else return []
    return collected.flatten

/-- The values an aggregate collects from one row. Over a path with to-many relations they are those of
the related rows that pass the filter; otherwise the one value of the expression, if the row passes. -/
def aggregated (reg : Registry) (st : Store) (m : Model) (named : Named) (e : Expression)
    (value : RowValue) (filter : Option Condition) (pk : Value) : Outcome (List Value) := do
  let split ← match e with
    | .column path =>
      if (named path).isSome then pure none
      else do
        let resolved ← reg.resolvePath m path
        pure (splitAtMany resolved.steps (dottedNames path))
    | _ => pure none
  match split with
  | some (before, behind) => valuesBehind reg st m named pk before behind filter
  | none =>
    match filter with
    | some q =>
      if ← q.holds (columnValues reg st m named pk) then return [← value pk] else return []
    | none => return [← value pk]

/-- Whether a row passes the condition of a queryset, if it has one. -/
def passes (reg : Registry) (st : Store) (m : Model) (named : Named) (condition : Option Condition)
    (pk : Value) : Outcome Bool :=
  match condition with
  | none => .ok true
  | some q => q.holds (columnValues reg st m named pk)

/-- Whether a path leads from a row to a given value; none leads to null. -/
def reaches (reg : Registry) (st : Store) (m : Model) (named : Named) (link : Option (String × Value))
    (pk : Value) : Outcome Bool :=
  match link with
  | none => .ok true
  | some (path, outer) =>
    if outer.isNull then .ok false
    else do return (← columnValues reg st m named pk path).any fun v => v.numEq outer

/-- The keys sorted by the values that terms have on their rows. -/
def sortKeys (terms : List SortTerm) (pks : List Value) : Outcome (List Value) :=
  if terms.isEmpty then .ok pks
  else do
    let keyed ← pks.mapM fun pk => do return (← terms.mapM fun t => t.value pk, pk)
    return (stableSort (fun a b => SortTerm.orderAll terms a.1 b.1 == .lt) keyed).map Prod.snd

/-- The window of a list. -/
def window (offset : Nat) (limit : Option Nat) (pks : List Value) : List Value :=
  match limit with
  | some n => (pks.drop offset).take n
  | none => pks.drop offset

/-- The keys of a model's rows that pass a condition and reach the linked value, in the order of the
terms, cut to a window. -/
def selectKeys (reg : Registry) (st : Store) (m : Model) (named : Named) (condition : Option Condition)
    (terms : List SortTerm) (offset : Nat) (limit : Option Nat) (link : Option (String × Value)) :
    Outcome (List Value) := do
  let selected ← (st.keys m).filterM fun pk => do
    if ← passes reg st m named condition pk then reaches reg st m named link pk else return false
  return window offset limit (← sortKeys terms selected)

end Store

namespace Expression

mutual

/-- The value of an expression on a row of a model. -/
def eval (reg : Registry) (st : Store) (m : Model) (e : Expression) : OpenValue :=
  match e with
  | .column path => fun named pk => Store.columnValue reg st m named pk path
  | .literal v => fun _ _ => .ok v
  | .call name args => fun named pk => do Scalar.call name (← evalArgs reg st m args named pk)
  | .aggregate func e distinct filter => fun named pk => do
    let values ← Store.aggregated reg st m named e (eval reg st m e named) filter pk
    Scalar.aggregate func values distinct
  | .choose whens otherwise => fun named pk => do
    match ← evalWhens reg st m whens named pk with
    | some v => return v
    | none => evalOtherwise reg st m otherwise named pk
  | .subquery rows link outer value => fun named pk => do
    let here ← Store.columnValue reg st m named pk outer
    let selected ← keysOf reg st rows (some (link, here))
    evalOver reg st rows.model value (annotationsOf reg st rows) selected
  | .arith op l r => fun named pk => do
    let left ← eval reg st m l named pk
    Scalar.arith op left (← eval reg st m r named pk)
termination_by structural e

/-- The values of arguments, in order. -/
def evalArgs (reg : Registry) (st : Store) (m : Model) (args : List Expression) :
    Named → Value → Outcome (List Value) :=
  match args with
  | [] => fun _ _ => .ok []
  | e :: rest => fun named pk => do
    let v ← eval reg st m e named pk
    return v :: (← evalArgs reg st m rest named pk)
termination_by structural args

/-- The value of the first branch whose condition holds. -/
def evalWhens (reg : Registry) (st : Store) (m : Model) (whens : List (Condition × Expression)) :
    Named → Value → Outcome (Option Value) :=
  match whens with
  | [] => fun _ _ => .ok none
  | (q, e) :: rest => fun named pk => do
    if ← q.holds (Store.columnValues reg st m named pk) then return some (← eval reg st m e named pk)
    else evalWhens reg st m rest named pk
termination_by structural whens

/-- The value of the last branch, null if there is none. -/
def evalOtherwise (reg : Registry) (st : Store) (m : Model) (otherwise : Option Expression) : OpenValue :=
  match otherwise with
  | none => fun _ _ => .ok .null
  | some e => eval reg st m e
termination_by structural otherwise

/-- The value of an expression over a set of rows: aggregates collect from all of them, functions and
arithmetic combine such values, and anything else is read from the first row. -/
def evalOver (reg : Registry) (st : Store) (m : Model) (e : Expression) :
    Named → List Value → Outcome Value :=
  match e with
  | .column path => fun named pks =>
    match pks with
    | [] => .ok .null
    | pk :: _ => Store.columnValue reg st m named pk path
  | .literal v => fun _ _ => .ok v
  | .call name args => fun named pks => do Scalar.call name (← evalArgsOver reg st m args named pks)
  | .aggregate func e distinct filter => fun named pks => do
    let values ← pks.mapM (Store.aggregated reg st m named e (eval reg st m e named) filter)
    Scalar.aggregate func values.flatten distinct
  | .choose whens otherwise => fun named pks =>
    match pks with
    | [] => .ok .null
    | pk :: _ => do
      match ← evalWhens reg st m whens named pk with
      | some v => return v
      | none => evalOtherwise reg st m otherwise named pk
  | .subquery rows link outer value => fun named pks =>
    match pks with
    | [] => .ok .null
    | pk :: _ => do
      let here ← Store.columnValue reg st m named pk outer
      let selected ← keysOf reg st rows (some (link, here))
      evalOver reg st rows.model value (annotationsOf reg st rows) selected
  | .arith op l r => fun named pks => do
    let left ← evalOver reg st m l named pks
    Scalar.arith op left (← evalOver reg st m r named pks)
termination_by structural e

/-- The values of arguments over a set of rows, in order. -/
def evalArgsOver (reg : Registry) (st : Store) (m : Model) (args : List Expression) :
    Named → List Value → Outcome (List Value) :=
  match args with
  | [] => fun _ _ => .ok []
  | e :: rest => fun named pks => do
    let v ← evalOver reg st m e named pks
    return v :: (← evalArgsOver reg st m rest named pks)
termination_by structural args

/-- What annotations mean once the other names are given a meaning. -/
def meanings (reg : Registry) (st : Store) (m : Model) (annotations : List (String × Expression)) :
    List (String × OpenValue) :=
  match annotations with
  | [] => []
  | (name, e) :: rest => (name, eval reg st m e) :: meanings reg st m rest
termination_by structural annotations

/-- The terms of an order by what their expressions mean. -/
def sortTerms (reg : Registry) (st : Store) (m : Model) (named : Named) (terms : List OrderTerm) :
    List SortTerm :=
  match terms with
  | [] => []
  | ⟨e, descending, nulls⟩ :: rest =>
    ⟨eval reg st m e named, descending, nulls⟩ :: sortTerms reg st m named rest
termination_by structural terms

/-- What the annotations of a queryset mean. -/
def annotationsOf (reg : Registry) (st : Store) (rows : Queryset) : Named :=
  match rows with
  | ⟨m, _, annotations, _, _, _, _, _⟩ => Named.ofMeanings (meanings reg st m annotations)
termination_by structural rows

/-- The keys of the rows that a queryset selects, those alone that reach a linked value if one is
given. -/
def keysOf (reg : Registry) (st : Store) (rows : Queryset) (link : Option (String × Value)) :
    Outcome (List Value) :=
  match rows with
  | ⟨m, condition, annotations, ordering, offset, limit, nothing, _⟩ =>
    if nothing || limit == some 0 then .ok []
    else
      let named := Named.ofMeanings (meanings reg st m annotations)
      Store.selectKeys reg st m named condition (sortTerms reg st m named ordering) offset limit link
termination_by structural rows

end

end Expression

namespace Store

/-- The keys of the rows that a queryset selects. -/
def select (reg : Registry) (st : Store) (qs : Queryset) : Outcome (List Value) :=
  Expression.keysOf reg st qs none

end Store

end RecordMapper
