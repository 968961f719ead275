import RecordMapper.Decimal.Word
import RecordMapper.Context
import RecordMapper.Form.Order
import RecordMapper.Read.Detach
import RecordMapper.Text.Blank

/-!
Query forms: the inputs by which a request filters, orders, pages and scopes the rows of a model.

A form is checked against its model when it is built. Binding it to an input record checks the input;
the bound form then narrows querysets. Absent and null inputs count as left out.
-/

namespace RecordMapper

/-- A form. Every input but the filters and orders is optional and given by its name. -/
structure QueryForm where
  model : Model
  filters : List FormFilter
  orders : List FormOrder
  page : Option String := none
  limit : Option String := none
  offset : Option String := none
  scope : Option String := none
  exclude : Option String := none
  /-- No limit is larger. -/
  maxLimit : Option Nat := none
  /-- The mark of descending keys. -/
  mark : String := "-"
  deriving Inhabited

/-- Two inputs of a form with one name. -/
def Failure.inputDeclaredTwice (name : String) : Failure :=
  .classification ("query input '" ++ name ++ "' is declared twice")

namespace QueryForm

/-- The names of all inputs. -/
def inputNames (q : QueryForm) : List String :=
  q.filters.map (·.name) ++ q.orders.map (·.name)
    ++ [q.page, q.limit, q.offset, q.scope, q.exclude].filterMap id

/-- The first name that a list repeats. -/
def firstRepeated? : List String → List String → Option String
  | _, [] => none
  | seen, name :: rest => if seen.contains name then some name else firstRepeated? (name :: seen) rest

/-- Checks a form against its model: no input twice, and every target known. -/
def check (reg : Registry) (q : QueryForm) : Outcome Unit := do
  match firstRepeated? [] q.inputNames with
  | some name => throw (.inputDeclaredTwice name)
  | none =>
    q.filters.forM (·.check reg q.model)
    q.orders.forM (·.check reg q.model)

/-- The value of an input that is not left out. -/
def given? (input : Record) (name : String) : Option Value :=
  (input.get? name).filter fun v => !v.isNull

/-- The number that an input gives, if it is given. -/
def countOf (input : Record) (name : Option String) : Outcome (Option Nat) :=
  match name with
  | none => .ok none
  | some name =>
    match given? input name with
    | none => .ok none
    | some v =>
      let number := match v with
        | .int n => some n.toInt
        | .text s => (decimalInt? (trimBlank s.toList)).filter fun n => decide (FitsWord n)
        | _ => none
      match number with
      | some n =>
        if 0 ≤ n then .ok (some n.toNat)
        else .error (.faultyInput name "must not be negative" "min_value")
      | none => .error (.faultyInput name ("expected an integer, got " ++ v.render) "invalid")

/-- The keys that a text names, separated by commas. -/
def keysOfText (s : String) : List String :=
  ((s.splitOn ",").map fun k => String.ofList (trimBlank k.toList)).filter (· != "")

/-- The keys that an input names: a text or a list of texts. -/
def keysOf (v : Value) : List String :=
  (v.items.filter fun v => !v.isNull).flatMap fun v =>
    match v with
    | .text s => keysOfText s
    | v => keysOfText v.render

end QueryForm

/-- The rows of a page: how many are passed over, and how many follow at most. -/
structure Window where
  first : Nat
  limit : Option Nat
  deriving DecidableEq, Repr, Inhabited

/-- A form with checked input. -/
structure BoundForm where
  form : QueryForm
  input : Record
  window : Option Window
  deriving Inhabited

namespace QueryForm

/-- The window of a page, a limit and an offset. A page needs a limit; an offset beyond the page's
start wins. -/
def windowOf (q : QueryForm) (page limit offset : Option Nat) : Outcome (Option Window) :=
  match page, limit, offset with
  | none, none, none => .ok none
  | some _, none, _ =>
    .error (.faultyInput (q.page.getD "page") "a page needs a limit" "page_without_limit")
  | page, limit, offset =>
    let start := match page, limit with
      | some page, some limit => min ((page - 1) * limit) maxCount
      | _, _ => 0
    .ok (some ⟨max (offset.getD 0) start, limit⟩)

/-- Checks that no required filter is left out. -/
def checkRequired (q : QueryForm) (input : Record) : Outcome Unit :=
  q.filters.forM fun f =>
    if f.required && (given? input f.name).isNone then
      .error (.faultyInput f.name "this filter is required" "required")
    else .ok ()

/-- The form with an input. -/
def bind (q : QueryForm) (input : Record) : Outcome BoundForm := do
  q.checkRequired input
  let page ← countOf input q.page
  let limit ← countOf input q.limit
  let offset ← countOf input q.offset
  if page == some 0 then
    throw (.faultyInput (q.page.getD "page") "pages start at 1" "min_value")
  let limit := limit.map fun n =>
    match q.maxLimit with
    | some most => min n most
    | none => n
  return ⟨q, input, ← q.windowOf page limit offset⟩

end QueryForm

namespace BoundForm

/-- The rows of a queryset that pass the filters, in the order asked for. -/
def filtered (reg : Registry) (b : BoundForm) (base : Queryset) : Outcome Queryset := do
  let qs ← b.form.filters.foldlM (fun qs f =>
    match QueryForm.given? b.input f.name with
    | some v => f.apply qs v
    | none => .ok qs) base
  let (qs, terms) ← b.form.orders.foldlM (fun acc o =>
    let keys := match QueryForm.given? b.input o.name with
      | some v => QueryForm.keysOf v
      | none => o.defaults
    keys.foldlM (o.addKey reg b.form.model b.form.mark) acc) (qs, [])
  return if terms.isEmpty then qs else qs.orderBy terms

/-- The page of the filtered rows. Its window must not cut annotated aggregates, which are detached. -/
def paged (reg : Registry) (b : BoundForm) (base : Queryset) : Outcome Queryset := do
  let qs ← b.filtered reg base
  match b.window with
  | none => return qs
  | some w =>
    let qs ← qs.annotations.foldlM (fun (acc : Queryset) (name, e) => do
      return acc.annotate name (← reg.detach qs.model e)) qs
    return qs.slice w.first (w.limit.map fun n => min (w.first + n) maxCount)

/-- The queryset that counts all filtered rows. -/
def counting (reg : Registry) (b : BoundForm) (base : Queryset) : Outcome Queryset := do
  return (← b.filtered reg base).unsliced.unordered

/-- The names that an input gives, if it gives any. -/
def namesOf (b : BoundForm) (input : Option String) : Option (List String) :=
  ((input.bind (QueryForm.given? b.input)).map QueryForm.keysOf).filter fun names => !names.isEmpty

/-- The context with the fields asked for: those to include, or else those to exclude. -/
def context (b : BoundForm) : Context :=
  match b.namesOf b.form.scope with
  | some names => { includes := some (Scope.ofPaths names) }
  | none =>
    match b.namesOf b.form.exclude with
    | some names => { excludes := some (Scope.ofPaths names) }
    | none => {}

end BoundForm

end RecordMapper
