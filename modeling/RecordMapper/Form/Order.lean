import RecordMapper.Form.Filter

/-!
Orders of a query form: inputs that name keys to sort by.
-/

namespace RecordMapper

/-- A fault of one input of a form. -/
def Failure.faultyInput (name message code : String) : Failure :=
  .validation (Fault.forField name message code)

/-- An order. Declared keys stand for paths and expressions; where none is declared and nothing resolves
keys, any path with one value is a key. -/
structure FormOrder where
  name : String
  keys : List (String × FormTarget) := []
  /-- Gives the expressions of further keys. -/
  resolver : Option (String → Outcome (Option Expression)) := none
  nulls : List (String × NullPlace) := []
  /-- The keys where the input is left out. -/
  defaults : List String := []
  /-- Unknown keys are left out. -/
  ignoresUnknown : Bool := false
  /-- Keys that cannot be resolved are left out. -/
  silent : Bool := false
  /-- The mark of a descending key, if it is not that of the form. -/
  mark : Option String := none
  deriving Inhabited

namespace FormOrder

/-- The order with paths as keys of their own names. -/
def withPaths (o : FormOrder) (paths : List String) : FormOrder :=
  { o with keys := paths.foldl (fun keys path => insertEntry keys path (.path path)) o.keys }

/-- The order with a key. -/
def withKey (o : FormOrder) (key : String) (target : FormTarget) : FormOrder :=
  { o with keys := insertEntry o.keys key target }

/-- The order with a place for null under a key. -/
def withNulls (o : FormOrder) (key : String) (place : NullPlace) : FormOrder :=
  { o with nulls := insertEntry o.nulls key place }

/-- Checks that the declared keys mean something on a model. -/
def check (reg : Registry) (m : Model) (o : FormOrder) : Outcome Unit :=
  o.keys.forM fun e => e.2.check reg m

/-- The name under which the expression of a key is annotated; dots become double underscores. -/
def label (key : String) : String := "__order_" ++ "__".intercalate (dottedNames key)

/-- A key without the mark of descending keys, and whether it had one. -/
def unmarked (mark raw : String) : String × Bool :=
  if mark != "" && mark.toList.isPrefixOf raw.toList then
    (String.ofList (raw.toList.drop mark.length), true)
  else (raw, false)

/-- What a known key sorts by. -/
inductive Meaning
  | path (path : String)
  /-- An expression that has to be annotated. -/
  | expression (e : Expression)
  | unknown
  /-- The key is left out without further ado. -/
  | passedOver

/-- The meaning of a key. -/
def meaning (reg : Registry) (m : Model) (o : FormOrder) (key : String) : Outcome Meaning :=
  match o.keys.lookup key with
  | some (.path path) => .ok (.path path)
  | some (.expression e) => .ok (.expression e)
  | none =>
    match o.resolver with
    | some resolve =>
      match resolve key with
      | .ok (some e) => .ok (.expression e)
      | .ok none => .ok .unknown
      | .error e => if o.silent then .ok .passedOver else .error e
    | none =>
      if o.keys.isEmpty then
        match reg.resolvePath m key with
        | .ok p => .ok (if p.isSingle then .path key else .unknown)
        | .error _ => .ok .unknown
      else .ok .unknown

/-- The term of an expression under a key. -/
def term (o : FormOrder) (key : String) (descending : Bool) (e : Expression) : OrderTerm :=
  ⟨e, descending, (o.nulls.lookup key).getD .least⟩

/-- A queryset and the terms of its order so far, with the term of one more key. -/
def addKey (reg : Registry) (m : Model) (o : FormOrder) (formMark : String)
    (acc : Queryset × List OrderTerm) (raw : String) : Outcome (Queryset × List OrderTerm) := do
  let (key, descending) := unmarked (o.mark.getD formMark) raw
  match ← o.meaning reg m key with
  | .path path => return (acc.1, acc.2 ++ [o.term key descending (.column path)])
  | .expression e =>
    return (acc.1.annotate (label key) e, acc.2 ++ [o.term key descending (.column (label key))])
  | .passedOver => return acc
  | .unknown =>
    if o.ignoresUnknown then return acc
    else throw (.faultyInput o.name ("unknown order key '" ++ key ++ "'") "invalid_order")

end FormOrder

end RecordMapper
