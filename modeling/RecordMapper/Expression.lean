import RecordMapper.Condition
import RecordMapper.Model

/-!
Expressions over rows, and querysets: descriptions of the rows of a model.

Both are data. An expression may contain a queryset (a subquery) and a queryset contains expressions
(annotations and ordering terms), so they are declared together.
-/

namespace RecordMapper

/-- The ways to make one value of many. -/
inductive Aggregate
  | count
  | sum
  | avg
  | min
  | max
  deriving DecidableEq, Repr, Inhabited

/-- What an aggregate of no values is. -/
def Aggregate.ofNone : Aggregate → Value
  | .count => .int 0
  | _ => .null

/-- The word for an aggregate. -/
def Aggregate.name : Aggregate → String
  | .count => "count"
  | .sum => "sum"
  | .avg => "avg"
  | .min => "min"
  | .max => "max"

/-- The aggregate of a word. -/
def Aggregate.ofName? (word : String) : Option Aggregate :=
  [Aggregate.count, .sum, .avg, .min, .max].find? fun a => a.name == word

/-- The four operations of arithmetic. -/
inductive Arithmetic
  | add
  | sub
  | mul
  | div
  deriving DecidableEq, Repr, Inhabited

/-- The sign of an operation. -/
def Arithmetic.symbol : Arithmetic → String
  | .add => "+"
  | .sub => "-"
  | .mul => "*"
  | .div => "/"

/-- The operation of a sign. -/
def Arithmetic.ofSymbol? (sign : String) : Option Arithmetic :=
  [Arithmetic.add, .sub, .mul, .div].find? fun op => op.symbol == sign

/-- Where null stands in an order. -/
inductive NullPlace
  /-- Null is the least value. -/
  | least
  | first
  | last
  deriving DecidableEq, Repr, Inhabited

/-- The word for a place. -/
def NullPlace.name : NullPlace → String
  | .least => "default"
  | .first => "first"
  | .last => "last"

/-- The place of a word. -/
def NullPlace.ofName? (word : String) : Option NullPlace :=
  [NullPlace.least, .first, .last].find? fun p => p.name == word

mutual

/-- An expression gives a value for every row of a model. -/
inductive Expression
  /-- The value at the end of a path, or that of an annotation of this name. -/
  | column (path : String)
  | literal (v : Value)
  /-- A function by name; case does not matter. -/
  | call (name : String) (args : List Expression)
  /-- One value of the values an expression takes over the related rows that pass a filter. The filter
  is written from the row itself. -/
  | aggregate (func : Aggregate) (of : Expression) (distinct : Bool) (filter : Option Condition)
  /-- The expression of the first condition that holds. -/
  | choose (whens : List (Condition × Expression)) (otherwise : Option Expression)
  /-- An expression over those rows whose path `link` leads to the value of `outer` here. -/
  | subquery (rows : Queryset) (link outer : String) (value : Expression)
  | arith (op : Arithmetic) (left right : Expression)

/-- One term of an order. -/
structure OrderTerm where
  expr : Expression
  descending : Bool
  nulls : NullPlace

/-- Rows of a model: those that pass the condition, in an order, and a window of them. Annotations are
named expressions that conditions and terms may use like columns. -/
structure Queryset where
  model : Model
  condition : Option Condition
  annotations : List (String × Expression)
  ordering : List OrderTerm
  offset : Nat
  limit : Option Nat
  /-- Nothing is selected, whatever else is said. -/
  none : Bool
  /-- The database to ask, if it is fixed. -/
  database : Option String

end

instance : Inhabited Expression := ⟨.literal .null⟩

instance : Inhabited OrderTerm := ⟨⟨default, false, .least⟩⟩

namespace Expression

/-- An aggregate of all values of an expression. -/
def aggregateOf (func : Aggregate) (e : Expression) : Expression := .aggregate func e false Option.none

mutual

/-- Whether an aggregate occurs outside subqueries and conditions. -/
def hasAggregate : Expression → Bool
  | .column _ => false
  | .literal _ => false
  | .call _ args => anyAggregate args
  | .aggregate .. => true
  | .choose whens otherwise => whenAggregate whens || otherwiseAggregate otherwise
  | .subquery .. => false
  | .arith _ l r => hasAggregate l || hasAggregate r

/-- Whether an aggregate occurs in one of several expressions. -/
def anyAggregate : List Expression → Bool
  | [] => false
  | e :: rest => hasAggregate e || anyAggregate rest

/-- Whether an aggregate occurs in one of several branches. -/
def whenAggregate : List (Condition × Expression) → Bool
  | [] => false
  | (_, e) :: rest => hasAggregate e || whenAggregate rest

/-- Whether an aggregate occurs in the last branch. -/
def otherwiseAggregate : Option Expression → Bool
  | .none => false
  | some e => hasAggregate e

end

/-- The paths of a condition that may be absent. -/
def filterPaths : Option Condition → List String
  | .none => []
  | some q => q.paths

mutual

/-- The paths that occur outside subqueries, in order; of a subquery only its outer path. -/
def columns : Expression → List String
  | .column path => [path]
  | .literal _ => []
  | .call _ args => argColumns args
  | .aggregate _ e _ filter => columns e ++ filterPaths filter
  | .choose whens otherwise => whenColumns whens ++ otherwiseColumns otherwise
  | .subquery _ _ outer _ => [outer]
  | .arith _ l r => columns l ++ columns r

/-- The paths of several expressions. -/
def argColumns : List Expression → List String
  | [] => []
  | e :: rest => columns e ++ argColumns rest

/-- The paths of several branches, those of their conditions included. -/
def whenColumns : List (Condition × Expression) → List String
  | [] => []
  | (q, e) :: rest => q.paths ++ columns e ++ whenColumns rest

/-- The paths of the last branch. -/
def otherwiseColumns : Option Expression → List String
  | .none => []
  | some e => columns e

end

end Expression

namespace OrderTerm

def asc (e : Expression) : OrderTerm := ⟨e, false, .least⟩

def desc (e : Expression) : OrderTerm := ⟨e, true, .least⟩

/-- An order by a path; a key that starts with the mark, if there is one, is descending. -/
def parse (key mark : String) : OrderTerm :=
  if mark != "" && mark.toList.isPrefixOf key.toList then
    desc (.column (String.ofList (key.toList.drop mark.length)))
  else asc (.column key)

end OrderTerm

end RecordMapper
