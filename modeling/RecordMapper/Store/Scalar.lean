import RecordMapper.Decimal.Word
import RecordMapper.Expression
import RecordMapper.Registry.Output

/-!
Functions of values: text functions, arithmetic and aggregates.

Arithmetic on integers is exact as long as the result has 64 bits and continues with floats where it has
not; a sum of integers fails instead. Null makes arithmetic null and is no value to an aggregate.
-/

namespace RecordMapper

namespace Failure

def sumOverflow : Failure := .database "integer overflow in SUM"

def notSummable (v : Value) : Failure := .database ("cannot sum non-numeric value " ++ v.render)

def absOfNonNumber (v : Value) : Failure := .database ("ABS() of non-numeric value " ++ v.render)

def operandTypes (l r : Value) : Failure :=
  .database ("unsupported operand types: " ++ l.render ++ " and " ++ r.render)

def divisionByZero : Failure := .database "division by zero"

end Failure

/-- A count as a value. -/
def Value.count (n : Nat) : Value := .int (Int64.ofInt (min (Int.ofNat n) 9223372036854775807))

namespace Scalar

/-- The magnitude of an integer; the least one has none and stays. -/
def absInt (n : Int64) : Int64 := if n.toInt < 0 then -n else n

/-- The value of a function. -/
def call (name : String) (args : List Value) : Outcome Value :=
  let first := args.headD .null
  match upperText name with
  | "LOWER" => .ok (if first.isNull then .null else .text (lowerText first.render))
  | "UPPER" => .ok (if first.isNull then .null else .text (upperText first.render))
  | "LENGTH" => .ok (if first.isNull then .null else Value.count first.render.length)
  | "COALESCE" => .ok ((args.find? fun v => !v.isNull).getD .null)
  | "CONCAT" => .ok (.text (String.join ((args.filter fun v => !v.isNull).map Value.render)))
  | "ABS" =>
    match first with
    | .int n => .ok (.int (absInt n))
    | .float x => .ok (.float x.abs)
    | .null => .ok .null
    | other => .error (.absOfNonNumber other)
  | other => .error (.unknownFunction other)

/-- The exact result of an operation on integers, if it is one. -/
def unbounded? (op : Arithmetic) (a b : Int) : Option Int :=
  match op with
  | .add => some (a + b)
  | .sub => some (a - b)
  | .mul => some (a * b)
  | .div => none

/-- The result of an operation on floats. -/
def onFloats (op : Arithmetic) (a b : Binary64) : Outcome Value :=
  match op with
  | .add => .ok (.float (a.add b))
  | .sub => .ok (.float (a.sub b))
  | .mul => .ok (.float (a.mul b))
  | .div => if b.isZero then .error .divisionByZero else .ok (.float (a.div b))

/-- The result of an operation on two integers, if it is exact and has 64 bits. -/
def onIntegers? (op : Arithmetic) : Value → Value → Option Value
  | .int a, .int b => ((unbounded? op a.toInt b.toInt).bind int64?).map .int
  | _, _ => none

/-- The result of an operation. -/
def arith (op : Arithmetic) (l r : Value) : Outcome Value :=
  if l.isNull || r.isNull then .ok .null
  else
    match onIntegers? op l r with
    | some v => .ok v
    | none =>
      match l.asFloat?, r.asFloat? with
      | some a, some b => onFloats op a b
      | _, _ => .error (.operandTypes l r)

/-- The sum of integers, exact at every step. -/
def sumInts (start : Int64) : List Value → Outcome Int64
  | [] => .ok start
  | v :: rest =>
    match int64? (start.toInt + (v.asInt?.getD 0).toInt) with
    | some total => sumInts total rest
    | none => .error .sumOverflow

/-- The sum of numbers as floats. -/
def sumFloats (start : Binary64) : List Value → Outcome Binary64
  | [] => .ok start
  | v :: rest =>
    match v.asFloat? with
    | some x => sumFloats (start.add x) rest
    | none => .error (.notSummable v)

/-- The sum of values: an integer if all of them are. -/
def sum (values : List Value) : Outcome Value :=
  if values.all fun v => v.asInt?.isSome then (sumInts 0 values).map .int
  else (sumFloats .zero values).map .float

/-- The value that no later one is ordered before in the given way; the earliest of equals. -/
def extreme (wanted : Ordering) : List Value → Value
  | [] => .null
  | v :: rest => rest.foldl (fun best w => if w.compare? best == some wanted then w else best) v

/-- The value an aggregate makes of values none of which is null. -/
def combine (func : Aggregate) (given : List Value) : Outcome Value :=
  if given.isEmpty then .ok func.ofNone
  else
    match func with
    | .count => .ok (Value.count given.length)
    | .sum => sum given
    | .avg => do
      let total := ((← sum given).asFloat?).getD .zero
      return .float (total.div (Binary64.ofNat given.length))
    | .min => .ok (extreme .lt given)
    | .max => .ok (extreme .gt given)

/-- The value an aggregate makes of values. -/
def aggregate (func : Aggregate) (values : List Value) (distinct : Bool) : Outcome Value :=
  let given := values.filter fun v => !v.isNull
  combine func (if distinct then distinctOf given else given)

end Scalar

end RecordMapper
