/-!
Binary floating-point numbers of 64 bits, kept as the word that stores them.

Every operation is exact integer arithmetic followed by one rounding: a finite number is a signed
multiple of a power of two, and `Binary64.round` returns the nearest such number to a quotient of
natural numbers, ties to the even significand. Order, sum, product and quotient follow from these two.
-/

namespace RecordMapper

/-- A floating-point number: one sign bit, eleven exponent bits, fifty-two fraction bits. Two numbers
are the same when their words are, so zero has two forms and not-a-number has many. -/
structure Binary64 where
  bits : UInt64
  deriving DecidableEq, Hashable, Repr, Inhabited

namespace Binary64

/-- The bit above the fraction, which a significand of full length has. -/
def leadingBit : Nat := 0x10000000000000

/-- The sign bit of a word. -/
def signBit : Nat := 0x8000000000000000

/-- The fraction bit that a quiet not-a-number has. -/
def quietBit : Nat := 0x8000000000000

/-- Whether the sign bit is set; it may be set on a zero and on a value that is not a number. -/
def negative (x : Binary64) : Bool := x.bits.toNat ≥ signBit

/-- The word without its sign bit. Magnitudes of numbers are ordered as these are. -/
def magnitude (x : Binary64) : Nat := x.bits.toNat % signBit

/-- The magnitude of infinity: all exponent bits and no fraction bit. -/
def infiniteMagnitude : Nat := 0x7ff * leadingBit

def isNaN (x : Binary64) : Bool := x.magnitude > infiniteMagnitude

def isInfinite (x : Binary64) : Bool := x.magnitude == infiniteMagnitude

def isFinite (x : Binary64) : Bool := x.magnitude < infiniteMagnitude

def isZero (x : Binary64) : Bool := x.magnitude == 0

/-- The number with the given sign and magnitude. -/
def ofMagnitude (negative : Bool) (magnitude : Nat) : Binary64 :=
  ⟨UInt64.ofNat (magnitude + if negative then signBit else 0)⟩

def zero : Binary64 := ⟨0⟩

def infinity (negative : Bool) : Binary64 := ofMagnitude negative infiniteMagnitude

/-- The value produced where no number is the answer, such as zero divided by zero. -/
def undefined : Binary64 := ofMagnitude true (infiniteMagnitude + quietBit)

/-- The not-a-number that is written `nan`. -/
def quietNaN : Binary64 := ofMagnitude false (infiniteMagnitude + quietBit)

/-- A not-a-number operand as a result: its quiet bit is set and the rest is kept. -/
def quieted (x : Binary64) : Binary64 :=
  ⟨x.bits ||| UInt64.ofNat quietBit⟩

/-- The integer significand `m` of a finite number `m * 2 ^ exponent`. -/
def significand (x : Binary64) : Nat :=
  let fraction := x.magnitude % leadingBit
  if x.magnitude < leadingBit then fraction else fraction + leadingBit

/-- The exponent `q` of a finite number `significand * 2 ^ q`; it is at least `-1074`. -/
def exponent (x : Binary64) : Int :=
  let biased := x.magnitude / leadingBit
  if biased = 0 then -1074 else Int.ofNat biased - 1075

/-- A finite number as a quotient of natural numbers, without its sign. -/
def ratio (x : Binary64) : Nat × Nat :=
  if 0 ≤ x.exponent then (x.significand <<< x.exponent.toNat, 1)
  else (x.significand, 1 <<< (-x.exponent).toNat)

/-- The quotient rounded to the nearest natural number, a tie going to the even one. -/
def roundQuotient (num den : Nat) : Nat :=
  let q := num / den
  let r := num % den
  if 2 * r > den || (2 * r == den && q % 2 == 1) then q + 1 else q

/-- The quotient `num / den` divided by `2 ^ q`, as a numerator and a denominator. -/
def scaled (num den : Nat) (q : Int) : Nat × Nat :=
  if 0 ≤ q then (num, den <<< q.toNat) else (num <<< (-q).toNat, den)

/-- The number nearest to `num / den`, a tie going to the even significand. A quotient beyond the
largest finite number is infinite; one below half of the least positive number is zero. -/
def round (negative : Bool) (num den : Nat) : Binary64 :=
  if num = 0 || den = 0 then ofMagnitude negative 0
  else
    let guess : Int := Int.ofNat num.log2 - Int.ofNat den.log2 - 52
    let (n, d) := scaled num den guess
    let normal := if n / d < leadingBit then guess - 1 else guess
    let q := max normal (-1074)
    let (n, d) := scaled num den q
    let word := roundQuotient n d + (q + 1074).toNat * leadingBit
    ofMagnitude negative (min word infiniteMagnitude)

/-- The number nearest to an integer. -/
def ofInt (n : Int) : Binary64 := round (n < 0) n.natAbs 1

/-- The number nearest to a natural number. -/
def ofNat (n : Nat) : Binary64 := round false n 1

def abs (x : Binary64) : Binary64 := ofMagnitude false x.magnitude

def neg (x : Binary64) : Binary64 := ofMagnitude (!x.negative) x.magnitude

/-- Where a number stands among the others: both zeros at `0`, infinities at the ends. -/
def position (x : Binary64) : Int :=
  if x.negative then -Int.ofNat x.magnitude else Int.ofNat x.magnitude

/-- The order of two numbers; not-a-number is ordered with nothing, itself included. -/
def compare? (x y : Binary64) : Option Ordering :=
  if x.isNaN || y.isNaN then none else some (compare x.position y.position)

/-- Numeric equality: both zeros are equal, not-a-number equals nothing. -/
def numEq (x y : Binary64) : Bool := x.compare? y == some .eq

/-- The operand that decides a result because it is not a number. -/
def nan? (x y : Binary64) : Option Binary64 :=
  if x.isNaN then some x.quieted else if y.isNaN then some y.quieted else none

def add (x y : Binary64) : Binary64 :=
  match nan? x y with
  | some r => r
  | none =>
    if x.isInfinite then (if y.isInfinite && x.negative != y.negative then undefined else x)
    else if y.isInfinite then y
    else
      let (xn, xd) := x.ratio
      let (yn, yd) := y.ratio
      let signed (negative : Bool) (n : Nat) : Int := if negative then -Int.ofNat n else Int.ofNat n
      let sum := signed x.negative (xn * yd) + signed y.negative (yn * xd)
      if sum = 0 then ofMagnitude (x.negative && y.negative) 0
      else round (sum < 0) sum.natAbs (xd * yd)

def sub (x y : Binary64) : Binary64 :=
  match nan? x y with
  | some r => r
  | none => add x y.neg

def mul (x y : Binary64) : Binary64 :=
  match nan? x y with
  | some r => r
  | none =>
    let negative := x.negative != y.negative
    if x.isInfinite || y.isInfinite then
      if x.isZero || y.isZero then undefined else infinity negative
    else
      let (xn, xd) := x.ratio
      let (yn, yd) := y.ratio
      round negative (xn * yn) (xd * yd)

def div (x y : Binary64) : Binary64 :=
  match nan? x y with
  | some r => r
  | none =>
    let negative := x.negative != y.negative
    if x.isInfinite then (if y.isInfinite then undefined else infinity negative)
    else if y.isInfinite then ofMagnitude negative 0
    else if y.isZero then (if x.isZero then undefined else infinity negative)
    else
      let (xn, xd) := x.ratio
      let (yn, yd) := y.ratio
      round negative (xn * yd) (xd * yn)

end Binary64

end RecordMapper
