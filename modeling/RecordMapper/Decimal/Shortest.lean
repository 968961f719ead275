import RecordMapper.Decimal.Binary64

/-!
The shortest decimal that reads back as a given floating-point number.

The numbers that round to `x` form an interval. On the grids of multiples of `10 ^ k`, taken from
coarse to fine, the first grid with a point in that interval gives the fewest digits; of two points on
it the nearer one is chosen, and `Tie` says which one stands for a number exactly between them.
-/

namespace RecordMapper

/-- A positive decimal: the number `digits * 10 ^ exponent`. -/
structure Decimal where
  digits : Nat
  exponent : Int
  deriving DecidableEq, Repr

/-- Which of two equally near decimals is taken. -/
inductive Tie
  | up
  | even
  deriving DecidableEq, Repr

namespace Decimal

/-- The digits as characters, without leading zeros. -/
def digitChars (d : Decimal) : List Char := (toString d.digits).toList

/-- The position of the first digit relative to the point: `1` for `3.5`, `0` for `0.35`. -/
def pointAt (d : Decimal) : Int := Int.ofNat d.digitChars.length + d.exponent

/-- An interval of rationals around a number, all four over one denominator. -/
structure Neighbourhood where
  low : Nat
  value : Nat
  high : Nat
  den : Nat
  closed : Bool

/-- The interval of reals that round to a finite positive number. It contains its ends when the
significand is even; below a power of two the next number is only half as far away. -/
def neighbourhood (x : Binary64) : Neighbourhood :=
  let m := x.significand
  let q := x.exponent
  let narrow := m = Binary64.leadingBit && q > -1074
  let low := if narrow then 4 * m - 1 else 4 * m - 2
  let unit := q - 2
  let scale := if 0 ≤ unit then 1 <<< unit.toNat else 1
  let den := if 0 ≤ unit then 1 else 1 <<< (-unit).toNat
  ⟨low * scale, 4 * m * scale, (4 * m + 2) * scale, den, m % 2 == 0⟩

/-- The point of the grid of multiples of `10 ^ k` that lies in the interval and is nearest to its
number. -/
def pointOn (n : Neighbourhood) (tie : Tie) (k : Int) : Option Nat :=
  let step := if 0 ≤ k then Nat.pow 10 k.toNat * n.den else n.den
  let scale := if 0 ≤ k then 1 else Nat.pow 10 (-k).toNat
  let low := n.low * scale
  let value := n.value * scale
  let high := n.high * scale
  let below := value / step
  let above := below + 1
  let inside (p : Nat) : Bool :=
    if n.closed then low ≤ p * step && p * step ≤ high else low < p * step && p * step < high
  let up := value - below * step
  let down := above * step - value
  match inside below && below != 0, inside above with
  | false, false => none
  | true, false => some below
  | false, true => some above
  | true, true =>
    if up < down then some below
    else if down < up then some above
    else match tie with
      | .up => some above
      | .even => some (if below % 2 == 0 then below else above)

/-- Searches the grids from `10 ^ k` downwards. -/
def search (n : Neighbourhood) (tie : Tie) : Nat → Int → Option Decimal
  | 0, _ => none
  | fuel + 1, k =>
    match pointOn n tie k with
    | some digits => some ⟨digits, k⟩
    | none => search n tie fuel (k - 1)

/-- The shortest decimal of a finite positive number. The search starts above the number's first
digit and seventeen digits always suffice, so twenty-four grids are enough. -/
def shortest (x : Binary64) (tie : Tie) : Decimal :=
  let top := Int.ofNat x.significand.log2 + 1 + x.exponent
  (search (neighbourhood x) tie 24 (Int.fdiv (top * 30103) 100000 + 1)).getD ⟨0, 0⟩

/-- Digits around a point and nothing else: no exponent, no point behind a whole number. -/
def positional (d : Decimal) : String :=
  let ds := d.digitChars
  let point := d.pointAt
  if 0 ≤ d.exponent then
    String.ofList (ds ++ List.replicate d.exponent.toNat '0')
  else if 0 < point then
    String.ofList (ds.take point.toNat ++ '.' :: ds.drop point.toNat)
  else
    String.ofList ('0' :: '.' :: List.replicate (-point).toNat '0' ++ ds)

/-- Digits that always show that the number is fractional: positional with at least one digit behind
the point from `1e-5` up to below `1e16`, and otherwise one digit, a point if more digits follow, and
an exponent with its sign. -/
def scientific (d : Decimal) : String :=
  let ds := d.digitChars
  let point := d.pointAt
  if 0 ≤ d.exponent && point ≤ 16 then
    String.ofList (ds ++ List.replicate d.exponent.toNat '0' ++ ['.', '0'])
  else if -5 < point && point ≤ 16 then d.positional
  else
    let rest := ds.drop 1
    String.ofList (ds.take 1 ++ (if rest.isEmpty then [] else '.' :: rest) ++ ['e'])
      ++ (if 0 < point then "+" else "") ++ toString (point - 1)

end Decimal

namespace Binary64

/-- The text of a number in messages: shortest digits, never an exponent, `1` for one, `NaN`, `inf`. -/
def text (x : Binary64) : String :=
  if x.isNaN then "NaN"
  else
    let body :=
      if x.isInfinite then "inf" else if x.isZero then "0" else (Decimal.shortest x .up).positional
    if x.negative then "-" ++ body else body

end Binary64

end RecordMapper
