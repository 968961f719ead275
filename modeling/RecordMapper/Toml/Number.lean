import RecordMapper.Decimal.Word
import RecordMapper.Decimal.Binary64
import RecordMapper.Toml.Basic
import RecordMapper.Toml.Text

/-!
Numbers and times of TOML lines.

A number is read as far as its form goes; what follows it is left to the line. A form that has begun
and cannot be finished is a fault.
-/

namespace RecordMapper.Toml

/-- Digits, in which single underscores may stand between two of them. -/
def digitRun? (isDigit : Char → Bool) (cs : List Char) : Option (List Char × List Char) :=
  let run := cs.takeWhile fun c => isDigit c || c == '_'
  let groups := (String.ofList run).splitOn "_"
  if groups.any (· == "") then none
  else some (groups.flatMap String.toList, cs.drop run.length)

/-- The number that decimal digits spell. -/
def decimal (digits : List Char) : Nat := digits.foldl (fun n c => n * 10 + (c.toNat - '0'.toNat)) 0

/-- A sign, if there is one; `true` for minus. -/
def sign : List Char → Bool × List Char
  | '-' :: rest => (true, rest)
  | '+' :: rest => (false, rest)
  | cs => (false, cs)

/-- The digits before the point: one zero, or digits that do not start with one. -/
def wholeDigits? (cs : List Char) : Option (List Char × List Char) :=
  match cs with
  | '0' :: rest => some (['0'], rest)
  | c :: _ => if c.isDigit then digitRun? Char.isDigit cs else none
  | [] => none

/-- The digits behind a point, if there is one. -/
def fraction? (cs : List Char) : Option (List Char × List Char) :=
  match cs with
  | '.' :: rest => digitRun? Char.isDigit rest
  | _ => some ([], cs)

/-- The power of ten behind its letter, if there is one. -/
def exponent? (cs : List Char) : Option (Int × List Char) :=
  match cs with
  | 'e' :: rest | 'E' :: rest => do
    let (negative, rest) := sign rest
    let (digits, rest) ← digitRun? Char.isDigit rest
    let n := Int.ofNat (decimal digits)
    return (if negative then -n else n, rest)
  | _ => some (0, cs)

/-- The float nearest to decimal digits times a power of ten. Powers far beyond the range of floats
need not be computed. -/
def floatOf (negative : Bool) (digits : List Char) (exponent : Int) : Binary64 :=
  let n := decimal digits
  let size := Int.ofNat digits.length + exponent
  if n == 0 || size < -400 then Binary64.ofMagnitude negative 0
  else if size > 400 + Int.ofNat digits.length then Binary64.infinity negative
  else if 0 ≤ exponent then Binary64.round negative (n * Nat.pow 10 exponent.toNat) 1
  else Binary64.round negative n (Nat.pow 10 exponent.natAbs)

/-- An integer of 64 bits. -/
def integerOf? (n : Int) : Option Toml :=
  if FitsWord n then some (.integer n) else none

/-- A number without a radix mark. A float must not be larger than all floats. -/
def plainNumber? (cs : List Char) : Option (Toml × List Char) := do
  let (negative, rest) := sign cs
  match rest with
  | 'i' :: 'n' :: 'f' :: rest => return (.float (Binary64.infinity negative), rest)
  | 'n' :: 'a' :: 'n' :: rest => return (.float Binary64.quietNaN, rest)
  | rest =>
    let (whole, afterWhole) ← wholeDigits? rest
    let (fraction, afterFraction) ← fraction? afterWhole
    let (exponent, afterAll) ← exponent? afterFraction
    if afterAll.length == afterWhole.length then
      let n := Int.ofNat (decimal whole)
      return (← integerOf? (if negative then -n else n), afterAll)
    let x := floatOf negative (whole ++ fraction) (exponent - fraction.length)
    guard (negative || !x.isInfinite)
    return (.float x, afterAll)

/-- A number in another radix, whose digits have so many bits. -/
def radixNumber? (bits : Nat) (cs : List Char) : Option (Toml × List Char) := do
  let isDigit (c : Char) : Bool :=
    match hexValue? c with
    | some n => n < 1 <<< bits
    | none => false
  let (digits, rest) ← digitRun? isDigit cs
  let n := digits.foldl (fun n c => (n <<< bits) + (hexValue? c).getD 0) 0
  return (← integerOf? n, rest)

/-- A number. -/
def number? (cs : List Char) : Option (Toml × List Char) :=
  match cs with
  | '0' :: 'x' :: rest => radixNumber? 4 rest
  | '0' :: 'o' :: rest => radixNumber? 3 rest
  | '0' :: 'b' :: rest => radixNumber? 1 rest
  | cs => plainNumber? cs

/-- So many decimal digits that spell a number between two limits. -/
def part? (width low high : Nat) (cs : List Char) : Option (List Char × List Char) := do
  let digits := cs.take width
  guard (digits.length == width && digits.all Char.isDigit)
  guard (low ≤ decimal digits && decimal digits ≤ high)
  return (digits, cs.drop width)

/-- The text behind an expected character. -/
def after? (c : Char) : List Char → Option (List Char)
  | d :: rest => if c == d then some rest else none
  | [] => none

/-- A day of the calendar. -/
def day? (cs : List Char) : Option (List Char × List Char) := do
  let (year, rest) ← part? 4 0 9999 cs
  let rest ← after? '-' rest
  let (month, rest) ← part? 2 1 12 rest
  let rest ← after? '-' rest
  let (day, rest) ← part? 2 1 31 rest
  let date : Date := ⟨Int.ofNat (decimal year), decimal month, decimal day⟩
  guard date.valid
  return (year ++ '-' :: month ++ '-' :: day, rest)

/-- The digits of a fraction of a second: nine at most, without zeros at the end. -/
def secondFraction? (cs : List Char) : Option (List Char × List Char) :=
  match cs with
  | '.' :: rest =>
    let digits := rest.takeWhile Char.isDigit
    if digits.isEmpty then none
    else
      let kept := ((digits.take 9).reverse.dropWhile (· == '0')).reverse
      some (if kept.isEmpty then [] else '.' :: kept, rest.drop digits.length)
  | cs => some ([], cs)

/-- A time of day; a minute may have a leap second. -/
def clock? (cs : List Char) : Option (List Char × List Char) := do
  let (hour, rest) ← part? 2 0 23 cs
  let rest ← after? ':' rest
  let (minute, rest) ← part? 2 0 59 rest
  let rest ← after? ':' rest
  let (second, rest) ← part? 2 0 60 rest
  let (fraction, rest) ← secondFraction? rest
  return (hour ++ ':' :: minute ++ ':' :: second ++ fraction, rest)

/-- The offset of a zone, if there is one. Minus zero is written as plus zero. -/
def zone? (cs : List Char) : Option (List Char × List Char) := do
  match cs with
  | 'Z' :: rest | 'z' :: rest => return (['Z'], rest)
  | c :: rest =>
    if c == '+' || c == '-' then
      let (hour, rest) ← part? 2 0 23 rest
      let rest ← after? ':' rest
      let (minute, rest) ← part? 2 0 59 rest
      let zero := decimal hour == 0 && decimal minute == 0
      return ((if zero then '+' else c) :: hour ++ ':' :: minute, rest)
    else return ([], cs)
  | [] => return ([], cs)

/-- Whether a time of day may start here: two digits and a colon. -/
def startsClock : List Char → Bool
  | a :: b :: ':' :: _ => a.isDigit && b.isDigit
  | _ => false

/-- Whether a day may start here: four digits and a hyphen. -/
def startsDay : List Char → Bool
  | a :: b :: c :: d :: '-' :: _ => a.isDigit && b.isDigit && c.isDigit && d.isDigit
  | _ => false

/-- A day with the time of day and the zone that may follow it. -/
def dayAndClock? (cs : List Char) : Option (Toml × List Char) := do
  let (day, rest) ← day? cs
  let alone : Toml := .time (String.ofList day)
  match rest with
  | c :: next =>
    if (c == 'T' || c == 't' || c == ' ') && startsClock next then
      let (clock, rest) ← clock? next
      let (zone, rest) ← zone? rest
      return (.time (String.ofList (day ++ 'T' :: clock ++ zone)), rest)
    else return (alone, rest)
  | [] => return (alone, rest)

/-- A day, a time of day, or both. -/
def time? (cs : List Char) : Option (Toml × List Char) :=
  if startsDay cs then dayAndClock? cs
  else (clock? cs).map fun (clock, rest) => (.time (String.ofList clock), rest)

/-- A number or a time. -/
def numberOrTime? (cs : List Char) : Option (Toml × List Char) :=
  if startsDay cs || startsClock cs then time? cs else number? cs

end RecordMapper.Toml
