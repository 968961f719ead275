import RecordMapper.Calendar.Instant
import RecordMapper.Text.Blank

/-!
Reading days and instants from their text.
-/

namespace RecordMapper

/-- The day of a text made of year, month and day; only the year may have a sign. -/
def Date.ofText? (s : String) : Option Date := do
  let (negative, body) := match s.toList with
    | '-' :: rest => (true, rest)
    | '+' :: rest => (false, rest)
    | cs => (false, cs)
  let [y, m, d] := (String.ofList body).splitOn "-" | none
  let year ← decimalNat? y.toList
  let month ← decimalNat? m.toList
  let day ← decimalNat? d.toList
  let date : Date := ⟨if negative then -Int.ofNat year else Int.ofNat year, month, day⟩
  guard (m.length == 2 && d.length == 2 && 4 ≤ y.length && date.valid)
  return date

namespace Instant

/-- The nanoseconds of digits behind a decimal point; digits after the ninth do not count. -/
def nanosOfDigits (cs : List Char) : Nat :=
  ((cs ++ List.replicate 9 '0').take 9).foldl (fun n c => n * 10 + (c.toNat - '0'.toNat)) 0

/-- The offset of a zone in seconds: a letter for none, or hours and minutes with a sign. -/
def zoneOffset? (cs : List Char) : Option Int :=
  match cs with
  | ['Z'] | ['z'] => some 0
  | [sign, h1, h2, ':', m1, m2] => do
    let hours ← decimalNat? [h1, h2]
    let minutes ← decimalNat? [m1, m2]
    guard ((sign == '+' || sign == '-') && hours < 24 && minutes < 60)
    let offset : Int := Int.ofNat (hours * 3600 + minutes * 60)
    return if sign == '-' then -offset else offset
  | _ => none

/-- The second of the day and the nanoseconds of a time of day; second sixty is a leap second. -/
def timeOfDay? (hour minute second : Nat) (fraction : List Char) : Option (Nat × Nat) :=
  if hour < 24 && minute < 60 && second ≤ 60 then
    let leap := if second = 60 then 1 else 0
    some (hour * 3600 + minute * 60 + second - leap, nanosOfDigits fraction + leap * 1000000000)
  else none

/-- The instant of a text made of day, time of day and zone. -/
def ofText? (s : String) : Option Instant := do
  let cs := s.toList
  let day := cs.takeWhile fun c => c != 'T' && c != 't' && c != ' '
  let date ← Date.ofText? (String.ofList day)
  match cs.drop (day.length + 1) with
  | h1 :: h2 :: ':' :: m1 :: m2 :: ':' :: s1 :: s2 :: rest =>
    let hour ← decimalNat? [h1, h2]
    let minute ← decimalNat? [m1, m2]
    let second ← decimalNat? [s1, s2]
    let (fraction, rest) ← match rest with
      | '.' :: more =>
        let digits := more.takeWhile Char.isDigit
        if digits.isEmpty then none else some (digits, more.dropWhile Char.isDigit)
      | _ => some ([], rest)
    let (secondOfDay, nanos) ← timeOfDay? hour minute second fraction
    let offset ← zoneOffset? rest
    return ofParts date secondOfDay nanos offset
  | _ => none

end Instant

end RecordMapper
