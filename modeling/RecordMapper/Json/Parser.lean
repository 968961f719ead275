import RecordMapper.Json.Basic
import RecordMapper.Text.Hex

/-!
Reading JSON text.

The grammar is that of the standard: four kinds of blanks, no leading zeros, no control characters in
texts, escapes of surrogates only in pairs, and nothing behind the document. Arrays and objects may be
nested at most one hundred and twenty-seven deep.

A number without point and exponent that fits 64 bits is an integer. Any other is a float: its leading
digits, as many as fit 64 bits, are taken as a whole number, which is then multiplied or divided by a
power of ten.
-/

namespace RecordMapper

namespace Json

def isBlank (c : Char) : Bool := c == ' ' || c == '\n' || c == '\t' || c == '\r'

def skipBlanks (cs : List Char) : List Char := cs.dropWhile isBlank

/-- The number a decimal digit stands for. -/
def digitValue (c : Char) : Nat := c.toNat - '0'.toNat

/-- Leading digits of a number and the power of ten that the others leave. -/
structure Leading where
  significand : Nat
  exponent : Int
  overflowed : Bool
  deriving Repr

/-- The largest whole number that the leading digits may form. -/
def maxSignificand : Nat := UInt64.size - 1

/-- Digits before the point. A digit that does not fit any more counts as a power of ten, and so do
all after it. -/
def wholeDigits (acc : Leading) : List Char → Leading
  | [] => acc
  | c :: rest =>
    let next := acc.significand * 10 + digitValue c
    if acc.overflowed || next > maxSignificand then
      wholeDigits { acc with exponent := acc.exponent + 1, overflowed := true } rest
    else wholeDigits { acc with significand := next } rest

/-- Digits behind the point, up to the first that does not fit. -/
def fractionDigits (acc : Leading) : List Char → Leading
  | [] => acc
  | c :: rest =>
    let next := acc.significand * 10 + digitValue c
    if next > maxSignificand then acc
    else fractionDigits { acc with significand := next, exponent := acc.exponent - 1 } rest

/-- A power of ten up to `10 ^ 308` as a float. -/
def powerOfTen (n : Nat) : Binary64 := Binary64.round false (Nat.pow 10 n) 1

/-- Scales by a power of ten in steps of at most `10 ^ 308`; `none` beyond the largest finite number.
Two steps take any significand to zero, so a small fuel is enough. -/
def scale : Nat → Binary64 → Int → Option Binary64
  | 0, x, _ => some x
  | fuel + 1, x, exponent =>
    if exponent.natAbs ≤ 308 then
      if 0 ≤ exponent then
        let y := x.mul (powerOfTen exponent.toNat)
        if y.isInfinite then none else some y
      else some (x.div (powerOfTen exponent.natAbs))
    else if x.isZero then some x
    else if 0 ≤ exponent then none
    else scale fuel (x.div (powerOfTen 308)) (exponent + 308)

/-- The float with the given sign, leading digits and power of ten. -/
def floatOfLeading (negative : Bool) (significand : Nat) (exponent : Int) : Option Binary64 :=
  (scale 8 (Binary64.ofNat significand) exponent).map fun x => if negative then x.neg else x

/-- The digits of an exponent, at most `2 ^ 31 - 1`; `none` beyond. -/
def exponentDigits (cs : List Char) : Option Nat :=
  let n := cs.foldl (fun n c => n * 10 + digitValue c) 0
  if n ≤ 2147483647 then some n else none

/-- An exponent with its sign, between the limits of 32 bits. -/
def clampExponent (n : Int) : Int := max (-2147483648) (min n 2147483647)

/-- A number without exponent; `plain` says that it has no point either. -/
def plainNumber (negative : Bool) (lead : Leading) (plain : Bool) : Option Number :=
  if plain && !lead.overflowed then
    if !negative then some (.integer lead.significand)
    else if lead.significand != 0 && lead.significand ≤ 9223372036854775808 then
      some (.integer (-Int.ofNat lead.significand))
    else some (.float (Binary64.ofNat lead.significand).neg)
  else
    (floatOfLeading negative lead.significand lead.exponent).map Number.float

/-- Reads a number. -/
def readNumber (cs : List Char) : Option (Number × List Char) := do
  let (negative, cs) := match cs with
    | '-' :: rest => (true, rest)
    | _ => (false, cs)
  let whole := cs.takeWhile Char.isDigit
  let cs := cs.dropWhile Char.isDigit
  guard (!whole.isEmpty)
  guard (whole.head? != some '0' || whole.length == 1)
  let lead := wholeDigits ⟨0, 0, false⟩ whole
  let (lead, cs, plain) ← match cs with
    | '.' :: rest =>
      let fraction := rest.takeWhile Char.isDigit
      if fraction.isEmpty then none
      else some (fractionDigits lead fraction, rest.dropWhile Char.isDigit, false)
    | _ => some (lead, cs, true)
  match cs with
  | e :: rest =>
    if e == 'e' || e == 'E' then
      let (down, rest) := match rest with
        | '+' :: r => (false, r)
        | '-' :: r => (true, r)
        | _ => (false, rest)
      let digits := rest.takeWhile Char.isDigit
      let rest := rest.dropWhile Char.isDigit
      guard (!digits.isEmpty)
      match exponentDigits digits with
      | some n =>
        let shift := if down then -Int.ofNat n else Int.ofNat n
        let x ← floatOfLeading negative lead.significand (clampExponent (lead.exponent + shift))
        return (.float x, rest)
      | none =>
        guard (lead.significand == 0 || down)
        return (.float (Binary64.ofMagnitude negative 0), rest)
    else return (← plainNumber negative lead plain, cs)
  | [] => return (← plainNumber negative lead plain, [])

/-- Four hexadecimal digits. -/
def hexFour (cs : List Char) : Option (Nat × List Char) := do
  guard ((cs.take 4).length == 4)
  let n ← hexNumber? (cs.take 4)
  return (n, cs.drop 4)

/-- The character after `\u`: a character of its own, or one given by two surrogates. -/
def unicodeEscape (cs : List Char) : Option (Char × List Char) := do
  let (n, cs) ← hexFour cs
  if 0xdc00 ≤ n && n ≤ 0xdfff then none
  else if 0xd800 ≤ n && n ≤ 0xdbff then
    match cs with
    | '\\' :: 'u' :: rest =>
      let (low, rest) ← hexFour rest
      guard (0xdc00 ≤ low && low ≤ 0xdfff)
      return (Char.ofNat (0x10000 + (n - 0xd800) * 0x400 + (low - 0xdc00)), rest)
    | _ => none
  else return (Char.ofNat n, cs)

/-- The characters of a text up to its closing quote. The fuel is the number of characters left. -/
def textChars : Nat → List Char → List Char → Option (String × List Char)
  | 0, _, _ => none
  | fuel + 1, acc, cs =>
    match cs with
    | [] => none
    | '"' :: rest => some (String.ofList acc.reverse, rest)
    | '\\' :: e :: rest =>
      match e with
      | '"' => textChars fuel ('"' :: acc) rest
      | '\\' => textChars fuel ('\\' :: acc) rest
      | '/' => textChars fuel ('/' :: acc) rest
      | 'b' => textChars fuel ('\x08' :: acc) rest
      | 'f' => textChars fuel ('\x0c' :: acc) rest
      | 'n' => textChars fuel ('\n' :: acc) rest
      | 'r' => textChars fuel ('\r' :: acc) rest
      | 't' => textChars fuel ('\t' :: acc) rest
      | 'u' =>
        match unicodeEscape rest with
        | some (c, rest) => textChars fuel (c :: acc) rest
        | none => none
      | _ => none
    | c :: rest => if c.toNat < 32 || c == '\\' then none else textChars fuel (c :: acc) rest

/-- A text in quotes. -/
def quotedText (cs : List Char) : Option (String × List Char) :=
  match cs with
  | '"' :: rest => textChars (rest.length + 1) [] rest
  | _ => none

/-- Removes an expected word. -/
def word (expected : List Char) (cs : List Char) : Option (List Char) :=
  if expected.isPrefixOf cs then some (cs.drop expected.length) else none

mutual

/-- Reads a value. `depth` bounds the nesting of arrays and objects; every call reads a character, so
the fuel need not exceed the length of the text. -/
def readValue (fuel depth : Nat) (cs : List Char) : Option (Json × List Char) :=
  match fuel with
  | 0 => none
  | fuel + 1 =>
    match skipBlanks cs with
    | [] => none
    | 'n' :: rest => (word ['u', 'l', 'l'] rest).map (Json.null, ·)
    | 't' :: rest => (word ['r', 'u', 'e'] rest).map (Json.bool true, ·)
    | 'f' :: rest => (word ['a', 'l', 's', 'e'] rest).map (Json.bool false, ·)
    | '"' :: rest => (quotedText ('"' :: rest)).map fun (s, r) => (.text s, r)
    | '[' :: rest =>
      match depth with
      | 0 => none
      | depth + 1 =>
        match skipBlanks rest with
        | ']' :: rest => some (.array [], rest)
        | rest => (readItems fuel depth rest).map fun (js, r) => (.array js, r)
    | '{' :: rest =>
      match depth with
      | 0 => none
      | depth + 1 =>
        match skipBlanks rest with
        | '}' :: rest => some (.object [], rest)
        | rest => (readMembers fuel depth [] rest).map fun (ms, r) => (.object ms, r)
    | c :: rest => (readNumber (c :: rest)).map fun (n, r) => (.number n, r)

/-- Reads items up to the closing bracket. -/
def readItems (fuel depth : Nat) (cs : List Char) : Option (List Json × List Char) :=
  match fuel with
  | 0 => none
  | fuel + 1 => do
    let (j, cs) ← readValue fuel depth cs
    match skipBlanks cs with
    | ']' :: rest => return ([j], rest)
    | ',' :: rest =>
      let (js, rest) ← readItems fuel depth rest
      return (j :: js, rest)
    | _ => none

/-- Reads members up to the closing brace; of two with one name the later counts. -/
def readMembers (fuel depth : Nat) (acc : List (String × Json)) (cs : List Char) :
    Option (List (String × Json) × List Char) :=
  match fuel with
  | 0 => none
  | fuel + 1 => do
    let (key, cs) ← quotedText (skipBlanks cs)
    match skipBlanks cs with
    | ':' :: rest =>
      let (j, cs) ← readValue fuel depth rest
      let acc := insertMember key j acc
      match skipBlanks cs with
      | '}' :: rest => return (acc, rest)
      | ',' :: rest => readMembers fuel depth acc rest
      | _ => none
    | _ => none

end

/-- How deep arrays and objects may be nested. -/
def maxDepth : Nat := 127

/-- The document a text spells. -/
def parse? (s : String) : Option Json := do
  let cs := s.toList
  let (j, rest) ← readValue (2 * cs.length + 2) maxDepth cs
  guard (skipBlanks rest).isEmpty
  return j

end Json

end RecordMapper
