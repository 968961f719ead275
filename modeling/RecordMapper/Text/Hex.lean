/-!
Hexadecimal digits, and identifiers of 128 bits written with them.
-/

namespace RecordMapper

/-- The lower-case hexadecimal digit of a number below sixteen. -/
def hexDigit (n : Nat) : Char := "0123456789abcdef".toList.getD (n % 16) '0'

/-- The value of a hexadecimal digit in either case. -/
def hexValue? (c : Char) : Option Nat :=
  if '0' ≤ c ∧ c ≤ '9' then some (c.toNat - '0'.toNat)
  else if 'a' ≤ c ∧ c ≤ 'f' then some (c.toNat - 'a'.toNat + 10)
  else if 'A' ≤ c ∧ c ≤ 'F' then some (c.toNat - 'A'.toNat + 10)
  else none

/-- The last `width` hexadecimal digits of a number. -/
def hexChars : Nat → Nat → List Char
  | 0, _ => []
  | width + 1, n => hexDigit (n >>> (4 * width)) :: hexChars width n

/-- The number that hexadecimal digits stand for; `none` if another character occurs. -/
def hexNumber? (cs : List Char) : Option Nat :=
  cs.foldl (fun acc c => do return (← acc) * 16 + (← hexValue? c)) (some 0)

/-- Two digits for each byte. -/
def hexOfBytes (bytes : List UInt8) : String :=
  String.ofList (bytes.flatMap fun b => hexChars 2 b.toNat)

/-- The bytes written as pairs of digits. -/
def bytesOfHex? : List Char → Option (List UInt8)
  | [] => some []
  | [_] => none
  | high :: low :: rest => do
    let h ← hexValue? high
    let l ← hexValue? low
    return UInt8.ofNat (h * 16 + l) :: (← bytesOfHex? rest)

/-- An identifier of 128 bits. -/
structure Uuid where
  bits : BitVec 128
  deriving DecidableEq, Hashable, Repr, Inhabited

namespace Uuid

/-- Identifiers are ordered as their bytes are, which is the order of the numbers they spell. -/
def order (a b : Uuid) : Ordering := compare a.bits.toNat b.bits.toNat

/-- Thirty-two digits in groups of eight, four, four, four and twelve, with hyphens between them. -/
def text (u : Uuid) : String :=
  let ds := hexChars 32 u.bits.toNat
  let group (start len : Nat) : String := String.ofList ((ds.drop start).take len)
  "-".intercalate [group 0 8, group 8 4, group 12 4, group 16 4, group 20 12]

/-- The identifier a text spells, in either case. -/
def ofText? (s : String) : Option Uuid := do
  let groups := s.splitOn "-"
  guard (groups.map String.length == [8, 4, 4, 4, 12])
  let n ← hexNumber? (groups.flatMap String.toList)
  return ⟨BitVec.ofNat 128 n⟩

end Uuid

end RecordMapper
