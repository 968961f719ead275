/-!
Blank characters, and integers written in decimal.
-/

namespace RecordMapper

/-- Whether a character is white space by its Unicode property. -/
def isBlank (c : Char) : Bool :=
  let n := c.toNat
  (9 ≤ n && n ≤ 13) || n == 0x20 || n == 0x85 || n == 0xA0 || n == 0x1680
    || (0x2000 ≤ n && n ≤ 0x200A) || n == 0x2028 || n == 0x2029 || n == 0x202F || n == 0x205F
    || n == 0x3000

/-- A text without the blanks around it. -/
def trimBlank (cs : List Char) : List Char :=
  ((cs.dropWhile isBlank).reverse.dropWhile isBlank).reverse

/-- The number that decimal digits spell; there is at least one and nothing else. -/
def decimalNat? (cs : List Char) : Option Nat :=
  if cs.isEmpty || cs.any (fun c => !c.isDigit) then none
  else some (cs.foldl (fun n c => n * 10 + (c.toNat - '0'.toNat)) 0)

/-- The number that decimal digits behind at most one sign spell. -/
def decimalInt? (cs : List Char) : Option Int :=
  match cs with
  | '-' :: digits => (decimalNat? digits).map fun n => -Int.ofNat n
  | '+' :: digits => (decimalNat? digits).map Int.ofNat
  | digits => (decimalNat? digits).map Int.ofNat

end RecordMapper
