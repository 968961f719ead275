import RecordMapper.Json.Basic
import RecordMapper.Text.Hex

/-!
The compact text of a JSON document.
-/

namespace RecordMapper

namespace Json

/-- A character inside a quoted text: quotes, backslashes and control characters are escaped. -/
def escapedChar (c : Char) : List Char :=
  match c with
  | '"' => ['\\', '"']
  | '\\' => ['\\', '\\']
  | '\x08' => ['\\', 'b']
  | '\x0c' => ['\\', 'f']
  | '\n' => ['\\', 'n']
  | '\r' => ['\\', 'r']
  | '\t' => ['\\', 't']
  | c => if c.toNat < 32 then ['\\', 'u'] ++ hexChars 4 c.toNat else [c]

/-- A text in quotes. -/
def quoted (s : String) : String :=
  String.ofList ('"' :: s.toList.flatMap escapedChar ++ ['"'])

/-- A float always shows a point or an exponent, so that it reads back as a float. -/
def floatText (x : Binary64) : String :=
  let body := if x.isZero then "0.0" else (Decimal.shortest x .even).scientific
  if x.negative then "-" ++ body else body

/-- The text of a number. -/
def Number.print : Number → String
  | .integer n => toString n
  | .float x => floatText x

mutual

/-- The text of a document, without blanks. -/
def print : Json → String
  | .null => "null"
  | .bool b => if b then "true" else "false"
  | .number n => n.print
  | .text s => quoted s
  | .array items => "[" ++ ",".intercalate (printItems items) ++ "]"
  | .object members => "\x7b" ++ ",".intercalate (printMembers members) ++ "\x7d"

/-- The texts of the items. -/
def printItems : List Json → List String
  | [] => []
  | j :: rest => print j :: printItems rest

/-- The texts of the members. -/
def printMembers : List (String × Json) → List String
  | [] => []
  | (k, v) :: rest => (quoted k ++ ":" ++ print v) :: printMembers rest

end

end Json

end RecordMapper
