import RecordMapper.Value.Basic
import RecordMapper.Json.Printer

/-!
The text of a value as messages and text functions see it.
-/

namespace RecordMapper.Value

mutual

/-- The text of a value. Null is a word, bytes are counted, lists and maps are bracketed. -/
def render : Value → String
  | .null => "NULL"
  | .bool b => if b then "true" else "false"
  | .int n => toString n.toInt
  | .float x => x.text
  | .text s => s
  | .bytes bs => "<" ++ toString bs.length ++ " bytes>"
  | .date d => d.text
  | .instant t => t.text
  | .uuid u => u.text
  | .json j => j.print
  | .list items => "[" ++ ", ".intercalate (itemTexts items) ++ "]"
  | .map entries => "\x7b" ++ ", ".intercalate (entryTexts entries) ++ "\x7d"

/-- The texts of the items of a list. -/
def itemTexts : List Value → List String
  | [] => []
  | v :: rest => render v :: itemTexts rest

/-- The texts of the entries of a map. -/
def entryTexts : List (String × Value) → List String
  | [] => []
  | (k, v) :: rest => (k ++ ": " ++ render v) :: entryTexts rest

end

end RecordMapper.Value
