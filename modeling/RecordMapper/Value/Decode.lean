import RecordMapper.Failure
import RecordMapper.Value.Document

/-!
Taking data apart: records out of documents, and single fields out of records.
-/

namespace RecordMapper

/-- Data that had to be an object. -/
def Failure.notAnObject (v : Value) : Failure := .serialization ("expected an object, got " ++ v.render)

/-- The record that a JSON object is. -/
def Record.ofDocument (j : Json) : Outcome Record :=
  match Value.ofJson j with
  | .map entries => .ok entries
  | v => .error (.notAnObject v)

end RecordMapper
