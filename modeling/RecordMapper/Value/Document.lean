import RecordMapper.Decimal.Word
import RecordMapper.Value.Record
import RecordMapper.Value.Text

/-!
Values as JSON documents.

`toJson` forgets the kinds that JSON has no form for: days, instants and identifiers become texts,
bytes numbers, a float that is not finite null. `ofJson` reads a document as a value made of the kinds
that JSON has. `tagged` names the kind beside the value, and `afterTagging?` is what reading that form gives.
-/

namespace RecordMapper.Value

mutual

/-- A value as a document; the members of a map stand in the order of their names. -/
def toJson : Value → Json
  | .null => .null
  | .bool b => .bool b
  | .int n => Json.int n.toInt
  | .float x => Json.ofFloat x
  | .text s => .text s
  | .bytes bs => .array (bs.map fun b => Json.int (Int.ofNat b.toNat))
  | .date d => .text d.text
  | .instant t => .text t.text
  | .uuid u => .text u.text
  | .json j => j
  | .list items => .array (itemsToJson items)
  | .map entries => Json.ofMembers (entriesToJson entries)

/-- Item by item. -/
def itemsToJson : List Value → List Json
  | [] => []
  | v :: rest => toJson v :: itemsToJson rest

/-- Entry by entry. -/
def entriesToJson : List (String × Value) → List (String × Json)
  | [] => []
  | (k, v) :: rest => (k, toJson v) :: entriesToJson rest

end

/-- A number as a value: an integer of 64 bits, and any other number a float. -/
def ofNumber : Json.Number → Value
  | .integer n =>
    match int64? n with
    | some w => .int w
    | none => .float (Binary64.ofInt n)
  | .float x => .float x

mutual

/-- A document as a value: objects become maps and arrays lists. -/
def ofJson : Json → Value
  | .null => .null
  | .bool b => .bool b
  | .number n => ofNumber n
  | .text s => .text s
  | .array items => .list (itemsOfJson items)
  | .object members => .map (entriesOfJson members)

/-- Item by item. -/
def itemsOfJson : List Json → List Value
  | [] => []
  | j :: rest => ofJson j :: itemsOfJson rest

/-- Member by member. -/
def entriesOfJson : List (String × Json) → List (String × Value)
  | [] => []
  | (k, j) :: rest => (k, ofJson j) :: entriesOfJson rest

end

/-- A document that names the kind of a value beside the value. -/
def withKind (kind : String) (value : Json) : Json :=
  .object [("type", .text kind), ("value", value)]

mutual

/-- A value with its kind. -/
def tagged : Value → Json
  | .null => .object [("type", .text "Null")]
  | .bool b => withKind "Bool" (.bool b)
  | .int n => withKind "Int" (Json.int n.toInt)
  | .float x => withKind "Float" (Json.ofFloat x)
  | .text s => withKind "String" (.text s)
  | .bytes bs => withKind "Bytes" (.array (bs.map fun b => Json.int (Int.ofNat b.toNat)))
  | .date d => withKind "Date" (.text d.text)
  | .instant t => withKind "DateTime" (.text t.zuluText)
  | .uuid u => withKind "Uuid" (.text u.text)
  | .json j => withKind "Json" j
  | .list items => withKind "List" (.array (taggedItems items))
  | .map entries => withKind "Map" (Json.ofMembers (taggedEntries entries))

/-- Item by item. -/
def taggedItems : List Value → List Json
  | [] => []
  | v :: rest => tagged v :: taggedItems rest

/-- Entry by entry. -/
def taggedEntries : List (String × Value) → List (String × Json)
  | [] => []
  | (k, v) :: rest => (k, tagged v) :: taggedEntries rest

end

/-- Inserts an entry at the place its name has in the order of names. -/
def insertSorted (key : String) (v : Value) : List (String × Value) → List (String × Value)
  | [] => [(key, v)]
  | (k, w) :: rest => if key < k then (key, v) :: (k, w) :: rest else (k, w) :: insertSorted key v rest

mutual

/-- What the tagged form of a value says: the value itself with the entries of its maps in the order
of their names, and nothing if a float in it is not finite, since its tagged form holds no number. -/
def afterTagging? : Value → Option Value
  | .float x => if x.isFinite then some (.float x) else none
  | .list items => (itemsAfterTagging? items).map .list
  | .map entries => (entriesAfterTagging? entries).map .map
  | v => some v

/-- Item by item. -/
def itemsAfterTagging? : List Value → Option (List Value)
  | [] => some []
  | v :: rest => do return (← afterTagging? v) :: (← itemsAfterTagging? rest)

/-- Entry by entry. -/
def entriesAfterTagging? : List (String × Value) → Option (List (String × Value))
  | [] => some []
  | (k, v) :: rest => do
    let v ← afterTagging? v
    return insertSorted k v (← entriesAfterTagging? rest)

end

end RecordMapper.Value

namespace RecordMapper

/-- A record as a JSON object. -/
def Record.toJson (r : Record) : Json := Json.ofMembers (Value.entriesToJson r)

end RecordMapper
