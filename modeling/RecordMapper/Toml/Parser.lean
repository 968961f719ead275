import RecordMapper.Toml.Number

/-!
Reading TOML text, which is line by line comments, headers, and keys with values.

What a document means is JSON, in which times are texts. A table whose first entry has a reserved name is
no table but the time that this entry spells.
-/

namespace RecordMapper.Toml

/-- What a text goes on with behind an expected word. -/
def word? (expected : List Char) (cs : List Char) : Option (List Char) :=
  if expected.isPrefixOf cs then some (cs.drop expected.length) else none

/-- What follows spaces, comments and line ends. -/
def skipFiller (cs : List Char) : Option (List Char) := skipLines (cs.length + 1) cs

mutual

/-- Reads a value. `depth` bounds the nesting of arrays and inline tables; the fuel need not exceed the
length of the text, of which every call but the last reads a character. -/
def value? (fuel depth : Nat) (cs : List Char) : Option (Toml × List Char) :=
  match fuel with
  | 0 => none
  | fuel + 1 =>
    match cs with
    | '"' :: _ | '\'' :: _ => (string? cs).map fun (s, rest) => (.text s, rest)
    | '[' :: rest =>
      match depth with
      | 0 => none
      | depth + 1 => do
        let (items, rest) ← items? fuel depth (← skipFiller rest)
        return (.array items, rest)
    | '{' :: rest =>
      match depth with
      | 0 => none
      | depth + 1 =>
        match skipSpaces rest with
        | '}' :: rest => some (.inline [], rest)
        | rest => (entries? fuel depth [] rest).map fun (entries, rest) => (.inline entries, rest)
    | 't' :: rest => (word? ['r', 'u', 'e'] rest).map (.bool true, ·)
    | 'f' :: rest => (word? ['a', 'l', 's', 'e'] rest).map (.bool false, ·)
    | cs => numberOrTime? cs

/-- Reads items up to the closing bracket; a comma may stand before it. -/
def items? (fuel depth : Nat) (cs : List Char) : Option (List Toml × List Char) :=
  match fuel with
  | 0 => none
  | fuel + 1 =>
    match cs with
    | ']' :: rest => some ([], rest)
    | cs => do
      let (v, rest) ← value? fuel depth cs
      match ← skipFiller rest with
      | ']' :: rest => return ([v], rest)
      | ',' :: rest =>
        let (vs, rest) ← items? fuel depth (← skipFiller rest)
        return (v :: vs, rest)
      | _ => none

/-- Reads keys with values up to the closing brace. -/
def entries? (fuel depth : Nat) (acc : Entries) (cs : List Char) : Option (Entries × List Char) :=
  match fuel with
  | 0 => none
  | fuel + 1 => do
    let ((path, name), rest) ← key? cs
    let rest ← after? '=' rest
    let (v, rest) ← value? fuel depth (skipSpaces rest)
    let acc ← assign v name true path acc
    match skipSpaces rest with
    | '}' :: rest => return (acc, rest)
    | ',' :: rest => entries? fuel depth acc rest
    | _ => none

end

/-- A header with its closing brackets and the rest of its line. -/
def header? (closing cs : List Char) : Option ((List String × String) × List Char) := do
  let (key, rest) ← key? cs
  return (key, ← lineRest? (← word? closing rest))

/-- A key with its value and the rest of its line. -/
def keyValue? (cs : List Char) : Option ((List String × String) × Toml × List Char) := do
  let (key, rest) ← key? cs
  let rest ← after? '=' rest
  let rest := skipSpaces rest
  let (v, rest) ← value? (2 * rest.length + 2) maxDepth rest
  return (key, v, ← lineRest? rest)

/-- Reads lines into the tables they mean. `at_` is the path of the last header. Every line has a
character, so the length of the text is enough fuel. -/
def lines? : Nat → List String → Entries → List Char → Option Entries
  | 0, _, _, _ => none
  | fuel + 1, at_, root, cs =>
    match skipSpaces cs with
    | [] => some root
    | '#' :: rest => do lines? fuel at_ root (← lineRest? ('#' :: rest))
    | '\n' :: rest => lines? fuel at_ root rest
    | '\r' :: rest => do lines? fuel at_ root (← newline? ('\r' :: rest))
    | '[' :: '[' :: rest => do
      let ((path, name), rest) ← header? [']', ']'] rest
      lines? fuel (path ++ [name]) (← openRow path name root) rest
    | '[' :: rest => do
      let ((path, name), rest) ← header? [']'] rest
      lines? fuel (path ++ [name]) (← openTable path name root) rest
    | cs => do
      let ((path, name), v, rest) ← keyValue? cs
      lines? fuel at_ (← alterAt (assign v name true path) at_ root) rest

/-- The document of a text, which may start with a byte order mark. -/
def parse? (s : String) : Option Toml :=
  let cs := match s.toList with
    | '\uFEFF' :: rest => rest
    | cs => cs
  (lines? (cs.length + 1) [] [] cs).map (.table .header)

/-! ## Meaning -/

/-- The name that makes a table a time. -/
def timeName : String := "$__toml_private_datetime"

/-- The time that a value spells: a text that is a time from its first to its last character. -/
def spelledTime? : Toml → Option Json
  | .text s =>
    match time? s.toList with
    | some (.time s, []) => some (.text s)
    | _ => none
  | _ => none

mutual

/-- The document as JSON, unless a table that ought to be a time spells none. -/
def toJson? : Toml → Option Json
  | .text s => some (.text s)
  | .integer n => some (.int n)
  | .float x => some (Json.ofFloat x)
  | .bool b => some (.bool b)
  | .time s => some (.text s)
  | .array items => (itemsToJson? items).map .array
  | .inline entries => tableToJson? entries
  | .table _ entries => tableToJson? entries
  | .tables rows => (rowsToJson? rows).map .array

/-- Item by item. -/
def itemsToJson? : List Toml → Option (List Json)
  | [] => some []
  | v :: rest => do return (← toJson? v) :: (← itemsToJson? rest)

/-- An object, or the time under the reserved name; what follows that name does not count. -/
def tableToJson? : List (String × Toml) → Option Json
  | [] => some (.ofMembers [])
  | (k, v) :: rest =>
    if k == timeName then spelledTime? v
    else do return .ofMembers ((k, ← toJson? v) :: (← entriesToJson? rest))

/-- Entry by entry. -/
def entriesToJson? : List (String × Toml) → Option (List (String × Json))
  | [] => some []
  | (k, v) :: rest => do return (k, ← toJson? v) :: (← entriesToJson? rest)

/-- Table by table. -/
def rowsToJson? : List (List (String × Toml)) → Option (List Json)
  | [] => some []
  | entries :: rest => do return (← tableToJson? entries) :: (← rowsToJson? rest)

end

end RecordMapper.Toml
