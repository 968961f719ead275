import RecordMapper.Text.Hex

/-!
The parts of TOML lines: spaces, comments, line ends, keys and strings. Readers yield what follows.
-/

namespace RecordMapper.Toml

def isSpace (c : Char) : Bool := c == ' ' || c == '\t'

def skipSpaces (cs : List Char) : List Char := cs.dropWhile isSpace

/-- A character that may stand in comments and strings: no control character but the tabulator. -/
def isPrintable (c : Char) : Bool := c == '\t' || (0x20 ≤ c.toNat && c.toNat != 0x7F)

/-- A line end. -/
def newline? : List Char → Option (List Char)
  | '\n' :: rest => some rest
  | '\r' :: '\n' :: rest => some rest
  | _ => none

/-- What follows a comment, if one stands here. -/
def skipComment : List Char → List Char
  | '#' :: rest => rest.dropWhile isPrintable
  | cs => cs

/-- The rest of a line: spaces, a comment, and the end of the line or of the text. -/
def lineRest? (cs : List Char) : Option (List Char) :=
  match skipComment (skipSpaces cs) with
  | [] => some []
  | cs => newline? cs

/-- Spaces, comments and line ends. There is a character for each step, so the length is enough
fuel. -/
def skipLines : Nat → List Char → Option (List Char)
  | 0, cs => some cs
  | fuel + 1, cs =>
    match skipSpaces cs with
    | '#' :: rest => do skipLines fuel (← newline? (skipComment ('#' :: rest)))
    | '\n' :: rest => skipLines fuel rest
    | '\r' :: rest => do skipLines fuel (← newline? ('\r' :: rest))
    | cs => some cs

/-- The character of so many hexadecimal digits. -/
def hexCharacter? (width : Nat) (cs : List Char) : Option (Char × List Char) := do
  let digits := cs.take width
  guard (digits.length == width)
  let n ← hexNumber? digits
  guard (n < 0xD800 || (0xDFFF < n && n < 0x110000))
  return (Char.ofNat n, cs.drop width)

/-- The character that an escape behind its backslash means. -/
def escaped? : List Char → Option (Char × List Char)
  | 'b' :: rest => some ('\x08', rest)
  | 't' :: rest => some ('\t', rest)
  | 'n' :: rest => some ('\n', rest)
  | 'f' :: rest => some ('\x0c', rest)
  | 'r' :: rest => some ('\r', rest)
  | '"' :: rest => some ('"', rest)
  | '\\' :: rest => some ('\\', rest)
  | 'u' :: rest => hexCharacter? 4 rest
  | 'U' :: rest => hexCharacter? 8 rest
  | _ => none

/-- The characters of a string in double quotes up to the closing one. -/
def basicChars : Nat → List Char → List Char → Option (String × List Char)
  | 0, _, _ => none
  | fuel + 1, acc, cs =>
    match cs with
    | '"' :: rest => some (String.ofList acc.reverse, rest)
    | '\\' :: rest => do
      let (c, rest) ← escaped? rest
      basicChars fuel (c :: acc) rest
    | c :: rest => if isPrintable c then basicChars fuel (c :: acc) rest else none
    | [] => none

/-- The characters of a string in single quotes up to the closing one. -/
def literalChars (cs : List Char) : Option (String × List Char) :=
  let body := cs.takeWhile fun c => isPrintable c && c != '\''
  match cs.drop body.length with
  | '\'' :: rest => some (String.ofList body, rest)
  | _ => none

/-- Quotes inside or at the end of a string of several lines: one or two are part of the string, three
end it, and before the three up to two more are part of it. -/
def quoteRun (quote : Char) (cs : List Char) : Nat × Bool × List Char :=
  let run := (cs.takeWhile (· == quote)).length
  if run < 3 then (run, false, cs.drop run)
  else
    let kept := min (run - 3) 2
    (kept, true, cs.drop (kept + 3))

/-- Spaces and line ends. -/
def skipBlankLines : Nat → List Char → List Char
  | 0, cs => cs
  | fuel + 1, cs =>
    match newline? (skipSpaces cs) with
    | some rest => skipBlankLines fuel rest
    | none => skipSpaces cs

/-- What follows the spaces and line ends behind a backslash at the end of a line; `none` if another
character stands in its line. -/
def continued? (cs : List Char) : Option (List Char) :=
  (newline? (skipSpaces cs)).map fun rest => skipBlankLines (rest.length + 1) rest

/-- The characters of a string of several lines up to its closing quotes. Line ends are line feeds;
`escapes` says whether backslashes mean anything. -/
def multilineChars (quote : Char) (escapes : Bool) :
    Nat → List Char → List Char → Option (String × List Char)
  | 0, _, _ => none
  | fuel + 1, acc, cs =>
    match cs with
    | [] => none
    | c :: rest =>
      if c == quote then
        let (kept, closed, rest) := quoteRun quote cs
        let acc := List.replicate kept quote ++ acc
        if closed then some (String.ofList acc.reverse, rest)
        else multilineChars quote escapes fuel acc rest
      else if escapes && c == '\\' then
        match continued? rest with
        | some rest => multilineChars quote escapes fuel acc rest
        | none => do
          let (c, rest) ← escaped? rest
          multilineChars quote escapes fuel (c :: acc) rest
      else if isPrintable c then multilineChars quote escapes fuel (c :: acc) rest
      else do multilineChars quote escapes fuel ('\n' :: acc) (← newline? cs)

/-- A string of any of the four kinds. A line end behind opening triple quotes does not count. -/
def string? (cs : List Char) : Option (String × List Char) :=
  match cs with
  | '"' :: '"' :: '"' :: rest =>
    multilineChars '"' true (rest.length + 1) [] ((newline? rest).getD rest)
  | '"' :: rest => basicChars (rest.length + 1) [] rest
  | '\'' :: '\'' :: '\'' :: rest =>
    multilineChars '\'' false (rest.length + 1) [] ((newline? rest).getD rest)
  | '\'' :: rest => literalChars rest
  | _ => none

/-- A character of a key without quotes. -/
def isKeyChar (c : Char) : Bool := c.isAlphanum || c == '_' || c == '-'

/-- One part of a key. -/
def keyPart? (cs : List Char) : Option (String × List Char) :=
  match cs with
  | '"' :: rest => basicChars (rest.length + 1) [] rest
  | '\'' :: rest => literalChars rest
  | cs =>
    let name := cs.takeWhile isKeyChar
    if name.isEmpty then none else some (String.ofList name, cs.drop name.length)

/-- The parts of a key, with spaces and dots between them. -/
def keyParts : Nat → List Char → Option (List String × List Char)
  | 0, _ => none
  | fuel + 1, cs => do
    let (name, rest) ← keyPart? (skipSpaces cs)
    match skipSpaces rest with
    | '.' :: rest =>
      let (names, rest) ← keyParts fuel rest
      return (name :: names, rest)
    | rest => return ([name], rest)

/-- How deep keys, arrays and tables may be nested. -/
def maxDepth : Nat := 79

/-- A key: the names of the tables it goes through, and its last name. -/
def key? (cs : List Char) : Option ((List String × String) × List Char) := do
  let (names, rest) ← keyParts (cs.length + 1) cs
  guard (names.length ≤ maxDepth)
  return ((names.dropLast, names.getLastD ""), rest)

end RecordMapper.Toml
