import RecordMapper.Text.CaseTable

/-!
Lower-case and upper-case forms of texts.

Every character is replaced by its form in `CaseTable`. The one rule that looks around a character is
that of the Greek capital sigma, whose lower-case form at the end of a word differs.
-/

namespace RecordMapper

/-- The character that a row of a case table gives, if the row speaks of it. -/
def CaseTable.shifted? (row : Nat × Nat × Nat × Int) (c : Nat) : Option Char :=
  let (first, last, step, shift) := row
  if first ≤ c && c ≤ last && (c - first) % step == 0 then
    some (Char.ofNat (Int.ofNat c + shift).toNat)
  else none

/-- The form of a character by a table of long forms and a table of shifts. -/
def CaseTable.form (long : List (Nat × List Nat)) (short : List (Nat × Nat × Nat × Int)) (c : Char) :
    List Char :=
  match long.lookup c.toNat with
  | some forms => forms.map Char.ofNat
  | none => [(short.findSome? fun row => CaseTable.shifted? row c.toNat).getD c]

/-- The lower-case form of a character by itself. -/
def lowerChar (c : Char) : List Char :=
  if c.toNat < 128 then [c.toLower] else CaseTable.form CaseTable.longLower CaseTable.lower c

/-- The upper-case form of a character. -/
def upperChar (c : Char) : List Char :=
  if c.toNat < 128 then [c.toUpper] else CaseTable.form CaseTable.longUpper CaseTable.upper c

/-- Whether a character lies in one of the ranges. -/
def inRanges (ranges : List (Nat × Nat)) (c : Char) : Bool :=
  ranges.any fun (first, last) => first ≤ c.toNat && c.toNat ≤ last

/-- Whether the first character that is not inner to a word is a letter with case. -/
def meetsLetter (cs : List Char) : Bool :=
  match cs.dropWhile (inRanges CaseTable.wordInner) with
  | [] => false
  | c :: _ => inRanges CaseTable.cased c

/-- Lower-cases the characters after `before`, which is kept in reverse. -/
def lowerChars (before : List Char) : List Char → List Char
  | [] => []
  | c :: rest =>
    let form :=
      if c = 'Σ' then (if meetsLetter before && !meetsLetter rest then ['ς'] else ['σ'])
      else lowerChar c
    form ++ lowerChars (c :: before) rest

/-- The lower-case form of a text. -/
def lowerText (s : String) : String := String.ofList (lowerChars [] s.toList)

/-- The upper-case form of a text. -/
def upperText (s : String) : String := String.ofList (s.toList.flatMap upperChar)

end RecordMapper
