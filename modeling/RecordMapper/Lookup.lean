import RecordMapper.Text.LetterCase
import RecordMapper.Value.Text

/-!
Tests of one value.

A test that compares with a value holds only of values that are ordered with it. Null passes no test but
the two that ask for it.
-/

namespace RecordMapper

/-- A test of one value. -/
inductive Lookup
  /-- Neither less nor greater; null for null. -/
  | exact (v : Value)
  /-- Texts that agree up to letter case; other values that are equal. -/
  | iexact (v : Value)
  | contains (part : String)
  | icontains (part : String)
  /-- Neither less nor greater than one of the values. -/
  | oneOf (vs : List Value)
  | gt (v : Value)
  | gte (v : Value)
  | lt (v : Value)
  | lte (v : Value)
  | startsWith (part : String)
  | istartsWith (part : String)
  | endsWith (part : String)
  | iendsWith (part : String)
  /-- At least the first value and at most the second. -/
  | range (low high : Value)
  | isNull (expected : Bool)
  deriving Repr, Inhabited, DecidableEq

/-- Whether one text occurs in another. -/
def hasInfix (part : List Char) : List Char → Bool
  | [] => part.isEmpty
  | c :: cs => part.isPrefixOf (c :: cs) || hasInfix part cs

namespace Lookup

/-- Whether the text of a value, in lower case if `fold` is set, stands in a relation to a part. -/
def onText (fold : Bool) (rel : List Char → List Char → Bool) (part : String) (v : Value) : Bool :=
  let shown := v.render
  if fold then rel (lowerText part).toList (lowerText shown).toList
  else rel part.toList shown.toList

/-- Whether a value is ordered with another in one of the given ways. -/
def ordered (v w : Value) (ways : List Ordering) : Bool :=
  match v.compare? w with
  | some o => ways.contains o
  | none => false

/-- Whether a value that is not null passes. -/
def holdsOf (l : Lookup) (v : Value) : Bool :=
  match l with
  | .exact w => ordered v w [.eq]
  | .iexact w =>
    match v, w with
    | .text a, .text b => lowerText a == lowerText b
    | _, _ => v.equiv w
  | .contains part => onText false hasInfix part v
  | .icontains part => onText true hasInfix part v
  | .oneOf vs => vs.any fun w => ordered v w [.eq]
  | .gt w => ordered v w [.gt]
  | .gte w => ordered v w [.gt, .eq]
  | .lt w => ordered v w [.lt]
  | .lte w => ordered v w [.lt, .eq]
  | .startsWith part => onText false List.isPrefixOf part v
  | .istartsWith part => onText true List.isPrefixOf part v
  | .endsWith part => onText false List.isSuffixOf part v
  | .iendsWith part => onText true List.isSuffixOf part v
  | .range low high => ordered v low [.gt, .eq] && ordered v high [.lt, .eq]
  | .isNull expected => !expected

/-- Whether a value passes the test. -/
def holds (l : Lookup) (v : Value) : Bool :=
  if v.isNull then
    match l with
    | .isNull expected => expected
    | .exact .null => true
    | _ => false
  else
    match l with
    | .exact .null => false
    | l => l.holdsOf v

/-- The word for a test. -/
def name : Lookup → String
  | .exact _ => "exact"
  | .iexact _ => "iexact"
  | .contains _ => "contains"
  | .icontains _ => "icontains"
  | .oneOf _ => "in"
  | .gt _ => "gt"
  | .gte _ => "gte"
  | .lt _ => "lt"
  | .lte _ => "lte"
  | .startsWith _ => "startswith"
  | .istartsWith _ => "istartswith"
  | .endsWith _ => "endswith"
  | .iendsWith _ => "iendswith"
  | .range .. => "range"
  | .isNull _ => "isnull"

/-- What a test compares with, as one value. -/
def operand : Lookup → Value
  | .exact v | .iexact v | .gt v | .gte v | .lt v | .lte v => v
  | .contains part | .icontains part | .startsWith part | .istartsWith part | .endsWith part
  | .iendsWith part => .text part
  | .oneOf vs => .list vs
  | .range low high => .list [low, high]
  | .isNull expected => .bool expected

/-- The test of a word and a value to compare with: tests of texts take the value's text, a range the
first two of its items, and a test for null holds unless the value says otherwise. -/
def ofName? (word : String) (v : Value) : Option Lookup :=
  [.exact v, .iexact v, .contains v.render, .icontains v.render, .oneOf v.items, .gt v, .gte v, .lt v,
    .lte v, .startsWith v.render, .istartsWith v.render, .endsWith v.render, .iendsWith v.render,
    .range (v.items.getD 0 .null) (v.items.getD 1 .null), .isNull (v.asBool?.getD true)].find?
    fun (l : Lookup) => l.name == word

/-- Equality of tests, their values compared as conditions compare whole values. -/
def equiv : Lookup → Lookup → Bool
  | .exact a, .exact b => a.equiv b
  | .iexact a, .iexact b => a.equiv b
  | .oneOf as, .oneOf bs => Value.equivItems as bs
  | .gt a, .gt b => a.equiv b
  | .gte a, .gte b => a.equiv b
  | .lt a, .lt b => a.equiv b
  | .lte a, .lte b => a.equiv b
  | .range a b, .range c d => a.equiv c && b.equiv d
  | a, b => decide (a = b)

end Lookup

end RecordMapper
