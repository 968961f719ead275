import RecordMapper.Text.Dotted
import RecordMapper.Value.Record

/-!
Scopes: trees of field names, built from dotted paths.
-/

namespace RecordMapper

/-- The names of one level, in the order they were first given, each with the scope below it. -/
inductive Scope
  | mk (children : List (String × Scope))
  deriving Repr

namespace Scope

instance : Inhabited Scope := ⟨.mk []⟩

def empty : Scope := .mk []

def children : Scope → List (String × Scope)
  | .mk cs => cs

/-- Whether no name is given. -/
def isEmpty (s : Scope) : Bool := s.children.isEmpty

/-- The names of this level. -/
def names (s : Scope) : List String := s.children.map Prod.fst

/-- The scope below a name of this level. -/
def child? (s : Scope) (name : String) : Option Scope := s.children.lookup name

/-- Whether a name is given at this level. -/
def contains (s : Scope) (name : String) : Bool := (s.child? name).isSome

/-- Whether a name is given at this level and nothing below it. -/
def isLeaf (s : Scope) (name : String) : Bool :=
  match s.child? name with
  | some below => below.isEmpty
  | none => false

/-- The scope with the names of one path, each below the one before. -/
def insertNames : List String → Scope → Scope
  | [], s => s
  | name :: rest, s =>
    .mk (insertEntry s.children name (insertNames rest ((s.child? name).getD empty)))

/-- The names of a dotted path; empty ones do not count. -/
def pathNames (path : String) : List String := (dottedNames path).filter (· != "")

/-- The scope of a list of dotted paths. -/
def ofPaths (paths : List String) : Scope :=
  paths.foldl (fun s path => insertNames (pathNames path) s) empty

/-- Puts a named text at its place in the order of names. -/
def placeByName (e : String × String) : List (String × String) → List (String × String)
  | [] => [e]
  | f :: rest => if e.1 ≤ f.1 then e :: f :: rest else f :: placeByName e rest

/-- Named texts in the order of their names. -/
def sortedByName (entries : List (String × String)) : List (String × String) :=
  entries.foldr placeByName []

mutual

/-- A text for the tree that does not depend on the order of the paths. -/
def canonical : Scope → String
  | .mk cs => ",".intercalate ((sortedByName (canonicalChildren cs)).map Prod.snd)

/-- The names of a level with their texts: what is below a name stands in parentheses behind it. -/
def canonicalChildren : List (String × Scope) → List (String × String)
  | [] => []
  | (name, below) :: rest =>
    (name, if below.isEmpty then name else name ++ "(" ++ canonical below ++ ")")
      :: canonicalChildren rest

end

mutual

/-- The number of names in the tree. -/
def size : Scope → Nat
  | .mk cs => childrenSize cs

/-- The number of names in the trees of a level. -/
def childrenSize : List (String × Scope) → Nat
  | [] => 0
  | (_, below) :: rest => 1 + size below + childrenSize rest

end

end Scope

end RecordMapper
