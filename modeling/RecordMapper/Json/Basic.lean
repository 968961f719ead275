import RecordMapper.Decimal.Shortest

/-!
JSON documents. The members of an object stand in the order of their names, each name once.

One document is laid over another member by member where both are objects; anything else replaces what it
is laid over.
-/

namespace RecordMapper

/-- A number of a document: an integer between `-2 ^ 63` and `2 ^ 64 - 1`, or a finite float. -/
inductive Json.Number
  | integer (n : Int)
  | float (x : Binary64)
  deriving DecidableEq, Repr, Inhabited

/-- A JSON document. -/
inductive Json
  | null
  | bool (b : Bool)
  | number (n : Json.Number)
  | text (s : String)
  | array (items : List Json)
  | object (members : List (String × Json))
  deriving Repr, Inhabited

namespace Json

mutual

/-- Whether two documents are the same, floats by their words. -/
def same : Json → Json → Bool
  | .null, .null => true
  | .bool a, .bool b => a == b
  | .number a, .number b => decide (a = b)
  | .text a, .text b => a == b
  | .array as, .array bs => sameItems as bs
  | .object as, .object bs => sameMembers as bs
  | _, _ => false

/-- Item by item. -/
def sameItems : List Json → List Json → Bool
  | [], [] => true
  | a :: as, b :: bs => same a b && sameItems as bs
  | _, _ => false

/-- Member by member, names included. -/
def sameMembers : List (String × Json) → List (String × Json) → Bool
  | [], [] => true
  | (k, a) :: as, (l, b) :: bs => k == l && same a b && sameMembers as bs
  | _, _ => false

end

mutual

theorem same_iff : ∀ a b : Json, same a b = true ↔ a = b
  | .null, b => by cases b <;> simp [same]
  | .bool _, b => by cases b <;> simp [same]
  | .number _, b => by cases b <;> simp [same]
  | .text _, b => by cases b <;> simp [same]
  | .array as, .array bs => by simp [same, sameItems_iff as bs]
  | .array _, .null | .array _, .bool _ | .array _, .number _ | .array _, .text _
  | .array _, .object _ => by simp [same]
  | .object as, .object bs => by simp [same, sameMembers_iff as bs]
  | .object _, .null | .object _, .bool _ | .object _, .number _ | .object _, .text _
  | .object _, .array _ => by simp [same]

theorem sameItems_iff : ∀ as bs : List Json, sameItems as bs = true ↔ as = bs
  | [], [] => by simp [sameItems]
  | [], _ :: _ => by simp [sameItems]
  | _ :: _, [] => by simp [sameItems]
  | a :: as, b :: bs => by simp [sameItems, same_iff a b, sameItems_iff as bs]

theorem sameMembers_iff : ∀ as bs : List (String × Json), sameMembers as bs = true ↔ as = bs
  | [], [] => by simp [sameMembers]
  | [], _ :: _ => by simp [sameMembers]
  | _ :: _, [] => by simp [sameMembers]
  | (k, a) :: as, (l, b) :: bs => by
    simp [sameMembers, same_iff a b, sameMembers_iff as bs]

end

instance : DecidableEq Json := fun a b => decidable_of_iff _ (same_iff a b)

/-- Equality of numbers by value: a float equals a float of the same value, both zeros included, and
never an integer. -/
def Number.numEq : Number → Number → Bool
  | .integer a, .integer b => a == b
  | .float a, .float b => a.numEq b
  | _, _ => false

mutual

/-- Equality of documents with numbers compared by value. -/
def equiv : Json → Json → Bool
  | .null, .null => true
  | .bool a, .bool b => a == b
  | .number a, .number b => a.numEq b
  | .text a, .text b => a == b
  | .array as, .array bs => equivItems as bs
  | .object as, .object bs => equivMembers as bs
  | _, _ => false

/-- Item by item. -/
def equivItems : List Json → List Json → Bool
  | [], [] => true
  | a :: as, b :: bs => equiv a b && equivItems as bs
  | _, _ => false

/-- Member by member; members stand in the order of their names. -/
def equivMembers : List (String × Json) → List (String × Json) → Bool
  | [], [] => true
  | (k, a) :: as, (l, b) :: bs => k == l && equiv a b && equivMembers as bs
  | _, _ => false

end

/-- The members with one more: it takes the place of the one with its name, or the place its name has
in the order. -/
def insertMember (key : String) (value : Json) : List (String × Json) → List (String × Json)
  | [] => [(key, value)]
  | (k, v) :: rest =>
    if key < k then (key, value) :: (k, v) :: rest
    else if key = k then (key, value) :: rest
    else (k, v) :: insertMember key value rest

/-- The object with the given members; of two with one name the later counts. -/
def ofMembers (members : List (String × Json)) : Json :=
  .object (members.foldl (fun acc (k, v) => insertMember k v acc) [])

/-- The member of an object with the given name. -/
def member? (j : Json) (key : String) : Option Json :=
  match j with
  | .object members => members.lookup key
  | _ => none

/-- An integer as a number. -/
def int (n : Int) : Json := .number (.integer n)

/-- A float as a number; one that is not finite has no such form and becomes null. -/
def ofFloat (x : Binary64) : Json := if x.isFinite then .number (.float x) else .null

/-- The number as a float. -/
def Number.toFloat : Number → Binary64
  | .integer n => Binary64.ofInt n
  | .float x => x

mutual

/-- A document with another laid over it. -/
def overlay (base top : Json) : Json :=
  match top with
  | .object members =>
    match base with
    | .object baseMembers => .object (overlayMembers baseMembers members)
    | _ => .object members
  | top => top
termination_by structural top

/-- The members of an object with those of another laid over them. -/
def overlayMembers (base top : List (String × Json)) : List (String × Json) :=
  match top with
  | [] => base
  | (name, v) :: rest =>
    let v := match base.lookup name with
      | some b => overlay b v
      | none => v
    overlayMembers (insertMember name v base) rest
termination_by structural top

end

end Json

end RecordMapper
