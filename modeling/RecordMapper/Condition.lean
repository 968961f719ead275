import RecordMapper.Lookup

/-!
Conditions on rows: tests of the values along paths, combined by conjunction, disjunction and negation.
-/

namespace RecordMapper

/-- A condition on a row. A path that leads to several values passes when one of them does. -/
inductive Condition
  | test (path : String) (lookup : Lookup)
  | all (parts : List Condition)
  | any (parts : List Condition)
  | not (part : Condition)
  deriving Repr, Inhabited

namespace Condition

/-- The condition that holds of every row. -/
def always : Condition := .all []

/-- Whether this is a conjunction or a disjunction of nothing. -/
def isEmpty : Condition → Bool
  | .all parts => parts.isEmpty
  | .any parts => parts.isEmpty
  | _ => false

mutual

/-- The paths that occur, in order and with repetitions. -/
def paths : Condition → List String
  | .test path _ => [path]
  | .all parts => partPaths parts
  | .any parts => partPaths parts
  | .not part => paths part

/-- The paths of several conditions. -/
def partPaths : List Condition → List String
  | [] => []
  | q :: rest => paths q ++ partPaths rest

end

mutual

/-- The condition with every path changed. -/
def mapPaths (f : String → String) : Condition → Condition
  | .test path lookup => .test (f path) lookup
  | .all parts => .all (mapPartPaths f parts)
  | .any parts => .any (mapPartPaths f parts)
  | .not part => .not (mapPaths f part)

/-- Part by part. -/
def mapPartPaths (f : String → String) : List Condition → List Condition
  | [] => []
  | q :: rest => mapPaths f q :: mapPartPaths f rest

end

/-- The condition seen from a row from which `path` leads to the rows it is about. -/
def under (path : String) (q : Condition) : Condition := q.mapPaths fun p => path ++ "." ++ p

/-- Both conditions; conjunctions are joined into one. -/
def and : Condition → Condition → Condition
  | .all ps, .all qs => .all (ps ++ qs)
  | .all ps, q => .all (ps ++ [q])
  | p, .all qs => .all (p :: qs)
  | p, q => .all [p, q]

/-- One of both conditions; disjunctions are joined into one. -/
def or : Condition → Condition → Condition
  | .any ps, .any qs => .any (ps ++ qs)
  | .any ps, q => .any (ps ++ [q])
  | p, .any qs => .any (p :: qs)
  | p, q => .any [p, q]

/-- The opposite condition; the opposite of a negation is what it negates. -/
def negate : Condition → Condition
  | .not part => part
  | q => .not q

mutual

/-- Equality of conditions, their values compared as conditions compare whole values. -/
def equiv : Condition → Condition → Bool
  | .test p l, .test q m => p == q && l.equiv m
  | .all ps, .all qs => equivParts ps qs
  | .any ps, .any qs => equivParts ps qs
  | .not p, .not q => equiv p q
  | _, _ => false

/-- Part by part. -/
def equivParts : List Condition → List Condition → Bool
  | [], [] => true
  | p :: ps, q :: qs => equiv p q && equivParts ps qs
  | _, _ => false

end

end Condition

end RecordMapper
