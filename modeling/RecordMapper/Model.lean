import RecordMapper.Failure
import RecordMapper.Field

/-!
Models: named collections of fields with one primary key, possibly extending a parent model.
-/

namespace RecordMapper

/-- A model as it stands in a registry. A model with a parent shares the parent's primary key and keeps
only its own columns in its table. -/
structure Model where
  name : String
  parent : Option String
  /-- The name of the primary key. -/
  pkName : String
  /-- The declared fields. -/
  own : List Field
  /-- The other sides of relations that point at this model. -/
  reverse : List Field
  deriving DecidableEq, Repr, Inhabited

namespace Model

/-- The fields of this model alone, without inherited ones. -/
def localFields (m : Model) : List Field := m.own ++ m.reverse

/-- The field that a name stands for; `pk` stands for the primary key of any model. -/
def fieldName (m : Model) (name : String) : String := if name == "pk" then m.pkName else name

end Model

/-- The declaration of a model. -/
structure ModelDecl where
  name : String
  parent : Option String := none
  fields : List Field
  deriving Repr, Inhabited

end RecordMapper
