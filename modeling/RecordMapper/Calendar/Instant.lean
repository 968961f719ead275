import RecordMapper.Calendar.Date

/-!
Points in time in universal time, to the nanosecond, and their text.
-/

namespace RecordMapper

/-- A point in time: whole seconds since the start of 1970 and nanoseconds within the second. A leap
second is written as the second before it with a billion or more nanoseconds. -/
structure Instant where
  seconds : Int
  nanos : Nat
  deriving DecidableEq, Hashable, Repr, Inhabited

namespace Instant

/-- The earlier of two instants is the lesser. -/
def order (a b : Instant) : Ordering :=
  (compare a.seconds b.seconds).then (compare a.nanos b.nanos)

/-- The day an instant falls on. -/
def date (t : Instant) : Date := Date.ofDays (Int.fdiv t.seconds 86400)

/-- The instant of a day, a second of that day and nanoseconds, seen from a place that is `offset`
seconds ahead of universal time. -/
def ofParts (date : Date) (second nanos : Nat) (offset : Int) : Instant :=
  ⟨date.toDays * 86400 + Int.ofNat second - offset, nanos⟩

/-- Later by a number of nanoseconds. -/
def later (t : Instant) (nanos : Nat) : Instant :=
  let total := t.nanos + nanos
  ⟨t.seconds + Int.ofNat (total / 1000000000), total % 1000000000⟩

/-- The fraction of a second with the fewest of three, six or nine digits that are exact. -/
def fractionText (nanos : Nat) : String :=
  if nanos = 0 then ""
  else if nanos % 1000000 = 0 then "." ++ padded 3 (nanos / 1000000)
  else if nanos % 1000 = 0 then "." ++ padded 6 (nanos / 1000)
  else "." ++ padded 9 nanos

/-- Day, `T`, time of day and fraction, without a zone. -/
def localText (t : Instant) : String :=
  let second := (Int.fmod t.seconds 86400).toNat
  let shown := second % 60 + t.nanos / 1000000000
  t.date.text ++ "T" ++ padded 2 (second / 3600) ++ ":" ++ padded 2 (second / 60 % 60) ++ ":"
    ++ padded 2 shown ++ fractionText (t.nanos % 1000000000)

/-- The text of an instant with its zone as an offset. -/
def text (t : Instant) : String := t.localText ++ "+00:00"

/-- The text of an instant with its zone as a letter. -/
def zuluText (t : Instant) : String := t.localText ++ "Z"

end Instant

end RecordMapper
