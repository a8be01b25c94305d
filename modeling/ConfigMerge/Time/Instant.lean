import ConfigMerge.Time.Calendar

/-!
# Time/Instant — points in time with leap seconds

An `Instant` counts seconds from the start of year 1 in UTC and nanoseconds within the second.  The
nanoseconds of a leap second go on from `10 ^ 9`, so that it lies between its neighbours.  A
`Timestamp` is an instant cut to whole seconds, as resource metadata keeps it.
-/

namespace ConfigMerge

/-- A point in time. -/
structure Instant where
  seconds : Int
  nanos : Nat := 0
deriving DecidableEq

namespace Instant

/-- The later of two instants has more seconds or, within a second, more nanoseconds. -/
def isAfter (a b : Instant) : Bool :=
  b.seconds < a.seconds || (a.seconds = b.seconds && b.nanos < a.nanos)

/-- Whether the instant lies in a leap second. -/
def inLeapSecond (t : Instant) : Bool := 1_000_000_000 ≤ t.nanos

/-- The instant a number of seconds later.  Time that leaves a leap second counts on from the second
before it, and time that goes back from one from the second after. -/
def addSeconds (t : Instant) (n : Int) : Instant :=
  if t.inLeapSecond then
    if 0 < n then ⟨t.seconds + n, t.nanos - 1_000_000_000⟩
    else if n < 0 then ⟨t.seconds + 1 + n, t.nanos - 1_000_000_000⟩
    else t
  else ⟨t.seconds + n, t.nanos⟩

/-- The date on which the instant falls. -/
def date (t : Instant) : Date := Date.ofDay (t.seconds / 86400)

/-- The second of the day. -/
def secondOfDay (t : Instant) : Nat := (t.seconds % 86400).toNat

end Instant

/-- A point in time of whole seconds, which may be a leap second. -/
structure Timestamp where
  seconds : Int
  leap : Bool := false
deriving DecidableEq

/-- The whole second in which an instant lies. -/
def Instant.toTimestamp (t : Instant) : Timestamp := ⟨t.seconds, t.inLeapSecond⟩

/-- The start of a whole second. -/
def Timestamp.toInstant (t : Timestamp) : Instant :=
  ⟨t.seconds, if t.leap then 1_000_000_000 else 0⟩

end ConfigMerge
