import AdaptivePopulation.Calendar.Date
import AdaptivePopulation.Fault

/-!
# Instants and durations

Moments of universal time to the nanosecond, and the lengths of time between them.  The calendar
ends with the year 262142 on one side and begins with the year -262143 on the other.
-/

namespace AdaptivePopulation

/-- A length of time in nanoseconds. -/
structure Duration where
  nanos : Int
  deriving DecidableEq, Repr

namespace Duration

/-- That many microseconds. -/
def ofMicros (n : Int) : Duration := ⟨1000 * n⟩

/-- That many milliseconds. -/
def ofMillis (n : Int) : Duration := ⟨1000000 * n⟩

/-- That many seconds. -/
def ofSeconds (n : Int) : Duration := ⟨1000000000 * n⟩

/-- The greatest number of seconds of a duration; its milliseconds fit sixty-four bits. -/
def greatestSeconds : Int := 9223372036854775

/-- A duration of whole seconds, within bounds. -/
def boundedSeconds (n : Int) : Except Fault Duration :=
  if n.natAbs ≤ greatestSeconds then .ok (ofSeconds n) else .error .durationOutOfRange

/-- The whole milliseconds of a duration, counted towards zero. -/
def millis (d : Duration) : Int := d.nanos.tdiv 1000000

end Duration

/-- A moment: seconds since the first of January 1970 and nanoseconds after them.  Within a leap
second there are more nanoseconds than a second has otherwise. -/
structure Instant where
  seconds : Int
  nanos : Nat
  deriving DecidableEq, Repr

namespace Instant

/-- The first moment of 1970. -/
def epoch : Instant := ⟨0, 0⟩

/-- The moment a number of nanoseconds after the epoch. -/
def ofNanos (n : Int) : Instant := ⟨n / 1000000000, (n % 1000000000).toNat⟩

/-- Whole milliseconds since the epoch, counted downwards. -/
def millis (t : Instant) : Int := 1000 * t.seconds + t.nanos / 1000000

/-- The order of time. -/
def NotLater (s t : Instant) : Prop :=
  s.seconds < t.seconds ∨ s.seconds = t.seconds ∧ s.nanos ≤ t.nanos

instance : LE Instant := ⟨NotLater⟩

instance (s t : Instant) : Decidable (s ≤ t) := inferInstanceAs (Decidable (_ ∨ _))

/-- The first second of the calendar. -/
def firstSecond : Int := 86400 * Calendar.Date.toDays ⟨-262143, 1, 1⟩

/-- The last second of the calendar. -/
def lastSecond : Int := 86400 * Calendar.Date.toDays ⟨262143, 1, 1⟩ - 1

/-- The second of the instant is one that the calendar has a date for. -/
def InCalendar (t : Instant) : Prop := firstSecond ≤ t.seconds ∧ t.seconds ≤ lastSecond

instance (t : Instant) : Decidable t.InCalendar := inferInstanceAs (Decidable (_ ∧ _))

/-- The moment of a second and the nanoseconds after it.  Only the last second of a minute can be
followed by a leap second. -/
def ofParts? (seconds : Int) (nanos : Nat) : Option Instant :=
  let t : Instant := ⟨seconds, nanos⟩
  if (nanos < 1000000000 ∨ seconds % 60 = 59 ∧ nanos < 2000000000) ∧ t.InCalendar then some t
  else none

/-- The moment a duration before another.  The leap second that the latter lies in, if it does,
takes time; no other one is known. -/
def back (t : Instant) (d : Duration) : Instant :=
  let nanos := t.nanos - d.nanos
  if t.nanos < 1000000000 ∨ nanos < 1000000000 then ofNanos (1000000000 * t.seconds + nanos)
  else if nanos < 2000000000 then ⟨t.seconds, nanos.toNat⟩
  else ofNanos (1000000000 * (t.seconds - 1) + nanos)

/-- The moment a duration earlier, within the calendar. -/
def earlierBy (t : Instant) (d : Duration) : Except Fault Instant :=
  if (t.back d).InCalendar then .ok (t.back d) else .error .instantOutOfRange

end Instant

end AdaptivePopulation
