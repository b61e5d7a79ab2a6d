/-!
# Faults

The ways in which a computation can break down instead of answering.  A fault is not an error of the
domain: whoever meets one stops.
-/

namespace AdaptivePopulation

/-- How a computation breaks down. -/
inductive Fault where
  /-- An entry of an empty matrix is read. -/
  | emptyMatrix
  /-- The interval between two analyses is zero. -/
  | zeroInterval
  /-- A number of seconds is too large for a duration. -/
  | durationOutOfRange
  /-- A moment lies outside the calendar. -/
  | instantOutOfRange
  deriving DecidableEq, Repr

/-- Why a computation has no answer: it was refused, or it broke down. -/
inductive Failure (ε : Type) where
  | refused (error : ε)
  | fault (f : Fault)

end AdaptivePopulation
