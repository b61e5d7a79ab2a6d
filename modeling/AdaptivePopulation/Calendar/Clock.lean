import AdaptivePopulation.Calendar.Instant
import AdaptivePopulation.NodeId

/-!
# Clocks

An operation reads the clock anew whenever it needs the time.  Nothing is said about the readings:
the clock may be set back between any two of them, and it may read the same twice.
-/

namespace AdaptivePopulation

/-- What an operation reads the clock for. -/
inductive Occasion where
  /-- The rate of a node's interactions is asked for. -/
  | rate (node : NodeId)
  /-- The mean intensity of a node's interactions is asked for. -/
  | intensity (node : NodeId)
  /-- The block with an index is recorded. -/
  | block (index : Nat)
  /-- The edge with a number is added. -/
  | edge (id : Nat)

/-- What the clock reads on each occasion during an operation. -/
abbrev Clock := Occasion → Instant

/-- A clock that stands still. -/
def Clock.still (now : Instant) : Clock := fun _ => now

instance : Coe Instant Clock := ⟨Clock.still⟩

end AdaptivePopulation
