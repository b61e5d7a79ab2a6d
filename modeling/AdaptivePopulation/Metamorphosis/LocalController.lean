import AdaptivePopulation.Dynamics.Strategy

/-!
# Local controllers

The policy by which a node changes its strategy.  Thresholds cut the axis of the integration measure
into regions, one strategy each; a change needs the measure to lie a margin past the threshold it
came over.  A decaying node whose state has collapsed is revived first of all.
-/

namespace AdaptivePopulation

/-- What a node's measure is compared with when a change of strategy is proposed. -/
structure LocalThresholds (α : Type) where
  /-- A measure below it calls for exploration. -/
  low : α
  /-- A measure above it calls for stabilisation. -/
  high : α
  /-- A measure above it, if there is one, calls for decay. -/
  overload : Option α
  /-- How far past a threshold the measure must be. -/
  deadZone : α
  /-- A decaying node with less state entropy is revived. -/
  minStateEntropy : α

namespace LocalThresholds

variable {α : Type} [Scalar α]

/-- The thresholds of a standard configuration. -/
def standard : LocalThresholds α := ⟨1.2, 2.0, none, 0.3, 0.05⟩

/-- The strategy of the region that a measure lies in. -/
def classify (t : LocalThresholds α) (phi : α) : Strategy :=
  if t.overload.any (· < phi) then .decay
  else if phi < t.low then .explore
  else if t.high < phi then .stabilize
  else .sync

/-- The place of a strategy's region along the axis of the measure. -/
def rank : Strategy → Nat
  | .explore => 0
  | .sync => 1
  | .stabilize => 2
  | .decay => 3

/-- The measure that has to lie in the target's region: the given one, moved back by the margin. -/
def withMargin (t : LocalThresholds α) (current target : Strategy) (phi : α) : α :=
  if rank current < rank target then phi - t.deadZone else phi + t.deadZone

/-- The strategy to change to, if any. -/
def propose (t : LocalThresholds α) (current : Strategy) (phi stateEntropy : α) :
    Option Strategy :=
  if current = .decay ∧ stateEntropy < t.minStateEntropy then some .explore
  else
    let target := t.classify phi
    if target = current then none
    else if t.classify (t.withMargin current target phi) = target then some target
    else none

end LocalThresholds

end AdaptivePopulation
