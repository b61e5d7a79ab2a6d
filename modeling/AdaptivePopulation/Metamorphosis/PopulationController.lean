import AdaptivePopulation.Dynamics.PopulationMode

/-!
# Population controllers

The policy by which the population changes its mode.  An exponentially smoothed measure is compared
with a band around a target; a switch needs a crossing of the band and a minimum number of
observations since the last switch.
-/

namespace AdaptivePopulation

/-- How the population mode follows the measure. -/
structure HysteresisConfig (α : Type) where
  /-- The measure that the population is steered around. -/
  target : α
  /-- The half-width of the band relative to the target. -/
  hysteresis : α
  /-- The weight of a new sample in the smoothed measure. -/
  smoothing : α
  /-- The number of observations between two switches. -/
  minDwell : Nat

namespace HysteresisConfig

variable {α : Type} [Scalar α]

/-- The controller of a standard configuration. -/
def standard : HysteresisConfig α := ⟨1.6, 0.1, 0.3, 3⟩

/-- The lower and upper end of the band in which nothing changes. -/
def band (c : HysteresisConfig α) : α × α :=
  (c.target * (1.0 - c.hysteresis), c.target * (1.0 + c.hysteresis))

/-- The weight of a new sample, kept at least as large as the gap after one and at most one. -/
def weight (c : HysteresisConfig α) : α :=
  Scalar.clamp (1.0 / 4503599627370496.0) 1.0 c.smoothing

end HysteresisConfig

/-- The controller of the population mode between two observations. -/
structure PopulationController (α : Type) where
  config : HysteresisConfig α
  mode : PopulationMode
  /-- The smoothed measure, none before the first observation. -/
  smoothed : Option α
  /-- The number of observations since the last switch, as far as they are counted. -/
  sinceSwitch : Nat

namespace PopulationController

variable {α : Type} [Scalar α]

/-- How far observations are counted: as far as sixty-four bits go. -/
def countLimit : Nat := Nat.pow 2 64 - 1

/-- A controller before its first observation, not held back by the dwell. -/
def start (config : HysteresisConfig α) : PopulationController α :=
  ⟨config, .exploration, none, config.minDwell⟩

/-- The smoothed measure after a sample. -/
def smooth (c : PopulationController α) (phi : α) : α :=
  match c.smoothed with
  | some previous => previous + c.config.weight * (phi - previous)
  | none => phi

/-- The mode that a smoothed measure calls for, none inside the band. -/
def desired? (c : PopulationController α) (s : α) : Option PopulationMode :=
  let (lower, upper) := c.config.band
  if s < lower then some .exploration
  else if upper < s then
    match c.mode with
    | .exploration => some .consolidation
    | .consolidation | .transcendence => some .transcendence
  else none

/-- One observation: the controller after it, and the modes before and after a switch. -/
def observe (c : PopulationController α) (phi : α) :
    Option (PopulationMode × PopulationMode) × PopulationController α :=
  let s := c.smooth phi
  let c := { c with smoothed := some s, sinceSwitch := min (c.sinceSwitch + 1) countLimit }
  match c.desired? s with
  | none => (none, c)
  | some mode =>
    if mode = c.mode ∨ c.sinceSwitch < c.config.minDwell then (none, c)
    else (some (c.mode, mode), { c with mode, sinceSwitch := 0 })

end PopulationController

end AdaptivePopulation
