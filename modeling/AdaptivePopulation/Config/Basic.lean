import AdaptivePopulation.Metamorphosis.LocalController
import AdaptivePopulation.Metamorphosis.PopulationController
import AdaptivePopulation.Spectrum.Integration

/-!
# Engine configuration

Everything that a run is set up with, the defaults, and the rules that a configuration has to keep
before a population can be built from it.
-/

namespace AdaptivePopulation

/-- What a population is built from and run with. -/
structure EngineConfig where
  /-- The size of the population. -/
  nodeCount : Nat
  /-- The length of every state. -/
  stateDim : Nat
  /-- The number of snapshots that a node keeps. -/
  historyCapacity : Nat
  /-- The length of a step. -/
  dt : Float
  /-- The number of ticks between analyses. -/
  analysisInterval : Nat
  /-- The number of ticks between status reports, zero for none. -/
  reportInterval : Nat
  seed : Option UInt64
  /-- How far back activity counts for coherence. -/
  coherenceWindowSeconds : Int
  spectral : SpectralConfig Float
  thresholds : LocalThresholds Float
  hysteresis : HysteresisConfig Float

/-- A rule that a configuration breaks. -/
inductive InvalidConfig where
  | noNodes
  | noDimensions
  | historyTooShort
  | samplesExceedHistory
  | stepNotPositive
  | thresholdsOutOfOrder
  | negativeDeadZone
  | hysteresisOutOfRange
  | smoothingOutOfRange
  | windowNotPositive
  deriving DecidableEq, Repr

/-- The rule that a configuration breaks, as it is reported. -/
def InvalidConfig.rule : InvalidConfig → String
  | .noNodes => "node_count must be at least 1"
  | .noDimensions => "state_dim must be at least 1"
  | .historyTooShort => "history_capacity must be at least 2"
  | .samplesExceedHistory => "spectral.min_samples exceeds history_capacity"
  | .stepNotPositive => "dt must be positive and finite"
  | .thresholdsOutOfOrder => "local.low must not exceed local.high"
  | .negativeDeadZone => "local.dead_zone must be non-negative"
  | .hysteresisOutOfRange => "global.hysteresis must lie in (0, 1)"
  | .smoothingOutOfRange => "global.smoothing must lie in (0, 1]"
  | .windowNotPositive => "coherence_window_secs must be positive"

/-- Why a configuration is refused. -/
inductive ConfigError where
  | invalid (cause : InvalidConfig)
  /-- A variable of the environment has a value that cannot be read. -/
  | unreadable (name value : String)
  deriving DecidableEq, Repr

/-- The text of an error. -/
def ConfigError.message : ConfigError → String
  | .invalid cause => "Invalid configuration: " ++ cause.rule
  | .unreadable name value => "Cannot parse " ++ name ++ "=" ++ value

namespace EngineConfig

/-- The configuration of a population about which nothing is said. -/
def standard : EngineConfig where
  nodeCount := 16
  stateDim := 64
  historyCapacity := 20
  dt := 0.1
  analysisInterval := 5
  reportInterval := 10
  seed := none
  coherenceWindowSeconds := 60
  spectral := .standard
  thresholds := .standard
  hysteresis := .standard

/-! ## Building -/

/-- The configuration with another size of the population. -/
def withNodes (c : EngineConfig) (count : Nat) : EngineConfig := { c with nodeCount := count }

/-- The configuration with another length of the states. -/
def withStateDim (c : EngineConfig) (dim : Nat) : EngineConfig := { c with stateDim := dim }

/-- Sets the capacity, and lowers the number of samples that the analysis waits for to it. -/
def withHistory (c : EngineConfig) (capacity : Nat) : EngineConfig :=
  { c with
    historyCapacity := capacity
    spectral := { c.spectral with minSamples := min c.spectral.minSamples capacity } }

/-- The configuration with another time step. -/
def withStep (c : EngineConfig) (dt : Float) : EngineConfig := { c with dt }

/-- The configuration with a fixed seed. -/
def withSeed (c : EngineConfig) (seed : UInt64) : EngineConfig := { c with seed := some seed }

/-- The configuration with another number of ticks between analyses. -/
def withAnalysisInterval (c : EngineConfig) (ticks : Nat) : EngineConfig :=
  { c with analysisInterval := ticks }

/-- The configuration with another number of ticks between status reports. -/
def withReportInterval (c : EngineConfig) (ticks : Nat) : EngineConfig :=
  { c with reportInterval := ticks }

/-- The configuration with another controller of the population mode. -/
def withHysteresis (c : EngineConfig) (hysteresis : HysteresisConfig Float) : EngineConfig :=
  { c with hysteresis }

/-- The configuration with other thresholds for the nodes. -/
def withThresholds (c : EngineConfig) (thresholds : LocalThresholds Float) : EngineConfig :=
  { c with thresholds }

/-! ## Validation -/

/-- The first rule that a configuration breaks. -/
def violation? (c : EngineConfig) : Option InvalidConfig :=
  if c.nodeCount = 0 then some .noNodes
  else if c.stateDim = 0 then some .noDimensions
  else if c.historyCapacity < 2 then some .historyTooShort
  else if c.historyCapacity < c.spectral.minSamples then some .samplesExceedHistory
  else if ¬ (c.dt.isFinite ∧ 0.0 < c.dt) then some .stepNotPositive
  else if c.thresholds.high < c.thresholds.low then some .thresholdsOutOfOrder
  else if c.thresholds.deadZone < 0.0 then some .negativeDeadZone
  else if ¬ (0.0 < c.hysteresis.hysteresis ∧ c.hysteresis.hysteresis < 1.0) then
    some .hysteresisOutOfRange
  else if ¬ (0.0 < c.hysteresis.smoothing ∧ c.hysteresis.smoothing ≤ 1.0) then
    some .smoothingOutOfRange
  else if c.coherenceWindowSeconds ≤ 0 then some .windowNotPositive
  else none

/-- Refuses a configuration that breaks a rule. -/
def validate (c : EngineConfig) : Except ConfigError Unit :=
  match c.violation? with
  | some cause => .error (.invalid cause)
  | none => .ok ()

end EngineConfig

end AdaptivePopulation
