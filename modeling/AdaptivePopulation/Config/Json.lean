import AdaptivePopulation.Config.Basic
import AdaptivePopulation.Json.Decoder
import AdaptivePopulation.Json.Writer

/-!
# Configurations as JSON

Every field has a default, so that any of them may be left out.
-/

namespace AdaptivePopulation

open Json (Decoder Record)

namespace SpectralConfig

/-- The object that a spectral configuration is written as. -/
def toJson (c : SpectralConfig Float) : Json :=
  .obj [("min_samples", .ofNat c.minSamples), ("default_value", .ofFloat c.defaultValue),
    ("epsilon", .ofFloat c.epsilon), ("max_rotations", .ofNat c.maxRotations)]

/-- Reads a spectral configuration; an omitted field has its standard value. -/
def decode : Decoder (SpectralConfig Float) := fun depth d => do
  let r ← Record.read ["min_samples", "default_value", "epsilon", "max_rotations"] depth d
  let c : SpectralConfig Float := standard
  return {
    minSamples := ← r.withDefault "min_samples" Decoder.word c.minSamples
    defaultValue := ← r.withDefault "default_value" Decoder.float c.defaultValue
    epsilon := ← r.withDefault "epsilon" Decoder.float c.epsilon
    maxRotations := ← r.withDefault "max_rotations" Decoder.word c.maxRotations }

end SpectralConfig

namespace LocalThresholds

/-- The object that thresholds are written as. -/
def toJson (t : LocalThresholds Float) : Json :=
  .obj [("low", .ofFloat t.low), ("high", .ofFloat t.high),
    ("overload", .ofOption (t.overload.map .ofFloat)), ("dead_zone", .ofFloat t.deadZone),
    ("min_state_entropy", .ofFloat t.minStateEntropy)]

/-- Reads thresholds; an omitted field has its standard value. -/
def decode : Decoder (LocalThresholds Float) := fun depth d => do
  let r ← Record.read ["low", "high", "overload", "dead_zone", "min_state_entropy"] depth d
  let t : LocalThresholds Float := standard
  return {
    low := ← r.withDefault "low" Decoder.float t.low
    high := ← r.withDefault "high" Decoder.float t.high
    overload := ← r.withDefault "overload" (Decoder.optional Decoder.float) t.overload
    deadZone := ← r.withDefault "dead_zone" Decoder.float t.deadZone
    minStateEntropy := ← r.withDefault "min_state_entropy" Decoder.float t.minStateEntropy }

end LocalThresholds

namespace HysteresisConfig

/-- The object that the configuration of a controller is written as. -/
def toJson (c : HysteresisConfig Float) : Json :=
  .obj [("target", .ofFloat c.target), ("hysteresis", .ofFloat c.hysteresis),
    ("smoothing", .ofFloat c.smoothing), ("min_dwell", .ofNat c.minDwell)]

/-- Reads the configuration of a controller; an omitted field has its standard value. -/
def decode : Decoder (HysteresisConfig Float) := fun depth d => do
  let r ← Record.read ["target", "hysteresis", "smoothing", "min_dwell"] depth d
  let c : HysteresisConfig Float := standard
  return {
    target := ← r.withDefault "target" Decoder.float c.target
    hysteresis := ← r.withDefault "hysteresis" Decoder.float c.hysteresis
    smoothing := ← r.withDefault "smoothing" Decoder.float c.smoothing
    minDwell := ← r.withDefault "min_dwell" Decoder.word c.minDwell }

end HysteresisConfig

namespace EngineConfig

/-- The object that a configuration is written as. -/
def toJson (c : EngineConfig) : Json :=
  .obj [("node_count", .ofNat c.nodeCount), ("state_dim", .ofNat c.stateDim),
    ("history_capacity", .ofNat c.historyCapacity), ("dt", .ofFloat c.dt),
    ("analysis_interval", .ofNat c.analysisInterval), ("report_interval", .ofNat c.reportInterval),
    ("seed", .ofOption (c.seed.map fun s => .ofNat s.toNat)),
    ("coherence_window_secs", .num (.int c.coherenceWindowSeconds)),
    ("spectral", c.spectral.toJson), ("local", c.thresholds.toJson),
    ("global", c.hysteresis.toJson)]

/-- The fields of a configuration in the order in which they are written. -/
def fieldNames : List String :=
  ["node_count", "state_dim", "history_capacity", "dt", "analysis_interval", "report_interval",
    "seed", "coherence_window_secs", "spectral", "local", "global"]

/-- Reads a configuration; an omitted field has its standard value. -/
def decode : Decoder EngineConfig := fun depth d => do
  let r ← Record.read fieldNames depth d
  let c := standard
  let seed ← r.withDefault "seed" (Decoder.optional Decoder.word) (c.seed.map UInt64.toNat)
  return {
    nodeCount := ← r.withDefault "node_count" Decoder.word c.nodeCount
    stateDim := ← r.withDefault "state_dim" Decoder.word c.stateDim
    historyCapacity := ← r.withDefault "history_capacity" Decoder.word c.historyCapacity
    dt := ← r.withDefault "dt" Decoder.float c.dt
    analysisInterval := ← r.withDefault "analysis_interval" Decoder.word c.analysisInterval
    reportInterval := ← r.withDefault "report_interval" Decoder.word c.reportInterval
    seed := seed.map UInt64.ofNat
    coherenceWindowSeconds :=
      ← r.withDefault "coherence_window_secs" Decoder.signedWord c.coherenceWindowSeconds
    spectral := ← r.withDefault "spectral" SpectralConfig.decode c.spectral
    thresholds := ← r.withDefault "local" LocalThresholds.decode c.thresholds
    hysteresis := ← r.withDefault "global" HysteresisConfig.decode c.hysteresis }

/-- The text under which a configuration is kept. -/
def toText (c : EngineConfig) : String := c.toJson.toText

/-- The configuration that a text holds. -/
def ofText? (text : String) : Option EngineConfig := Json.read? decode text

end EngineConfig

end AdaptivePopulation
