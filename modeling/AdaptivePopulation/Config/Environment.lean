import AdaptivePopulation.Config.Basic
import AdaptivePopulation.Decimal.Numeral

/-!
# Configuration from the environment

Variables that override the defaults.  A value may stand between blanks; one that cannot be read is
refused as it stands.
-/

namespace AdaptivePopulation.EngineConfig

/-- The greatest number of sixty-four bits. -/
def greatestWord : Nat := Nat.pow 2 64 - 1

/-- Reads a variable, if it is set. -/
def readVariable {τ : Type} (environment : String → Option String)
    (read : List Char → Option τ) (name : String) : Except ConfigError (Option τ) :=
  match environment name with
  | none => .ok none
  | some value =>
    match read (Text.trim value.toList) with
    | some v => .ok (some v)
    | none => .error (.unreadable name value)

/-- The defaults overridden by the variables that are set. -/
def ofEnvironment (environment : String → Option String) : Except ConfigError EngineConfig := do
  let word := readVariable environment (Decimal.readNat? greatestWord)
  let c := standard
  let nodes ← word "ARKHE_NODE_COUNT"
  let dim ← word "ARKHE_STATE_DIM"
  let history ← word "ARKHE_HISTORY"
  let dt ← readVariable environment Decimal.readFloat? "ARKHE_DT"
  let seed ← word "ARKHE_SEED"
  let report ← word "ARKHE_REPORT_INTERVAL"
  return { c with
    nodeCount := nodes.getD c.nodeCount
    stateDim := dim.getD c.stateDim
    historyCapacity := history.getD c.historyCapacity
    dt := dt.getD c.dt
    seed := (seed.map UInt64.ofNat).or c.seed
    reportInterval := report.getD c.reportInterval }

end AdaptivePopulation.EngineConfig
