import AdaptivePopulation.Dynamics.PopulationMode
import AdaptivePopulation.Federation.Event
import AdaptivePopulation.Ledger.Json

/-!
# Tick reports and observers

What is known of a population after a tick, and those who look at it.
-/

namespace AdaptivePopulation

/-- What is known of a population after a tick. -/
structure TickReport where
  /-- Ticks are counted from one. -/
  tick : Nat
  /-- The mean of the nodes' last measures. -/
  averageIntegration : Float
  averageCoherence : Float
  globalCoherence : Float
  /-- The mode after the tick. -/
  mode : PopulationMode
  /-- The signal as it was used. -/
  externalInput : Float
  /-- The blocks recorded during the tick. -/
  transitions : List LedgerBlock

/-- The object that a report is written as. -/
def TickReport.toJson (r : TickReport) : Json :=
  .obj [("tick", .ofNat r.tick), ("average_integration", .ofFloat r.averageIntegration),
    ("average_coherence", .ofFloat r.averageCoherence),
    ("global_coherence", .ofFloat r.globalCoherence), ("mode", .str (Tag.name r.mode)),
    ("external_input", .ofFloat r.externalInput),
    ("transitions", .arr (r.transitions.map LedgerBlock.toJson))]

/-- Looks at every report after its tick. -/
inductive Observer where
  /-- Tells the status at every tick that the interval divides. -/
  | status (interval : Nat)
  /-- Writes every tick into the journal. -/
  | recorder
  deriving DecidableEq, Repr

namespace Observer

/-- An observer that tells the status; an interval of zero counts as one. -/
def everyTicks (interval : Nat) : Observer := status (max interval 1)

/-- The events that a report leads to. -/
def events (r : TickReport) : Observer → List Event
  | status interval => if r.tick % interval = 0 then [.status r.tick] else []
  | recorder => []

/-- What a report adds to the journal. -/
def entries (r : TickReport) : Observer → List Nat
  | status _ => []
  | recorder => [r.tick]

end Observer

end AdaptivePopulation
