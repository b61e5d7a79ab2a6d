import AdaptivePopulation.Config.Basic
import AdaptivePopulation.NodeId

/-!
# Nodes

One evolving state of the population, with its strategy, its recent snapshots and its own stream of
draws.  Nodes know nothing of each other; a step is given the field that couples them.
-/

namespace AdaptivePopulation

/-- What all nodes of a population have in common. -/
structure NodeRules where
  dt : Float
  /-- The number of ticks between analyses. -/
  analysisInterval : Nat
  spectral : SpectralConfig Float
  thresholds : LocalThresholds Float

/-- The rules of a configuration; an interval of zero counts as one. -/
def NodeRules.ofConfig (c : EngineConfig) : NodeRules :=
  ⟨c.dt, max c.analysisInterval 1, c.spectral, c.thresholds⟩

/-- One evolving state with what its next steps depend on. -/
structure Node where
  id : NodeId
  state : List Float
  strategy : Strategy
  /-- The integration measure computed last. -/
  integration : Float
  /-- Whether a measure has ever been computed. -/
  measured : Bool
  history : HistoryWindow Float
  ticks : Nat
  stream : RandomStream

namespace Node

/-- A node with a random state, drawn from the stream that it keeps. -/
def create (id : NodeId) (dim historyCapacity : Nat) (g : RandomStream) : Node :=
  let (state, stream) := g.draws Random.unitFraction dim
  { id, state, strategy := default, integration := 0.0, measured := false,
    history := .empty historyCapacity, ticks := 0, stream }

/-- A node whose stream has a seed. -/
def ofSeed (id : NodeId) (dim historyCapacity : Nat) (seed : UInt64) : Node :=
  create id dim historyCapacity (.ofSeed seed)

/-- The entropy of the state over ten buckets. -/
def stateEntropy (n : Node) : Float := Series.shannonEntropy n.state 10

/-- The mean of the state's values. -/
def meanState (n : Node) : Float := Series.mean n.state

/-- How much noise exploration adds: the measure relative to its ceiling. -/
def complexity (n : Node) : Float := Spectrum.normalised n.integration n.history.capacity

/-- The node after its state has moved once under its strategy. -/
def move (n : Node) (field : List Float) (external dt : Float) : Node :=
  let (state, stream) := n.strategy.apply n.state field external dt n.complexity n.stream
  { n with state, stream, history := n.history.push state, ticks := n.ticks + 1 }

/-- The node with its measure taken from its history. -/
def measure (n : Node) (config : SpectralConfig Float) : Node :=
  { n with integration := Spectrum.integration config n.history, measured := true }

/-- The node's tick is one of analysis and its history is long enough. -/
def IsDue (n : Node) (rules : NodeRules) : Prop :=
  n.ticks % rules.analysisInterval = 0 ∧ rules.spectral.minSamples ≤ n.history.length

instance (n : Node) (rules : NodeRules) : Decidable (n.IsDue rules) :=
  inferInstanceAs (Decidable (_ ∧ _))

/-- One tick: the strategy that the node proposes to change to, if any, and the node after it. -/
def step (n : Node) (field : List Float) (external : Float) (rules : NodeRules) :
    Except Fault (Option Strategy × Node) :=
  let n := n.move field external rules.dt
  if rules.analysisInterval = 0 then .error .zeroInterval
  else if n.IsDue rules then
    let n := n.measure rules.spectral
    .ok (rules.thresholds.propose n.strategy n.integration n.stateEntropy, n)
  else .ok (none, n)

/-- The node under another strategy. -/
def adopt (n : Node) (strategy : Strategy) : Node := { n with strategy }

/-- The node with a fresh random state and no history. -/
def reinitialize (n : Node) : Node :=
  let (state, stream) := n.stream.draws Random.unitFraction n.state.length
  { n with state, stream, history := n.history.clear }

end Node

end AdaptivePopulation
