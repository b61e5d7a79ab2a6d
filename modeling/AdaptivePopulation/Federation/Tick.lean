import AdaptivePopulation.Federation.Basic
import AdaptivePopulation.Federation.Signal

/-!
# Ticks

One tick of a population.  The mean field of the last tick evolves under the mode, every node steps
against it, proposed changes are adopted in the order of the nodes, the graph is refreshed, and the
controller is consulted at ticks of analysis once every node has been measured.
-/

namespace AdaptivePopulation

/-- The signal clamped to `[0, 1]`, with a warning if it was outside. -/
def sanitize (value : Float) (tick : Nat) : Float × List Event :=
  if 0.0 ≤ value ∧ value ≤ 1.0 then (value, [])
  else (Scalar.clampUnit value, [.signalClamped tick])

/-- What changes leave behind: the ledger after them, the new blocks and the events. -/
structure Changes where
  ledger : Ledger
  blocks : List LedgerBlock
  events : List Event

namespace Changes

/-- No changes yet. -/
def none (ledger : Ledger) : Changes := ⟨ledger, [], []⟩

/-- The changes after one more event. -/
def note (c : Changes) (e : Event) : Changes := { c with events := c.events ++ [e] }

/-- Records a transition, followed by the event that tells of it.  The clock is read for each
record. -/
def record (c : Changes) (clock : Clock) (t : Transition) (e : Event) : Changes :=
  let now := clock (.block c.ledger.blocks.length)
  { ledger := c.ledger.record now t
    blocks := c.blocks ++ [c.ledger.nextBlock now t]
    events := c.events ++ [.blockAppended, e] }

end Changes

namespace Federation

/-- The transition of a node to another strategy. -/
def strategyTransition (n : Node) (next : Strategy) : Transition :=
  ⟨n.id, Tag.name n.strategy, Tag.name next, n.integration⟩

/-- The transition of the population from one mode to another. -/
def modeTransition (source target : PopulationMode) (integration : Float) : Transition :=
  ⟨subject, Tag.name source, Tag.name target, integration⟩

/-- Lets a node adopt what it proposes. -/
def adoptProposal (clock : Clock) (c : Changes) (proposal : Option Strategy) (n : Node) :
    Node × Changes :=
  match proposal with
  | .none => (n, c)
  | .some next =>
    let c := c.note .changeProposed
    if next = n.strategy then (n, c)
    else (n.adopt next, c.record clock (strategyTransition n next) .strategyChanged)

/-- Lets every node adopt what it proposes, in order. -/
def adoptProposals (clock : Clock) : Changes → List (Option Strategy × Node) → List Node × Changes
  | c, [] => ([], c)
  | c, (proposal, n) :: rest =>
    let (n, c) := adoptProposal clock c proposal n
    let (nodes, c) := adoptProposals clock c rest
    (n :: nodes, c)

/-- The field that the nodes of a tick step against, and the stream of the mode after it. -/
def evolveField (f : Federation) (external : Float) : List Float × RandomStream :=
  let complexity := Spectrum.normalised (averageIntegration f.nodes) f.config.historyCapacity
  f.mode.apply f.meanField external f.rules.dt complexity f.stream

/-- The graph with the measures of the nodes and with fresh coherence. -/
def refreshGraph (f : Federation) (nodes : List Node) (clock : Clock) :
    Except Fault (Hypergraph Float) :=
  let graph := nodes.foldl (fun g n => g.setNodeIntegration n.id n.integration) f.graph
  let graph := graph.setDissipation (Series.standardDeviation (nodes.map Node.meanState))
  let graph := graph.setIntegration (averageIntegration nodes)
  match f.source with
  | some source => graph.updateCoherenceFrom source clock
  | none => .ok graph.updateCoherence

/-- The controller is consulted: every node has been measured and the tick is one of analysis. -/
def IsConsulted (f : Federation) (nodes : List Node) (tick : Nat) : Prop :=
  (∀ n ∈ nodes, n.measured) ∧ tick % f.rules.analysisInterval = 0

instance (f : Federation) (nodes : List Node) (tick : Nat) : Decidable (f.IsConsulted nodes tick) :=
  inferInstanceAs (Decidable (_ ∧ _))

/-- The controller after a tick, and the changes with a switch of the mode. -/
def consult (f : Federation) (nodes : List Node) (tick : Nat) (clock : Clock) (c : Changes) :
    PopulationController Float × Changes :=
  if f.IsConsulted nodes tick then
    let average := averageIntegration nodes
    match f.controller.observe average with
    | (.none, controller) => (controller, c)
    | (.some (source, target), controller) =>
      (controller, c.record clock (modeTransition source target average) .modeSwitched)
  else (f.controller, c)

/-- Advances the population by one tick, during which the clock gives these readings. -/
def tick (f : Federation) (external : Float) (clock : Clock) :
    Except Fault (TickReport × List Event × Federation) := do
  let tick := f.ticks + 1
  let (external, warnings) := sanitize external tick
  let (field, stream) := f.evolveField external
  let stepped ← f.nodes.mapM fun n => n.step field external f.rules
  let (nodes, changes) := adoptProposals clock (.none f.ledger) stepped
  let graph ← f.refreshGraph nodes clock
  let (controller, changes) := f.consult nodes tick clock changes
  let report : TickReport :=
    { tick, averageIntegration := averageIntegration nodes
      averageCoherence := graph.averageCoherence, globalCoherence := graph.globalCoherence
      mode := controller.mode, externalInput := external, transitions := changes.blocks }
  let events := warnings ++ changes.events ++ f.observers.flatMap (Observer.events report)
  return (report, events,
    { f with
      nodes, graph, ledger := changes.ledger, controller, meanField := fieldOf nodes, stream,
      ticks := tick, journal := f.journal ++ f.observers.flatMap (Observer.entries report) })

/-- Advances the population by several ticks, each with a sample of the source and with the readings
of the clock during that tick. -/
def run (f : Federation) (source : EntropySource) (clock : Nat → Clock) :
    Nat → Except Fault (List TickReport × List Event × Federation)
  | 0 => .ok ([], [], f)
  | count + 1 => do
    let (external, source) := source.sample (f.ticks + 1)
    let (report, events, f) ← f.tick external (clock (f.ticks + 1))
    let (reports, more, f) ← f.run source clock count
    return (report :: reports, events ++ more, f)

end Federation

end AdaptivePopulation
