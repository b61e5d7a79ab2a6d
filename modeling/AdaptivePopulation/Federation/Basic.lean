import AdaptivePopulation.Federation.Report
import AdaptivePopulation.Hypergraph.Coherence
import AdaptivePopulation.Node

/-!
# Federations

A population of nodes with one hypergraph, one ledger and one controller, built from a valid
configuration.
-/

namespace AdaptivePopulation

/-- Why an operation on a federation is refused. -/
inductive FederationError where
  | config (error : ConfigError)
  | graph (error : HypergraphError Float)

/-- The text of an error. -/
def FederationError.message : FederationError → String
  | .config e => "Configuration error: " ++ e.message
  | .graph e => "Hypergraph error: " ++ e.message

/-- A population between two ticks, with all that its next ticks depend on. -/
structure Federation where
  config : EngineConfig
  nodes : List Node
  graph : Hypergraph Float
  ledger : Ledger
  controller : PopulationController Float
  /-- Where coherence comes from instead of the edges. -/
  source : Option (ActivitySource Float)
  observers : List Observer
  /-- The ticks that recorders have seen. -/
  journal : List Nat
  /-- The mean of the states after the last tick. -/
  meanField : List Float
  /-- The stream of the population mode. -/
  stream : RandomStream
  /-- The number of completed ticks. -/
  ticks : Nat

namespace Federation

/-- The subject of mode switches in the ledger, and the name of the graph. -/
def subject : String := "federation"

/-- The identifier of the node at a position. -/
def nodeId (position : Nat) : NodeId := "node-" ++ String.ofList (Decimal.padded 3 position)

/-- The nodes of a population, each with a stream of its own seeded by one draw. -/
def spawn (c : EngineConfig) (g : RandomStream) : List Node × RandomStream :=
  let (seeds, g) := g.draws id c.nodeCount
  (seeds.zipIdx.map fun (seed, i) => Node.ofSeed (nodeId i) c.stateDim c.historyCapacity seed, g)

/-- Registers every node in the graph, with its dimension as an attribute. -/
def register (c : EngineConfig) (nodes : List Node) (graph : Hypergraph Float) :
    Except (HypergraphError Float) (Hypergraph Float) :=
  nodes.foldlM (fun g n => g.addNode n.id (.obj [("dimension", .ofNat c.stateDim)])) graph

/-- The mean field of the nodes' states. -/
def fieldOf (nodes : List Node) : List Float := Series.meanField (nodes.map Node.state)

/-- Builds a population.  A configuration without a seed takes the given one. -/
def create (c : EngineConfig) (fallback : UInt64) :
    Except (Failure FederationError) (Federation × List Event) := do
  c.validate.mapError fun e => .refused (.config e)
  let window ← (Duration.boundedSeconds c.coherenceWindowSeconds).mapError .fault
  let (nodes, stream) := spawn c (.ofSeed (c.seed.getD fallback))
  let graph ← (register c nodes { Hypergraph.empty subject with window }).mapError fun e =>
    .refused (.graph e)
  let observers := if 0 < c.reportInterval then [Observer.everyTicks c.reportInterval] else []
  return ({ config := c, nodes, graph, ledger := .empty default, controller := .start c.hysteresis,
            source := none, observers, journal := [], meanField := fieldOf nodes, stream,
            ticks := 0 }, [.initialised])

/-- The population whose coherence comes from a source of activity. -/
def withSource (f : Federation) (source : ActivitySource Float) : Federation :=
  { f with source := some source }

/-- The population with another ledger, which its blocks are appended to. -/
def withLedger (f : Federation) (ledger : Ledger) : Federation := { f with ledger }

/-- The population with one more observer, told after the others. -/
def observe (f : Federation) (o : Observer) : Federation :=
  { f with observers := f.observers ++ [o] }

/-- What all nodes of the population have in common. -/
def rules (f : Federation) : NodeRules := .ofConfig f.config

/-- The mode that the population is in. -/
def mode (f : Federation) : PopulationMode := f.controller.mode

/-- The node with an identifier. -/
def node? (f : Federation) (id : NodeId) : Option Node := f.nodes.find? fun n => n.id == id

/-- The mean of the nodes' last measures. -/
def averageIntegration (nodes : List Node) : Float := Series.mean (nodes.map Node.integration)

/-- Adds an edge between members of the population. -/
def connect (f : Federation) (members : List NodeId) (weight : Float) (now : Instant) :
    Except FederationError Federation :=
  match f.graph.addEdge members weight none now with
  | .ok graph => .ok { f with graph }
  | .error e => .error (.graph e)

/-- Reinitialises the state of every node. -/
def trauma (f : Federation) : Federation × List Event :=
  let nodes := f.nodes.map Node.reinitialize
  ({ f with nodes, meanField := fieldOf nodes }, [.statesReinitialised f.ticks])

end Federation

end AdaptivePopulation
