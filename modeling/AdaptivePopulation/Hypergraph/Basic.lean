import AdaptivePopulation.Calendar.Instant
import AdaptivePopulation.Decimal.Text
import AdaptivePopulation.Json.Basic
import AdaptivePopulation.NodeId
import AdaptivePopulation.Scalar
import Std.Data.ExtTreeMap

/-!
# Hypergraphs

Nodes with opaque attributes and derived values, and weighted edges over two or more of them.  Edges
are only ever appended and are numbered in that order; an index lists for each node the edges that
it belongs to.  An operation that is refused leaves the graph as it is.
-/

namespace AdaptivePopulation

/-- The number of an edge, counted from zero in the order of addition. -/
abbrev EdgeId := Nat

/-- What a graph keeps of a node besides its identifier. -/
structure GraphNode (α : Type) where
  attributes : Json
  /-- Derived from the edges or from recent activity. -/
  coherence : α
  /-- The integration measure reported last. -/
  integration : α

/-- A weighted edge over two or more nodes. -/
structure Hyperedge (α : Type) where
  id : EdgeId
  /-- Distinct, in increasing order. -/
  members : List NodeId
  weight : α
  metadata : Option Json
  created : Instant

/-- The node is a member; the members are in order, so that half of them are passed over at each
look. -/
def Hyperedge.contains {α : Type} (e : Hyperedge α) (id : NodeId) : Bool :=
  searchSorted id e.members

/-- Why an operation on a graph is refused. -/
inductive HypergraphError (α : Type) where
  | unknownNode (id : NodeId)
  | duplicateNode (id : NodeId)
  | degenerateEdge (members : Nat)
  | invalidWeight (weight : α)
  /-- The text of a snapshot cannot be read. -/
  | serialization

/-- Nodes under their identifiers, the edges over them, and the index from nodes to edges. -/
structure Hypergraph (α : Type) where
  name : String
  nodes : Std.ExtTreeMap NodeId (GraphNode α) compare
  edges : List (Hyperedge α)
  /-- The edges of each node, in increasing order. -/
  incidence : Std.ExtTreeMap NodeId (List EdgeId) compare
  dissipation : α
  integration : α
  /-- How far back activity counts for coherence. -/
  window : Duration

/-- The text of an error.  Why a snapshot cannot be read is left out. -/
def HypergraphError.message : HypergraphError Float → String
  | .unknownNode id => "Unknown node: " ++ id
  | .duplicateNode id => "Duplicate node: " ++ id
  | .degenerateEdge members =>
    "Degenerate edge: " ++ String.ofList (Nat.toDigits 10 members) ++
      " distinct member(s), need at least 2"
  | .invalidWeight weight =>
    "Invalid edge weight: " ++ String.ofList (Decimal.NumberFormat.report.write weight)
  | .serialization => "Snapshot serialization error: "

namespace Hypergraph

variable {α : Type} [Scalar α]

/-- A graph without nodes, whose window is a minute. -/
def empty (name : String) : Hypergraph α :=
  { name, nodes := ∅, edges := [], incidence := ∅, dissipation := 0.0, integration := 0.0,
    window := Duration.ofSeconds 60 }

/-- The identifier is that of a node. -/
def contains (g : Hypergraph α) (id : NodeId) : Bool := g.nodes.contains id

/-- Registers a node. -/
def addNode (g : Hypergraph α) (id : NodeId) (attributes : Json) :
    Except (HypergraphError α) (Hypergraph α) :=
  if g.contains id then .error (.duplicateNode id)
  else
    .ok { g with
      nodes := g.nodes.insert id ⟨attributes.orEmptyObject, 1.0, 0.0⟩
      incidence := g.incidence.insert id [] }

/-- An entry of the index with one more edge; a new entry if there is none. -/
def enlist (id : EdgeId) (entry : Option (List EdgeId)) : Option (List EdgeId) :=
  some (entry.getD [] ++ [id])

/-- Appends an edge over registered nodes, of which at least two must be distinct.  Of several
unknown members the least is reported. -/
def addEdge (g : Hypergraph α) (members : List NodeId) (weight : α) (metadata : Option Json)
    (now : Instant) : Except (HypergraphError α) (Hypergraph α) :=
  let members := sortIds members
  match members.find? fun id => !g.contains id with
  | some id => .error (.unknownNode id)
  | none =>
    if members.length < 2 then .error (.degenerateEdge members.length)
    else if ¬ Scalar.isFinite weight then .error (.invalidWeight weight)
    else
      let id := g.edges.length
      .ok { g with
        edges := g.edges ++ [⟨id, members, weight, metadata, now⟩]
        incidence := members.foldl (fun index m => index.alter m (enlist id)) g.incidence }

/-- The edges of a node, in the order of their creation. -/
def incidentEdges (g : Hypergraph α) (id : NodeId) : List (Hyperedge α) :=
  (g.incidence.getD id []).filterMap fun e => g.edges[e]?

/-- The other nodes that share an edge with a node, in increasing order. -/
def neighbors (g : Hypergraph α) (id : NodeId) : List NodeId :=
  sortIds (((g.incidentEdges id).flatMap Hyperedge.members).filter (· ≠ id))

/-- Records the integration measure of a node; an unknown node is passed over. -/
def setNodeIntegration (g : Hypergraph α) (id : NodeId) (phi : α) : Hypergraph α :=
  { g with nodes := g.nodes.modify id fun n => { n with integration := phi } }

/-- The graph with another dissipation; a negative one becomes zero. -/
def setDissipation (g : Hypergraph α) (dissipation : α) : Hypergraph α :=
  { g with dissipation := Scalar.positivePart dissipation }

/-- Sets the integration of the population. -/
def setIntegration (g : Hypergraph α) (phi : α) : Hypergraph α :=
  { g with integration := Scalar.positivePart phi }

end Hypergraph

end AdaptivePopulation
