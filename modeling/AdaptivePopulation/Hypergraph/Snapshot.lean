import AdaptivePopulation.Calendar.Clock
import AdaptivePopulation.Hypergraph.Basic
import AdaptivePopulation.Json.Decoder
import AdaptivePopulation.Json.Writer

/-!
# Snapshots

What of a graph is kept: the attributes of the nodes, and members and weight of the edges.  Derived
values are not carried.
-/

namespace AdaptivePopulation

/-- What a snapshot keeps of an edge. -/
structure EdgeRecord (α : Type) where
  nodes : List NodeId
  weight : α
  deriving BEq

/-- What is kept of a graph: the attributes of its nodes and a record of each edge. -/
structure HypergraphSnapshot (α : Type) where
  nodes : Std.ExtTreeMap NodeId Json compare
  edges : List (EdgeRecord α)

/-- The same nodes with equal attributes and equal edge records in the same order. -/
instance {α : Type} [BEq α] : BEq (HypergraphSnapshot α) where
  beq s t := s.nodes.toList == t.nodes.toList && s.edges == t.edges

namespace Hypergraph

variable {α : Type}

/-- The snapshot of a graph. -/
def snapshot (g : Hypergraph α) : HypergraphSnapshot α where
  nodes := g.nodes.map fun _ n => n.attributes
  edges := g.edges.map fun e => ⟨e.members, e.weight⟩

variable [Scalar α]

/-- Adds an edge for each record, in order.  The clock is read for each of them. -/
def addRecords (g : Hypergraph α) (records : List (EdgeRecord α)) (clock : Clock) :
    Except (HypergraphError α) (Hypergraph α) :=
  records.foldlM (fun g e => g.addEdge e.nodes e.weight none (clock (.edge g.edges.length))) g

/-- The graph of a snapshot; an edge that cannot be added is refused. -/
def ofSnapshot (name : String) (s : HypergraphSnapshot α) (clock : Clock) :
    Except (HypergraphError α) (Hypergraph α) := do
  let g ← s.nodes.toList.foldlM (fun g (id, attributes) => g.addNode id attributes) (empty name)
  g.addRecords s.edges clock

end Hypergraph

namespace EdgeRecord

/-- The object that the record of an edge is written as. -/
def toJson (e : EdgeRecord Float) : Json :=
  .obj [("nodes", .arr (e.nodes.map .str)), ("weight", .ofFloat e.weight)]

/-- Reads the record of an edge; both fields are required. -/
def decode : Json.Decoder (EdgeRecord Float) := fun depth d => do
  let r ← Json.Record.read ["nodes", "weight"] depth d
  return {
    nodes := ← r.required "nodes" (Json.Decoder.list Json.Decoder.string)
    weight := ← r.required "weight" Json.Decoder.float }

end EdgeRecord

namespace HypergraphSnapshot

/-- The object that a snapshot is written as, its nodes in increasing order. -/
def toJson (s : HypergraphSnapshot Float) : Json :=
  .obj [("nodes", .obj s.nodes.toList), ("edges", .arr (s.edges.map EdgeRecord.toJson))]

/-- Reads a snapshot; of nodes under one identifier the last counts. -/
def decode : Json.Decoder (HypergraphSnapshot Float) := fun depth d => do
  let r ← Json.Record.read ["nodes", "edges"] depth d
  let nodes ← r.required "nodes" (Json.Decoder.entries Json.decode)
  let edges ← r.required "edges" (Json.Decoder.list EdgeRecord.decode)
  return ⟨Std.ExtTreeMap.ofList nodes compare, edges⟩

/-- The text under which a snapshot is kept. -/
def toText (s : HypergraphSnapshot Float) : String := s.toJson.toText

/-- The snapshot that a text holds. -/
def ofText (text : String) : Except (HypergraphError Float) (HypergraphSnapshot Float) :=
  match Json.read? decode text with
  | some s => .ok s
  | none => .error .serialization

end HypergraphSnapshot

end AdaptivePopulation
