import AdaptivePopulation.Calendar.Text
import AdaptivePopulation.Hypergraph.Basic
import AdaptivePopulation.Json.Writer

/-!
# Nodes and edges as JSON
-/

namespace AdaptivePopulation

/-- The object that a node is written as, with its identifier. -/
def GraphNode.toJson (id : NodeId) (n : GraphNode Float) : Json :=
  .obj [("id", .str id), ("attributes", n.attributes), ("coherence", .ofFloat n.coherence),
    ("integration", .ofFloat n.integration)]

/-- The object that an edge is written as. -/
def Hyperedge.toJson (e : Hyperedge Float) : Json :=
  .obj [("id", .ofNat e.id), ("members", .arr (e.members.map .str)), ("weight", .ofFloat e.weight),
    ("metadata", .ofOption e.metadata), ("created_at", .str e.created.toText)]

end AdaptivePopulation
