import AdaptivePopulation.Handover.Log
import AdaptivePopulation.Hypergraph.Basic

/-!
# Coherence

How well nodes hang together.  A node's coherence is the mean weight of its edges, or the activity
that a source reports for it, squeezed into `(-1, 1)`.  The coherence of the graph is the mean over
its nodes, less a penalty for dissipation, plus a bonus for integration.
-/

namespace AdaptivePopulation

variable {α : Type} [Scalar α]

/-- The coherence that goes with an activity. -/
def Activity.coherence (a : Activity α) : α := Scalar.tanh (a.rate * a.intensity)

namespace Hypergraph

/-- The mean weight of a node's edges, zero without edges. -/
def plainCoherence (g : Hypergraph α) (id : NodeId) : α :=
  Series.mean ((g.incidentEdges id).map Hyperedge.weight)

/-- Derives the coherence of every node from the edges. -/
def updateCoherence (g : Hypergraph α) : Hypergraph α :=
  { g with nodes := g.nodes.map fun id n => { n with coherence := g.plainCoherence id } }

/-- Derives the coherence of every node from its recent activity. -/
def updateCoherenceFrom (g : Hypergraph α) (source : ActivitySource α) (clock : Clock) :
    Except Fault (Hypergraph α) := do
  let nodes ← g.nodes.toList.mapM fun (id, n) => do
    let activity ← source clock g.window id
    return (id, { n with coherence := activity.coherence })
  return { g with nodes := Std.ExtTreeMap.ofList nodes compare }

/-- The mean coherence of the nodes, in the order of their identifiers. -/
def averageCoherence (g : Hypergraph α) : α :=
  Series.mean (g.nodes.toList.map fun (_, n) => n.coherence)

/-- The coherence of the graph, clamped to `[0, 1]`. -/
def globalCoherence (g : Hypergraph α) : α :=
  Scalar.clamp 0.0 1.0
    (g.averageCoherence - 0.5 * g.dissipation + 0.1 * Scalar.tanh g.integration)

end Hypergraph

end AdaptivePopulation
