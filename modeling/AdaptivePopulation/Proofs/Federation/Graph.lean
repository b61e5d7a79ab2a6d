import AdaptivePopulation.Federation.Tick
import AdaptivePopulation.Proofs.Hypergraph.Construction

/-!
# The graph of a population

A tick refreshes what the nodes of the graph carry, but neither its window nor which nodes there
are.  It breaks down only if the source of activity does not answer.
-/

namespace AdaptivePopulation

namespace Hypergraph

variable {α : Type} {g g' g'' : Hypergraph α}

/-- The graphs have the same nodes and the same window. -/
structure SameFrame (g g' : Hypergraph α) : Prop where
  window : g'.window = g.window
  nodes : ∀ id, id ∈ g'.nodes ↔ id ∈ g.nodes

theorem SameFrame.refl (g : Hypergraph α) : g.SameFrame g := ⟨rfl, fun _ => Iff.rfl⟩

theorem SameFrame.trans (h : g.SameFrame g') (h' : g'.SameFrame g'') : g.SameFrame g'' :=
  ⟨h'.window.trans h.window, fun id => (h'.nodes id).trans (h.nodes id)⟩

variable [Scalar α]

theorem sameFrame_addEdge {members : List NodeId} {weight : α} {metadata : Option Json}
    {now : Instant} (h : g.addEdge members weight metadata now = .ok g') : g.SameFrame g' := by
  obtain ⟨-, rfl⟩ := addEdge_eq_ok.1 h
  exact ⟨rfl, fun _ => Iff.rfl⟩

section

variable {source : ActivitySource α} {clock : Clock}

theorem sameFrame_updateCoherenceFrom (h : g.updateCoherenceFrom source clock = .ok g') :
    g.SameFrame g' := by
  obtain ⟨nodes, rfl, bags⟩ := updateCoherenceFrom_eq_ok h
  exact ⟨rfl, mem_nodes_iff_of_attributes bags⟩

omit [Scalar α] in
theorem mem_nodes_of_mem_toList {p : NodeId × GraphNode α} (hp : p ∈ g.nodes.toList) :
    p.1 ∈ g.nodes := by
  rw [Std.ExtTreeMap.mem_toList_iff_getElem?_eq_some] at hp
  rw [Std.ExtTreeMap.mem_iff_isSome_getElem?, hp]
  rfl

theorem exists_updateCoherenceFrom_eq_ok
    (h : ∀ id ∈ g.nodes, ∃ activity, source clock g.window id = .ok activity) :
    ∃ g', g.updateCoherenceFrom source clock = .ok g' := by
  obtain ⟨entries, he⟩ := exists_mapM_eq_ok (l := g.nodes.toList) (f := fun p => do
    let activity ← source clock g.window p.1
    return (p.1, { p.2 with coherence := activity.coherence })) fun p hp => by
      obtain ⟨activity, answer⟩ := h p.1 (mem_nodes_of_mem_toList hp)
      exact ⟨_, by rw [answer]; rfl⟩
  exact ⟨_, by rw [updateCoherenceFrom, he, ok_bind]; rfl⟩

/-- A source that breaks down for some node, and for each in one way only, breaks down so for the
graph. -/
theorem updateCoherenceFrom_eq_error {fault : Fault} {id : NodeId} (hid : id ∈ g.nodes)
    (h : source clock g.window id = .error fault)
    (only : ∀ id ∈ g.nodes, ∀ fault', source clock g.window id = .error fault' → fault' = fault) :
    g.updateCoherenceFrom source clock = .error fault := by
  rw [Std.ExtTreeMap.mem_iff_isSome_getElem?, Option.isSome_iff_exists] at hid
  obtain ⟨n, hn⟩ := hid
  dsimp only [updateCoherenceFrom]
  rw [mapM_eq_error (Std.ExtTreeMap.mem_toList_iff_getElem?_eq_some.2 hn)
    (bind_pure_eq_error.2 h) fun p hp fault' broken =>
      only p.1 (mem_nodes_of_mem_toList hp) fault' (bind_pure_eq_error.1 broken)]
  rfl

end

end Hypergraph

namespace Federation

variable {f : Federation} {nodes : List Node} {clock : Clock}

/-- The graph with the measures of the nodes, before coherence is derived. -/
def measuredGraph (f : Federation) (nodes : List Node) : Hypergraph Float :=
  ((nodes.foldl (fun g n => g.setNodeIntegration n.id n.integration) f.graph).setDissipation
    (Series.standardDeviation (nodes.map Node.meanState))).setIntegration (averageIntegration nodes)

theorem sameFrame_measuredGraph (f : Federation) (nodes : List Node) :
    f.graph.SameFrame (f.measuredGraph nodes) := by
  have measured := List.foldlRecOn (motive := fun g => f.graph.SameFrame g) nodes
    (fun g n => g.setNodeIntegration n.id n.integration) (.refl f.graph)
    fun g h n _ => h.trans ⟨rfl, fun _ => Std.ExtTreeMap.mem_modify⟩
  exact ⟨measured.window, measured.nodes⟩

theorem sameFrame_refreshGraph {graph : Hypergraph Float}
    (h : f.refreshGraph nodes clock = .ok graph) : f.graph.SameFrame graph := by
  refine (f.sameFrame_measuredGraph nodes).trans ?_
  unfold refreshGraph at h
  split at h
  · exact Hypergraph.sameFrame_updateCoherenceFrom h
  · obtain rfl := Except.ok.inj h
    exact ⟨rfl, fun _ => Std.ExtTreeMap.mem_map⟩

/-- With these readings of the clock the source of activity, if there is one, answers for every
node. -/
def AnsweredBy (f : Federation) (clock : Clock) : Prop :=
  ∀ source, f.source = some source →
    ∀ id ∈ f.graph.nodes, ∃ activity, source clock f.graph.window id = .ok activity

theorem AnsweredBy.congr {g : Federation} (h : f.AnsweredBy clock) (source : g.source = f.source)
    (frame : f.graph.SameFrame g.graph) : g.AnsweredBy clock := by
  intro s hs id hid
  rw [frame.window]
  exact h s (source.symm.trans hs) id ((frame.nodes id).1 hid)

theorem AnsweredBy.exists_refreshGraph_eq_ok (h : f.AnsweredBy clock) (nodes : List Node) :
    ∃ graph, f.refreshGraph nodes clock = .ok graph := by
  unfold refreshGraph
  split
  case h_1 source hs =>
    have frame := f.sameFrame_measuredGraph nodes
    refine Hypergraph.exists_updateCoherenceFrom_eq_ok (g := f.measuredGraph nodes) ?_
    rw [frame.window]
    exact fun id hid => h source hs id ((frame.nodes id).1 hid)
  case h_2 => exact ⟨_, rfl⟩

theorem refreshGraph_eq_error {source : ActivitySource Float} {fault : Fault} {id : NodeId}
    (hs : f.source = some source) (hid : id ∈ f.graph.nodes)
    (h : source clock f.graph.window id = .error fault)
    (only : ∀ id ∈ f.graph.nodes, ∀ fault',
      source clock f.graph.window id = .error fault' → fault' = fault)
    (nodes : List Node) : f.refreshGraph nodes clock = .error fault := by
  have frame := f.sameFrame_measuredGraph nodes
  rw [← frame.window] at h only
  unfold refreshGraph
  rw [hs]
  exact Hypergraph.updateCoherenceFrom_eq_error ((frame.nodes id).2 hid) h
    fun id hid => only id ((frame.nodes id).1 hid)

end Federation

end AdaptivePopulation
