import AdaptivePopulation.Proofs.Hypergraph.Construction
import AdaptivePopulation.Proofs.MeanField

/-!
# Coherence from edges

In exact arithmetic a node's coherence, taken as often as the node has edges, is the sum of their
weights.  Over all nodes every edge is counted in this way once for each of its members.  Deriving
coherence changes nothing else of a graph, and what the coherences were before does not count.
-/

namespace AdaptivePopulation

theorem Series.length_mul_mean (values : List ℝ) : values.length * mean values = values.sum := by
  rw [mean_eq_div]
  obtain rfl | nonempty := eq_or_ne values []
  · simp
  · exact mul_div_cancel₀ _ (Nat.cast_ne_zero.2 (mt List.length_eq_zero_iff.1 nonempty))

namespace Hypergraph

/-! ## What is derived -/

section

variable {α : Type} [Scalar α] (g : Hypergraph α)

theorem getElem?_updateCoherence (id : NodeId) : g.updateCoherence.nodes[id]? =
    g.nodes[id]?.map fun n => { n with coherence := g.plainCoherence id } :=
  Std.ExtTreeMap.getElem?_map

theorem updateCoherence_updateCoherence :
    g.updateCoherence.updateCoherence = g.updateCoherence := by
  have nodes : g.updateCoherence.updateCoherence.nodes = g.updateCoherence.nodes :=
    Std.ExtTreeMap.map_map
  show { g.updateCoherence with nodes := g.updateCoherence.updateCoherence.nodes } = _
  rw [nodes]

/-- The coherences that a graph had before are of no account. -/
theorem updateCoherence_perform (source : Option (ActivitySource α)) (clock : Clock) :
    (g.perform (.updateCoherence source clock)).updateCoherence = g.updateCoherence := by
  cases source with
  | none => exact g.updateCoherence_updateCoherence
  | some source =>
    refine of_toOption_getD (P := fun g' : Hypergraph α => g'.updateCoherence = g.updateCoherence)
      rfl fun g' h => ?_
    obtain ⟨nodes, rfl, derived⟩ := getElem?_updateCoherenceFrom h
    have same : ({ g with nodes := nodes } : Hypergraph α).updateCoherence.nodes =
        g.updateCoherence.nodes := by
      refine Std.ExtTreeMap.ext_getElem? fun id => ?_
      rw [getElem?_updateCoherence, getElem?_updateCoherence]
      obtain ⟨old, new⟩ | ⟨n, activity, old, -, new⟩ := derived id
      · rw [old, new]
        rfl
      · rw [old, new]
        rfl
    show { g with nodes := ({ g with nodes := nodes } : Hypergraph α).updateCoherence.nodes } = _
    rw [same]
    rfl

/-- The graph after its coherences have been derived, each time from the edges or from a source. -/
def rederived (updates : List (Option (ActivitySource α) × Clock)) : Hypergraph α :=
  updates.foldl (fun g u => g.perform (.updateCoherence u.1 u.2)) g

theorem updateCoherence_rederived (updates : List (Option (ActivitySource α) × Clock)) :
    (g.rederived updates).updateCoherence = g.updateCoherence := by
  induction updates generalizing g with
  | nil => rfl
  | cons u updates ih => exact (ih _).trans (g.updateCoherence_perform u.1 u.2)

variable {g}

theorem WellFormed.updateCoherence (h : g.WellFormed) : g.updateCoherence.WellFormed :=
  wellFormed_perform h (.updateCoherence none Instant.epoch)

end

/-! ## Counting -/

theorem length_filter_mem {ids members : List NodeId} (distinct : ids.Nodup)
    (distinct' : members.Nodup) (known : ∀ m ∈ members, m ∈ ids) :
    (ids.filter (· ∈ members)).length = members.length := by
  refine ((List.perm_ext_iff_of_nodup (distinct.filter _) distinct').2 fun id => ?_).length_eq
  rw [List.mem_filter, decide_eq_true_iff]
  exact and_iff_right_of_imp (known id)

/-- The weights of the edges of all nodes, every edge once for each of its members. -/
theorem sum_weights_of_members {ids : List NodeId} (distinct : ids.Nodup)
    (edges : List (Hyperedge ℝ)) (members : ∀ e ∈ edges, e.members.Nodup)
    (known : ∀ e ∈ edges, ∀ m ∈ e.members, m ∈ ids) :
    (ids.map fun id => ((edges.filter (id ∈ ·.members)).map Hyperedge.weight).sum).sum =
      (edges.map fun e => (e.members.length : ℝ) * e.weight).sum := by
  induction edges with
  | nil => simp
  | cons e edges ih =>
    obtain ⟨here, members⟩ := List.forall_mem_cons.1 members
    obtain ⟨hereKnown, known⟩ := List.forall_mem_cons.1 known
    have split (id : NodeId) :
        (((e :: edges).filter (id ∈ ·.members)).map Hyperedge.weight).sum =
          (if id ∈ e.members then e.weight else 0) +
            ((edges.filter (id ∈ ·.members)).map Hyperedge.weight).sum := by
      rw [List.filter_cons]
      split_ifs <;> simp_all
    have first : (ids.map fun id => if id ∈ e.members then e.weight else 0).sum =
        e.members.length * e.weight := by
      rw [List.sum_map_ite, ← length_filter_mem distinct here hereKnown]
      simp
    simp only [split, List.sum_map_add, first, ih members known, List.map_cons, List.sum_cons]

/-! ## Coherence in exact arithmetic -/

section

variable {g : Hypergraph ℝ}

theorem coherence_of_updated {id : NodeId} {n : GraphNode ℝ}
    (hn : g.updateCoherence.nodes[id]? = some n) :
    n.coherence = Series.mean ((g.updateCoherence.incidentEdges id).map Hyperedge.weight) := by
  rw [getElem?_updateCoherence] at hn
  obtain ⟨m, -, rfl⟩ := Option.map_eq_some_iff.1 hn
  rfl

theorem WellFormed.sum_updateCoherence (h : g.WellFormed) :
    (g.updateCoherence.nodes.toList.map fun (id, n) =>
        ((g.updateCoherence.incidentEdges id).length : ℝ) * n.coherence).sum =
      (g.updateCoherence.edges.map fun e => (e.members.length : ℝ) * e.weight).sum := by
  have derived := h.updateCoherence
  have weights : ∀ p ∈ g.updateCoherence.nodes.toList,
      ((g.updateCoherence.incidentEdges p.1).length : ℝ) * p.2.coherence =
        ((g.updateCoherence.edges.filter (p.1 ∈ ·.members)).map Hyperedge.weight).sum := by
    intro p hp
    rw [coherence_of_updated (Std.ExtTreeMap.mem_toList_iff_getElem?_eq_some.1 hp),
      ← List.length_map Hyperedge.weight, Series.length_mul_mean, derived.incidentEdges_eq]
  have known : ∀ e ∈ g.updateCoherence.edges, ∀ m ∈ e.members, m ∈ g.updateCoherence.nodes.keys :=
    fun e he m hm => Std.ExtTreeMap.mem_keys.2 (derived.registered e he m hm)
  have distinct : ∀ e ∈ g.updateCoherence.edges, e.members.Nodup :=
    fun e he => (derived.sorted e he).imp ne_of_lt
  rw [List.map_congr_left weights,
    ← sum_weights_of_members Std.ExtTreeMap.nodup_keys _ distinct known,
    ← Std.ExtTreeMap.map_fst_toList_eq_keys, List.map_map]
  rfl

/-- The coherence of a node with an edge lies between the weights of its edges. -/
theorem coherence_between {id : NodeId} {n : GraphNode ℝ}
    (hn : g.updateCoherence.nodes[id]? = some n)
    (connected : g.updateCoherence.incidentEdges id ≠ []) :
    let weights := (g.updateCoherence.incidentEdges id).map Hyperedge.weight
    ∃ lo hi, weights.min? = some lo ∧ weights.max? = some hi ∧ n.coherence ∈ Set.Icc lo hi := by
  intro weights
  have nonempty : weights ≠ [] := mt List.map_eq_nil_iff.1 connected
  obtain ⟨lo, least⟩ := Option.isSome_iff_exists.1 (List.isSome_min?_iff.2 nonempty)
  obtain ⟨hi, greatest⟩ := Option.isSome_iff_exists.1 (List.isSome_max?_iff.2 nonempty)
  refine ⟨lo, hi, least, greatest, ?_⟩
  rw [coherence_of_updated hn]
  exact Series.mean_mem_Icc nonempty fun w hw =>
    ⟨(List.min?_eq_some_iff.1 least).2 w hw, (List.max?_eq_some_iff.1 greatest).2 w hw⟩

theorem coherence_of_isolated {id : NodeId} {n : GraphNode ℝ}
    (hn : g.updateCoherence.nodes[id]? = some n)
    (isolated : g.updateCoherence.incidentEdges id = []) :
    n.coherence = 0 := by
  rw [coherence_of_updated hn, isolated, List.map_nil, Series.mean_eq_div, List.sum_nil, zero_div]

end

/-- In every graph that calls lead to, coherence derived from the edges counts every edge once for
each of its members.  The coherence of a node with an edge lies between the least and the greatest
weight of its edges, and that of a node without one is zero.  Deriving it after any other
derivations gives the same graph, and changes the coherences only. -/
theorem coherence_counts_members (name : String) (operations : List (GraphOperation ℝ)) :
    let g := built name operations
    let g' := g.updateCoherence
    (g'.nodes.toList.map fun (id, n) => ((g'.incidentEdges id).length : ℝ) * n.coherence).sum =
      (g'.edges.map fun e => (e.members.length : ℝ) * e.weight).sum ∧
    (∀ (id : NodeId) (n : GraphNode ℝ), g'.nodes[id]? = some n →
      let weights := (g'.incidentEdges id).map Hyperedge.weight
      (g'.incidentEdges id ≠ [] → ∃ lo hi,
        weights.min? = some lo ∧ weights.max? = some hi ∧ n.coherence ∈ Set.Icc lo hi) ∧
      (g'.incidentEdges id = [] → n.coherence = 0)) ∧
    (∀ id, g'.incidentEdges id = g'.edges.filter (id ∈ ·.members)) ∧
    g'.updateCoherence = g' ∧
    (∀ updates, (g.rederived updates).updateCoherence = g') ∧
    g' = { g with nodes := g'.nodes } ∧
    ∀ id : NodeId, g'.nodes[id]?.map (fun n => (n.attributes, n.integration)) =
      g.nodes[id]?.map fun n => (n.attributes, n.integration) := by
  intro g g'
  have hg : g.WellFormed := wellFormed_built name operations
  refine ⟨hg.sum_updateCoherence, fun id n hn => ⟨coherence_between hn, coherence_of_isolated hn⟩,
    hg.updateCoherence.incidentEdges_eq, g.updateCoherence_updateCoherence,
    g.updateCoherence_rederived, rfl, fun id => ?_⟩
  rw [getElem?_updateCoherence, Option.map_map]
  rfl

/-- Two nodes that share an edge, and one without an edge. -/
theorem coherence_counts_members_pair :
    let g' := (built "graph" [.addNode "a" .null, .addNode "b" .null, .addNode "c" .null,
      .addEdge ["b", "a"] (3 : ℝ) none .epoch]).updateCoherence
    (g'.nodes.toList.map fun (id, n) => ((g'.incidentEdges id).length : ℝ) * n.coherence).sum =
        2 * 3 ∧
      (∃ n, g'.nodes["a"]? = some n ∧ n.coherence = 3) ∧
      ∃ n, g'.nodes["c"]? = some n ∧ n.coherence = 0 := by
  intro g'
  have edges : g'.edges = [⟨0, ["a", "b"], 3, none, .epoch⟩] := rfl
  obtain ⟨a, ha⟩ : ∃ n, g'.nodes["a"]? = some n := ⟨_, rfl⟩
  obtain ⟨c, hc⟩ : ∃ n, g'.nodes["c"]? = some n := ⟨_, rfl⟩
  obtain ⟨sum, nodes, incident, -⟩ := coherence_counts_members "graph" [.addNode "a" .null,
    .addNode "b" .null, .addNode "c" .null, .addEdge ["b", "a"] (3 : ℝ) none .epoch]
  have linked : g'.incidentEdges "a" = g'.edges := by rw [incident, edges]; rfl
  have alone : g'.incidentEdges "c" = [] := by rw [incident, edges]; rfl
  refine ⟨sum.trans (by rw [edges]; simp), ⟨a, ha, ?_⟩, c, hc, (nodes "c" c hc).2 alone⟩
  obtain ⟨lo, hi, least, greatest, low, high⟩ := (nodes "a" a ha).1 (by rw [linked, edges]; simp)
  rw [linked, edges] at least greatest
  cases least
  cases greatest
  exact le_antisymm high low

end Hypergraph

end AdaptivePopulation
