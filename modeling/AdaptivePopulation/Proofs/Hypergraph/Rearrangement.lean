import Mathlib.Algebra.BigOperators.Group.List.Basic
import AdaptivePopulation.Proofs.Exact
import AdaptivePopulation.Proofs.Hypergraph.Connectivity
import AdaptivePopulation.Proofs.Hypergraph.Restoration

/-!
# The order in which a graph is built

Calls that add nodes and edges, all of which succeed, can be made in another order, as long as they
still succeed.  The edges are numbered differently then, and are found in another order by the index
and by searches; but the graph has the same nodes and the same edges up to their order
(`Rearranged`), and every question about its topology has the same answer.  Where sums do not depend
on the order of their terms, neither does the coherence.
-/

namespace AdaptivePopulation

/-- A call that adds to a graph, whenever it is made. -/
inductive Addition (α : Type) where
  | node (id : NodeId) (attributes : Json)
  | edge (members : List NodeId) (weight : α) (metadata : Option Json)

/-- The record of the edge that a call adds, if it adds one. -/
def Addition.record? {α : Type} : Addition α → Option (EdgeRecord α)
  | .node _ _ => none
  | .edge members weight _ => some ⟨sortIds members, weight⟩

namespace Hypergraph

section

variable {α : Type} {g g' : Hypergraph α}

/-- The same nodes and terms, and the same edges in some order. -/
structure Rearranged (g g' : Hypergraph α) : Prop where
  nodes : g'.nodes = g.nodes
  edges : g'.snapshot.edges.Perm g.snapshot.edges
  dissipation : g'.dissipation = g.dissipation
  integration : g'.integration = g.integration

/-! ## Topology -/

theorem adjacent_iff_record {a b : NodeId} :
    g.Adjacent a b ↔ ∃ e ∈ g.snapshot.edges, a ∈ e.nodes ∧ b ∈ e.nodes := by
  simp [Adjacent, snapshot]

theorem Rearranged.adjacent (h : g.Rearranged g') : g'.Adjacent = g.Adjacent := by
  funext a b
  simp only [adjacent_iff_record, h.edges.mem_iff]

theorem Rearranged.reaches (h : g.Rearranged g') : g'.Reaches = g.Reaches :=
  congrArg Relation.ReflTransGen h.adjacent

variable {visited : Std.TreeSet NodeId compare} {parts parts' : List (List NodeId)}

/-- Only the nodes and what reaches what matter for how a graph is divided. -/
theorem Divides.congr (h : g'.Divides visited parts) (nodes : g'.nodes = g.nodes)
    (reaches : g'.Reaches = g.Reaches) : g.Divides visited parts where
  nonempty := h.nonempty
  sorted := h.sorted
  disjoint := h.disjoint
  ordered := h.ordered
  mem := fun a => nodes ▸ h.mem a
  reaches := reaches ▸ h.reaches

/-- A part of one division is a part of any other. -/
theorem Divides.subset (h : g.Divides visited parts) (h' : g.Divides visited parts') :
    parts ⊆ parts' := by
  intro part hp
  obtain ⟨a, ha⟩ := List.exists_mem_of_ne_nil part (h.nonempty part hp)
  obtain ⟨part', hp', ha'⟩ := (h'.mem a).2 ((h.mem a).1 ⟨part, hp, ha⟩)
  have same : part = part' :=
    eq_of_pairwise_of_mem_iff (h.sorted part hp) (h'.sorted part' hp') fun b => by
      rw [h.reaches part hp a ha, h'.reaches part' hp' a ha']
  exact same ▸ hp'

theorem Divides.nodup (h : g.Divides visited parts) : parts.Nodup :=
  h.ordered.imp fun ⟨a, ha, least⟩ e => lt_irrefl a (least a (e ▸ ha))

/-- There is one way only to divide a graph. -/
theorem Divides.unique (h : g.Divides visited parts) (h' : g.Divides visited parts') :
    parts = parts' := by
  have perm : parts.Perm parts' := (List.perm_ext_iff_of_nodup h.nodup h'.nodup).2 fun part =>
    ⟨fun hp => h.subset h' hp, fun hp => h'.subset h hp⟩
  refine List.Perm.eq_of_pairwise (fun p q _ _ hpq hqp => ?_) h.ordered h'.ordered perm
  obtain ⟨a, ha, below⟩ := hpq
  obtain ⟨b, hb, below'⟩ := hqp
  exact absurd (below b hb) (below' a ha).not_gt

variable [Scalar α]

theorem Rearranged.neighbors (h : g.Rearranged g') (hg : g.WellFormed) (hg' : g'.WellFormed)
    (id : NodeId) : g'.neighbors id = g.neighbors id := by
  refine eq_of_pairwise_of_mem_iff (sortIds_pairwise _) (sortIds_pairwise _) fun b => ?_
  show b ∈ g'.neighbors id ↔ b ∈ g.neighbors id
  rw [hg.mem_neighbors, hg'.mem_neighbors, h.adjacent]

theorem Rearranged.components (h : g.Rearranged g') (hg : g.WellFormed) (hg' : g'.WellFormed) :
    g'.components = g.components :=
  ((divides_components hg').congr h.nodes h.reaches).unique (divides_components hg)

/-! ## What calls leave behind -/

/-- Calls that all succeed, whatever the clock says, lead from a graph without nodes to this one. -/
inductive Grown (name : String) : List (Addition α) → Hypergraph α → Prop where
  | empty : Grown name [] (empty name)
  | node {calls : List (Addition α)} {g g' : Hypergraph α} {id : NodeId} {attributes : Json}
      (grown : Grown name calls g) (h : g.addNode id attributes = .ok g') :
      Grown name (calls ++ [.node id attributes]) g'
  | edge {calls : List (Addition α)} {g g' : Hypergraph α} {members : List NodeId} {weight : α}
      {metadata : Option Json} {now : Instant} (grown : Grown name calls g)
      (h : g.addEdge members weight metadata now = .ok g') :
      Grown name (calls ++ [.edge members weight metadata]) g'

variable {name name' : String} {calls calls' : List (Addition α)}

theorem Grown.wellFormed (h : Grown name calls g) : g.WellFormed := by
  induction h with
  | empty => exact wellFormed_empty name
  | node _ h ih => exact wellFormed_addNode ih h
  | edge _ h ih => exact wellFormed_addEdge ih h

/-- The nodes are those of the calls that add one, each as it was added. -/
theorem Grown.getElem?_nodes (h : Grown name calls g) {id : NodeId} {n : GraphNode α} :
    g.nodes[id]? = some n ↔ ∃ attributes, .node id attributes ∈ calls ∧
      n = ⟨attributes.orEmptyObject, 1.0, 0.0⟩ := by
  induction h generalizing n with
  | empty => simp [Hypergraph.empty]
  | @node calls g g' new attributes grown h ih =>
    obtain ⟨fresh, rfl⟩ := addNode_eq_ok.1 h
    rw [Std.ExtTreeMap.getElem?_insert]
    split_ifs with e
    · -- No earlier call has added this node, or it would have been registered.
      obtain rfl := Std.LawfulEqCmp.eq_of_compare e
      have absent : ∀ bag, .node new bag ∉ calls := by
        intro bag mem
        have stored : g.nodes[new]? = some ⟨bag.orEmptyObject, 1.0, 0.0⟩ := ih.2 ⟨bag, mem, rfl⟩
        exact fresh (Std.ExtTreeMap.mem_iff_isSome_getElem?.2 (by rw [stored]; rfl))
      simp [absent, eq_comm]
    · have other : id ≠ new := fun h => e (h ▸ Std.ReflCmp.compare_self)
      simp [ih, other]
  | edge grown h ih =>
    obtain ⟨-, rfl⟩ := addEdge_eq_ok.1 h
    simpa [withEdge] using ih

/-- The edges are those of the calls that add one, in their order. -/
theorem Grown.snapshot_edges (h : Grown name calls g) :
    g.snapshot.edges = calls.filterMap Addition.record? := by
  induction h with
  | empty => rfl
  | node _ h ih =>
    obtain ⟨-, rfl⟩ := addNode_eq_ok.1 h
    rw [List.filterMap_append, ← ih]
    exact (List.append_nil _).symm
  | edge _ h ih =>
    obtain ⟨-, rfl⟩ := addEdge_eq_ok.1 h
    rw [List.filterMap_append, ← ih]
    exact List.map_append

theorem Grown.terms (h : Grown name calls g) : g.dissipation = 0.0 ∧ g.integration = 0.0 := by
  induction h with
  | empty => exact ⟨rfl, rfl⟩
  | node _ h ih =>
    obtain ⟨-, rfl⟩ := addNode_eq_ok.1 h
    exact ih
  | edge _ h ih =>
    obtain ⟨-, rfl⟩ := addEdge_eq_ok.1 h
    exact ih

theorem Grown.rearranged (h : Grown name calls g) (h' : Grown name' calls' g')
    (perm : calls.Perm calls') : g.Rearranged g' where
  nodes := by
    refine Std.ExtTreeMap.ext_getElem? fun id => Option.ext fun n => ?_
    rw [h'.getElem?_nodes, h.getElem?_nodes]
    simp only [perm.mem_iff]
  edges := by
    rw [h'.snapshot_edges, h.snapshot_edges]
    exact perm.symm.filterMap _
  dissipation := h'.terms.1.trans h.terms.1.symm
  integration := h'.terms.2.trans h.terms.2.symm

/-! ## Which calls succeed -/

theorem Grown.mem_nodes (h : Grown name calls g) {id : NodeId} :
    id ∈ g.nodes ↔ ∃ attributes, .node id attributes ∈ calls := by
  simp only [Std.ExtTreeMap.mem_iff_isSome_getElem?, Option.isSome_iff_exists, h.getElem?_nodes]
  constructor
  · rintro ⟨_, attributes, mem, -⟩
    exact ⟨attributes, mem⟩
  · rintro ⟨attributes, mem⟩
    exact ⟨_, attributes, mem, rfl⟩

theorem Grown.exists_node (h : Grown name calls g) (id : NodeId)
    (fresh : ∀ attributes, .node id attributes ∉ calls) (attributes : Json) :
    ∃ g', Grown name (calls ++ [.node id attributes]) g' := by
  have absent : id ∉ g.nodes := fun mem => (h.mem_nodes.1 mem).elim fresh
  exact ⟨_, h.node (addNode_eq_ok.2 ⟨absent, rfl⟩)⟩

theorem Grown.exists_edge (h : Grown name calls g) {members : List NodeId}
    (known : ∀ m ∈ members, ∃ attributes, .node m attributes ∈ calls)
    (two : ∃ a ∈ members, ∃ b ∈ members, a ≠ b) (weight : α) (finite : Scalar.isFinite weight)
    (metadata : Option Json) : ∃ g', Grown name (calls ++ [.edge members weight metadata]) g' := by
  obtain ⟨g', added⟩ : ∃ g', g.addEdge members weight metadata .epoch = .ok g' :=
    exists_addEdge_eq_ok.2 ⟨fun m hm => h.mem_nodes.2 (known m hm), two, finite⟩
  exact ⟨g', h.edge added⟩

end

/-! ## Coherence in exact arithmetic -/

variable {g g' : Hypergraph ℝ}

theorem mean_perm {values values' : List ℝ} (perm : values.Perm values') :
    Series.mean values = Series.mean values' := by
  have total : Series.total values = Series.total values' := by
    rw [Series.total_eq_sum, Series.total_eq_sum, perm.sum_eq]
  unfold Series.mean
  rw [total, perm.length_eq, perm.isEmpty_eq]

/-- A mean of doubles depends on their order. -/
example : (Series.mean [0.3, 0.2, 0.1] : Float) < Series.mean [0.1, 0.2, 0.3] := by decide +kernel

/-- The weights of the edges of a node, in the order of their creation, are those of the records
that name it. -/
theorem WellFormed.map_weight_incidentEdges {α : Type} [Scalar α] {g : Hypergraph α}
    (hg : g.WellFormed) (id : NodeId) : (g.incidentEdges id).map Hyperedge.weight =
      (g.snapshot.edges.filter (id ∈ ·.nodes)).map EdgeRecord.weight := by
  rw [hg.incidentEdges_eq, snapshot, List.filter_map, List.map_map]
  rfl

theorem Rearranged.plainCoherence (h : g.Rearranged g') (hg : g.WellFormed) (hg' : g'.WellFormed)
    (id : NodeId) : g'.plainCoherence id = g.plainCoherence id := by
  unfold Hypergraph.plainCoherence
  rw [hg.map_weight_incidentEdges, hg'.map_weight_incidentEdges]
  exact mean_perm ((h.edges.filter _).map _)

theorem Rearranged.averageCoherence (h : g.Rearranged g') :
    g'.averageCoherence = g.averageCoherence := by
  unfold Hypergraph.averageCoherence
  rw [h.nodes]

theorem Rearranged.globalCoherence (h : g.Rearranged g') :
    g'.globalCoherence = g.globalCoherence := by
  unfold Hypergraph.globalCoherence
  rw [h.averageCoherence, h.dissipation, h.integration]

theorem Rearranged.updateCoherence (h : g.Rearranged g') (hg : g.WellFormed) (hg' : g'.WellFormed) :
    g.updateCoherence.Rearranged g'.updateCoherence where
  nodes := by
    have plain : g'.plainCoherence = g.plainCoherence := funext (h.plainCoherence hg hg')
    show g'.nodes.map _ = g.nodes.map _
    rw [h.nodes, plain]
  edges := h.edges
  dissipation := h.dissipation
  integration := h.integration

/-- Calls that add nodes and edges lead to the same graph in whatever order they succeed: the
components, the neighbours and the attributes are the same, and the edges are the same in some
order.  In exact arithmetic the coherence of each node and of the graph is the same too, before and
after it is derived from the edges. -/
theorem construction_order_immaterial :
    (∀ (α : Type) [Scalar α] (name name' : String) (calls calls' : List (Addition α))
      (g g' : Hypergraph α),
      Grown name calls g → Grown name' calls' g' → calls.Perm calls' →
        g'.components = g.components ∧
        (∀ id, g'.neighbors id = g.neighbors id) ∧
        g'.snapshot.nodes = g.snapshot.nodes ∧
        g'.snapshot.edges.Perm g.snapshot.edges) ∧
    ∀ (name name' : String) (calls calls' : List (Addition ℝ)) (g g' : Hypergraph ℝ),
      Grown name calls g → Grown name' calls' g' → calls.Perm calls' →
        (∀ id : NodeId, g'.updateCoherence.nodes[id]?.map GraphNode.coherence =
          g.updateCoherence.nodes[id]?.map GraphNode.coherence) ∧
        g'.updateCoherence.averageCoherence = g.updateCoherence.averageCoherence ∧
        g'.updateCoherence.globalCoherence = g.updateCoherence.globalCoherence ∧
        g'.averageCoherence = g.averageCoherence ∧
        g'.globalCoherence = g.globalCoherence := by
  constructor
  · intro α _ name name' calls calls' g g' grown grown' perm
    have same := grown.rearranged grown' perm
    have hg := grown.wellFormed
    have hg' := grown'.wellFormed
    refine ⟨same.components hg hg', same.neighbors hg hg', ?_, same.edges⟩
    unfold snapshot
    rw [same.nodes]
  · intro name name' calls calls' g g' grown grown' perm
    have same := grown.rearranged grown' perm
    have derived := same.updateCoherence grown.wellFormed grown'.wellFormed
    refine ⟨fun id => ?_, derived.averageCoherence, derived.globalCoherence,
      same.averageCoherence, same.globalCoherence⟩
    rw [derived.nodes]

/-- Edges may be added before all nodes are there, and in another order. -/
theorem construction_order_immaterial_chain : ∃ g g' : Hypergraph ℝ,
    Grown "first" [.node "a" .null, .node "b" .null, .node "c" .null,
      .edge ["a", "b"] 0.5 none, .edge ["b", "c"] 0.25 none] g ∧
    Grown "second" [.node "c" .null, .node "b" .null, .edge ["b", "c"] 0.25 none,
      .node "a" .null, .edge ["a", "b"] 0.5 none] g' ∧
    g'.components = g.components ∧
    g'.updateCoherence.globalCoherence = g.updateCoherence.globalCoherence := by
  have ab : ∃ a ∈ ["a", "b"], ∃ b ∈ ["a", "b"], a ≠ b := ⟨"a", by decide, "b", by decide⟩
  have bc : ∃ a ∈ ["b", "c"], ∃ b ∈ ["b", "c"], a ≠ b := ⟨"b", by decide, "c", by decide⟩
  let calls : List (Addition ℝ) := [.node "a" .null, .node "b" .null, .node "c" .null,
    .edge ["a", "b"] 0.5 none, .edge ["b", "c"] 0.25 none]
  let calls' : List (Addition ℝ) := [.node "c" .null, .node "b" .null,
    .edge ["b", "c"] 0.25 none, .node "a" .null, .edge ["a", "b"] 0.5 none]
  have start (name : String) : Grown name ([] : List (Addition ℝ)) (empty name) := .empty
  obtain ⟨g, grown⟩ : ∃ g, Grown "first" calls g := by
    obtain ⟨_, h⟩ := (start "first").exists_node "a" (by simp) .null
    obtain ⟨_, h⟩ := h.exists_node "b" (by simp) .null
    obtain ⟨_, h⟩ := h.exists_node "c" (by simp) .null
    obtain ⟨_, h⟩ := h.exists_edge (by simp) ab 0.5 rfl none
    exact h.exists_edge (by simp) bc 0.25 rfl none
  obtain ⟨g', grown'⟩ : ∃ g, Grown "second" calls' g := by
    obtain ⟨_, h⟩ := (start "second").exists_node "c" (by simp) .null
    obtain ⟨_, h⟩ := h.exists_node "b" (by simp) .null
    obtain ⟨_, h⟩ := h.exists_edge (by simp) bc 0.25 rfl none
    obtain ⟨_, h⟩ := h.exists_node "a" (by simp) .null
    exact h.exists_edge (by simp) ab 0.5 rfl none
  have positions : ([0, 1, 2, 3, 4] : List (Fin 5)).Perm [2, 1, 4, 0, 3] := by decide
  have perm : calls.Perm calls' := positions.map calls.get
  obtain ⟨topology, exact⟩ := construction_order_immaterial
  exact ⟨g, g', grown, grown', (topology ℝ _ _ _ _ g g' grown grown' perm).1,
    (exact _ _ _ _ g g' grown grown' perm).2.2.1⟩

end Hypergraph

end AdaptivePopulation
