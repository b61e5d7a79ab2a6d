import AdaptivePopulation.Proofs.Hypergraph.Connectivity
import AdaptivePopulation.Proofs.Hypergraph.Restoration

/-!
# Keeping graphs

A graph that has been built comes back from its snapshot: the restored graph has the same attributes
and edges, and so answers every question about its topology as the graph itself does.
-/

namespace AdaptivePopulation

/-! ## Graphs with one topology -/

/-- What edges are kept for: their number, members and weight. -/
def Hyperedge.relation {α : Type} (e : Hyperedge α) : EdgeId × List NodeId × α :=
  (e.id, e.members, e.weight)

theorem Search.run_congr {α : Type} {g g' : Hypergraph α}
    (h : ∀ id, (g'.incidentEdges id).flatMap Hyperedge.members =
      (g.incidentEdges id).flatMap Hyperedge.members) (s : Search) : s.run g' = s.run g := by
  have step (s : Search) : s.step g' = s.step g := by
    simp only [Search.step, h]
  induction s using Search.run.induct g with
  | case1 s hq => rw [Search.run.eq_def g', Search.run.eq_def g, if_pos hq, if_pos hq]
  | case2 s hq ih => rw [Search.run.eq_def g', Search.run.eq_def g, if_neg hq, if_neg hq, step, ih]

namespace Hypergraph

variable {α : Type} {g g' : Hypergraph α}

theorem flatMap_members_eq {edges edges' : List (Hyperedge α)}
    (h : edges'.map Hyperedge.relation = edges.map Hyperedge.relation) :
    edges'.flatMap Hyperedge.members = edges.flatMap Hyperedge.members := by
  have members := congrArg (List.flatMap (·.2.1)) h
  rwa [List.flatMap_map, List.flatMap_map] at members

theorem map_weight_eq {edges edges' : List (Hyperedge α)}
    (h : edges'.map Hyperedge.relation = edges.map Hyperedge.relation) :
    edges'.map Hyperedge.weight = edges.map Hyperedge.weight := by
  have weights := congrArg (List.map (·.2.2)) h
  rwa [List.map_map, List.map_map] at weights

theorem partsFrom_congr
    (h : ∀ id, (g'.incidentEdges id).flatMap Hyperedge.members =
      (g.incidentEdges id).flatMap Hyperedge.members)
    (visited : Std.TreeSet NodeId compare) (ids : List NodeId) :
    g'.partsFrom visited ids = g.partsFrom visited ids := by
  induction ids generalizing visited with
  | nil => rfl
  | cons id ids ih => simp only [partsFrom, ih, Search.run_congr h]

variable [Scalar α]

theorem map_relation_edges (hg : g.WellFormed) (hg' : g'.WellFormed)
    (h : g'.snapshot = g.snapshot) :
    g'.edges.map Hyperedge.relation = g.edges.map Hyperedge.relation := by
  have records : g'.edges.map (fun e => (⟨e.members, e.weight⟩ : EdgeRecord α)) =
      g.edges.map fun e => ⟨e.members, e.weight⟩ := congrArg HypergraphSnapshot.edges h
  refine List.ext_getElem? fun i => ?_
  have record := congrArg (·[i]?) records
  simp only [List.getElem?_map] at record ⊢
  cases he : g.edges[i]? with
  | none => simpa [he] using record
  | some e =>
    cases he' : g'.edges[i]? with
    | none => simp [he, he'] at record
    | some e' =>
      simp only [he, he', Option.map_some, Option.some.injEq, EdgeRecord.mk.injEq] at record
      simp [Hyperedge.relation, record, hg.ids i e he, hg'.ids i e' he']

theorem map_relation_incidentEdges (hg : g.WellFormed) (hg' : g'.WellFormed)
    (h : g'.snapshot = g.snapshot) (id : NodeId) :
    (g'.incidentEdges id).map Hyperedge.relation = (g.incidentEdges id).map Hyperedge.relation := by
  have commutes (edges : List (Hyperedge α)) :
      (edges.filter (id ∈ ·.members)).map Hyperedge.relation =
        (edges.map Hyperedge.relation).filter (id ∈ ·.2.1) := by
    rw [List.filter_map]
    rfl
  rw [hg.incidentEdges_eq, hg'.incidentEdges_eq, commutes, commutes, map_relation_edges hg hg' h]

/-- The edges, components, neighbours and plain coherence of two graphs are the same. -/
structure SameTopology (g g' : Hypergraph α) : Prop where
  edges : g'.edges.map Hyperedge.relation = g.edges.map Hyperedge.relation
  components : g'.components = g.components
  neighbors : ∀ id, g'.neighbors id = g.neighbors id
  coherence : ∀ id : NodeId, g'.updateCoherence.nodes[id]?.map GraphNode.coherence =
    g.updateCoherence.nodes[id]?.map GraphNode.coherence

theorem sameTopology_of_snapshot_eq (hg : g.WellFormed) (hg' : g'.WellFormed)
    (h : g'.snapshot = g.snapshot) : g.SameTopology g' := by
  have incident := map_relation_incidentEdges hg hg' h
  have bags : g'.nodes.map (fun _ n => n.attributes) = g.nodes.map fun _ n => n.attributes :=
    congrArg HypergraphSnapshot.nodes h
  have keys : g'.nodes.keys = g.nodes.keys := by
    simpa only [Std.ExtTreeMap.keys_map] using congrArg Std.ExtTreeMap.keys bags
  refine ⟨map_relation_edges hg hg' h, ?_, fun id => ?_, fun id => ?_⟩
  · rw [components, components, keys]
    exact partsFrom_congr (fun id => flatMap_members_eq (incident id)) _ _
  · rw [neighbors, neighbors, flatMap_members_eq (incident id)]
  · have plain : g'.plainCoherence id = g.plainCoherence id := by
      rw [plainCoherence, plainCoherence, map_weight_eq (incident id)]
    have bag := congrArg (·[id]?.map fun _ => g.plainCoherence id) bags
    simp only [Std.ExtTreeMap.getElem?_map, Option.map_map] at bag
    simp only [updateCoherence, Std.ExtTreeMap.getElem?_map, Option.map_map]
    rw [← plain] at bag ⊢
    exact bag

end Hypergraph

/-! ## Attributes -/

theorem Json.orEmptyObject_ne_null (j : Json) : j.orEmptyObject ≠ .null := by
  cases j <;> simp [orEmptyObject]

theorem Json.orEmptyObject_of_ne_null {j : Json} (h : j ≠ .null) : j.orEmptyObject = j := by
  cases j <;> simp_all [orEmptyObject]

namespace Hypergraph

variable {α : Type} {g : Hypergraph α}

/-- No node has null for its attributes. -/
def HasBags (g : Hypergraph α) : Prop :=
  ∀ (id : NodeId) (n : GraphNode α), g.nodes[id]? = some n → n.attributes ≠ .null

theorem HasBags.of_attributes_eq (h : g.HasBags)
    {nodes : Std.ExtTreeMap NodeId (GraphNode α) compare}
    (same : ∀ id : NodeId, nodes[id]?.map GraphNode.attributes =
      g.nodes[id]?.map GraphNode.attributes) :
    HasBags { g with nodes := nodes } := by
  intro id n hn
  have bag := same id
  rw [show nodes[id]? = some n from hn, Option.map_some] at bag
  obtain ⟨m, hm, e⟩ := Option.map_eq_some_iff.1 bag.symm
  exact e ▸ h id m hm

variable [Scalar α]

theorem hasBags_perform (h : g.HasBags) (operation : GraphOperation α) :
    (g.perform operation).HasBags := by
  cases operation with
  | addNode id attributes =>
    refine of_toOption_getD h fun g' ha a n hn => ?_
    obtain ⟨-, rfl⟩ := addNode_eq_ok.1 ha
    rw [Std.ExtTreeMap.getElem?_insert] at hn
    split_ifs at hn with e
    · exact Option.some.inj hn ▸ attributes.orEmptyObject_ne_null
    · exact h a n hn
  | addEdge members weight metadata now =>
    refine of_toOption_getD h fun g' ha => ?_
    obtain ⟨-, rfl⟩ := addEdge_eq_ok.1 ha
    exact h
  | setNodeIntegration id phi =>
    refine h.of_attributes_eq fun a => ?_
    rw [Std.ExtTreeMap.getElem?_modify]
    split_ifs with e
    · obtain rfl := Std.LawfulEqCmp.eq_of_compare e
      rw [Option.map_map]
      rfl
    · rfl
  | setDissipation dissipation => exact h
  | setIntegration phi => exact h
  | updateCoherence source clock =>
    cases source with
    | none =>
      refine h.of_attributes_eq fun a => ?_
      rw [Std.ExtTreeMap.getElem?_map, Option.map_map]
      rfl
    | some source =>
      refine of_toOption_getD h fun g' hu => ?_
      obtain ⟨nodes, rfl, bags⟩ := updateCoherenceFrom_eq_ok hu
      exact h.of_attributes_eq bags

theorem hasBags_built (name : String) (operations : List (GraphOperation α)) :
    (built name operations).HasBags :=
  List.foldlRecOn operations perform (fun id n hn => by simp [empty] at hn) fun _ h operation _ =>
    hasBags_perform h operation

/-! ## There and back -/

theorem admissible_of_mem_snapshot (hg : g.WellFormed) {e : EdgeRecord α}
    (he : e ∈ g.snapshot.edges) : e.Admissible (· ∈ g.snapshot.nodes) := by
  obtain ⟨edge, hm, rfl⟩ := List.mem_map.1 he
  refine ⟨fun m hmem => ?_, ?_, hg.finite edge hm⟩
  · exact Std.ExtTreeMap.mem_map.2 (hg.registered edge hm m hmem)
  · rw [← two_le_length_sortIds, sortIds_of_pairwise (hg.sorted edge hm)]
    exact hg.two edge hm

theorem normalised_snapshot (hg : g.WellFormed) (bags : g.HasBags) :
    g.snapshot.normalised = g.snapshot := by
  have nodes : g.snapshot.normalised.nodes = g.snapshot.nodes := by
    refine Std.ExtTreeMap.ext_getElem? fun id => ?_
    simp only [HypergraphSnapshot.normalised, snapshot, Std.ExtTreeMap.getElem?_map]
    cases hn : g.nodes[id]? with
    | none => rfl
    | some n => simp [Json.orEmptyObject_of_ne_null (bags id n hn)]
  have edges : g.snapshot.normalised.edges = g.snapshot.edges := by
    refine (List.map_congr_left fun e he => ?_).trans (List.map_id _)
    obtain ⟨edge, hm, rfl⟩ := List.mem_map.1 he
    rw [← sortIds_eq_mergeSort, sortIds_of_pairwise (hg.sorted edge hm)]
    rfl
  generalize g.snapshot.normalised = t at nodes edges
  cases t
  exact congrArg₂ HypergraphSnapshot.mk nodes edges

/-- Every graph that calls lead to comes back from its snapshot with the same snapshot and the same
topology.  A snapshot is restored exactly when each of its records makes an edge among its nodes;
the graph then has that snapshot with its records in order.  Else the first record that makes no
edge is reported. -/
theorem snapshot_restores :
    (∀ (name name' : String) (operations : List (GraphOperation α)) (clock : Clock),
      let g := built name operations
      ∃ g', ofSnapshot name' g.snapshot clock = .ok g' ∧ g'.snapshot = g.snapshot ∧
        g.SameTopology g') ∧
    ∀ (name : String) (s : HypergraphSnapshot α) (clock : Clock),
      ((∃ g, ofSnapshot name s clock = .ok g) ↔ ∀ e ∈ s.edges, e.Admissible (· ∈ s.nodes)) ∧
      (∀ g, ofSnapshot name s clock = .ok g → g.snapshot = s.normalised) ∧
      ∀ error, ofSnapshot name s clock = .error error ↔
        ∃ before e after, s.edges = before ++ e :: after ∧
          (∀ x ∈ before, x.Admissible (· ∈ s.nodes)) ∧ e.Offence (· ∈ s.nodes) error := by
  refine ⟨fun name name' operations clock => ?_, fun name s clock =>
    ⟨exists_ofSnapshot_eq_ok, fun _ => snapshot_ofSnapshot, fun _ => ofSnapshot_eq_error⟩⟩
  intro g
  have hg : g.WellFormed := wellFormed_built name operations
  obtain ⟨g', h⟩ : ∃ g', ofSnapshot name' g.snapshot clock = .ok g' :=
    exists_ofSnapshot_eq_ok.2 fun _ => admissible_of_mem_snapshot hg
  have same : g'.snapshot = g.snapshot :=
    (snapshot_ofSnapshot h).trans (normalised_snapshot hg (hasBags_built name operations))
  exact ⟨g', h, same, sameTopology_of_snapshot_eq hg (wellFormed_ofSnapshot h) same⟩

end Hypergraph

end AdaptivePopulation
