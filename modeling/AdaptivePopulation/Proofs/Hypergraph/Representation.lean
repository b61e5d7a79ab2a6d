import AdaptivePopulation.Proofs.Hypergraph.Search

/-!
# Edges and their index

The edges of a graph and the index of the edges of each node are two records of one relation.  In
every graph that calls lead to they agree, so that what is looked up through the index is what a
scan of all edges would find.  Calls that are refused change neither.
-/

namespace AdaptivePopulation

theorem two_le_length_sortIds {ids : List NodeId} :
    2 ≤ (sortIds ids).length ↔ ∃ a ∈ ids, ∃ b ∈ ids, a ≠ b := by
  have hs := sortIds_pairwise ids
  have hm : ∀ id, id ∈ sortIds ids ↔ id ∈ ids := fun _ => mem_sortIds
  generalize sortIds ids = sorted at hs hm
  simp only [← hm]
  match sorted with
  | [] => simp
  | [a] => simp
  | a :: b :: rest =>
    have hab : a < b := List.rel_of_pairwise_cons hs List.mem_cons_self
    refine ⟨fun _ => ⟨a, by simp, b, by simp, hab.ne⟩, fun _ => ?_⟩
    simp only [List.length_cons]
    omega

namespace Hypergraph

variable {α : Type} [Scalar α] {g g' : Hypergraph α} {a b id : NodeId}

namespace WellFormed

/-! ## The index -/

theorem map_id_edges (h : g.WellFormed) : g.edges.map Hyperedge.id = List.range g.edges.length := by
  refine List.ext_getElem? fun i => ?_
  rw [List.getElem?_map]
  by_cases hi : i < g.edges.length
  · have he := h.ids i _ (List.getElem?_eq_getElem hi)
    rw [List.getElem?_eq_getElem hi, Option.map_some, he, List.getElem?_range hi]
  · have hl : g.edges.length ≤ i := Nat.le_of_not_lt hi
    rw [List.getElem?_eq_none hl, Option.map_none, List.getElem?_eq_none (by simpa using hl)]

theorem edgesOf_pairwise (h : g.WellFormed) (id : NodeId) : (g.edgesOf id).Pairwise (· < ·) := by
  have all : (g.edges.map Hyperedge.id).Pairwise (· < ·) := h.map_id_edges ▸ List.pairwise_lt_range
  exact all.sublist (List.filter_sublist.map Hyperedge.id)

theorem mem_edgesOf (h : g.WellFormed) {i : EdgeId} :
    i ∈ g.edgesOf id ↔ ∃ e, g.edges[i]? = some e ∧ id ∈ e.members := by
  simp only [edgesOf, List.mem_map, List.mem_filter, decide_eq_true_iff]
  constructor
  · rintro ⟨e, ⟨he, hid⟩, rfl⟩
    exact ⟨e, h.getElem?_id he, hid⟩
  · rintro ⟨e, he, hid⟩
    exact ⟨e, ⟨List.mem_of_getElem? he, hid⟩, h.ids i e he⟩

theorem mem_incidence (h : g.WellFormed) : id ∈ g.incidence ↔ id ∈ g.nodes := by
  rw [Std.ExtTreeMap.mem_iff_isSome_getElem?, h.incidence]
  split_ifs with hid <;> simp [hid]

theorem incidence_eq_some (h : g.WellFormed) {entry : List EdgeId}
    (he : g.incidence[id]? = some entry) : entry = g.edgesOf id := by
  rw [h.incidence] at he
  split_ifs at he
  exact (Option.some.inj he).symm

/-! ## Queries -/

/-- What the index finds is what a scan of all edges finds. -/
theorem incidentEdges_eq_contains (h : g.WellFormed) (id : NodeId) :
    g.incidentEdges id = g.edges.filter (·.contains id) := by
  rw [h.incidentEdges_eq]
  refine List.filter_congr fun e he => ?_
  rw [Bool.eq_iff_iff, Hyperedge.contains_iff (h.sorted e he), decide_eq_true_iff]

theorem mem_neighbors (h : g.WellFormed) : b ∈ g.neighbors a ↔ b ≠ a ∧ g.Adjacent a b := by
  rw [neighbors, mem_sortIds, List.mem_filter, h.mem_scan, decide_eq_true_iff, and_comm]

theorem mem_neighbors_comm (h : g.WellFormed) : b ∈ g.neighbors a ↔ a ∈ g.neighbors b := by
  rw [h.mem_neighbors, h.mem_neighbors]
  exact and_congr ne_comm ⟨Adjacent.symm, Adjacent.symm⟩

end WellFormed

/-! ## Refusal -/

variable {members : List NodeId} {weight : α} {metadata : Option Json} {now : Instant}

theorem exists_addEdge_eq_ok :
    (∃ g', g.addEdge members weight metadata now = .ok g') ↔
      (∀ m ∈ members, m ∈ g.nodes) ∧ (∃ a ∈ members, ∃ b ∈ members, a ≠ b) ∧
        Scalar.isFinite weight := by
  simp only [addEdge_eq_ok, two_le_length_sortIds, exists_and_left, exists_eq, and_true]

/-- The call is refused or breaks down. -/
def Refuses (g : Hypergraph α) : GraphOperation α → Prop
  | .addNode id attributes => ∃ error, g.addNode id attributes = .error error
  | .addEdge members weight metadata now =>
    ∃ error, g.addEdge members weight metadata now = .error error
  | .updateCoherence (some source) clock =>
    ∃ fault, g.updateCoherenceFrom source clock = .error fault
  | _ => False

theorem perform_eq_self {operation : GraphOperation α} (h : g.Refuses operation) :
    g.perform operation = g := by
  unfold Refuses at h
  split at h
  case h_4 => exact h.elim
  all_goals
    obtain ⟨error, he⟩ := h
    simp [perform, he, Except.toOption]

/-- In every graph that calls lead to, refused ones included, edges are numbered by position, have
two or more registered members in order and a finite weight, and the index has one entry for each
node, with the edges that contain it.  Hence the edges and the neighbours of a node are what the
edges say, an edge is added exactly when it is one, and refused calls change nothing. -/
theorem representation_consistent (name : String) (operations : List (GraphOperation α)) :
    let g := built name operations
    (∀ (i : Nat) (e : Hyperedge α), g.edges[i]? = some e →
      e.id = i ∧ e.members.Pairwise (· < ·) ∧ 2 ≤ e.members.length ∧
        (∀ m ∈ e.members, m ∈ g.nodes) ∧ Scalar.isFinite e.weight) ∧
    (∀ id, id ∈ g.incidence ↔ id ∈ g.nodes) ∧
    (∀ (id : NodeId) (entry : List EdgeId), g.incidence[id]? = some entry →
      entry.Pairwise (· < ·) ∧
        ∀ i, i ∈ entry ↔ ∃ e, g.edges[i]? = some e ∧ id ∈ e.members) ∧
    (∀ id, g.incidentEdges id = g.edges.filter (·.contains id)) ∧
    (∀ e ∈ g.edges, ∀ id, e.contains id ↔ id ∈ e.members) ∧
    (∀ a, (g.neighbors a).Pairwise (· < ·) ∧
      ∀ b, b ∈ g.neighbors a ↔ b ≠ a ∧ ∃ e ∈ g.edges, a ∈ e.members ∧ b ∈ e.members) ∧
    (∀ a b, b ∈ g.neighbors a ↔ a ∈ g.neighbors b) ∧
    (∀ members weight metadata now,
      ((∃ g', g.addEdge members weight metadata now = .ok g') ↔
        (∀ m ∈ members, m ∈ g.nodes) ∧ (∃ a ∈ members, ∃ b ∈ members, a ≠ b) ∧
          Scalar.isFinite weight) ∧
      ∀ g', g.addEdge members weight metadata now = .ok g' →
        g'.nodes = g.nodes ∧
          g'.edges = g.edges ++ [⟨g.edges.length, sortIds members, weight, metadata, now⟩]) ∧
    ∀ operation, g.Refuses operation → g.perform operation = g := by
  intro g
  have hg : g.WellFormed := wellFormed_built name operations
  refine ⟨fun i e he => ?_, fun _ => hg.mem_incidence, fun id entry he => ?_,
    hg.incidentEdges_eq_contains, fun e he _ => Hyperedge.contains_iff (hg.sorted e he),
    fun a => ⟨sortIds_pairwise _, fun _ => hg.mem_neighbors⟩, fun _ _ => hg.mem_neighbors_comm,
    fun members weight metadata now => ⟨exists_addEdge_eq_ok, fun g' ha => ?_⟩,
    fun _ => perform_eq_self⟩
  · have mem : e ∈ g.edges := List.mem_of_getElem? he
    exact ⟨hg.ids i e he, hg.sorted e mem, hg.two e mem, hg.registered e mem, hg.finite e mem⟩
  · rw [hg.incidence_eq_some he]
    exact ⟨hg.edgesOf_pairwise id, fun _ => hg.mem_edgesOf⟩
  · obtain ⟨-, rfl⟩ := addEdge_eq_ok.1 ha
    exact ⟨rfl, rfl⟩

end Hypergraph

end AdaptivePopulation
