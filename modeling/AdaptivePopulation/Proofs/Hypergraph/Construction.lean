import Mathlib.Tactic.SplitIfs
import AdaptivePopulation.Hypergraph.Coherence
import AdaptivePopulation.Proofs.Fallible
import AdaptivePopulation.Proofs.NodeId

/-!
# Graphs as they are built

Every graph that calls lead to, refused ones included, numbers its edges by position, keeps members
sorted and registered, and lists for each node exactly the edges that contain it.  These facts are
the invariant `WellFormed`, which every operation preserves.
-/

namespace AdaptivePopulation

theorem Hyperedge.contains_iff {α : Type} {e : Hyperedge α} (h : e.members.Pairwise (· < ·))
    {id : NodeId} : e.contains id ↔ id ∈ e.members :=
  searchSorted_iff h

namespace Hypergraph

variable {α : Type}

theorem contains_iff {g : Hypergraph α} {id : NodeId} : g.contains id ↔ id ∈ g.nodes :=
  Std.ExtTreeMap.contains_iff_mem

/-- The numbers of the edges that contain a node. -/
def edgesOf (g : Hypergraph α) (id : NodeId) : List EdgeId :=
  (g.edges.filter (id ∈ ·.members)).map Hyperedge.id

/-- The graph with an edge over sorted members. -/
def withEdge (g : Hypergraph α) (members : List NodeId) (weight : α) (metadata : Option Json)
    (now : Instant) : Hypergraph α :=
  { g with
    edges := g.edges ++ [⟨g.edges.length, members, weight, metadata, now⟩]
    incidence := members.foldl (fun index m => index.alter m (enlist g.edges.length)) g.incidence }

theorem edgesOf_withEdge (g : Hypergraph α) (members : List NodeId) (weight : α)
    (metadata : Option Json) (now : Instant) (id : NodeId) :
    (g.withEdge members weight metadata now).edgesOf id =
      if id ∈ members then g.edgesOf id ++ [g.edges.length] else g.edgesOf id := by
  unfold edgesOf withEdge
  split_ifs with h
  · simp [List.filter_append, h]
  · simp [List.filter_append, h]

variable [Scalar α]

/-- What holds of a graph however it was built. -/
structure WellFormed (g : Hypergraph α) : Prop where
  /-- Edges are numbered in the order of their creation. -/
  ids : ∀ (i : Nat) (e : Hyperedge α), g.edges[i]? = some e → e.id = i
  sorted : ∀ e ∈ g.edges, e.members.Pairwise (· < ·)
  two : ∀ e ∈ g.edges, 2 ≤ e.members.length
  registered : ∀ e ∈ g.edges, ∀ id ∈ e.members, id ∈ g.nodes
  finite : ∀ e ∈ g.edges, Scalar.isFinite e.weight
  /-- The index has one entry for each node, with the edges that contain it. -/
  incidence : ∀ id, g.incidence[id]? = if id ∈ g.nodes then some (g.edgesOf id) else none

theorem wellFormed_empty (name : String) : (empty name : Hypergraph α).WellFormed where
  ids := by simp [empty]
  sorted := by simp [empty]
  two := by simp [empty]
  registered := by simp [empty]
  finite := by simp [empty]
  incidence := by simp [empty]

namespace WellFormed

variable {g g' : Hypergraph α}

/-- Only edges, index and the set of nodes matter. -/
theorem congr (h : g.WellFormed) (edges : g'.edges = g.edges)
    (incidence : g'.incidence = g.incidence) (nodes : ∀ id, id ∈ g'.nodes ↔ id ∈ g.nodes) :
    g'.WellFormed where
  ids := edges ▸ h.ids
  sorted := edges ▸ h.sorted
  two := edges ▸ h.two
  registered := by
    rw [edges]
    exact fun e he id hid => (nodes id).2 (h.registered e he id hid)
  finite := edges ▸ h.finite
  incidence := by
    intro id
    rw [incidence, h.incidence, edgesOf, edgesOf, edges]
    simp only [nodes]

theorem edgesOf_eq_nil (h : g.WellFormed) {id : NodeId} (hid : id ∉ g.nodes) :
    g.edgesOf id = [] := by
  rw [edgesOf, List.map_eq_nil_iff, List.filter_eq_nil_iff]
  exact fun e he hc => hid (h.registered e he id (of_decide_eq_true hc))

theorem getElem?_id (h : g.WellFormed) {e : Hyperedge α} (he : e ∈ g.edges) :
    g.edges[e.id]? = some e := by
  obtain ⟨i, hi⟩ := List.mem_iff_getElem?.1 he
  rwa [h.ids i e hi]

/-- The index finds exactly the edges that contain a node, in the order of their creation. -/
theorem incidentEdges_eq (h : g.WellFormed) (id : NodeId) :
    g.incidentEdges id = g.edges.filter (id ∈ ·.members) := by
  have entry : g.incidence.getD id [] = g.edgesOf id := by
    rw [Std.ExtTreeMap.getD_eq_getD_getElem?, h.incidence]
    split_ifs with hid
    · rfl
    · exact (h.edgesOf_eq_nil hid).symm
  rw [incidentEdges, entry, edgesOf, List.filterMap_map]
  have found : ∀ e ∈ g.edges.filter (id ∈ ·.members), g.edges[e.id]? = some e :=
    fun e he => h.getElem?_id (List.mem_of_mem_filter he)
  exact (List.filterMap_congr found).trans (List.filterMap_some)

theorem mem_incidentEdges (h : g.WellFormed) {id : NodeId} {e : Hyperedge α} :
    e ∈ g.incidentEdges id ↔ e ∈ g.edges ∧ id ∈ e.members := by
  rw [h.incidentEdges_eq, List.mem_filter, decide_eq_true_iff]

end WellFormed

/-! ## Adding nodes and edges -/

theorem addNode_eq_ok {g g' : Hypergraph α} {id : NodeId} {attributes : Json} :
    g.addNode id attributes = .ok g' ↔ id ∉ g.nodes ∧
      g' = { g with
        nodes := g.nodes.insert id ⟨attributes.orEmptyObject, 1.0, 0.0⟩
        incidence := g.incidence.insert id [] } := by
  unfold addNode
  split_ifs with h
  · simp [contains_iff.1 h]
  · simp [mt contains_iff.2 h, eq_comm]

theorem wellFormed_addNode {g g' : Hypergraph α} (h : g.WellFormed) {id : NodeId}
    {attributes : Json} (ha : g.addNode id attributes = .ok g') : g'.WellFormed := by
  obtain ⟨fresh, rfl⟩ := addNode_eq_ok.1 ha
  refine ⟨h.ids, h.sorted, h.two, ?_, h.finite, ?_⟩
  · intro e he m hm
    exact Std.ExtTreeMap.mem_insert.2 (Or.inr (h.registered e he m hm))
  · intro a
    by_cases ha : id = a
    · subst ha
      have noEdges : g.edgesOf id = [] := h.edgesOf_eq_nil fresh
      simpa [edgesOf] using noEdges.symm
    · simpa [Std.ExtTreeMap.getElem?_insert, ha, edgesOf] using h.incidence a

theorem addEdge_eq_ok {g g' : Hypergraph α} {members : List NodeId} {weight : α}
    {metadata : Option Json} {now : Instant} :
    g.addEdge members weight metadata now = .ok g' ↔
      ((∀ id ∈ members, id ∈ g.nodes) ∧ 2 ≤ (sortIds members).length ∧ Scalar.isFinite weight) ∧
        g' = g.withEdge (sortIds members) weight metadata now := by
  have known : (sortIds members).find? (fun id => !g.contains id) = none ↔
      ∀ id ∈ members, id ∈ g.nodes := by
    simp [List.find?_eq_none, contains_iff]
  unfold addEdge
  dsimp only
  cases hf : (sortIds members).find? fun id => !g.contains id with
  | some id =>
    have := mt known.2 (by rw [hf]; nofun)
    simp [this]
  | none =>
    have := known.1 hf
    split_ifs with two finite
    · simp [Nat.not_le.2 two]
    · constructor
      · exact fun h => ⟨⟨this, Nat.not_lt.1 two, finite⟩, (Except.ok.inj h).symm⟩
      · exact fun h => h.2 ▸ rfl
    · simp [finite]

theorem getElem?_foldl_alter {β : Type} (f : Option β → Option β) {members : List NodeId}
    (h : members.Nodup) (index : Std.ExtTreeMap NodeId β compare) (id : NodeId) :
    (members.foldl (fun index m => index.alter m f) index)[id]? =
      if id ∈ members then f index[id]? else index[id]? := by
  induction members generalizing index with
  | nil => simp
  | cons m members ih =>
    obtain ⟨hm, hn⟩ := List.nodup_cons.1 h
    rw [List.foldl_cons, ih hn, Std.ExtTreeMap.getElem?_alter]
    by_cases e : id = m
    · subst e
      simp [hm]
    · simp [e, Ne.symm e, List.mem_cons]

theorem wellFormed_addEdge {g g' : Hypergraph α} (h : g.WellFormed) {members : List NodeId}
    {weight : α} {metadata : Option Json} {now : Instant}
    (ha : g.addEdge members weight metadata now = .ok g') : g'.WellFormed := by
  obtain ⟨⟨known, two, finite⟩, rfl⟩ := addEdge_eq_ok.1 ha
  have known : ∀ id ∈ sortIds members, id ∈ g.nodes := fun id hid => known id (mem_sortIds.1 hid)
  have edge {P : Hyperedge α → Prop} (old : ∀ e ∈ g.edges, P e)
      (new : P ⟨g.edges.length, sortIds members, weight, metadata, now⟩) :
      ∀ e ∈ (g.withEdge (sortIds members) weight metadata now).edges, P e := by
    intro e he
    rcases List.mem_append.1 he with he | he
    · exact old e he
    · exact List.mem_singleton.1 he ▸ new
  refine ⟨?_, edge h.sorted (sortIds_pairwise members), edge h.two two, edge h.registered known,
    edge h.finite finite, ?_⟩
  · intro i e he
    simp only [withEdge, List.getElem?_append, List.getElem?_singleton] at he
    split_ifs at he with hi hz
    · exact h.ids i e he
    · obtain rfl := Option.some.inj he
      show g.edges.length = i
      omega
  · intro id
    rw [edgesOf_withEdge]
    show (List.foldl _ g.incidence _)[id]? = if id ∈ g.nodes then _ else none
    rw [getElem?_foldl_alter _ (nodup_sortIds members), h.incidence]
    by_cases hm : id ∈ sortIds members
    · simp [hm, known id hm, enlist]
    · simp [hm]

/-! ## All operations -/

end Hypergraph

/-- A call that changes a graph. -/
inductive GraphOperation (α : Type) where
  | addNode (id : NodeId) (attributes : Json)
  | addEdge (members : List NodeId) (weight : α) (metadata : Option Json) (now : Instant)
  | setNodeIntegration (id : NodeId) (phi : α)
  | setDissipation (dissipation : α)
  | setIntegration (phi : α)
  /-- From the edges, or from a source of activity. -/
  | updateCoherence (source : Option (ActivitySource α)) (clock : Clock)

namespace Hypergraph

variable {α : Type} [Scalar α]

/-- The graph after a call.  One that is refused or breaks down leaves the graph as it is. -/
def perform (g : Hypergraph α) : GraphOperation α → Hypergraph α
  | .addNode id attributes => (g.addNode id attributes).toOption.getD g
  | .addEdge members weight metadata now =>
    (g.addEdge members weight metadata now).toOption.getD g
  | .setNodeIntegration id phi => g.setNodeIntegration id phi
  | .setDissipation dissipation => g.setDissipation dissipation
  | .setIntegration phi => g.setIntegration phi
  | .updateCoherence none _ => g.updateCoherence
  | .updateCoherence (some source) clock => (g.updateCoherenceFrom source clock).toOption.getD g

/-- The graph that calls lead to from one without nodes. -/
def built (name : String) (operations : List (GraphOperation α)) : Hypergraph α :=
  operations.foldl perform (empty name)

/-- Where coherence is derived from a source, each node has the coherence of the activity that the
source reports, and everything else stays. -/
theorem getElem?_updateCoherenceFrom {g g' : Hypergraph α} {source : ActivitySource α}
    {clock : Clock} (h : g.updateCoherenceFrom source clock = .ok g') :
    ∃ nodes, g' = { g with nodes := nodes } ∧ ∀ a : NodeId,
      g.nodes[a]? = none ∧ nodes[a]? = none ∨
        ∃ n activity, g.nodes[a]? = some n ∧ source clock g.window a = .ok activity ∧
          nodes[a]? = some { n with coherence := activity.coherence } := by
  obtain ⟨entries, hn, hg⟩ := bind_eq_ok.1 h
  refine ⟨_, (pure_eq_ok.1 hg).symm, fun a => ?_⟩
  have keys : entries.map Prod.fst = g.nodes.keys := by
    rw [← Std.ExtTreeMap.map_fst_toList_eq_keys, eq_comm, ← List.forall₂_eq_eq_eq,
      List.forall₂_map_left_iff, List.forall₂_map_right_iff]
    refine (mapM_eq_ok.1 hn).imp fun p q hpq => ?_
    obtain ⟨_, -, hq⟩ := bind_eq_ok.1 hpq
    rw [← pure_eq_ok.1 hq]
  cases hs : g.nodes[a]? with
  | none =>
    refine .inl ⟨rfl, ?_⟩
    rw [Std.ExtTreeMap.getElem?_ofList_of_contains_eq_false]
    rw [keys, Std.ExtTreeMap.contains_keys, Std.ExtTreeMap.contains_eq_isSome_getElem?, hs]
    rfl
  | some n =>
    have distinct : entries.Pairwise fun a b => ¬ compare a.1 b.1 = .eq := by
      have := g.nodes.distinct_keys
      rwa [← keys, List.pairwise_map] at this
    obtain ⟨entry, mem, he⟩ := exists_of_mapM_eq_ok hn
      (Std.ExtTreeMap.mem_toList_iff_getElem?_eq_some.2 hs)
    obtain ⟨activity, ha, he⟩ := bind_eq_ok.1 he
    rw [← pure_eq_ok.1 he] at mem
    exact .inr ⟨n, activity, rfl, ha,
      Std.ExtTreeMap.getElem?_ofList_of_mem Std.ReflCmp.compare_self distinct mem⟩

/-- Derived coherence leaves everything else of a graph as it is. -/
theorem updateCoherenceFrom_eq_ok {g g' : Hypergraph α} {source : ActivitySource α} {clock : Clock}
    (h : g.updateCoherenceFrom source clock = .ok g') :
    ∃ nodes, g' = { g with nodes := nodes } ∧
      ∀ a : NodeId, nodes[a]?.map GraphNode.attributes = g.nodes[a]?.map GraphNode.attributes := by
  obtain ⟨nodes, hg, derived⟩ := getElem?_updateCoherenceFrom h
  refine ⟨nodes, hg, fun a => ?_⟩
  obtain ⟨old, new⟩ | ⟨n, activity, old, -, new⟩ := derived a
  · rw [old, new]
  · rw [old, new]
    rfl

omit [Scalar α] in
/-- Nodes with the same attributes are the same nodes. -/
theorem mem_nodes_iff_of_attributes {nodes nodes' : Std.ExtTreeMap NodeId (GraphNode α) compare}
    (bags : ∀ a : NodeId, nodes'[a]?.map GraphNode.attributes = nodes[a]?.map GraphNode.attributes)
    (id : NodeId) : id ∈ nodes' ↔ id ∈ nodes := by
  have known := congrArg Option.isSome (bags id)
  simp only [Option.isSome_map] at known
  rw [Std.ExtTreeMap.mem_iff_isSome_getElem?, Std.ExtTreeMap.mem_iff_isSome_getElem?, known]

/-- What holds before a call and after it if it succeeds holds after the call. -/
theorem of_toOption_getD {ε β : Type} {P : β → Prop} {b : β} (hb : P b) {x : Except ε β}
    (hx : ∀ b', x = .ok b' → P b') : P (x.toOption.getD b) := by
  cases x with
  | error e => exact hb
  | ok b' => exact hx b' rfl

theorem wellFormed_perform {g : Hypergraph α} (h : g.WellFormed) (operation : GraphOperation α) :
    (g.perform operation).WellFormed := by
  cases operation with
  | addNode id attributes => exact of_toOption_getD h fun _ => wellFormed_addNode h
  | addEdge members weight metadata now => exact of_toOption_getD h fun _ => wellFormed_addEdge h
  | setNodeIntegration id phi =>
    exact h.congr rfl rfl fun _ => Std.ExtTreeMap.mem_modify
  | setDissipation dissipation => exact h.congr rfl rfl fun _ => Iff.rfl
  | setIntegration phi => exact h.congr rfl rfl fun _ => Iff.rfl
  | updateCoherence source clock =>
    cases source with
    | none => exact h.congr rfl rfl fun _ => Std.ExtTreeMap.mem_map
    | some source =>
      refine of_toOption_getD h fun g' hu => ?_
      obtain ⟨nodes, rfl, bags⟩ := updateCoherenceFrom_eq_ok hu
      exact h.congr rfl rfl (mem_nodes_iff_of_attributes bags)

/-- Every graph that calls lead to is well formed. -/
theorem wellFormed_built (name : String) (operations : List (GraphOperation α)) :
    (built name operations).WellFormed :=
  List.foldlRecOn operations perform (wellFormed_empty name) fun _ h operation _ =>
    wellFormed_perform h operation

end Hypergraph

end AdaptivePopulation
