import Mathlib.Data.List.Perm.Basic
import AdaptivePopulation.Proofs.Hypergraph.Search

/-!
# Connected components

The searches from the nodes in increasing order divide the nodes of a well-formed graph into
classes: two nodes are in one part exactly when a chain of overlapping edges joins them.  Before
each search the visited nodes are closed under adjacency and all nodes below the next start have
been visited (`Frontier`), so that a part is complete when its search ends and its start is its
least node.
-/

namespace AdaptivePopulation

namespace Hypergraph

variable {α : Type}

/-! ## Chains of edges -/

/-- A chain of edges, of which consecutive ones share a member, leads from one node to another. -/
def Joined (g : Hypergraph α) (a b : NodeId) : Prop :=
  ∃ (e : Hyperedge α) (rest : List (Hyperedge α)), (∀ f ∈ e :: rest, f ∈ g.edges) ∧
    (e :: rest).IsChain (fun e f => ∃ m ∈ e.members, m ∈ f.members) ∧
    a ∈ e.members ∧ b ∈ ((e :: rest).getLast (List.cons_ne_nil e rest)).members

variable {g : Hypergraph α} {a b c : NodeId}

theorem Adjacent.joined (h : g.Adjacent a b) : g.Joined a b := by
  obtain ⟨e, he, ha, hb⟩ := h
  refine ⟨e, [], ?_, List.IsChain.singleton e, ha, hb⟩
  intro f hf
  exact List.mem_singleton.1 hf ▸ he

theorem Joined.head (h : g.Adjacent a b) (h' : g.Joined b c) : g.Joined a c := by
  obtain ⟨e, he, ha, hb⟩ := h
  obtain ⟨f, rest, hf, chain, hbf, hc⟩ := h'
  refine ⟨e, f :: rest, ?_, List.isChain_cons_cons.2 ⟨⟨b, hb, hbf⟩, chain⟩, ha, ?_⟩
  · intro x hx
    rcases List.mem_cons.1 hx with rfl | hx
    · exact he
    · exact hf x hx
  · rwa [List.getLast_cons_cons]

theorem Joined.reaches (h : g.Joined a b) : g.Reaches a b := by
  obtain ⟨e, rest, he, chain, ha, hb⟩ := h
  induction rest generalizing a e with
  | nil => exact Relation.ReflTransGen.single ⟨e, he e List.mem_cons_self, ha, hb⟩
  | cons f rest ih =>
    obtain ⟨⟨m, hme, hmf⟩, chain⟩ := List.isChain_cons_cons.1 chain
    rw [List.getLast_cons_cons] at hb
    have first : g.Adjacent a m := ⟨e, he e List.mem_cons_self, ha, hme⟩
    exact Relation.ReflTransGen.head first
      (ih f (fun x hx => he x (List.mem_cons_of_mem e hx)) chain hmf hb)

theorem reaches_iff_joined : g.Reaches a b ↔ a = b ∨ g.Joined a b := by
  constructor
  · intro h
    induction h using Relation.ReflTransGen.head_induction_on with
    | refl => exact Or.inl rfl
    | head hac _ ih =>
      rcases ih with rfl | ih
      · exact Or.inr hac.joined
      · exact Or.inr (Joined.head hac ih)
  · rintro (rfl | h)
    · exact Relation.ReflTransGen.refl
    · exact h.reaches

/-! ## The parts that searches find -/

variable {visited : Std.TreeSet NodeId compare} {ids : List NodeId} {id : NodeId}

/-- The searches that remain start from `ids`. -/
structure Frontier (g : Hypergraph α) (visited : Std.TreeSet NodeId compare) (ids : List NodeId) :
    Prop where
  closed : ∀ a ∈ visited, ∀ b, g.Adjacent a b → b ∈ visited
  sorted : ids.Pairwise (· < ·)
  registered : ∀ a ∈ ids, a ∈ g.nodes
  covers : ∀ a ∈ g.nodes, a ∈ visited ∨ a ∈ ids

theorem frontier_start (g : Hypergraph α) : g.Frontier ∅ g.nodes.keys where
  closed := fun a ha => by simp at ha
  sorted := Std.ExtTreeMap.ordered_keys.imp compare_lt_iff_lt.1
  registered := fun _ => Std.ExtTreeMap.mem_keys.1
  covers := fun _ ha => Or.inr (Std.ExtTreeMap.mem_keys.2 ha)

theorem Frontier.skip (h : g.Frontier visited (id :: ids)) (hv : id ∈ visited) :
    g.Frontier visited ids where
  closed := h.closed
  sorted := h.sorted.of_cons
  registered := fun a ha => h.registered a (List.mem_cons_of_mem id ha)
  covers := by
    intro a ha
    rcases h.covers a ha with hv' | hc
    · exact Or.inl hv'
    · rcases List.mem_cons.1 hc with rfl | hc
      · exact Or.inl hv
      · exact Or.inr hc

variable [Scalar α]

theorem mem_visited_search (hg : g.WellFormed) (h : g.Frontier visited (id :: ids))
    (hv : id ∉ visited) :
    a ∈ ((Search.start visited id).run g).visited ↔ a ∈ visited ∨ g.Reaches id a := by
  rw [((Search.explores_start g hv).run hg).1.visited, Search.mem_found_run hg h.closed hv]

theorem Frontier.search (hg : g.WellFormed) (h : g.Frontier visited (id :: ids))
    (hv : id ∉ visited) : g.Frontier ((Search.start visited id).run g).visited ids where
  closed := by
    intro a ha b hab
    rw [mem_visited_search hg h hv] at ha ⊢
    exact ha.imp (fun ha => h.closed a ha b hab) (fun ha => ha.tail hab)
  sorted := h.sorted.of_cons
  registered := fun a ha => h.registered a (List.mem_cons_of_mem id ha)
  covers := by
    intro a ha
    rw [mem_visited_search hg h hv]
    rcases h.covers a ha with hv' | hc
    · exact Or.inl (Or.inl hv')
    · rcases List.mem_cons.1 hc with rfl | hc
      · exact Or.inl (Or.inr Relation.ReflTransGen.refl)
      · exact Or.inr hc

/-- The lists divide the nodes that have not been visited. -/
structure Divides (g : Hypergraph α) (visited : Std.TreeSet NodeId compare)
    (parts : List (List NodeId)) : Prop where
  nonempty : ∀ part ∈ parts, part ≠ []
  sorted : ∀ part ∈ parts, part.Pairwise (· < ·)
  disjoint : parts.Pairwise List.Disjoint
  ordered : parts.Pairwise fun p q => ∃ a ∈ p, ∀ b ∈ q, a < b
  mem : ∀ a, (∃ part ∈ parts, a ∈ part) ↔ a ∈ g.nodes ∧ a ∉ visited
  reaches : ∀ part ∈ parts, ∀ a ∈ part, ∀ b, b ∈ part ↔ g.Reaches a b

theorem Divides.cons (hg : g.WellFormed) (h : g.Frontier visited (id :: ids)) (hv : id ∉ visited)
    {parts : List (List NodeId)}
    (hd : g.Divides ((Search.start visited id).run g).visited parts) :
    g.Divides visited (sortIds ((Search.start visited id).run g).found :: parts) := by
  have hnode : id ∈ g.nodes := h.registered id List.mem_cons_self
  have hpart : ∀ a, a ∈ sortIds ((Search.start visited id).run g).found ↔ g.Reaches id a :=
    fun a => mem_sortIds.trans (Search.mem_found_run hg h.closed hv)
  have hlater : ∀ part ∈ parts, ∀ a ∈ part, a ∈ g.nodes ∧ a ∉ visited ∧ ¬ g.Reaches id a := by
    intro part hp a ha
    obtain ⟨hn, hs⟩ := (hd.mem a).1 ⟨part, hp, ha⟩
    rw [mem_visited_search hg h hv, not_or] at hs
    exact ⟨hn, hs⟩
  refine ⟨?_, ?_, ?_, ?_, ?_, ?_⟩
  · refine List.forall_mem_cons.2 ⟨?_, hd.nonempty⟩
    exact List.ne_nil_of_mem ((hpart id).2 Relation.ReflTransGen.refl)
  · exact List.forall_mem_cons.2 ⟨sortIds_pairwise _, hd.sorted⟩
  · refine List.pairwise_cons.2 ⟨fun part hp a ha ha' => ?_, hd.disjoint⟩
    exact (hlater part hp a ha').2.2 ((hpart a).1 ha)
  · refine List.pairwise_cons.2 ⟨fun part hp => ?_, hd.ordered⟩
    refine ⟨id, (hpart id).2 Relation.ReflTransGen.refl, fun b hb => ?_⟩
    obtain ⟨hn, hbv, hr⟩ := hlater part hp b hb
    -- A node of a later part is a later start, or it would have been reached from this one.
    rcases List.mem_cons.1 ((h.covers b hn).resolve_left hbv) with rfl | hb
    · exact absurd Relation.ReflTransGen.refl hr
    · exact List.rel_of_pairwise_cons h.sorted hb
  · intro a
    have hfresh : g.Reaches id a → a ∉ visited := fun hr =>
      ((Search.explores_start g hv).run hg).1.fresh a (mem_sortIds.1 ((hpart a).2 hr))
    simp only [List.mem_cons, exists_eq_or_imp, hd.mem, hpart, mem_visited_search hg h hv, not_or]
    constructor
    · rintro (hr | ⟨hn, hav, -⟩)
      · exact ⟨hg.mem_nodes_of_reaches hnode hr, hfresh hr⟩
      · exact ⟨hn, hav⟩
    · rintro ⟨hn, hav⟩
      by_cases hr : g.Reaches id a
      · exact Or.inl hr
      · exact Or.inr ⟨hn, hav, hr⟩
  · refine List.forall_mem_cons.2 ⟨fun a ha b => ?_, hd.reaches⟩
    rw [hpart] at ha
    rw [hpart]
    exact ⟨ha.symm.trans, ha.trans⟩

/-- Searches from all nodes in increasing order divide the graph. -/
theorem divides_partsFrom (hg : g.WellFormed) (h : g.Frontier visited ids) :
    g.Divides visited (g.partsFrom visited ids) := by
  induction ids generalizing visited with
  | nil =>
    refine ⟨by simp [partsFrom], by simp [partsFrom], List.Pairwise.nil, List.Pairwise.nil, ?_,
      by simp [partsFrom]⟩
    intro a
    have := h.covers a
    simp only [partsFrom, List.not_mem_nil, or_false] at this ⊢
    tauto
  | cons id ids ih =>
    rw [partsFrom]
    split_ifs with hv
    · exact ih (h.skip hv)
    · exact Divides.cons hg h hv (ih (h.search hg hv))

theorem divides_components (hg : g.WellFormed) : g.Divides ∅ g.components :=
  divides_partsFrom hg g.frontier_start

theorem components_flatten_perm (hg : g.WellFormed) : g.components.flatten.Perm g.nodes.keys := by
  have hd := divides_components hg
  refine (List.perm_ext_iff_of_nodup ?_ Std.ExtTreeMap.nodup_keys).2 fun a => ?_
  · refine List.nodup_flatten.2 ⟨fun part hp => ?_, hd.disjoint⟩
    exact (hd.sorted part hp).imp ne_of_lt
  · rw [List.mem_flatten, hd.mem, Std.ExtTreeMap.mem_keys]
    exact and_iff_left Std.TreeSet.not_mem_emptyc

theorem mem_same_part_iff (hg : g.WellFormed) :
    (∃ part ∈ g.components, a ∈ part ∧ b ∈ part) ↔
      a ∈ g.nodes ∧ b ∈ g.nodes ∧ (a = b ∨ g.Joined a b) := by
  have hd := divides_components hg
  rw [← reaches_iff_joined]
  constructor
  · rintro ⟨part, hp, ha, hb⟩
    exact ⟨((hd.mem a).1 ⟨part, hp, ha⟩).1, ((hd.mem b).1 ⟨part, hp, hb⟩).1,
      (hd.reaches part hp a ha b).1 hb⟩
  · rintro ⟨ha, -, h⟩
    obtain ⟨part, hp, ha⟩ := (hd.mem a).2 ⟨ha, Std.TreeSet.not_mem_emptyc⟩
    exact ⟨part, hp, ha, (hd.reaches part hp a ha b).2 h⟩

/-- In every graph that calls lead to, the components are sorted lists that together hold each node
once, ordered by their least nodes, and two nodes share one exactly when they are equal or joined by
a chain of edges.  Every search ends. -/
theorem components_built (name : String) (operations : List (GraphOperation α)) :
    let g := built name operations
    (∀ part ∈ g.components, part ≠ [] ∧ part.Pairwise (· < ·)) ∧
    g.components.Pairwise List.Disjoint ∧
    g.components.flatten.Perm g.nodes.keys ∧
    (g.components.Pairwise fun p q => ∃ a ∈ p, ∀ b ∈ q, a < b) ∧
    (∀ a b, (∃ part ∈ g.components, a ∈ part ∧ b ∈ part) ↔
      a ∈ g.nodes ∧ b ∈ g.nodes ∧ (a = b ∨ g.Joined a b)) ∧
    ∀ s : Search, ∃ k ≤ s.pending g,
      s.run g = (Search.step g)^[k] s ∧ (s.run g).queue = [] := by
  intro g
  have hg : g.WellFormed := wellFormed_built name operations
  have hd := divides_components hg
  exact ⟨fun part hp => ⟨hd.nonempty part hp, hd.sorted part hp⟩, hd.disjoint,
    components_flatten_perm hg, hd.ordered, fun _ _ => mem_same_part_iff hg,
    Search.run_eq_iterate g⟩

end Hypergraph

end AdaptivePopulation
