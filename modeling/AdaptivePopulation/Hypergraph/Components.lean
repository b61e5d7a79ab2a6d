import AdaptivePopulation.Hypergraph.Basic

/-!
# Connected components

The parts into which the edges divide the nodes.  A breadth-first search collects one part: it
visits the members of a node's edges, passes over those that have been visited before, and keeps the
others in a queue until their own edges are looked at.  Searches start from the least node that no
earlier search has visited.
-/

namespace AdaptivePopulation

/-- A search under way. -/
structure Search where
  /-- The nodes seen so far, by this search or an earlier one. -/
  visited : Std.TreeSet NodeId compare
  /-- The nodes that this search has found. -/
  found : List NodeId
  /-- The nodes whose edges have not been looked at. -/
  queue : List NodeId

namespace Search

/-- The search from a node that has not been visited. -/
def start (visited : Std.TreeSet NodeId compare) (id : NodeId) : Search :=
  ⟨visited.insert id, [id], [id]⟩

/-- Visits a node, unless it has been visited before. -/
def visit (s : Search) (id : NodeId) : Search :=
  if id ∈ s.visited then s
  else ⟨s.visited.insert id, s.found ++ [id], s.queue ++ [id]⟩

variable {α : Type}

/-- Takes the first node off the queue and visits the members of its edges. -/
def step (g : Hypergraph α) (s : Search) : Search :=
  match s.queue with
  | [] => s
  | current :: queue =>
    ((g.incidentEdges current).flatMap Hyperedge.members).foldl visit { s with queue }

/-- How much a search has left to do at most: the nodes in its queue, and the memberships of nodes
that it has not visited. -/
def pending (g : Hypergraph α) (s : Search) : Nat :=
  s.queue.length + (g.edges.flatMap Hyperedge.members).countP (· ∉ s.visited)

theorem countP_insert_lt {visited : Std.TreeSet NodeId compare} {id : NodeId}
    (hv : id ∉ visited) {l : List NodeId} (hl : id ∈ l) :
    l.countP (· ∉ visited.insert id) < l.countP (· ∉ visited) := by
  induction l with
  | nil => simp at hl
  | cons a l ih =>
    by_cases ha : a = id
    · subst ha
      have mono : l.countP (· ∉ visited.insert a) ≤ l.countP (· ∉ visited) :=
        List.countP_mono_left fun b _ hb => by simp_all [Std.TreeSet.mem_insert]
      rw [List.countP_cons_of_neg (by simp), List.countP_cons_of_pos (by simpa using hv)]
      omega
    · have rest := ih ((List.mem_cons.1 hl).resolve_left (Ne.symm ha))
      have head : a ∉ visited.insert id ↔ a ∉ visited := by
        simp [Std.TreeSet.mem_insert, Ne.symm ha]
      simp only [List.countP_cons, head]
      omega

theorem pending_visit_le (g : Hypergraph α) (s : Search) {id : NodeId}
    (h : id ∈ g.edges.flatMap Hyperedge.members) : (s.visit id).pending g ≤ s.pending g := by
  unfold visit
  split
  case isTrue => exact Nat.le_refl _
  case isFalse hv =>
    have := countP_insert_lt hv h
    simp only [pending, List.length_append, List.length_singleton]
    omega

theorem pending_foldl_visit_le (g : Hypergraph α) (ids : List NodeId)
    (h : ∀ id ∈ ids, id ∈ g.edges.flatMap Hyperedge.members) (s : Search) :
    (ids.foldl visit s).pending g ≤ s.pending g := by
  induction ids generalizing s with
  | nil => exact Nat.le_refl _
  | cons id ids ih =>
    refine Nat.le_trans (ih (fun a ha => h a (List.mem_cons_of_mem _ ha)) _) ?_
    exact pending_visit_le g s (h id List.mem_cons_self)

/-- The members of a node's edges are members of edges of the graph. -/
theorem mem_members_of_incident (g : Hypergraph α) {current id : NodeId}
    (h : id ∈ (g.incidentEdges current).flatMap Hyperedge.members) :
    id ∈ g.edges.flatMap Hyperedge.members := by
  obtain ⟨e, he, hid⟩ := List.mem_flatMap.1 h
  obtain ⟨i, -, hi⟩ := List.mem_filterMap.1 he
  exact List.mem_flatMap.2 ⟨e, List.mem_of_getElem? hi, hid⟩

/-- Every step of a search that is not over uses up something of what is left to do. -/
theorem pending_step_lt (g : Hypergraph α) (s : Search) (h : s.queue ≠ []) :
    (s.step g).pending g < s.pending g := by
  obtain ⟨current, queue, hq⟩ := List.exists_cons_of_ne_nil h
  have hle := pending_foldl_visit_le g ((g.incidentEdges current).flatMap Hyperedge.members)
    (fun _ => mem_members_of_incident g) { s with queue }
  have hlt : pending g { s with queue } < s.pending g := by simp [pending, hq]
  simpa only [step, hq] using Nat.lt_of_le_of_lt hle hlt

/-- Searches until the queue is empty. -/
def run (g : Hypergraph α) (s : Search) : Search :=
  if s.queue = [] then s else run g (s.step g)
termination_by s.pending g
decreasing_by exact pending_step_lt g s ‹_›

end Search

namespace Hypergraph

variable {α : Type}

/-- The parts that searches from the nodes of a list find, each in increasing order.  No search
starts from a node that has been visited. -/
def partsFrom (g : Hypergraph α) : Std.TreeSet NodeId compare → List NodeId → List (List NodeId)
  | _, [] => []
  | visited, id :: rest =>
    if id ∈ visited then partsFrom g visited rest
    else
      let s := (Search.start visited id).run g
      sortIds s.found :: partsFrom g s.visited rest

/-- The connected components, each in increasing order, ordered by their least nodes. -/
def components (g : Hypergraph α) : List (List NodeId) := g.partsFrom ∅ g.nodes.keys

end Hypergraph

end AdaptivePopulation
