import Mathlib.Data.List.Nodup
import Mathlib.Logic.Relation
import AdaptivePopulation.Hypergraph.Components
import AdaptivePopulation.Proofs.Hypergraph.Construction

/-!
# What a search finds

A search finds the nodes that its start reaches over edges, provided that the nodes visited before
it are closed under adjacency.  The invariant of its steps is `Explores`: what has been found is
reached from the start, and the neighbours of what has been found and is no longer queued have been
visited.
-/

namespace AdaptivePopulation

namespace Hypergraph

variable {α : Type}

/-- Two nodes belong to one edge. -/
def Adjacent (g : Hypergraph α) (a b : NodeId) : Prop :=
  ∃ e ∈ g.edges, a ∈ e.members ∧ b ∈ e.members

/-- A finite number of edges leads from one node to another. -/
def Reaches (g : Hypergraph α) : NodeId → NodeId → Prop := Relation.ReflTransGen g.Adjacent

variable {g : Hypergraph α} {a b c : NodeId}

theorem Adjacent.symm (h : g.Adjacent a b) : g.Adjacent b a :=
  h.imp fun _ he => ⟨he.1, he.2.2, he.2.1⟩

theorem Reaches.symm (h : g.Reaches a b) : g.Reaches b a := by
  induction h with
  | refl => exact Relation.ReflTransGen.refl
  | tail _ hbc ih => exact Relation.ReflTransGen.head hbc.symm ih

theorem Reaches.trans (h : g.Reaches a b) (h' : g.Reaches b c) : g.Reaches a c :=
  Relation.ReflTransGen.trans h h'

/-- What a search scans for a node are the nodes adjacent to it. -/
theorem WellFormed.mem_scan [Scalar α] (h : g.WellFormed) :
    b ∈ (g.incidentEdges a).flatMap Hyperedge.members ↔ g.Adjacent a b := by
  simp only [List.mem_flatMap, h.mem_incidentEdges, Adjacent, and_assoc]

theorem WellFormed.mem_nodes_of_reaches [Scalar α] (h : g.WellFormed) (ha : a ∈ g.nodes)
    (hab : g.Reaches a b) : b ∈ g.nodes := by
  induction hab with
  | refl => exact ha
  | tail _ hbc _ =>
    obtain ⟨e, he, -, hc⟩ := hbc
    exact h.registered e he _ hc

end Hypergraph

namespace Search

/-! ## One scan -/

/-- The search after visiting some nodes, of which the `new` ones had not been visited. -/
structure Extends (s : Search) (ids new : List NodeId) (s' : Search) : Prop where
  found : s'.found = s.found ++ new
  queue : s'.queue = s.queue ++ new
  visited : ∀ a, a ∈ s'.visited ↔ a ∈ s.visited ∨ a ∈ new
  nodup : new.Nodup
  mem : ∀ a, a ∈ new ↔ a ∈ ids ∧ a ∉ s.visited

theorem extends_visit (s : Search) (id : NodeId) :
    s.Extends [id] (if id ∈ s.visited then [] else [id]) (s.visit id) := by
  unfold visit
  split_ifs with hv
  · refine ⟨by simp, by simp, by simp, List.nodup_nil, fun a => ?_⟩
    simp only [List.not_mem_nil, List.mem_singleton, false_iff, not_and, not_not]
    rintro rfl
    exact hv
  · refine ⟨rfl, rfl, fun a => ?_, List.nodup_singleton id, fun a => ?_⟩
    · rw [Std.TreeSet.mem_insert, Std.LawfulEqCmp.compare_eq_iff_eq, List.mem_singleton, or_comm,
        eq_comm]
    · rw [List.mem_singleton]
      exact ⟨fun h => ⟨h, h ▸ hv⟩, And.left⟩

theorem Extends.trans {s s' s'' : Search} {ids ids' new new' : List NodeId}
    (h : s.Extends ids new s') (h' : s'.Extends ids' new' s'') :
    s.Extends (ids ++ ids') (new ++ new') s'' where
  found := by rw [h'.found, h.found, List.append_assoc]
  queue := by rw [h'.queue, h.queue, List.append_assoc]
  visited := by
    intro a
    rw [h'.visited, h.visited, List.mem_append, or_assoc]
  nodup := by
    refine List.Nodup.append h.nodup h'.nodup fun a ha ha' => ?_
    exact ((h'.mem a).1 ha').2 ((h.visited a).2 (Or.inr ha))
  mem := by
    intro a
    rw [List.mem_append, List.mem_append, h'.mem, h.visited, h.mem]
    tauto

theorem exists_extends_foldl_visit (ids : List NodeId) (s : Search) :
    ∃ new, s.Extends ids new (ids.foldl visit s) := by
  induction ids generalizing s with
  | nil => exact ⟨[], by constructor <;> simp⟩
  | cons id ids ih =>
    obtain ⟨new, hn⟩ := ih (s.visit id)
    exact ⟨_, (extends_visit s id).trans hn⟩

/-! ## The invariant -/

variable {α : Type} {g : Hypergraph α} {before : Std.TreeSet NodeId compare} {start : NodeId}
  {s : Search}

/-- The state of a search from `start`, when the nodes in `before` had been visited. -/
structure Explores (g : Hypergraph α) (before : Std.TreeSet NodeId compare) (start : NodeId)
    (s : Search) : Prop where
  visited : ∀ a, a ∈ s.visited ↔ a ∈ before ∨ a ∈ s.found
  fresh : ∀ a ∈ s.found, a ∉ before
  nodup : s.found.Nodup
  start_mem : start ∈ s.found
  reached : ∀ a ∈ s.found, g.Reaches start a
  queued : ∀ a ∈ s.queue, a ∈ s.found
  /-- The edges of a node that has left the queue have been followed. -/
  expanded : ∀ a ∈ s.found, a ∉ s.queue → ∀ b, g.Adjacent a b → b ∈ s.visited

theorem explores_start (g : Hypergraph α) (h : start ∉ before) :
    Explores g before start (Search.start before start) where
  visited := by
    intro a
    show a ∈ before.insert start ↔ a ∈ before ∨ a ∈ [start]
    rw [Std.TreeSet.mem_insert, Std.LawfulEqCmp.compare_eq_iff_eq, List.mem_singleton, or_comm,
      eq_comm]
  fresh := fun a ha => List.mem_singleton.1 ha ▸ h
  nodup := List.nodup_singleton start
  start_mem := List.mem_singleton_self start
  reached := fun a ha => List.mem_singleton.1 ha ▸ Relation.ReflTransGen.refl
  queued := fun _ ha => ha
  expanded := fun _ ha hq => absurd ha hq

variable [Scalar α]

theorem Explores.step (hg : g.WellFormed) (h : Explores g before start s) :
    Explores g before start (s.step g) := by
  cases hq : s.queue with
  | nil => simpa only [Search.step, hq] using h
  | cons current queue =>
    obtain ⟨new, hn⟩ := exists_extends_foldl_visit
      ((g.incidentEdges current).flatMap Hyperedge.members) { s with queue }
    have hcurrent : current ∈ s.found := h.queued current (by rw [hq]; exact List.mem_cons_self)
    have hnew : ∀ a ∈ new, g.Adjacent current a ∧ a ∉ s.visited := fun a ha =>
      ((hn.mem a).1 ha).imp_left hg.mem_scan.1
    simp only [Search.step, hq]
    refine ⟨?_, ?_, ?_, ?_, ?_, ?_, ?_⟩
    · intro a
      rw [hn.visited, hn.found, List.mem_append, h.visited, or_assoc]
    · intro a ha hb
      rw [hn.found] at ha
      rcases List.mem_append.1 ha with ha | ha
      · exact h.fresh a ha hb
      · exact (hnew a ha).2 ((h.visited a).2 (Or.inl hb))
    · rw [hn.found]
      refine List.Nodup.append h.nodup hn.nodup fun a ha ha' => ?_
      exact (hnew a ha').2 ((h.visited a).2 (Or.inr ha))
    · rw [hn.found]
      exact List.mem_append_left _ h.start_mem
    · intro a ha
      rw [hn.found] at ha
      rcases List.mem_append.1 ha with ha | ha
      · exact h.reached a ha
      · exact (h.reached current hcurrent).tail (hnew a ha).1
    · intro a ha
      rw [hn.queue] at ha
      rw [hn.found]
      refine List.mem_append.2 ((List.mem_append.1 ha).imp_left fun ha => h.queued a ?_)
      rw [hq]
      exact List.mem_cons_of_mem _ ha
    · intro a ha haq b hab
      rw [hn.queue, List.mem_append, not_or] at haq
      rw [hn.found, List.mem_append, or_iff_left haq.2] at ha
      rw [hn.visited]
      -- Either the node was looked at in an earlier step or it is the one looked at now.
      by_cases hc : a = current
      · subst hc
        by_cases hb : b ∈ s.visited
        · exact Or.inl hb
        · exact Or.inr ((hn.mem b).2 ⟨hg.mem_scan.2 hab, hb⟩)
      · refine Or.inl (h.expanded a ha ?_ b hab)
        rw [hq, List.mem_cons, not_or]
        exact ⟨hc, haq.1⟩

/-- A search that is over keeps the invariant and has emptied its queue. -/
theorem Explores.run (hg : g.WellFormed) (h : Explores g before start s) :
    Explores g before start (s.run g) ∧ (s.run g).queue = [] := by
  induction s using Search.run.induct g with
  | case1 s hq =>
    rw [Search.run, if_pos hq]
    exact ⟨h, hq⟩
  | case2 s hq ih =>
    rw [Search.run, if_neg hq]
    exact ih (h.step hg)

/-- Among nodes that are not adjacent to those visited before, a search finds what its start
reaches. -/
theorem mem_found_run (hg : g.WellFormed)
    (closed : ∀ a ∈ before, ∀ b, g.Adjacent a b → b ∈ before) (h : start ∉ before) {a : NodeId} :
    a ∈ ((Search.start before start).run g).found ↔ g.Reaches start a := by
  obtain ⟨hr, hq⟩ := (explores_start g h).run hg
  refine ⟨hr.reached a, fun ha => ?_⟩
  induction ha with
  | refl => exact hr.start_mem
  | @tail b c _ hbc hb =>
    have hc := hr.expanded b hb (by rw [hq]; exact List.not_mem_nil) c hbc
    refine ((hr.visited c).1 hc).resolve_left fun hc => ?_
    exact hr.fresh b hb (closed c hc b hbc.symm)

omit [Scalar α] in
/-- The loop ends: it is some number of steps, at most what there is left to do, after which the
queue is empty. -/
theorem run_eq_iterate (g : Hypergraph α) (s : Search) :
    ∃ k ≤ s.pending g, s.run g = (step g)^[k] s ∧ (s.run g).queue = [] := by
  induction s using Search.run.induct g with
  | case1 s hq =>
    rw [run, if_pos hq]
    exact ⟨0, Nat.zero_le _, rfl, hq⟩
  | case2 s hq ih =>
    rw [run, if_neg hq]
    obtain ⟨k, hk, hr, he⟩ := ih
    refine ⟨k + 1, ?_, hr, he⟩
    have := pending_step_lt g s hq
    omega

end Search

end AdaptivePopulation
