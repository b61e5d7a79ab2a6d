import Mathlib.Data.List.Dedup
import AdaptivePopulation.Hypergraph.Snapshot
import AdaptivePopulation.Proofs.Hypergraph.Representation

/-!
# Restoring graphs

A snapshot is restored unless one of its edge records names an unknown node, too few nodes or a
weight that is not finite; the first such record is reported.  The snapshot of the restored graph is
the given one with its records in order.
-/

namespace AdaptivePopulation

/-! ## Identifiers in order -/

theorem sortIds_perm_dedup (ids : List NodeId) : (sortIds ids).Perm ids.dedup :=
  (List.perm_ext_iff_of_nodup (nodup_sortIds ids) (List.nodup_dedup ids)).2 fun _ => by simp

theorem length_sortIds (ids : List NodeId) : (sortIds ids).length = ids.dedup.length :=
  (sortIds_perm_dedup ids).length_eq

theorem eq_of_pairwise_of_mem_iff {l l' : List NodeId} (h : l.Pairwise (· < ·))
    (h' : l'.Pairwise (· < ·)) (mem : ∀ id, id ∈ l ↔ id ∈ l') : l = l' :=
  List.Perm.eq_of_pairwise (fun _ _ _ _ hab hba => absurd hab hba.not_gt) h h'
    ((List.perm_ext_iff_of_nodup (h.imp ne_of_lt) (h'.imp ne_of_lt)).2 mem)

theorem sortIds_of_pairwise {ids : List NodeId} (h : ids.Pairwise (· < ·)) : sortIds ids = ids :=
  eq_of_pairwise_of_mem_iff (sortIds_pairwise ids) h fun _ => mem_sortIds

/-- Sorting identifiers puts their distinct ones in order. -/
theorem sortIds_eq_mergeSort (ids : List NodeId) :
    sortIds ids = ids.dedup.mergeSort (· ≤ ·) := by
  have le : (ids.dedup.mergeSort (· ≤ ·)).Pairwise (· ≤ ·) := by
    have trans (a b c : NodeId) : decide (a ≤ b) → decide (b ≤ c) → decide (a ≤ c) := by
      simpa using le_trans
    have total (a b : NodeId) : decide (a ≤ b) || decide (b ≤ a) := by
      simpa using le_total a b
    simpa using List.pairwise_mergeSort trans total ids.dedup
  have ne : (ids.dedup.mergeSort (· ≤ ·)).Nodup :=
    (List.mergeSort_perm _ _).nodup_iff.2 (List.nodup_dedup ids)
  refine eq_of_pairwise_of_mem_iff (sortIds_pairwise ids) ?_ fun id => ?_
  · exact (le.and ne).imp fun h => lt_of_le_of_ne h.1 h.2
  · rw [mem_sortIds, List.mem_mergeSort, List.mem_dedup]

theorem le_of_find?_eq_some {p : NodeId → Bool} {ids : List NodeId} {id m : NodeId}
    (h : ids.Pairwise (· < ·)) (hf : ids.find? p = some id) (hm : m ∈ ids) (hp : p m) : id ≤ m := by
  obtain ⟨-, before, after, rfl, hb⟩ := List.find?_eq_some_iff_append.1 hf
  rcases List.mem_append.1 hm with hm | hm
  · simpa [hp] using hb m hm
  · rcases List.mem_cons.1 hm with rfl | hm
    · exact le_rfl
    · exact (List.rel_of_pairwise_cons (List.pairwise_append.1 h).2.1 hm).le

/-! ## Edge records -/

namespace EdgeRecord

variable {α : Type} [Scalar α] {known : NodeId → Prop} {e : EdgeRecord α}
  {error error' : HypergraphError α}

/-- The record makes an edge among known nodes. -/
def Admissible (known : NodeId → Prop) (e : EdgeRecord α) : Prop :=
  (∀ m ∈ e.nodes, known m) ∧ (∃ a ∈ e.nodes, ∃ b ∈ e.nodes, a ≠ b) ∧ Scalar.isFinite e.weight

/-- What a record is refused for: the least of its unknown nodes; if there is none, the number of
its nodes; if there are two, its weight. -/
inductive Offence (known : NodeId → Prop) (e : EdgeRecord α) : HypergraphError α → Prop where
  | unknown {id : NodeId} (mem : id ∈ e.nodes) (unknown : ¬ known id)
      (least : ∀ m ∈ e.nodes, ¬ known m → id ≤ m) : Offence known e (.unknownNode id)
  | degenerate (all : ∀ m ∈ e.nodes, known m) (few : e.nodes.dedup.length < 2) :
      Offence known e (.degenerateEdge e.nodes.dedup.length)
  | weight (all : ∀ m ∈ e.nodes, known m) (two : 2 ≤ e.nodes.dedup.length)
      (infinite : ¬ Scalar.isFinite e.weight) : Offence known e (.invalidWeight e.weight)

theorem Offence.unique (h : e.Offence known error) (h' : e.Offence known error') :
    error = error' := by
  cases h with
  | unknown mem unknown least =>
    cases h' with
    | unknown mem' unknown' least' =>
      rw [le_antisymm (least _ mem' unknown') (least' _ mem unknown)]
    | degenerate all => exact absurd (all _ mem) unknown
    | weight all => exact absurd (all _ mem) unknown
  | degenerate all few =>
    cases h' with
    | unknown mem unknown => exact absurd (all _ mem) unknown
    | degenerate => rfl
    | weight _ two => exact absurd two (Nat.not_le.2 few)
  | weight all two infinite =>
    cases h' with
    | unknown mem unknown => exact absurd (all _ mem) unknown
    | degenerate _ few => exact absurd two (Nat.not_le.2 few)
    | weight => rfl

theorem Offence.not_admissible (h : e.Offence known error) : ¬ e.Admissible known := by
  rintro ⟨all, two, finite⟩
  rw [← two_le_length_sortIds, length_sortIds] at two
  cases h with
  | unknown mem unknown => exact unknown (all _ mem)
  | degenerate _ few => omega
  | weight _ _ infinite => exact infinite finite

end EdgeRecord

namespace Hypergraph

variable {α : Type} [Scalar α] {g g' : Hypergraph α} {e : EdgeRecord α} {metadata : Option Json}
  {now : Instant} {error : HypergraphError α}

theorem addEdge_record :
    g.addEdge e.nodes e.weight metadata now = .ok g' ↔
      e.Admissible (· ∈ g.nodes) ∧ g' = g.withEdge (sortIds e.nodes) e.weight metadata now := by
  rw [addEdge_eq_ok, two_le_length_sortIds, EdgeRecord.Admissible]

/-- An edge is refused for what is wrong with it first. -/
theorem offence_of_addEdge (h : g.addEdge e.nodes e.weight metadata now = .error error) :
    e.Offence (· ∈ g.nodes) error := by
  unfold addEdge at h
  dsimp only at h
  split at h
  case h_1 id hf =>
    obtain rfl := Except.error.inj h
    have unknown := List.find?_some hf
    refine .unknown (mem_sortIds.1 (List.mem_of_find?_eq_some hf)) ?_ fun m hm hn => ?_
    · simpa [← contains_iff] using unknown
    · refine le_of_find?_eq_some (sortIds_pairwise e.nodes) hf (mem_sortIds.2 hm) ?_
      simpa [← contains_iff] using hn
  case h_2 hf =>
    have all : ∀ m ∈ e.nodes, m ∈ g.nodes := by
      simpa [List.find?_eq_none, contains_iff] using hf
    rw [length_sortIds] at h
    split_ifs at h with few infinite
    · obtain rfl := Except.error.inj h
      exact .degenerate all few
    · obtain rfl := Except.error.inj h
      exact .weight all (Nat.not_lt.1 few) infinite

/-! ## Restoring -/

/-- The graph with an edge for each record. -/
def withRecords (g : Hypergraph α) (records : List (EdgeRecord α)) (clock : Clock) :
    Hypergraph α :=
  records.foldl
    (fun g e => g.withEdge (sortIds e.nodes) e.weight none (clock (.edge g.edges.length))) g

variable {records : List (EdgeRecord α)} {clock : Clock}

omit [Scalar α] in
theorem nodes_withRecords (g : Hypergraph α) (records : List (EdgeRecord α)) (clock : Clock) :
    (g.withRecords records clock).nodes = g.nodes := by
  induction records generalizing g with
  | nil => rfl
  | cons e records ih => exact ih _

theorem addRecords_cons (g : Hypergraph α) (e : EdgeRecord α) (records : List (EdgeRecord α))
    (clock : Clock) : g.addRecords (e :: records) clock =
      g.addEdge e.nodes e.weight none (clock (.edge g.edges.length)) >>= fun g =>
        g.addRecords records clock :=
  List.foldlM_cons

theorem addRecords_eq_ok : g.addRecords records clock = .ok g' ↔
    (∀ e ∈ records, e.Admissible (· ∈ g.nodes)) ∧ g' = g.withRecords records clock := by
  induction records generalizing g with
  | nil => simp [addRecords, withRecords, pure, Except.pure, eq_comm]
  | cons e records ih =>
    rw [addRecords_cons, bind_eq_ok, List.forall_mem_cons]
    constructor
    · rintro ⟨g₁, ha, h⟩
      obtain ⟨admissible, rfl⟩ := addEdge_record.1 ha
      obtain ⟨rest, rfl⟩ := ih.1 h
      exact ⟨⟨admissible, rest⟩, rfl⟩
    · rintro ⟨⟨admissible, rest⟩, rfl⟩
      exact ⟨_, addEdge_record.2 ⟨admissible, rfl⟩, ih.2 ⟨rest, rfl⟩⟩

theorem addRecords_eq_error : g.addRecords records clock = .error error ↔
    ∃ before e after, records = before ++ e :: after ∧
      (∀ x ∈ before, x.Admissible (· ∈ g.nodes)) ∧ e.Offence (· ∈ g.nodes) error := by
  induction records generalizing g with
  | nil => simp [addRecords, pure, Except.pure]
  | cons e records ih =>
    rw [addRecords_cons]
    cases ha : g.addEdge e.nodes e.weight none (clock (.edge g.edges.length)) with
    | error error' =>
      have offence := offence_of_addEdge ha
      constructor
      · intro h
        obtain rfl := Except.error.inj h
        exact ⟨[], e, records, rfl, by simp, offence⟩
      · rintro ⟨before, x, after, hr, hb, hx⟩
        cases before with
        | nil =>
          obtain ⟨rfl, -⟩ := List.cons.inj hr
          rw [offence.unique hx]
          rfl
        | cons y before =>
          obtain ⟨rfl, -⟩ := List.cons.inj hr
          exact absurd (hb e List.mem_cons_self) offence.not_admissible
    | ok g₁ =>
      obtain ⟨admissible, rfl⟩ := addEdge_record.1 ha
      rw [ok_bind, ih]
      constructor
      · rintro ⟨before, x, after, rfl, hb, hx⟩
        exact ⟨e :: before, x, after, rfl, List.forall_mem_cons.2 ⟨admissible, hb⟩, hx⟩
      · rintro ⟨before, x, after, hr, hb, hx⟩
        cases before with
        | nil =>
          obtain ⟨rfl, -⟩ := List.cons.inj hr
          exact absurd admissible hx.not_admissible
        | cons y before =>
          obtain ⟨rfl, rfl⟩ := List.cons.inj hr
          exact ⟨before, x, after, rfl, (List.forall_mem_cons.1 hb).2, hx⟩

/-- A node as it is registered. -/
def freshNode (attributes : Json) : GraphNode α := ⟨attributes.orEmptyObject, 1.0, 0.0⟩

theorem exists_addNodes_eq_ok {entries : List (NodeId × Json)}
    (distinct : entries.Pairwise fun a b => a.1 ≠ b.1) (hg : g.WellFormed)
    (fresh : ∀ p ∈ entries, p.1 ∉ g.nodes) :
    ∃ g' : Hypergraph α, entries.foldlM (fun g p => g.addNode p.1 p.2) g = .ok g' ∧
      g'.WellFormed ∧ g'.edges = g.edges ∧
      (∀ p ∈ entries, g'.nodes[p.1]? = some (freshNode p.2)) ∧
      ∀ id, (∀ p ∈ entries, p.1 ≠ id) → g'.nodes[id]? = g.nodes[id]? := by
  induction entries generalizing g with
  | nil => exact ⟨g, rfl, hg, rfl, by simp, fun _ _ => rfl⟩
  | cons p entries ih =>
    obtain ⟨hp, distinct⟩ := List.pairwise_cons.1 distinct
    have ha : g.addNode p.1 p.2 = .ok _ := addNode_eq_ok.2 ⟨fresh p List.mem_cons_self, rfl⟩
    obtain ⟨g', h, hg', edges, new, old⟩ := ih distinct (wellFormed_addNode hg ha) fun q hq hm => by
      rcases Std.ExtTreeMap.mem_insert.1 hm with e | hm
      · exact hp q hq (Std.LawfulEqCmp.eq_of_compare e)
      · exact fresh q (List.mem_cons_of_mem p hq) hm
    refine ⟨g', ?_, hg', edges, List.forall_mem_cons.2 ⟨?_, new⟩, fun id hid => ?_⟩
    · rw [List.foldlM_cons, ha]
      exact h
    · rw [old p.1 fun q hq => (hp q hq).symm]
      exact Std.ExtTreeMap.getElem?_insert_self
    · rw [old id fun q hq => hid q (List.mem_cons_of_mem p hq), Std.ExtTreeMap.getElem?_insert,
        if_neg]
      exact fun e => hid p List.mem_cons_self (Std.LawfulEqCmp.eq_of_compare e)

/-- The nodes of a snapshot can always be registered. -/
theorem exists_nodes_eq_ok (name : String) (s : HypergraphSnapshot α) :
    ∃ g : Hypergraph α,
      s.nodes.toList.foldlM (fun g (id, attributes) => g.addNode id attributes) (empty name) =
        .ok g ∧ g.WellFormed ∧ g.edges = [] ∧ g.nodes = s.nodes.map fun _ => freshNode := by
  have distinct : s.nodes.toList.Pairwise fun a b => a.1 ≠ b.1 :=
    s.nodes.distinct_keys_toList.imp fun h e => h (Std.LawfulEqCmp.compare_eq_iff_eq.2 e)
  have hempty : (empty name : Hypergraph α).WellFormed := wellFormed_empty name
  obtain ⟨g, h, hg, edges, new, old⟩ := exists_addNodes_eq_ok distinct hempty fun p _ => by
    simp [empty]
  refine ⟨g, h, hg, edges, Std.ExtTreeMap.ext_getElem? fun id => ?_⟩
  rw [Std.ExtTreeMap.getElem?_map]
  cases hs : s.nodes[id]? with
  | some j =>
    exact new (id, j) (Std.ExtTreeMap.mem_toList_iff_getElem?_eq_some.2 hs)
  | none =>
    rw [old id, Option.map_none]
    · simp [empty]
    · rintro ⟨id, j⟩ hp rfl
      rw [Std.ExtTreeMap.mem_toList_iff_getElem?_eq_some, hs] at hp
      contradiction

theorem exists_ofSnapshot_eq (name : String) (s : HypergraphSnapshot α) (clock : Clock) :
    ∃ g : Hypergraph α, g.WellFormed ∧ g.edges = [] ∧ (g.nodes = s.nodes.map fun _ => freshNode) ∧
      ofSnapshot name s clock = g.addRecords s.edges clock := by
  obtain ⟨g, h, hg, edges, nodes⟩ := exists_nodes_eq_ok name s
  exact ⟨g, hg, edges, nodes, by rw [ofSnapshot, h, ok_bind]⟩

theorem wellFormed_addRecords (hg : g.WellFormed) (h : g.addRecords records clock = .ok g') :
    g'.WellFormed := by
  induction records generalizing g with
  | nil => exact Except.ok.inj h ▸ hg
  | cons e records ih =>
    rw [addRecords_cons] at h
    obtain ⟨g₁, ha, h⟩ := bind_eq_ok.1 h
    exact ih (wellFormed_addEdge hg ha) h

omit [Scalar α] in
theorem edges_snapshot_withRecords (g : Hypergraph α) (records : List (EdgeRecord α))
    (clock : Clock) :
    (g.withRecords records clock).snapshot.edges =
      g.snapshot.edges ++ records.map fun e => ⟨sortIds e.nodes, e.weight⟩ := by
  induction records generalizing g with
  | nil => simp [withRecords]
  | cons e records ih =>
    show ((g.withEdge (sortIds e.nodes) e.weight none (clock (.edge g.edges.length))).withRecords
      records clock).snapshot.edges = _
    rw [ih]
    simp [snapshot, withEdge]

end Hypergraph

/-- The snapshot with an empty object for each null, and in each record every node once, in
order. -/
def HypergraphSnapshot.normalised {α : Type} (s : HypergraphSnapshot α) : HypergraphSnapshot α where
  nodes := s.nodes.map fun _ j => j.orEmptyObject
  edges := s.edges.map fun e => ⟨e.nodes.dedup.mergeSort (· ≤ ·), e.weight⟩

namespace Hypergraph

variable {α : Type} [Scalar α] {g g' : Hypergraph α} {s : HypergraphSnapshot α} {name : String}
  {clock : Clock} {error : HypergraphError α}

theorem exists_ofSnapshot_eq_ok :
    (∃ g, ofSnapshot name s clock = .ok g) ↔ ∀ e ∈ s.edges, e.Admissible (· ∈ s.nodes) := by
  obtain ⟨g, -, -, nodes, h⟩ := exists_ofSnapshot_eq name s clock
  simp only [h, addRecords_eq_ok, nodes, Std.ExtTreeMap.mem_map, exists_and_left, exists_eq,
    and_true]

theorem ofSnapshot_eq_error :
    ofSnapshot name s clock = .error error ↔
      ∃ before e after, s.edges = before ++ e :: after ∧
        (∀ x ∈ before, x.Admissible (· ∈ s.nodes)) ∧ e.Offence (· ∈ s.nodes) error := by
  obtain ⟨g, -, -, nodes, h⟩ := exists_ofSnapshot_eq name s clock
  simp only [h, addRecords_eq_error, nodes, Std.ExtTreeMap.mem_map]

theorem wellFormed_ofSnapshot (h : ofSnapshot name s clock = .ok g) : g.WellFormed := by
  obtain ⟨g₀, hg₀, -, -, e⟩ := exists_ofSnapshot_eq name s clock
  exact wellFormed_addRecords hg₀ (e ▸ h)

theorem snapshot_ofSnapshot (h : ofSnapshot name s clock = .ok g) : g.snapshot = s.normalised := by
  obtain ⟨g₀, -, edges, nodes, e⟩ := exists_ofSnapshot_eq name s clock
  obtain ⟨-, rfl⟩ := addRecords_eq_ok.1 (e ▸ h)
  have hnodes : (g₀.withRecords s.edges clock).snapshot.nodes = s.normalised.nodes := by
    rw [snapshot, nodes_withRecords, nodes, Std.ExtTreeMap.map_map]
    rfl
  have hedges : (g₀.withRecords s.edges clock).snapshot.edges = s.normalised.edges := by
    rw [edges_snapshot_withRecords, snapshot, edges]
    simp only [sortIds_eq_mergeSort]
    rfl
  generalize (g₀.withRecords s.edges clock).snapshot = t at hnodes hedges
  cases t
  rw [HypergraphSnapshot.mk.injEq]
  exact ⟨hnodes, hedges⟩

end Hypergraph

end AdaptivePopulation
