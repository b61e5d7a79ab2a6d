import Mathlib.Data.List.Nodup
import AdaptivePopulation.Federation.Basic
import AdaptivePopulation.Proofs.Config.Validation
import AdaptivePopulation.Proofs.Decimal.Digits
import AdaptivePopulation.Proofs.Hypergraph.Construction

/-!
# Populations before their first tick

A population that has just been built has one node for each position, under an identifier of its own
that is not the name of the population.  No node has been measured or has left its first strategy.
-/

namespace AdaptivePopulation

namespace Federation

/-! ## Identifiers -/

theorem nodeId_injective : Function.Injective nodeId := by
  intro i j h
  have digits := congrArg String.toList h
  simp only [nodeId, String.toList_append, String.toList_ofList,
    List.append_cancel_left_eq] at digits
  exact Decimal.padded_injective 3 digits

theorem nodeId_ne_subject (position : Nat) : nodeId position ≠ subject := by
  intro h
  have first := congrArg (fun s => s.toList.head?) h
  simp [nodeId, subject] at first

/-- The identifiers of the nodes in order, followed by the name of the population. -/
def subjects (c : EngineConfig) : List String := (List.range c.nodeCount).map nodeId ++ [subject]

theorem nodup_subjects (c : EngineConfig) : (subjects c).Nodup := by
  refine List.Nodup.append (List.nodup_range.map nodeId_injective) (List.nodup_singleton _) ?_
  intro id hid hs
  obtain ⟨i, -, rfl⟩ := List.mem_map.1 hid
  exact nodeId_ne_subject i (List.mem_singleton.1 hs)

/-! ## Building -/

/-- A population as the calls that build it leave it, before it is ticked. -/
inductive Built (c : EngineConfig) : Federation → Prop where
  | create {fallback : UInt64} {f : Federation} {events : List Event}
      (h : Federation.create c fallback = .ok (f, events)) : Built c f
  | withSource {f : Federation} (h : Built c f) (source : ActivitySource Float) :
      Built c (f.withSource source)
  | withLedger {f : Federation} (h : Built c f) (ledger : Ledger) : Built c (f.withLedger ledger)
  | observe {f : Federation} (h : Built c f) (o : Observer) : Built c (f.observe o)

/-- What holds of every population that has just been built. -/
structure Initial (c : EngineConfig) (f : Federation) : Prop where
  valid : c.violation? = none
  config : f.config = c
  ids : f.nodes.map Node.id = (List.range c.nodeCount).map nodeId
  untouched : ∀ n ∈ f.nodes, n.strategy = default ∧ n.measured = false ∧ n.ticks = 0 ∧
    n.history = .empty c.historyCapacity
  controller : f.controller = .start c.hysteresis
  ticks : f.ticks = 0

theorem ids_spawn (c : EngineConfig) (g : RandomStream) :
    (spawn c g).1.map Node.id = (List.range c.nodeCount).map nodeId := by
  show ((g.draws id c.nodeCount).1.zipIdx.map _).map Node.id = _
  have positions := List.zipIdx_map_snd 0 (g.draws id c.nodeCount).1
  rw [RandomStream.length_draws, ← List.range_eq_range'] at positions
  rw [← positions, List.map_map, List.map_map]
  rfl

theorem untouched_spawn (c : EngineConfig) (g : RandomStream) : ∀ n ∈ (spawn c g).1,
    n.strategy = default ∧ n.measured = false ∧ n.ticks = 0 ∧
      n.history = .empty c.historyCapacity := by
  intro n hn
  obtain ⟨⟨seed, i⟩, -, rfl⟩ := List.mem_map.1 hn
  exact ⟨rfl, rfl, rfl, rfl⟩

/-- A population that has been created from a configuration. -/
structure Created (c : EngineConfig) (fallback : UInt64) (f : Federation) : Prop where
  valid : c.violation? = none
  config : f.config = c
  spawned : (f.nodes, f.stream) = spawn c (.ofSeed (c.seed.getD fallback))
  graph : register c f.nodes
    { Hypergraph.empty subject with window := .ofSeconds c.coherenceWindowSeconds } = .ok f.graph
  controller : f.controller = .start c.hysteresis
  meanField : f.meanField = fieldOf f.nodes
  ticks : f.ticks = 0

theorem created_of_create {c : EngineConfig} {fallback : UInt64} {f : Federation}
    {events : List Event} (h : create c fallback = .ok (f, events)) : Created c fallback f := by
  unfold create at h
  obtain ⟨_, valid, h⟩ := bind_eq_ok.1 h
  obtain ⟨window, hw, h⟩ := bind_eq_ok.1 h
  obtain ⟨graph, hg, h⟩ := bind_eq_ok.1 h
  simp only [pure_eq_ok, Prod.mk.injEq] at h
  obtain ⟨rfl, -⟩ := h
  have bounded := mapError_eq_ok.1 hw
  unfold Duration.boundedSeconds at bounded
  split_ifs at bounded
  obtain rfl := Except.ok.inj bounded
  exact ⟨EngineConfig.validate_eq_ok.1 (mapError_eq_ok.1 valid), rfl, rfl, mapError_eq_ok.1 hg, rfl,
    rfl, rfl⟩

theorem Created.initial {c : EngineConfig} {fallback : UInt64} {f : Federation}
    (h : Created c fallback f) : Initial c f := by
  have nodes : f.nodes = (spawn c (.ofSeed (c.seed.getD fallback))).1 :=
    congrArg Prod.fst h.spawned
  exact ⟨h.valid, h.config, nodes ▸ ids_spawn c _, nodes ▸ untouched_spawn c _, h.controller,
    h.ticks⟩

theorem Built.initial {c : EngineConfig} {f : Federation} (h : Built c f) : Initial c f := by
  induction h with
  | create h => exact (created_of_create h).initial
  | withSource h source ih =>
    exact ⟨ih.valid, ih.config, ih.ids, ih.untouched, ih.controller, ih.ticks⟩
  | withLedger h ledger ih =>
    exact ⟨ih.valid, ih.config, ih.ids, ih.untouched, ih.controller, ih.ticks⟩
  | observe h o ih =>
    exact ⟨ih.valid, ih.config, ih.ids, ih.untouched, ih.controller, ih.ticks⟩

/-! ## Building succeeds -/

theorem exists_register_eq_ok (c : EngineConfig) (nodes : List Node)
    (hn : (nodes.map Node.id).Nodup) (g : Hypergraph Float) (hg : ∀ n ∈ nodes, n.id ∉ g.nodes) :
    ∃ g', register c nodes g = .ok g' := by
  induction nodes generalizing g with
  | nil => exact ⟨g, rfl⟩
  | cons n nodes ih =>
    obtain ⟨fresh, hn⟩ := List.nodup_cons.1 hn
    obtain ⟨g', ha⟩ : ∃ g', g.addNode n.id (.obj [("dimension", .ofNat c.stateDim)]) = .ok g' :=
      ⟨_, Hypergraph.addNode_eq_ok.2 ⟨hg n List.mem_cons_self, rfl⟩⟩
    have later : ∀ m ∈ nodes, m.id ∉ g'.nodes := by
      intro m hm
      obtain ⟨-, rfl⟩ := Hypergraph.addNode_eq_ok.1 ha
      rw [Std.ExtTreeMap.mem_insert, Std.LawfulEqCmp.compare_eq_iff_eq, not_or]
      refine ⟨fun e => fresh ?_, hg m (List.mem_cons_of_mem n hm)⟩
      rw [e]
      exact List.mem_map_of_mem hm
    obtain ⟨g'', hr⟩ := ih hn g' later
    refine ⟨g'', ?_⟩
    rw [register, List.foldlM_cons, ha]
    exact hr

/-- A valid configuration builds a population, unless its window is too long for a duration. -/
theorem exists_create_eq_ok {c : EngineConfig} (valid : c.violation? = none)
    (window : c.coherenceWindowSeconds.natAbs ≤ Duration.greatestSeconds) (fallback : UInt64) :
    ∃ f events, create c fallback = .ok (f, events) ∧ f.source = none := by
  have hv : c.validate = .ok () := EngineConfig.validate_eq_ok.2 valid
  have hw : Duration.boundedSeconds c.coherenceWindowSeconds =
      .ok (.ofSeconds c.coherenceWindowSeconds) := if_pos window
  rcases hs : spawn c (.ofSeed (c.seed.getD fallback)) with ⟨nodes, stream⟩
  have ids := ids_spawn c (.ofSeed (c.seed.getD fallback))
  rw [hs] at ids
  obtain ⟨graph, hg⟩ := exists_register_eq_ok c nodes
    (ids ▸ List.nodup_range.map nodeId_injective)
    { Hypergraph.empty subject with window := .ofSeconds c.coherenceWindowSeconds }
    (fun n _ => Std.ExtTreeMap.not_mem_empty)
  simp only [create, hv, hw, hs, hg, Except.mapError, ok_bind]
  exact ⟨_, _, rfl, rfl⟩

end Federation

end AdaptivePopulation
