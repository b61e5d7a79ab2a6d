import AdaptivePopulation.Proofs.Dynamics
import AdaptivePopulation.Proofs.Federation.Schedule
import AdaptivePopulation.Proofs.MeanField
import AdaptivePopulation.Proofs.Unit

/-!
# Bounded states

Along every course the states of the nodes and the snapshots they remember keep their length and
stay between zero and one, whatever the signals are.  A node remembers its states after the ticks
since the last trauma, as many as fit, and its state now is the last of them.
-/

namespace AdaptivePopulation

/-! ## States -/

/-- A state of a given length, all of whose elements lie between zero and one. -/
structure UnitState (dim : ℕ) (state : List Float) : Prop where
  length : state.length = dim
  unit : ∀ v ∈ state, InUnit v

section

variable (state field : List Float) (external dt complexity : Float) (g : RandomStream)

theorem inUnit_of_isClamped {values : List Float} (h : IsClamped values) :
    ∀ v ∈ values, InUnit v := by
  intro v hv
  obtain ⟨x, rfl⟩ := h v hv
  exact inUnit_clampUnit x

theorem Strategy.unitState_apply (strategy : Strategy) :
    UnitState state.length (strategy.apply state field external dt complexity g).1 :=
  ⟨strategy.length_apply state field external dt complexity g,
    inUnit_of_isClamped (strategy.isClamped_apply state field external dt complexity g)⟩

theorem PopulationMode.unitState_apply (mode : PopulationMode) :
    UnitState field.length (mode.apply field external dt complexity g).1 :=
  ⟨mode.length_apply field external dt complexity g,
    inUnit_of_isClamped (mode.isClamped_apply field external dt complexity g)⟩

theorem unitState_draws (dim : ℕ) : UnitState dim (g.draws Random.unitFraction dim).1 := by
  refine ⟨RandomStream.length_draws .., ?_⟩
  induction dim generalizing g with
  | zero => nofun
  | succ dim ih => exact List.forall_mem_cons.2 ⟨inUnit_unitFraction _, ih _⟩

end

/-! ## Nodes -/

namespace Node

/-- What holds of a node at any time. -/
structure Bounded (dim : ℕ) (n : Node) : Prop where
  state : UnitState dim n.state
  snapshots : ∀ s ∈ n.history.snapshots, UnitState dim s
  latest : n.history.snapshots ≠ [] → n.history.latest? = some n.state

variable {n : Node} {dim : ℕ}

theorem bounded_create (id : NodeId) (dim capacity : ℕ) (g : RandomStream) :
    (create id dim capacity g).Bounded dim where
  state := unitState_draws g dim
  snapshots := nofun
  latest := fun h => absurd rfl h

theorem Bounded.reinitialized (h : n.Bounded dim) : n.reinitialize.Bounded dim where
  state := h.state.length ▸ unitState_draws n.stream n.state.length
  snapshots := nofun
  latest := fun h => absurd rfl h

theorem Bounded.ticked (h : n.Bounded dim) (field : List Float) (external : Float)
    (rules : NodeRules) : (n.ticked field external rules).Bounded dim := by
  have moved : (n.ticked field external rules).state =
      (n.strategy.apply n.state field external rules.dt n.complexity n.stream).1 := by
    unfold Node.ticked stepped
    split_ifs <;> rfl
  have state : UnitState dim (n.ticked field external rules).state := by
    rw [moved, ← h.state.length]
    exact n.strategy.unitState_apply ..
  refine ⟨state, ?_, fun _ => ?_⟩
  · rw [history_ticked]
    exact HistoryWindow.forall_mem_push h.snapshots state
  · rw [history_ticked]
    exact HistoryWindow.latest?_push _ _

end Node

/-! ## Populations -/

theorem inUnit_sanitize (value : Float) (tick : ℕ) : InUnit (sanitize value tick).1 := by
  unfold sanitize
  split_ifs with h
  · exact inUnit_iff.2 h
  · exact inUnit_clampUnit value

namespace Federation

variable {c : EngineConfig} {start f g : Federation} {log : List LogEntry} {since : ℕ}

/-- What holds of a population at any time. -/
structure Bounded (dim : ℕ) (f : Federation) : Prop where
  nodes : ∀ n ∈ f.nodes, n.Bounded dim
  meanField : f.meanField = fieldOf f.nodes

theorem Created.bounded {fallback : UInt64} (h : Created c fallback f) : f.Bounded c.stateDim := by
  refine ⟨?_, h.meanField⟩
  have nodes : f.nodes = (spawn c (.ofSeed (c.seed.getD fallback))).1 :=
    congrArg Prod.fst h.spawned
  rw [nodes]
  exact List.forall_mem_map.2 fun _ _ => Node.bounded_create ..

theorem Built.bounded (built : Built c f) : f.Bounded c.stateDim := by
  induction built with
  | create h => exact (created_of_create h).bounded
  | withSource _ _ ih | withLedger _ _ ih | observe _ _ ih => exact ⟨ih.nodes, ih.meanField⟩

theorem Bounded.tick {dim : ℕ} (h : f.Bounded dim) {field : List Float} {signal : Float}
    {report : TickReport} (adv : f.Advances field signal report g) : g.Bounded dim := by
  refine ⟨?_, adv.meanField⟩
  rw [adv.nodes]
  exact List.forall_mem_map.2 fun n hn => (h.nodes n hn).ticked field signal f.rules

theorem Bounded.trauma {dim : ℕ} (h : f.Bounded dim) : f.trauma.1.Bounded dim :=
  ⟨List.forall_mem_map.2 fun n hn => (h.nodes n hn).reinitialized, rfl⟩

theorem Course.bounded (built : Built c start) (course : Course start log since f) :
    f.Bounded c.stateDim := by
  induction course with
  | start => exact built.bounded
  | tick _ h ih =>
    obtain ⟨_, _, adv⟩ := advances_of_tick h
    exact ih.tick adv
  | trauma _ ih => exact ih.trauma
  | connect _ h ih =>
    obtain ⟨graph, rfl⟩ := connect_eq_ok h
    exact ⟨ih.nodes, ih.meanField⟩

theorem Course.length_history (built : Built c start) (course : Course start log since f) {n : Node}
    (hn : n ∈ f.nodes) : n.history.length = min since c.historyCapacity := by
  have here := course.inStep built
  have recent := here.since_le
  obtain ⟨i, hi⟩ := List.mem_iff_getElem?.1 hn
  have node := here.nodes i n hi
  rw [node.holds.length_eq, node.capacity, statesAt, List.length_map, List.rtake, List.length_drop]
  omega

/-- The mean field in exact arithmetic. -/
noncomputable def exactField (f : Federation) : List ℝ :=
  Series.meanField (f.nodes.map fun n => n.state.map realOf)

/-- Strategies and modes leave a state of the same length between zero and one, whatever they are
applied to.  So wherever a course has led, the states and snapshots of all nodes are such states of
the configured length; as many snapshots are remembered as ticks have passed since the last trauma
and fit, the last of them being the state; the mean field is the mean of the states element by
element, in exact arithmetic between zero and one; and so are the signals of all reports. -/
theorem states_stay_in_unit :
    (∀ (strategy : Strategy) (state field : List Float) (external dt complexity : Float)
      (g : RandomStream),
      UnitState state.length (strategy.apply state field external dt complexity g).1) ∧
    (∀ (mode : PopulationMode) (field : List Float) (external dt complexity : Float)
      (g : RandomStream),
      UnitState field.length (mode.apply field external dt complexity g).1) ∧
    ∀ (c : EngineConfig) (start f : Federation) (log : List LogEntry) (since : ℕ),
      Built c start → Course start log since f →
      (∀ n ∈ f.nodes,
        UnitState c.stateDim n.state ∧
        (∀ s ∈ n.history.snapshots, UnitState c.stateDim s) ∧
        n.history.length = min since c.historyCapacity ∧
        (n.history.snapshots ≠ [] → n.history.latest? = some n.state)) ∧
      f.meanField.length = c.stateDim ∧
      (∀ j < c.stateDim, f.meanField[j]? = some
        ((f.nodes.map fun n => n.state.getD j 0.0).foldl (· + ·) 0.0 /
          Scalar.ofNat f.nodes.length)) ∧
      (f.exactField.length = c.stateDim ∧ ∀ v ∈ f.exactField, v ∈ Set.Icc 0 1) ∧
      (∀ e ∈ log, InUnit e.report.externalInput) ∧
      (f.source = none → ∀ external clock, ∃ report events g,
        f.tick external clock = .ok (report, events, g)) := by
  refine ⟨fun strategy => strategy.unitState_apply, fun mode => mode.unitState_apply, ?_⟩
  intro c start f log since built course
  have bounded := course.bounded built
  have populated := course.nodes_ne_nil built
  have states : f.nodes.map Node.state ≠ [] := mt List.map_eq_nil_iff.1 populated
  have lengths : ∀ s ∈ f.nodes.map Node.state, s.length = c.stateDim :=
    List.forall_mem_map.2 fun n hn => (bounded.nodes n hn).state.length
  refine ⟨fun n hn => ?_, ?_, fun j hj => ?_, ?_, ?_, exists_tick_eq_ok⟩
  · have node := bounded.nodes n hn
    exact ⟨node.state, node.snapshots, course.length_history built hn, node.latest⟩
  · rw [bounded.meanField]
    exact Series.length_meanField states lengths
  · rw [bounded.meanField, fieldOf, Series.getElem?_meanField states lengths hj, List.length_map,
      Series.column, List.map_map]
    rfl
  · have exact_ne : (f.nodes.map fun n => n.state.map realOf) ≠ [] :=
      mt List.map_eq_nil_iff.1 populated
    have widths : ∀ s ∈ f.nodes.map fun n => n.state.map realOf, s.length = c.stateDim :=
      List.forall_mem_map.2 fun n hn => by simp [(bounded.nodes n hn).state.length]
    refine ⟨Series.length_meanField exact_ne widths, Series.meanField_mem_Icc exact_ne widths ?_⟩
    refine List.forall_mem_map.2 fun n hn => List.forall_mem_map.2 fun v hv => ?_
    exact realOf_mem ((bounded.nodes n hn).state.unit v hv)
  · refine course.forall_log fun _ h => ?_
    obtain ⟨_, adv⟩ := advances_sanitized_of_tick h
    show InUnit (TickReport.externalInput _)
    rw [adv.reportInput]
    exact inUnit_sanitize ..

/-- The signals may be undefined and infinite, and a trauma may lie between them. -/
theorem states_stay_in_unit_standard : ∃ (start f g : Federation) (report report' : TickReport)
    (events events' : List Event), Built .standard start ∧
      start.tick (0.0 / 0.0) Instant.epoch = .ok (report, events, f) ∧
      f.trauma.1.tick (1.0 / 0.0) Instant.epoch = .ok (report', events', g) ∧
      InUnit report.externalInput ∧ InUnit report'.externalInput ∧ g.meanField.length = 64 ∧
      ∀ n ∈ g.nodes, UnitState 64 n.state ∧ n.history.length = 1 ∧
        n.history.latest? = some n.state := by
  obtain ⟨start, _, created, source⟩ :=
    exists_create_eq_ok (c := .standard) (by decide) (by decide) 0
  have built : Built .standard start := .create created
  obtain ⟨report, events, f, ht⟩ := exists_tick_eq_ok source (0.0 / 0.0) Instant.epoch
  obtain ⟨_, _, adv⟩ := advances_of_tick ht
  obtain ⟨report', events', g, ht'⟩ :=
    exists_tick_eq_ok (f := f.trauma.1) (adv.source.trans source) (1.0 / 0.0) Instant.epoch
  have course : Course start [⟨report, f, 1⟩, ⟨report', g, 1⟩] 1 g :=
    (Course.start.tick ht).trauma.tick ht'
  obtain ⟨-, -, along⟩ := states_stay_in_unit
  obtain ⟨nodes, field, -, -, signals, -⟩ := along _ _ _ _ _ built course
  refine ⟨start, f, g, report, report', events, events', built, ht, ht', ?_, ?_, field, ?_⟩
  · exact signals _ List.mem_cons_self
  · exact signals _ (List.mem_cons_of_mem _ List.mem_cons_self)
  · intro n hn
    obtain ⟨state, -, length, latest⟩ := nodes n hn
    refine ⟨state, length, latest fun empty => ?_⟩
    rw [HistoryWindow.length, empty] at length
    exact absurd length (by decide)

end Federation

end AdaptivePopulation
