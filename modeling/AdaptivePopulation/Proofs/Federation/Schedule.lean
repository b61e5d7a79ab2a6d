import AdaptivePopulation.Proofs.Federation.Replay

/-!
# When nodes are measured

A node is measured at the ticks that the interval divides, once enough ticks have passed since the
last trauma, and from its states after the last ticks, none of them older than the trauma.  That
follows from what a course preserves for each node (`OnSchedule`): its window holds its states after
the ticks since the last trauma, as many as fit.
-/

namespace AdaptivePopulation

namespace Federation

variable {c : EngineConfig} {start f g : Federation} {log : List LogEntry} {since : Nat}

/-! ## The schedule -/

/-- The tick is one of analysis, and enough ticks have passed since the last trauma. -/
def IsDueAt (c : EngineConfig) (tick since : Nat) : Prop :=
  max c.analysisInterval 1 ∣ tick ∧ c.spectral.minSamples ≤ since

/-- Some tick of a log was due. -/
def AnyDue (c : EngineConfig) (log : List LogEntry) : Prop :=
  ∃ e ∈ log, IsDueAt c e.report.tick e.since

/-- The state of the node at a position. -/
def stateAt (f : Federation) (position : Nat) : List Float :=
  (f.nodes[position]?.map Node.state).getD []

/-- The states of the node at a position after the ticks of a log. -/
def statesAt (position : Nat) (log : List LogEntry) : List (List Float) :=
  log.map fun e => e.after.stateAt position

theorem anyDue_concat {e : LogEntry} :
    AnyDue c (log ++ [e]) ↔ AnyDue c log ∨ IsDueAt c e.report.tick e.since := by
  simp only [AnyDue, List.mem_append, List.mem_singleton, or_and_right, exists_or, exists_eq_left]

/-- What holds of the node at a position. -/
structure OnSchedule (c : EngineConfig) (log : List LogEntry) (since position : Nat) (n : Node) :
    Prop where
  ticks : n.ticks = log.length
  capacity : n.history.capacity = c.historyCapacity
  holds : n.history.Holds (statesAt position (log.rtake since))
  measured : n.measured = true ↔ AnyDue c log

theorem onSchedule_start (valid : c.violation? = none) {n : Node} (position : Nat)
    (h : n.measured = false ∧ n.ticks = 0 ∧ n.history = .empty c.historyCapacity) :
    OnSchedule c [] 0 position n := by
  obtain ⟨measured, ticks, history⟩ := h
  obtain ⟨room, -⟩ := EngineConfig.samples_fit valid
  refine ⟨ticks, ?_, ?_, ?_⟩
  · rw [history]
    show max c.historyCapacity 1 = _
    omega
  · rw [history]
    exact HistoryWindow.holds_empty _
  · rw [measured]
    exact ⟨nofun, fun ⟨e, he, _⟩ => absurd he List.not_mem_nil⟩

theorem OnSchedule.trauma {position : Nat} {n : Node}
    (h : OnSchedule c log since position n) : OnSchedule c log 0 position n.reinitialize where
  ticks := h.ticks
  capacity := h.capacity
  holds := by
    rw [List.rtake_zero]
    exact n.history.holds_clear
  measured := h.measured

section Tick

variable {n : Node} {position : Nat} {field : List Float} {signal : Float} {report : TickReport}

/-- The window after a tick. -/
theorem OnSchedule.holds_ticked (valid : c.violation? = none)
    (h : OnSchedule c log since position n)
    (hg : g.nodes[position]? = some (n.ticked field signal (.ofConfig c))) (report : TickReport) :
    (n.ticked field signal (.ofConfig c)).history.Holds
      (statesAt position (List.rtake (log ++ [⟨report, g, since + 1⟩]) (since + 1))) := by
  obtain ⟨room, -⟩ := EngineConfig.samples_fit valid
  have state : (n.ticked field signal (.ofConfig c)).state = g.stateAt position := by
    rw [stateAt, hg]
    rfl
  rw [Node.history_ticked, List.rtake_concat_succ, statesAt, List.map_append, state]
  exact h.holds.push (by rw [h.capacity]; omega) _

theorem OnSchedule.isDue_iff (valid : c.violation? = none) (h : OnSchedule c log since position n)
    (hs : since ≤ log.length) (hg : g.nodes[position]? = some (n.ticked field signal (.ofConfig c)))
    (ht : report.tick = log.length + 1) :
    (n.ticked field signal (.ofConfig c)).IsDue (.ofConfig c) ↔
      IsDueAt c report.tick (since + 1) := by
  obtain ⟨room, fits⟩ := EngineConfig.samples_fit valid
  have length : (n.ticked field signal (.ofConfig c)).history.length =
      min (since + 1) c.historyCapacity := by
    rw [(h.holds_ticked valid hg report).length_eq, Node.history_ticked,
      HistoryWindow.capacity_push, h.capacity, statesAt, List.length_map, List.rtake,
      List.length_drop, List.length_append, List.length_singleton]
    omega
  unfold Node.IsDue IsDueAt
  rw [Node.ticks_ticked, h.ticks, length, ht, Nat.dvd_iff_mod_eq_zero]
  show _ ∧ c.spectral.minSamples ≤ _ ↔ _
  refine and_congr Iff.rfl ?_
  omega

theorem OnSchedule.ticked (valid : c.violation? = none) (h : OnSchedule c log since position n)
    (hs : since ≤ log.length) (hg : g.nodes[position]? = some (n.ticked field signal (.ofConfig c)))
    (ht : report.tick = log.length + 1) :
    OnSchedule c (log ++ [⟨report, g, since + 1⟩]) (since + 1) position
      (n.ticked field signal (.ofConfig c)) where
  ticks := by rw [Node.ticks_ticked, h.ticks, List.length_append, List.length_singleton]
  capacity := by rw [Node.history_ticked, HistoryWindow.capacity_push, h.capacity]
  holds := h.holds_ticked valid hg report
  measured := by
    rw [anyDue_concat, ← h.isDue_iff valid hs hg ht, ← h.measured]
    by_cases due : (n.ticked field signal (.ofConfig c)).IsDue (.ofConfig c)
    · simp only [Node.ticked_of_isDue due, due, or_true]
    · have kept : (n.ticked field signal (.ofConfig c)).measured = n.measured := by
        rw [Node.ticked_of_not_isDue due]
        rfl
      simp only [kept, due, or_false]

end Tick

/-! ## Along courses -/

/-- Every node is on schedule. -/
structure InStep (c : EngineConfig) (log : List LogEntry) (since : Nat) (f : Federation) :
    Prop where
  since_le : since ≤ log.length
  ticks : f.ticks = log.length
  nodes : ∀ (i : Nat) (n : Node), f.nodes[i]? = some n → OnSchedule c log since i n

variable {field : List Float} {signal : Float} {report : TickReport}

theorem Advances.getElem?_nodes (adv : f.Advances field signal report g) (hc : f.config = c)
    {i : Nat} {n : Node} (hn : f.nodes[i]? = some n) :
    g.nodes[i]? = some (n.ticked field signal (.ofConfig c)) := by
  rw [adv.nodes, List.getElem?_map, hn, rules, hc]
  rfl

theorem Advances.exists_of_getElem? (adv : f.Advances field signal report g) {i : Nat} {n' : Node}
    (hn' : g.nodes[i]? = some n') : ∃ n, f.nodes[i]? = some n := by
  rw [adv.nodes, List.getElem?_map, Option.map_eq_some_iff] at hn'
  exact hn'.imp fun _ => And.left

theorem InStep.tick (valid : c.violation? = none) (h : InStep c log since f) (hc : f.config = c)
    (adv : f.Advances field signal report g) :
    InStep c (log ++ [⟨report, g, since + 1⟩]) (since + 1) g where
  since_le := by
    have := h.since_le
    rw [List.length_append, List.length_singleton]
    omega
  ticks := by rw [adv.ticks, h.ticks, List.length_append, List.length_singleton]
  nodes := by
    intro i n' hn'
    obtain ⟨n, hn⟩ := adv.exists_of_getElem? hn'
    have hg := adv.getElem?_nodes hc hn
    obtain rfl := Option.some.inj (hg.symm.trans hn')
    exact (h.nodes i n hn).ticked valid h.since_le hg (by rw [adv.tick, h.ticks])

theorem Course.inStep (built : Built c start) (course : Course start log since f) :
    InStep c log since f := by
  induction course with
  | start =>
    refine ⟨Nat.le_refl 0, built.initial.ticks, fun i n hn => ?_⟩
    exact onSchedule_start built.initial.valid i
      (built.initial.untouched n (List.mem_of_getElem? hn)).2
  | tick course h ih =>
    obtain ⟨_, _, adv⟩ := advances_of_tick h
    exact ih.tick built.initial.valid (course.config built) adv
  | trauma _ ih =>
    refine ⟨Nat.zero_le _, ih.ticks, fun i n' hn' => ?_⟩
    obtain ⟨n, hn, rfl⟩ := Option.map_eq_some_iff.1 ((List.getElem?_map ..).symm.trans hn')
    exact (ih.nodes i n hn).trauma
  | connect _ h ih =>
    obtain ⟨graph, rfl⟩ := connect_eq_ok h
    exact ⟨ih.since_le, ih.ticks, ih.nodes⟩

/-- The nodes of a population are the same all along. -/
theorem Course.ids_log (built : Built c start) (course : Course start log since f) :
    ∀ e ∈ log, e.after.nodes.map Node.id = (List.range c.nodeCount).map nodeId :=
  course.forall_log fun course h => (course.tick h).ids built

/-! ## What a tick measures -/

theorem rtake_statesAt (position : Nat) (log : List LogEntry) (s k : Nat) :
    (statesAt position (log.rtake s)).rtake k = statesAt position (log.rtake (min s k)) := by
  unfold statesAt List.rtake
  rw [← List.map_drop, List.drop_drop, List.length_map, List.length_drop]
  congr 2
  omega

theorem measured_when_due (valid : c.violation? = none) (h : InStep c log since f)
    (hc : f.config = c) (adv : f.Advances field signal report g) {i : Nat} {n : Node}
    (hn : f.nodes[i]? = some n) (due : IsDueAt c report.tick (since + 1)) :
    (n.ticked field signal (.ofConfig c)).integration = Spectrum.integrationOf c.spectral
        (statesAt i (List.rtake (log ++ [⟨report, g, since + 1⟩])
          (min (since + 1) c.historyCapacity))) ∧
      (n.ticked field signal (.ofConfig c)).measured = true := by
  have hg := adv.getElem?_nodes hc hn
  have node := h.nodes i n hn
  have isDue := (node.isDue_iff valid h.since_le hg (by rw [adv.tick, h.ticks])).2 due
  have holds := node.holds_ticked valid hg report
  obtain ⟨integration, measured⟩ := Node.ticked_of_isDue isDue
  refine ⟨?_, measured⟩
  rw [integration, Spectrum.integration, holds, Node.history_ticked, HistoryWindow.capacity_push,
    node.capacity, rtake_statesAt]
  rfl

theorem unchanged_when_not_due (valid : c.violation? = none) (h : InStep c log since f)
    (hc : f.config = c) (adv : f.Advances field signal report g)
    (nodup : (f.nodes.map Node.id ++ [subject]).Nodup) {i : Nat} {n : Node}
    (hn : f.nodes[i]? = some n) (due : ¬ IsDueAt c report.tick (since + 1)) :
    (n.ticked field signal (.ofConfig c)).integration = n.integration ∧
      (n.ticked field signal (.ofConfig c)).measured = n.measured ∧
      (n.ticked field signal (.ofConfig c)).strategy = n.strategy ∧
      ∀ b ∈ report.transitions, b.subject ≠ n.id := by
  have hg := adv.getElem?_nodes hc hn
  have isDue_iff := (h.nodes i n hn).isDue_iff valid h.since_le hg (by rw [adv.tick, h.ticks])
  have notDue := mt isDue_iff.1 due
  have silent : changesOf n.id report.transitions = [] := by
    rw [adv.changesOf_node nodup (List.mem_of_getElem? hn), rules, hc, nodeTransitions,
      Node.proposal_of_not_isDue notDue]
    rfl
  rw [Node.ticked_of_not_isDue notDue]
  refine ⟨rfl, rfl, rfl, fun b hb e => ?_⟩
  have hm : b.change ∈ changesOf n.id report.transitions :=
    List.mem_filter.2 ⟨List.mem_map_of_mem hb, decide_eq_true e⟩
  rw [silent] at hm
  cases hm

/-- The controller observes the mean measure of a tick or is left alone. -/
theorem Advances.controller_eq (adv : f.Advances field signal report g) (hc : f.config = c) :
    g.controller =
      if max c.analysisInterval 1 ∣ report.tick ∧ ∀ n ∈ g.nodes, n.measured = true then
        (f.controller.observe (Series.mean (g.nodes.map Node.integration))).2
      else f.controller := by
  have consulted_iff : f.IsConsulted g.nodes g.ticks ↔
      max c.analysisInterval 1 ∣ report.tick ∧ ∀ n ∈ g.nodes, n.measured = true := by
    unfold IsConsulted rules
    rw [hc, adv.ticks, adv.tick, Nat.dvd_iff_mod_eq_zero, and_comm]
    rfl
  rw [adv.controller, consulted]
  split_ifs with hl hr hr
  · rfl
  · exact absurd (consulted_iff.1 hl) hr
  · exact absurd (consulted_iff.2 hr) hl
  · rfl

/-! ## The schedule of a whole course -/

/-- What only ticks change: the measures and strategies of the nodes, and the controller. -/
def standing (f : Federation) : List (Float × Bool × Strategy) × PopulationController Float :=
  (f.nodes.map fun n => (n.integration, n.measured, n.strategy), f.controller)

theorem standing_trauma (f : Federation) : standing f.trauma.1 = standing f := by
  show ((f.nodes.map Node.reinitialize).map _, f.controller) = _
  rw [List.map_map]
  rfl

/-- Wherever a course has led, all nodes have ticked with the population and have been measured
exactly if some tick was due.  At the next tick each node is measured if the tick is due, from its
states after the last ticks since the last trauma, and is measured for good; otherwise its measure
and strategy stay and no block tells of it.  The controller observes the mean of the measures at
ticks of analysis once all nodes have been measured, and nothing else. -/
theorem measurement_schedule (built : Built c start) (course : Course start log since f) :
    f.ticks = log.length ∧
    (∀ e ∈ log, e.after.nodes.map Node.id = f.nodes.map Node.id) ∧
    (∀ n ∈ f.nodes, n.ticks = f.ticks ∧ (n.measured = true ↔ AnyDue c log)) ∧
    standing f.trauma.1 = standing f ∧
    (∀ members weight now g, f.connect members weight now = .ok g → standing g = standing f) ∧
    (f.source = none → ∀ external clock, ∃ report events g,
      f.tick external clock = .ok (report, events, g)) ∧
    ∀ external clock report events g, f.tick external clock = .ok (report, events, g) →
      let log' := log ++ [⟨report, g, since + 1⟩]
      report.tick = f.ticks + 1 ∧ g.ticks = report.tick ∧
      g.nodes.map Node.id = f.nodes.map Node.id ∧
      (∀ (i : Nat) (n n' : Node), f.nodes[i]? = some n → g.nodes[i]? = some n' →
        n'.ticks = g.ticks ∧
        (IsDueAt c report.tick (since + 1) →
          let samples := statesAt i (log'.rtake (min (since + 1) c.historyCapacity))
          samples.length = min (since + 1) c.historyCapacity ∧
          n'.integration = Spectrum.integrationOf c.spectral samples ∧
          ∀ later since' f' m, Course start (log' ++ later) since' f' → f'.nodes[i]? = some m →
            m.measured = true) ∧
        (¬ IsDueAt c report.tick (since + 1) →
          n'.integration = n.integration ∧ n'.measured = n.measured ∧ n'.strategy = n.strategy ∧
          ∀ b ∈ report.transitions, b.subject ≠ n.id)) ∧
      g.controller =
        if max c.analysisInterval 1 ∣ report.tick ∧ ∀ n ∈ g.nodes, n.measured = true then
          (f.controller.observe (Series.mean (g.nodes.map Node.integration))).2
        else f.controller := by
  have valid := built.initial.valid
  have hc := course.config built
  have here := course.inStep built
  refine ⟨here.ticks, fun e he => ?_, fun n hn => ?_, standing_trauma f, fun _ _ _ _ h => ?_,
    exists_tick_eq_ok, ?_⟩
  · rw [course.ids_log built e he, course.ids built]
  · obtain ⟨i, hi⟩ := List.mem_iff_getElem?.1 hn
    have node := here.nodes i n hi
    exact ⟨node.ticks.trans here.ticks.symm, node.measured⟩
  · obtain ⟨graph, rfl⟩ := connect_eq_ok h
    rfl
  intro external clock report events g h log'
  obtain ⟨field, signal, adv⟩ := advances_of_tick h
  have next := course.tick h
  have there := next.inStep built
  refine ⟨adv.tick, adv.ticks.trans adv.tick.symm, ?_, ?_, adv.controller_eq hc⟩
  · rw [next.ids built, course.ids built]
  intro i n n' hn hn'
  obtain rfl := Option.some.inj ((adv.getElem?_nodes hc hn).symm.trans hn')
  have ticks := (there.nodes i _ hn').ticks.trans there.ticks.symm
  refine ⟨ticks, fun due => ⟨?_, ?_, ?_⟩, fun due => ?_⟩
  · have : since + 1 ≤ log'.length := there.since_le
    rw [statesAt, List.length_map, List.rtake, List.length_drop]
    omega
  · exact (measured_when_due valid here hc adv hn due).1
  · intro later since' f' m course' hm
    refine ((course'.inStep built).nodes i m hm).measured.2 ⟨⟨report, g, since + 1⟩, ?_, due⟩
    exact List.mem_append_left _ (List.mem_append_right _ (List.mem_singleton_self _))
  · exact unchanged_when_not_due valid here hc adv (course.nodup built) hn due

/-- A standard configuration under which every tick is due. -/
def eager : EngineConfig :=
  { EngineConfig.standard with
    analysisInterval := 1
    spectral := { SpectralConfig.standard with minSamples := 1 } }

/-- The tick after a trauma is due at once and measures a node from its one state since then. -/
theorem measurement_schedule_eager : ∃ (start f g : Federation) (e : LogEntry) (report : TickReport)
    (events : List Event) (n : Node), Built eager start ∧ Course start [e] 0 f ∧
      f.tick 0.5 Instant.epoch = .ok (report, events, g) ∧ g.nodes[0]? = some n ∧
      n.integration = Spectrum.integrationOf eager.spectral [g.stateAt 0] := by
  obtain ⟨start, _, created, source⟩ := exists_create_eq_ok (c := eager) (by decide) (by decide) 0
  have built : Built eager start := .create created
  obtain ⟨first, _, f, ht⟩ := exists_tick_eq_ok source 0.5 Instant.epoch
  obtain ⟨_, _, adv⟩ := advances_of_tick ht
  have course : Course start [⟨first, f, 1⟩] 0 f.trauma.1 := (Course.start.tick ht).trauma
  obtain ⟨report, events, g, ht'⟩ :=
    exists_tick_eq_ok (f := f.trauma.1) (adv.source.trans source) 0.5 Instant.epoch
  have first_node {h : Federation} (ids : h.nodes.map Node.id = (List.range 16).map nodeId) :
      ∃ n, h.nodes[0]? = some n := by
    have := congrArg (·[0]?) ids
    rw [List.getElem?_map] at this
    exact (Option.map_eq_some_iff.1 this).imp fun _ => And.left
  obtain ⟨n, hn⟩ := first_node (course.ids built)
  obtain ⟨n', hn'⟩ := first_node ((course.tick ht').ids built)
  obtain ⟨-, -, -, -, -, -, step⟩ := measurement_schedule built course
  obtain ⟨-, -, -, nodes, -⟩ := step _ _ _ _ _ ht'
  have due : IsDueAt eager report.tick (0 + 1) := ⟨Nat.one_dvd _, Nat.le_refl 1⟩
  exact ⟨start, _, g, _, report, events, n', built, course, ht', hn',
    ((nodes 0 n n' hn hn').2.1 due).2.1⟩

end Federation

end AdaptivePopulation
