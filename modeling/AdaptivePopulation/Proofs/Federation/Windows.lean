import AdaptivePopulation.Proofs.Federation.Course
import AdaptivePopulation.Proofs.Handover

/-!
# Windows that are too long

A valid configuration has a window of at least a second, but it may be longer than durations or the
calendar admit.  Nothing else breaks down: building a population fails exactly if its window is no
duration, and ticks fail exactly if they ask a log of handovers for a window that begins before the
calendar does.
-/

namespace AdaptivePopulation

/-- The standard configuration with another window. -/
def EngineConfig.standardWithWindow (seconds : Int) : EngineConfig :=
  { standard with coherenceWindowSeconds := seconds }

namespace Federation

variable {c : EngineConfig} {start f : Federation} {log : List LogEntry} {since : Nat}

/-! ## Building -/

theorem create_eq_error (valid : c.violation? = none)
    (long : Duration.greatestSeconds < c.coherenceWindowSeconds) (fallback : UInt64) :
    create c fallback = .error (.fault .durationOutOfRange) := by
  have hv : c.validate = .ok () := EngineConfig.validate_eq_ok.2 valid
  have hw : Duration.boundedSeconds c.coherenceWindowSeconds = .error .durationOutOfRange :=
    if_neg (by omega)
  simp only [create, hv, hw, Except.mapError, ok_bind]
  rfl

/-- The graph that nodes are registered in gains them and keeps its window. -/
theorem register_eq_ok {nodes : List Node} {g g' : Hypergraph Float}
    (h : register c nodes g = .ok g') :
    g'.window = g.window ∧ ∀ id, id ∈ g'.nodes ↔ id ∈ g.nodes ∨ id ∈ nodes.map Node.id := by
  induction nodes generalizing g with
  | nil =>
    cases h
    exact ⟨rfl, fun id => by simp⟩
  | cons n nodes ih =>
    obtain ⟨g₁, ha, h⟩ := bind_eq_ok.1 h
    obtain ⟨window, known⟩ := ih h
    obtain ⟨-, rfl⟩ := Hypergraph.addNode_eq_ok.1 ha
    refine ⟨window, fun id => ?_⟩
    rw [known, Std.ExtTreeMap.mem_insert, Std.LawfulEqCmp.compare_eq_iff_eq, List.map_cons,
      List.mem_cons]
    tauto

/-- The graph of a population that has just been built has its window and its nodes. -/
theorem Built.graph (built : Built c f) :
    f.graph.window = .ofSeconds c.coherenceWindowSeconds ∧
      ∀ id, id ∈ f.graph.nodes ↔ id ∈ (List.range c.nodeCount).map nodeId := by
  induction built with
  | create h =>
    have created := created_of_create h
    obtain ⟨window, known⟩ := register_eq_ok created.graph
    refine ⟨window, fun id => ?_⟩
    rw [known, created.initial.ids]
    simp [Hypergraph.empty]
  | withSource _ _ ih | withLedger _ _ ih | observe _ _ ih => exact ih

/-! ## Ticks that ask a log -/

section

variable (built : Built c start)

include built

theorem millis_window : 1 ≤ (Duration.ofSeconds c.coherenceWindowSeconds).millis := by
  have := EngineConfig.window_pos built.initial.valid
  rw [Duration.millis_ofSeconds]
  omega

/-- A source is asked about the nodes of the population, over the window of the configuration. -/
theorem Course.graph (course : Course start log since f) :
    f.graph.window = .ofSeconds c.coherenceWindowSeconds ∧
      ∀ id, id ∈ f.graph.nodes ↔ id ∈ f.nodes.map Node.id := by
  obtain ⟨-, frame⟩ := course.keeps
  obtain ⟨window, known⟩ := built.graph
  refine ⟨frame.window.trans window, fun id => ?_⟩
  rw [frame.nodes, known, course.ids built]

variable {history : HandoverLog Float} (asked : start.source = some history.activity)
variable {clock : Clock}

include asked

theorem Course.answeredBy (course : Course start log since f)
    (begins : ∀ n ∈ f.nodes,
      clock.BeginsInCalendar (.ofSeconds c.coherenceWindowSeconds) n.id) :
    f.AnsweredBy clock := by
  intro source hs id hid
  obtain ⟨window, known⟩ := course.graph built
  obtain rfl := Option.some.inj ((course.keeps.source.trans asked).symm.trans hs)
  obtain ⟨n, hn, rfl⟩ := List.mem_map.1 ((known id).1 hid)
  rw [window]
  exact ⟨_, history.activity_eq (begins n hn) (millis_window built)⟩

/-- A window that is not longer than the calendar was old in 1970 suits every clock from then on. -/
theorem answeredAt_of_le (fits : c.coherenceWindowSeconds ≤ -Instant.firstSecond) :
    start.AnsweredAt Instant.IsReading := by
  intro clock reading
  refine Course.start.answeredBy built asked fun n _ => ?_
  have pos := EngineConfig.window_pos built.initial.valid
  exact ⟨Instant.inCalendar_back (reading _) pos fits, Instant.inCalendar_back (reading _) pos fits⟩

theorem Course.tick_eq_error (course : Course start log since f) {n : Node} (hn : n ∈ f.nodes)
    (before : ¬ clock.BeginsInCalendar (.ofSeconds c.coherenceWindowSeconds) n.id)
    (external : Float) : f.tick external clock = .error .instantOutOfRange := by
  obtain ⟨window, known⟩ := course.graph built
  have long := millis_window built
  rw [← window] at before long
  exact Federation.tick_eq_error (course.keeps.source.trans asked)
    ((known n.id).2 (List.mem_map_of_mem hn)) (history.activity_eq_error before long)
    (fun _ _ _ h => history.fault_of_activity_eq_error long h) external

end

/-! ## What breaks down -/

/-- A valid configuration builds a population exactly if its window is a duration.  Without a source
of activity the population then does whatever it is asked to.  If it asks a log of handovers, a tick
breaks down exactly when the window before one of the readings that it asks the log with begins
outside the calendar, and no window that is at most as long as the calendar was old in 1970 does so
for any reading from then to the year 9999. -/
theorem only_the_window_breaks_down (valid : c.validate = .ok ()) :
    (∀ fallback, c.coherenceWindowSeconds ≤ Duration.greatestSeconds →
      ∃ f events, create c fallback = .ok (f, events)) ∧
    (∀ fallback, Duration.greatestSeconds < c.coherenceWindowSeconds →
      create c fallback = .error (.fault .durationOutOfRange)) ∧
    ∀ start, Built c start →
      (start.source = none → ∀ operations, ∃ reports f,
        start.perform operations = .ok (reports, f)) ∧
      ∀ history : HandoverLog Float, start.source = some history.activity →
        (c.coherenceWindowSeconds ≤ -Instant.firstSecond → ∀ operations,
          (∀ o ∈ operations, Operation.ReadsWithin Instant.IsReading o) →
          ∃ reports f, start.perform operations = .ok (reports, f)) ∧
        ∀ log since f, Course start log since f → ∀ external clock,
          let window := Duration.ofSeconds c.coherenceWindowSeconds
          ((∀ n ∈ f.nodes, clock.BeginsInCalendar window n.id) →
            ∃ report events g, f.tick external clock = .ok (report, events, g)) ∧
          ((∃ n ∈ f.nodes, ¬ clock.BeginsInCalendar window n.id) →
            f.tick external clock = .error .instantOutOfRange) := by
  have valid := EngineConfig.validate_eq_ok.1 valid
  have pos := EngineConfig.window_pos valid
  refine ⟨fun fallback fits => ?_, fun fallback long => create_eq_error valid long fallback, ?_⟩
  · obtain ⟨f, events, created, -⟩ := exists_create_eq_ok valid (by omega) fallback
    exact ⟨f, events, created⟩
  intro start built
  refine ⟨exists_perform_eq_ok, fun history asked => ⟨fun fits operations within => ?_, ?_⟩⟩
  · exact (answeredAt_of_le built asked fits).exists_perform_eq_ok within
  · intro log since f course external clock window
    refine ⟨fun begins => ?_, fun ⟨n, hn, before⟩ => ?_⟩
    · exact (course.answeredBy built asked begins).exists_tick_eq_ok external
    · exact course.tick_eq_error built asked hn before external

/-- A population that asks a log does what it is asked to in 1970. -/
theorem only_the_window_breaks_down_standard : ∃ start reports f, Built .standard start ∧
    start.source = some (HandoverLog.standard : HandoverLog Float).activity ∧
    start.perform [.tick (0.0 / 0.0) Instant.epoch, .trauma,
      .connect [nodeId 0, nodeId 1] 0.5 .epoch, .run 3 (.constant 0.5) fun _ => Instant.epoch] =
        .ok (reports, f) := by
  obtain ⟨created, -, along⟩ := only_the_window_breaks_down (c := .standard) rfl
  obtain ⟨f₀, _, h⟩ := created 0 (by decide)
  have built : Built .standard (f₀.withSource HandoverLog.standard.activity) :=
    (Built.create h).withSource _
  obtain ⟨-, asked⟩ := along _ built
  obtain ⟨performs, -⟩ := asked .standard rfl
  have reading : Instant.epoch.IsReading := by decide
  obtain ⟨reports, f, hp⟩ := performs (by decide) [.tick (0.0 / 0.0) Instant.epoch, .trauma,
    .connect [nodeId 0, nodeId 1] 0.5 .epoch, .run 3 (.constant 0.5) fun _ => Instant.epoch]
    (by simp [Operation.ReadsWithin, Clock.still, reading])
  exact ⟨_, reports, f, built, rfl, hp⟩

/-- Valid configurations may have windows that are no durations, and windows that begin before the
calendar does. -/
theorem windows_break_down :
    ((EngineConfig.standardWithWindow 9223372036854776).validate = .ok () ∧
      ∀ fallback, create (.standardWithWindow 9223372036854776) fallback =
        .error (.fault .durationOutOfRange)) ∧
    (EngineConfig.standardWithWindow 9000000000000).validate = .ok () ∧
    ∃ start, Built (.standardWithWindow 9000000000000) start ∧
      start.source = some (HandoverLog.standard : HandoverLog Float).activity ∧
      ∀ external, start.tick external Instant.epoch = .error .instantOutOfRange := by
  refine ⟨⟨rfl, create_eq_error rfl (by decide)⟩, rfl, ?_⟩
  obtain ⟨f, _, created, -⟩ :=
    exists_create_eq_ok (c := .standardWithWindow 9000000000000) rfl (by decide) 0
  have built := (Built.create created).withSource
    (HandoverLog.standard : HandoverLog Float).activity
  obtain ⟨n, hn⟩ := List.exists_mem_of_ne_nil _ (Course.start.nodes_ne_nil built)
  have before : ¬ (Instant.epoch.back (.ofSeconds 9000000000000)).InCalendar := by decide
  exact ⟨_, built, rfl, Course.start.tick_eq_error built rfl hn fun begins => before begins.1⟩

end Federation

end AdaptivePopulation
