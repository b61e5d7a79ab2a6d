import AdaptivePopulation.Proofs.Federation.Built
import AdaptivePopulation.Proofs.Federation.Tick

/-!
# Courses of a population

What happens to a population after it has been built: ticks, alone or in runs, traumas and
connections, in any order.  `perform` carries out a list of such operations; a `Course` is the same
seen as a relation, which keeps of every tick its report and the population after it, and counts the
ticks since the last trauma.
-/

namespace AdaptivePopulation

/-- A call that changes a population. -/
inductive Operation where
  | tick (external : Float) (clock : Clock)
  /-- Several ticks, whether their reports are collected or handed on one by one.  A run over a
  source of any other kind is a list of single ticks. -/
  | run (count : Nat) (source : EntropySource) (clock : Nat → Clock)
  | trauma
  | connect (members : List NodeId) (weight : Float) (now : Instant)

/-- The operation reads the clock at such moments only. -/
def Operation.ReadsWithin (moments : Instant → Prop) : Operation → Prop
  | .tick _ clock => ∀ occasion, moments (clock occasion)
  | .run _ _ clock => ∀ tick occasion, moments (clock tick occasion)
  | .trauma => True
  | .connect _ _ now => moments now

namespace Federation

/-- The reports of an operation and the population after it.  A connection that is refused changes
nothing. -/
def apply (f : Federation) : Operation → Except Fault (List TickReport × Federation)
  | .tick external clock => do
    let (report, _, g) ← f.tick external clock
    return ([report], g)
  | .run count source clock => do
    let (reports, _, g) ← f.run source clock count
    return (reports, g)
  | .trauma => .ok ([], f.trauma.1)
  | .connect members weight now => .ok ([], (f.connect members weight now).toOption.getD f)

/-- The reports of all operations and the population after them. -/
def perform (f : Federation) : List Operation → Except Fault (List TickReport × Federation)
  | [] => .ok ([], f)
  | operation :: rest => do
    let (reports, f) ← f.apply operation
    let (more, f) ← f.perform rest
    return (reports ++ more, f)

/-- A tick of a course. -/
structure LogEntry where
  report : TickReport
  /-- The population after the tick. -/
  after : Federation
  /-- The number of ticks, this one included, since the start or the last trauma. -/
  since : Nat

/-- The ticks that have led from a start to a population, with the number of those after the last
trauma. -/
inductive Course (start : Federation) : List LogEntry → Nat → Federation → Prop where
  | start : Course start [] 0 start
  | tick {log : List LogEntry} {since : Nat} {f g : Federation} {external : Float} {clock : Clock}
      {report : TickReport} {events : List Event} (course : Course start log since f)
      (h : f.tick external clock = .ok (report, events, g)) :
      Course start (log ++ [⟨report, g, since + 1⟩]) (since + 1) g
  | trauma {log : List LogEntry} {since : Nat} {f : Federation}
      (course : Course start log since f) : Course start log 0 f.trauma.1
  | connect {log : List LogEntry} {since : Nat} {f g : Federation} {members : List NodeId}
      {weight : Float} {now : Instant} (course : Course start log since f)
      (h : f.connect members weight now = .ok g) : Course start log since g

/-! ## Operations follow a course -/

variable {start f g : Federation} {log : List LogEntry} {since : Nat} {reports : List TickReport}

theorem perform_append {operations operations' : List Operation} {reports' : List TickReport}
    (h : start.perform operations = .ok (reports, f))
    (h' : f.perform operations' = .ok (reports', g)) :
    start.perform (operations ++ operations') = .ok (reports ++ reports', g) := by
  induction operations generalizing start reports with
  | nil =>
    cases h
    exact h'
  | cons operation operations ih =>
    obtain ⟨⟨first, start'⟩, ha, h⟩ := bind_eq_ok.1 h
    obtain ⟨⟨later, f'⟩, hp, h⟩ := bind_eq_ok.1 h
    cases h
    simp only [List.cons_append, perform, ha, ok_bind, ih hp, List.append_assoc]
    rfl

/-- A course goes on with ticks that make these reports. -/
def Continues (start : Federation) (log : List LogEntry) (reports : List TickReport)
    (g : Federation) : Prop :=
  ∃ more since, Course start (log ++ more) since g ∧ more.map LogEntry.report = reports

theorem Course.continues (course : Course start log since f) : Continues start log [] f :=
  ⟨[], since, (List.append_nil log).symm ▸ course, rfl⟩

theorem continues_run {source : EntropySource} {clock : Nat → Clock} {count : Nat}
    {events : List Event} (course : Course start log since f)
    (h : f.run source clock count = .ok (reports, events, g)) : Continues start log reports g := by
  induction count generalizing f log since source reports events with
  | zero =>
    cases h
    exact course.continues
  | succ count ih =>
    rw [run] at h
    obtain ⟨⟨report, _, f'⟩, ht, h⟩ := bind_eq_ok.1 h
    obtain ⟨⟨later, _, g'⟩, hr, h⟩ := bind_eq_ok.1 h
    cases h
    obtain ⟨more, since', course', hmore⟩ := ih (course.tick ht) hr
    refine ⟨⟨report, f', since + 1⟩ :: more, since', ?_, by rw [List.map_cons, hmore]⟩
    rwa [List.append_assoc] at course'

theorem continues_apply {operation : Operation} (course : Course start log since f)
    (h : f.apply operation = .ok (reports, g)) : Continues start log reports g := by
  cases operation with
  | tick external clock =>
    obtain ⟨⟨report, _, f'⟩, ht, h⟩ := bind_eq_ok.1 h
    cases h
    exact ⟨_, _, course.tick ht, rfl⟩
  | run count source clock =>
    obtain ⟨⟨later, _, f'⟩, hr, h⟩ := bind_eq_ok.1 h
    cases h
    exact continues_run course hr
  | trauma =>
    cases h
    exact course.trauma.continues
  | connect members weight now =>
    cases h
    cases hc : f.connect members weight now with
    | ok g => exact (course.connect hc).continues
    | error e => exact course.continues

theorem continues_perform {operations : List Operation} (course : Course start log since f)
    (h : f.perform operations = .ok (reports, g)) : Continues start log reports g := by
  induction operations generalizing f log since reports with
  | nil =>
    cases h
    exact course.continues
  | cons operation operations ih =>
    obtain ⟨⟨first, f'⟩, ha, h⟩ := bind_eq_ok.1 h
    obtain ⟨⟨later, g'⟩, hp, h⟩ := bind_eq_ok.1 h
    cases h
    obtain ⟨more, since', course', rfl⟩ := continues_apply course ha
    obtain ⟨more', since'', course'', rfl⟩ := ih course' hp
    refine ⟨more ++ more', since'', ?_, List.map_append⟩
    rwa [List.append_assoc] at course''

/-- Whatever operations are carried out, the population has followed a course with their reports. -/
theorem exists_course_of_perform {operations : List Operation}
    (h : start.perform operations = .ok (reports, g)) :
    ∃ log since, Course start log since g ∧ log.map LogEntry.report = reports :=
  continues_perform Course.start h

/-- What each tick establishes holds of the whole log. -/
theorem Course.forall_log {P : LogEntry → Prop} (course : Course start log since f)
    (tick : ∀ {log since f g external clock report events}, Course start log since f →
      f.tick external clock = .ok (report, events, g) → P ⟨report, g, since + 1⟩) :
    ∀ e ∈ log, P e := by
  induction course with
  | start => exact fun e he => absurd he List.not_mem_nil
  | tick course h ih =>
    refine List.forall_mem_append.2 ⟨ih, fun e he => ?_⟩
    rw [List.mem_singleton.1 he]
    exact tick course h
  | trauma _ ih => exact ih
  | connect _ _ ih => exact ih

/-! ## What never changes -/

variable {c : EngineConfig}

theorem exists_addEdge_of_connect {members : List NodeId} {weight : Float} {now : Instant}
    (h : f.connect members weight now = .ok g) :
    ∃ graph, f.graph.addEdge members weight none now = .ok graph ∧ g = { f with graph } := by
  unfold connect at h
  split at h
  case h_1 graph added => exact ⟨graph, added, (Except.ok.inj h).symm⟩
  case h_2 => cases h

theorem connect_eq_ok {members : List NodeId} {weight : Float} {now : Instant}
    (h : f.connect members weight now = .ok g) : ∃ graph, g = { f with graph } :=
  (exists_addEdge_of_connect h).imp fun _ => And.right

theorem Course.config (built : Built c start) (course : Course start log since f) :
    f.config = c := by
  induction course with
  | start => exact built.initial.config
  | tick _ h ih =>
    obtain ⟨_, _, adv⟩ := advances_of_tick h
    rw [adv.config, ih]
  | trauma _ ih => exact ih
  | connect _ h ih =>
    obtain ⟨graph, rfl⟩ := connect_eq_ok h
    exact ih

theorem Course.ids (built : Built c start) (course : Course start log since f) :
    f.nodes.map Node.id = (List.range c.nodeCount).map nodeId := by
  induction course with
  | start => exact built.initial.ids
  | tick _ h ih =>
    obtain ⟨_, _, adv⟩ := advances_of_tick h
    rw [adv.nodes, List.map_map, ← ih]
    exact List.map_congr_left fun _ _ => Node.id_ticked
  | @trauma _ _ f _ ih =>
    rw [← ih]
    show (f.nodes.map Node.reinitialize).map Node.id = _
    rw [List.map_map]
    rfl
  | connect _ h ih =>
    obtain ⟨graph, rfl⟩ := connect_eq_ok h
    exact ih

theorem Course.nodes_ne_nil (built : Built c start) (course : Course start log since f) :
    f.nodes ≠ [] := by
  have length := congrArg List.length (course.ids built)
  rw [List.length_map, List.length_map, List.length_range] at length
  rw [← List.length_pos_iff, length]
  exact Nat.pos_of_ne_zero (EngineConfig.nodeCount_ne_zero built.initial.valid)

/-- What no operation changes of what the source of activity is asked. -/
structure Keeps (f g : Federation) : Prop where
  source : g.source = f.source
  frame : f.graph.SameFrame g.graph

theorem Course.keeps (course : Course start log since f) : start.Keeps f := by
  induction course with
  | start => exact ⟨rfl, .refl _⟩
  | tick _ h ih =>
    obtain ⟨_, _, adv⟩ := advances_of_tick h
    exact ⟨adv.source.trans ih.source, ih.frame.trans (sameFrame_of_tick h)⟩
  | trauma _ ih => exact ⟨ih.source, ih.frame⟩
  | connect _ h ih =>
    obtain ⟨graph, added, rfl⟩ := exists_addEdge_of_connect h
    exact ⟨ih.source, ih.frame.trans (Hypergraph.sameFrame_addEdge added)⟩

theorem Continues.keeps (h : Continues start [] reports f) : start.Keeps f :=
  have ⟨_, _, course, _⟩ := h
  course.keeps

/-- At these moments the source of activity, if there is one, answers for every node. -/
def AnsweredAt (moments : Instant → Prop) (f : Federation) : Prop :=
  ∀ clock : Clock, (∀ occasion, moments (clock occasion)) → f.AnsweredBy clock

theorem Answered.answeredAt (h : f.Answered) (moments : Instant → Prop) : f.AnsweredAt moments :=
  fun clock _ => h.answeredBy clock

theorem AnsweredBy.of_keeps {clock : Clock} (h : f.AnsweredBy clock) (keeps : f.Keeps g) :
    g.AnsweredBy clock :=
  h.congr keeps.source keeps.frame

theorem AnsweredAt.of_keeps {moments : Instant → Prop} (h : f.AnsweredAt moments)
    (keeps : f.Keeps g) : g.AnsweredAt moments :=
  fun clock within => (h clock within).of_keeps keeps

/-! ## Operations succeed -/

section

variable {moments : Instant → Prop}

theorem AnsweredAt.exists_run_eq_ok (h : f.AnsweredAt moments) (source : EntropySource)
    {clock : Nat → Clock} (within : ∀ tick occasion, moments (clock tick occasion)) (count : Nat) :
    ∃ reports events g, f.run source clock count = .ok (reports, events, g) := by
  induction count generalizing f source with
  | zero => exact ⟨_, _, _, rfl⟩
  | succ count ih =>
    rcases hs : source.sample (f.ticks + 1) with ⟨external, source'⟩
    obtain ⟨report, events, f', ht⟩ :=
      (h _ (within (f.ticks + 1))).exists_tick_eq_ok external
    obtain ⟨reports, more, g, hr⟩ := ih (h.of_keeps (Course.start.tick ht).keeps) source'
    simp only [run, hs, ht, ok_bind, hr]
    exact ⟨_, _, _, rfl⟩

theorem AnsweredAt.exists_apply_eq_ok (h : f.AnsweredAt moments) {operation : Operation}
    (within : operation.ReadsWithin moments) :
    ∃ reports g, f.apply operation = .ok (reports, g) := by
  cases operation with
  | tick external clock =>
    obtain ⟨report, events, g, ht⟩ := (h clock within).exists_tick_eq_ok external
    simp only [apply, ht, ok_bind]
    exact ⟨_, _, rfl⟩
  | run count source clock =>
    obtain ⟨reports, events, g, hr⟩ := h.exists_run_eq_ok source within count
    simp only [apply, hr, ok_bind]
    exact ⟨_, _, rfl⟩
  | trauma | connect members weight now => exact ⟨_, _, rfl⟩

/-- As long as the source of activity answers, no operation breaks down. -/
theorem AnsweredAt.exists_perform_eq_ok (h : f.AnsweredAt moments) {operations : List Operation}
    (within : ∀ o ∈ operations, o.ReadsWithin moments) :
    ∃ reports g, f.perform operations = .ok (reports, g) := by
  induction operations generalizing f with
  | nil => exact ⟨_, _, rfl⟩
  | cons operation operations ih =>
    obtain ⟨first, within⟩ := List.forall_mem_cons.1 within
    obtain ⟨reports, f', ha⟩ := h.exists_apply_eq_ok first
    obtain ⟨more, g, hp⟩ := ih (h.of_keeps (continues_apply Course.start ha).keeps) within
    simp only [perform, ha, ok_bind, hp]
    exact ⟨_, _, rfl⟩

theorem Operation.readsWithin_true (operation : Operation) :
    operation.ReadsWithin fun _ => True := by
  cases operation <;> simp [Operation.ReadsWithin]

theorem Answered.exists_apply_eq_ok (h : f.Answered) (operation : Operation) :
    ∃ reports g, f.apply operation = .ok (reports, g) ∧ g.source = f.source := by
  obtain ⟨reports, g, ha⟩ :=
    (h.answeredAt _).exists_apply_eq_ok (Operation.readsWithin_true operation)
  exact ⟨reports, g, ha, (continues_apply Course.start ha).keeps.source⟩

/-- Without a source of activity no operation breaks down. -/
theorem exists_perform_eq_ok (h : f.source = none) (operations : List Operation) :
    ∃ reports g, f.perform operations = .ok (reports, g) :=
  ((answered_of_none h).answeredAt _).exists_perform_eq_ok fun o _ => Operation.readsWithin_true o

end

end Federation

end AdaptivePopulation
