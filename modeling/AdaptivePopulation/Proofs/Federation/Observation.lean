import AdaptivePopulation.Proofs.Federation.Alike

/-!
# Observation does not steer

Whatever is done to a population and to what observes it, its ticks and traumas alone decide what
becomes of it.  An action gives some stimuli and changes what observes; a course of actions is
compared with its bare stimuli, given to a population that is alike and has no source of activity.
As the stimuli leave no choice, two courses of actions with the same stimuli agree.
-/

namespace AdaptivePopulation

/-! ## What is done to a population -/

/-- A call on a population, or a change of what observes it. -/
inductive Action where
  | operation (o : Operation)
  /-- A mutation through the shared handle to the graph, by an observer or anybody else. -/
  | mutate (edit : Hypergraph Float → Hypergraph Float)
  | withSource (source : ActivitySource Float)
  | withLedger (ledger : Ledger)
  | observe (o : Observer)

/-- What drives a population. -/
inductive Stimulus where
  | tick (external : Float)
  | trauma

/-- The stimulus is a tick. -/
def Stimulus.isTick : Stimulus → Bool
  | tick _ => true
  | trauma => false

/-- The operation that gives a stimulus and nothing else. -/
def Stimulus.operation : Stimulus → Operation
  | tick external => .tick external Instant.epoch
  | trauma => .trauma

/-- The stimuli that an operation gives to a population which has been ticked so often. -/
def Operation.stimuli (ticks : Nat) : Operation → List Stimulus
  | tick external _ => [.tick external]
  | run count source _ => (source.samples count (ticks + 1)).map .tick
  | trauma => [.trauma]
  | connect _ _ _ => []

/-- The stimuli of an action; what changes the observers gives none. -/
def Action.stimuli (ticks : Nat) : Action → List Stimulus
  | operation o => o.stimuli ticks
  | _ => []

/-- The number of ticks among stimuli. -/
def ticksIn (stimuli : List Stimulus) : Nat := stimuli.countP Stimulus.isTick

namespace Federation

/-- The reports of an action and the population after it. -/
def act (f : Federation) : Action → Except Fault (List TickReport × Federation)
  | .operation o => f.apply o
  | .mutate edit => .ok ([], { f with graph := edit f.graph })
  | .withSource source => .ok ([], f.withSource source)
  | .withLedger ledger => .ok ([], f.withLedger ledger)
  | .observe o => .ok ([], f.observe o)

/-- The reports of all actions and the population after them. -/
def follow (f : Federation) : List Action → Except Fault (List TickReport × Federation)
  | [] => .ok ([], f)
  | action :: rest => do
    let (reports, f) ← f.act action
    let (more, f) ← f.follow rest
    return (reports ++ more, f)

/-- The stimuli that actions give to a population which has been ticked so often. -/
def stimuliFrom (ticks : Nat) : List Action → List Stimulus
  | [] => []
  | action :: rest =>
    let stimuli := action.stimuli ticks
    stimuli ++ stimuliFrom (ticks + ticksIn stimuli) rest

/-! ## Actions succeed -/

theorem Answered.exists_act_eq_ok {f : Federation} (h : f.Answered) (action : Action)
    (answers : ∀ source, action = .withSource source → Answers source) :
    ∃ reports g, f.act action = .ok (reports, g) ∧ g.Answered := by
  cases action with
  | operation o =>
    obtain ⟨reports, g, ha, hg⟩ := h.exists_apply_eq_ok o
    exact ⟨reports, g, ha, h.of_source hg⟩
  | withSource source =>
    refine ⟨[], f.withSource source, rfl, fun source' hs => answers source' ?_⟩
    exact congrArg _ (Option.some.inj hs)
  | mutate edit => exact ⟨[], _, rfl, h⟩
  | withLedger ledger => exact ⟨[], _, rfl, h⟩
  | observe o => exact ⟨[], _, rfl, h⟩

/-- Actions break down only in a source of activity. -/
theorem Answered.exists_follow_eq_ok {f : Federation} (h : f.Answered) (actions : List Action)
    (answers : ∀ source, .withSource source ∈ actions → Answers source) :
    ∃ reports g, f.follow actions = .ok (reports, g) := by
  induction actions generalizing f with
  | nil => exact ⟨[], f, rfl⟩
  | cons action actions ih =>
    obtain ⟨reports, f', ha, h'⟩ := h.exists_act_eq_ok action
      fun source e => answers source (e ▸ List.mem_cons_self)
    obtain ⟨more, g, hf⟩ := ih h' fun source hs => answers source (List.mem_cons_of_mem _ hs)
    simp only [follow, ha, ok_bind, hf]
    exact ⟨_, _, rfl⟩

/-! ## The stimuli alone -/

/-- The stimuli alone lead from `d` to a population like `g`, with reports like these. -/
def Reproduces (d : Federation) (stimuli : List Stimulus) (reports : List TickReport)
    (g : Federation) : Prop :=
  ∃ reports' g', d.perform (stimuli.map Stimulus.operation) = .ok (reports', g') ∧
    g'.source = none ∧ Alike g g' ∧ reports.map TickReport.bare = reports'.map TickReport.bare

section Reproduces

variable {d f f' g : Federation} {stimuli stimuli' : List Stimulus}
  {reports reports' : List TickReport}

theorem Alike.reproduces (alike : Alike f d) (quiet : d.source = none) : Reproduces d [] [] f :=
  ⟨[], d, rfl, quiet, alike, rfl⟩

theorem Reproduces.append (first : Reproduces d stimuli reports f)
    (rest : ∀ d', Alike f d' → d'.source = none → Reproduces d' stimuli' reports' g) :
    Reproduces d (stimuli ++ stimuli') (reports ++ reports') g := by
  obtain ⟨bare, d', h, quiet, alike, same⟩ := first
  obtain ⟨bare', g', h', quiet', alike', same'⟩ := rest d' alike quiet
  refine ⟨bare ++ bare', g', ?_, quiet', alike', ?_⟩
  · rw [List.map_append]
    exact perform_append h h'
  · rw [List.map_append, List.map_append, same, same']

theorem ticks_perform (h : d.perform (stimuli.map Stimulus.operation) = .ok (reports, g)) :
    g.ticks = d.ticks + ticksIn stimuli := by
  induction stimuli generalizing d reports with
  | nil =>
    cases h
    rfl
  | cons stimulus stimuli ih =>
    obtain ⟨⟨first, d'⟩, ha, h⟩ := bind_eq_ok.1 h
    obtain ⟨⟨later, g'⟩, hp, h⟩ := bind_eq_ok.1 h
    cases h
    have step : d'.ticks = d.ticks + ticksIn [stimulus] := by
      cases stimulus with
      | tick external =>
        obtain ⟨⟨report, _, d'⟩, ht, ha⟩ := bind_eq_ok.1 ha
        cases ha
        obtain ⟨_, _, adv⟩ := advances_of_tick ht
        exact adv.ticks
      | trauma =>
        cases ha
        rfl
    rw [ih hp, step, Nat.add_assoc, ticksIn, ticksIn, ← List.countP_append]
    rfl

theorem Reproduces.ticks (h : Reproduces d stimuli reports g) :
    g.ticks = d.ticks + ticksIn stimuli := by
  obtain ⟨_, _, perform, -, alike, -⟩ := h
  exact alike.ticks.trans (ticks_perform perform)

/-- The stimuli alone leave no choice. -/
theorem Reproduces.alike (h : Reproduces d stimuli reports f)
    (h' : Reproduces d stimuli reports' f') :
    Alike f f' ∧ reports.map TickReport.bare = reports'.map TickReport.bare := by
  obtain ⟨_, _, perform, -, alike, same⟩ := h
  obtain ⟨_, _, perform', -, alike', same'⟩ := h'
  cases perform.symm.trans perform'
  exact ⟨alike.trans alike'.symm, same.trans same'.symm⟩

theorem reproduces_tick {external : Float} {clock : Clock} {report : TickReport}
    {events : List Event} (alike : Alike f d) (quiet : d.source = none)
    (h : f.tick external clock = .ok (report, events, g)) :
    Reproduces d [.tick external] [report] g := by
  obtain ⟨report', events', g', h'⟩ := exists_tick_eq_ok quiet external Instant.epoch
  obtain ⟨alike', same⟩ := alike.tick h h'
  obtain ⟨_, _, adv⟩ := advances_of_tick h'
  refine ⟨[report'], g', ?_, adv.source.trans quiet, alike', congrArg (fun r => [r]) same⟩
  simp only [List.map, Stimulus.operation, perform, apply, h', ok_bind]
  rfl

theorem reproduces_run {source : EntropySource} {clock : Nat → Clock} {count : Nat}
    {events : List Event} (alike : Alike f d) (quiet : d.source = none)
    (h : f.run source clock count = .ok (reports, events, g)) :
    Reproduces d ((source.samples count (f.ticks + 1)).map .tick) reports g := by
  induction count generalizing f d source reports events with
  | zero =>
    cases h
    exact alike.reproduces quiet
  | succ count ih =>
    obtain ⟨⟨report, _, f'⟩, ht, h⟩ := bind_eq_ok.1 h
    obtain ⟨⟨later, _, g'⟩, hr, h⟩ := bind_eq_ok.1 h
    cases h
    obtain ⟨_, _, adv⟩ := advances_of_tick ht
    -- Samples are taken by the count of ticks, so the rest of them starts one tick later.
    have rest : ∀ d', Alike f' d' → d'.source = none → Reproduces d'
        (((source.sample (f.ticks + 1)).2.samples count (f.ticks + 1 + 1)).map .tick) later g := by
      intro d' alike' quiet'
      have reproduced := ih alike' quiet' hr
      rwa [adv.ticks] at reproduced
    exact (reproduces_tick alike quiet ht).append rest

theorem reproduces_act {action : Action} (alike : Alike f d) (quiet : d.source = none)
    (h : f.act action = .ok (reports, g)) :
    Reproduces d (action.stimuli f.ticks) reports g := by
  rcases action with operation | _ | _ | _ | _
  case operation =>
    cases operation with
    | tick external clock =>
      obtain ⟨⟨report, _, f'⟩, ht, h⟩ := bind_eq_ok.1 h
      cases h
      exact reproduces_tick alike quiet ht
    | run count source clock =>
      obtain ⟨⟨later, _, f'⟩, hr, h⟩ := bind_eq_ok.1 h
      cases h
      exact reproduces_run alike quiet hr
    | trauma =>
      cases h
      exact ⟨[], d.trauma.1, rfl, quiet, alike.trauma, rfl⟩
    | connect members weight now =>
      cases h
      cases hc : f.connect members weight now with
      | ok g => exact ((alike_connect hc).trans alike).reproduces quiet
      | error e => exact alike.reproduces quiet
  -- Nothing that a population is observed by is part of what makes two alike.
  all_goals
    cases h
    exact Alike.reproduces ⟨alike.config, alike.nodes, alike.controller, alike.meanField,
      alike.stream, alike.ticks⟩ quiet

/-- Whatever is done to a population, what becomes of it is what its ticks and traumas alone make of
one that is alike. -/
theorem reproduces_follow {actions : List Action} (alike : Alike f d) (quiet : d.source = none)
    (h : f.follow actions = .ok (reports, g)) :
    Reproduces d (stimuliFrom f.ticks actions) reports g := by
  induction actions generalizing f d reports with
  | nil =>
    cases h
    exact alike.reproduces quiet
  | cons action actions ih =>
    obtain ⟨⟨first, f'⟩, ha, h⟩ := bind_eq_ok.1 h
    obtain ⟨⟨later, g'⟩, hf, h⟩ := bind_eq_ok.1 h
    cases h
    have reproduced := reproduces_act alike quiet ha
    have ticks : f'.ticks = f.ticks + ticksIn (action.stimuli f.ticks) := by
      rw [reproduced.ticks, alike.ticks]
    refine reproduced.append fun d' alike' quiet' => ?_
    rw [← ticks]
    exact ih alike' quiet' hf

/-! ## Two populations -/

/-- Populations that are alike stay alike as long as they are given the same stimuli. -/
theorem Alike.follow {actions actions' : List Action} (alike : Alike f f')
    (stimuli : stimuliFrom f.ticks actions = stimuliFrom f'.ticks actions')
    {g' : Federation} (h : f.follow actions = .ok (reports, g))
    (h' : f'.follow actions' = .ok (reports', g')) :
    Alike g g' ∧ reports.map TickReport.bare = reports'.map TickReport.bare := by
  let d : Federation := { f with source := none }
  have bare : Alike f d := ⟨rfl, rfl, rfl, rfl, rfl, rfl⟩
  have first : Reproduces d (stimuliFrom f.ticks actions) reports g :=
    reproduces_follow bare rfl h
  have second : Reproduces d (stimuliFrom f'.ticks actions') reports' g' :=
    reproduces_follow (alike.symm.trans bare) rfl h'
  rw [stimuli] at first
  exact first.alike second

end Reproduces

/-- Observation does not steer.  Two populations are built with one seed from configurations that
differ in the interval of reports, the window of coherence and the default measure at most, and then
get the same ticks and traumas.  Whatever else is done to them and whatever their clocks say, they
have the same nodes, mean field and controller, and their reports differ in coherence and in the
places of the blocks only.  As the actions are any, this is so after every one of them. -/
theorem observation_does_not_steer {c c' : EngineConfig} {start start' f f' : Federation}
    {actions actions' : List Action} {reports reports' : List TickReport}
    (built : Built c start) (built' : Built c' start') (seeded : c.seed ≠ none)
    (same : c.bare = c'.bare) (stimuli : stimuliFrom 0 actions = stimuliFrom 0 actions')
    (h : start.follow actions = .ok (reports, f))
    (h' : start'.follow actions' = .ok (reports', f')) :
    Alike f f' ∧ reports.map TickReport.bare = reports'.map TickReport.bare := by
  have alike := built.alike built' seeded same
  rw [← built.initial.ticks] at stimuli
  exact alike.follow (stimuli.trans (alike.ticks ▸ rfl)) h h'

/-- A standard configuration without reports. -/
def unwatched : EngineConfig := (EngineConfig.standard.withSeed 7).withReportInterval 0

/-- The same configuration with other settings for those who watch. -/
def watched : EngineConfig :=
  { EngineConfig.standard.withSeed 7 with
    coherenceWindowSeconds := 5
    spectral := { SpectralConfig.standard with defaultValue := 9.0 } }

/-- Ticks with a trauma among them. -/
def plainActions : List Action :=
  [.operation (.run 2 (.constant 0.5) fun _ => Instant.epoch), .operation .trauma,
    .operation (.tick 3.0 Instant.epoch)]

/-- The same ticks and trauma on another ledger, with a source of activity, edges that come and go
and a clock that runs backwards. -/
def watchedActions : List Action :=
  [.withLedger (.empty .independent), .withSource fun _ _ _ => .ok ⟨2.0, 0.5⟩,
    .operation (.connect [nodeId 0, nodeId 1] 0.5 .epoch), .operation (.tick 0.5 (.still ⟨90, 0⟩)),
    .mutate fun g => { g with edges := [] }, .operation (.tick 0.5 (.still ⟨60, 0⟩)),
    .observe .recorder, .operation .trauma, .operation (.tick 3.0 (.still ⟨30, 0⟩))]

theorem observation_does_not_steer_watched :
    ∃ (start start' f f' : Federation) (reports reports' : List TickReport),
    Built unwatched start ∧ Built watched start' ∧
    start.follow plainActions = .ok (reports, f) ∧
    start'.follow watchedActions = .ok (reports', f') ∧
    Alike f f' ∧ reports.map TickReport.bare = reports'.map TickReport.bare := by
  obtain ⟨start, _, created, source⟩ :=
    exists_create_eq_ok (c := unwatched) (by decide) (by decide) 0
  obtain ⟨start', _, created', source'⟩ :=
    exists_create_eq_ok (c := watched) (by decide) (by decide) 0
  obtain ⟨reports, f, h⟩ :=
    (answered_of_none source).exists_follow_eq_ok plainActions (by simp [plainActions])
  have answers : ∀ source, .withSource source ∈ watchedActions → Answers source := by
    intro source hs
    have : source = fun _ _ _ => .ok ⟨2.0, 0.5⟩ := by simpa [watchedActions] using hs
    rw [this]
    exact fun _ _ _ => ⟨_, rfl⟩
  obtain ⟨reports', f', h'⟩ :=
    (answered_of_none source').exists_follow_eq_ok watchedActions answers
  have built : Built unwatched start := .create created
  have built' : Built watched start' := .create created'
  have stimuli : stimuliFrom 0 plainActions = stimuliFrom 0 watchedActions := rfl
  exact ⟨start, start', f, f', reports, reports', built, built', h, h',
    observation_does_not_steer built built' (Option.some_ne_none 7) rfl stimuli h h'⟩

end Federation

end AdaptivePopulation
