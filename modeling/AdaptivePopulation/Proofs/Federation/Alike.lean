import AdaptivePopulation.Proofs.Federation.Course

/-!
# Populations that differ in what observes them

The graph, the ledger and the clock are where a population is looked at, and three settings of a
configuration matter to nobody else.  `bare` takes this away from configurations, blocks and
reports, and populations are `Alike` if they are the same but for it.  Ticks and traumas read none
of it: from populations that are alike they lead to populations that are alike, with reports that
are the same when bare.
-/

namespace AdaptivePopulation

/-! ## What only observes -/

/-- The settings without the value that stands for a measure there is none of. -/
def SpectralConfig.bare (c : SpectralConfig Float) : SpectralConfig Float :=
  { c with defaultValue := 0.0 }

/-- The configuration without the settings that only matter to observers. -/
def EngineConfig.bare (c : EngineConfig) : EngineConfig :=
  { c with reportInterval := 0, coherenceWindowSeconds := 0, spectral := c.spectral.bare }

/-- The rules without the value that stands for a measure there is none of. -/
def NodeRules.bare (r : NodeRules) : NodeRules := { r with spectral := r.spectral.bare }

/-- The block without its place in a ledger. -/
def LedgerBlock.bare (b : LedgerBlock) : LedgerBlock :=
  { b with index := 0, time := .epoch, hash := ⟨.replicate 32 0⟩, previous := none }

/-- The report without what is read off the graph and the ledger. -/
def TickReport.bare (r : TickReport) : TickReport :=
  { r with
    averageCoherence := 0.0, globalCoherence := 0.0,
    transitions := r.transitions.map LedgerBlock.bare }

/-- The block that a transition makes, without a place. -/
def Transition.bareBlock (t : Transition) : LedgerBlock :=
  { index := 0, subject := t.subject, source := t.source, target := t.target, transition := t.text,
    integration := t.integration, time := .epoch, hash := ⟨.replicate 32 0⟩, previous := none }

theorem LedgerBlock.bare_eq {b : LedgerBlock} (text : b.transition = b.change.text) :
    b.bare = b.change.bareBlock := by
  rw [bare, text]
  rfl

/-- Blocks with the same changes differ in their places only. -/
theorem LedgerBlock.map_bare_eq {blocks blocks' : List LedgerBlock}
    (texts : ∀ b ∈ blocks, b.transition = b.change.text)
    (texts' : ∀ b ∈ blocks', b.transition = b.change.text)
    (changes : blocks.map change = blocks'.map change) : blocks.map bare = blocks'.map bare := by
  have told {l : List LedgerBlock} (texts : ∀ b ∈ l, b.transition = b.change.text) :
      l.map bare = (l.map change).map Transition.bareBlock := by
    rw [List.map_map]
    exact List.map_congr_left fun b hb => bare_eq (texts b hb)
  rw [told texts, told texts', changes]

/-! ## Nodes -/

/-- Enough snapshots, and at least one, are measured. -/
theorem Spectrum.integration_bare {config : SpectralConfig Float} {window : HistoryWindow Float}
    (enough : config.minSamples ≤ window.length) (nonempty : 0 < window.length) :
    integration config.bare window = integration config window := by
  have measured : ¬ window.snapshots.length < max config.minSamples 1 :=
    Nat.not_lt.2 (max_le enough nonempty)
  have bare : ¬ window.snapshots.length < max config.bare.minSamples 1 := measured
  unfold integration integrationOf
  rw [dif_neg measured, dif_neg bare]
  rfl

namespace Node

variable (n : Node) (field : List Float) (external : Float) (rules : NodeRules)

/-- A node that has moved remembers at least that state. -/
theorem length_history_move (dt : Float) : 0 < (n.move field external dt).history.length := by
  show 0 < (_ ++ [_]).length
  rw [List.length_append]
  exact Nat.succ_pos _

/-- A node is only measured when it is due, and then from a window that is long enough. -/
theorem stepped_bare : n.stepped field external rules.bare = n.stepped field external rules := by
  unfold stepped
  by_cases due : (n.move field external rules.dt).IsDue rules
  -- Here alone the default could come in, but a due node has the samples, and never none at all.
  · have same : (n.move field external rules.dt).measure rules.spectral.bare =
        (n.move field external rules.dt).measure rules.spectral := by
      rw [measure, measure,
        Spectrum.integration_bare due.2 (n.length_history_move field external rules.dt)]
    rw [if_pos due, ← same]
    exact if_pos due
  · rw [if_neg due]
    exact if_neg due

theorem proposal_bare :
    n.proposal field external rules.bare = n.proposal field external rules := by
  unfold proposal
  rw [stepped_bare]
  rfl

theorem ticked_bare : n.ticked field external rules.bare = n.ticked field external rules := by
  rw [ticked, stepped_bare, proposal_bare]
  rfl

end Node

/-! ## Populations -/

namespace Federation

theorem nodeTransitions_bare (n : Node) (field : List Float) (signal : Float) (rules : NodeRules) :
    nodeTransitions n field signal rules.bare = nodeTransitions n field signal rules := by
  rw [nodeTransitions, Node.proposal_bare, Node.stepped_bare]
  rfl

/-- Two populations are the same but for what only observes them: graph, ledger, source of activity,
observers and journal, and the settings that matter to these alone. -/
structure Alike (f g : Federation) : Prop where
  config : f.config.bare = g.config.bare
  nodes : f.nodes = g.nodes
  controller : f.controller = g.controller
  meanField : f.meanField = g.meanField
  stream : f.stream = g.stream
  ticks : f.ticks = g.ticks

theorem Alike.symm {f g : Federation} (h : Alike f g) : Alike g f :=
  ⟨h.config.symm, h.nodes.symm, h.controller.symm, h.meanField.symm, h.stream.symm, h.ticks.symm⟩

theorem Alike.trans {f g h : Federation} (first : Alike f g) (second : Alike g h) : Alike f h :=
  ⟨first.config.trans second.config, first.nodes.trans second.nodes,
    first.controller.trans second.controller, first.meanField.trans second.meanField,
    first.stream.trans second.stream, first.ticks.trans second.ticks⟩

section Alike

variable {f f' g g' : Federation}

theorem Alike.rules (h : Alike f f') : f.rules.bare = f'.rules.bare :=
  congrArg NodeRules.ofConfig h.config

theorem Alike.evolveField (h : Alike f f') (signal : Float) :
    f.evolveField signal = f'.evolveField signal := by
  have capacity : f.config.historyCapacity = f'.config.historyCapacity :=
    (congrArg EngineConfig.historyCapacity h.config :)
  have dt : f.rules.dt = f'.rules.dt := (congrArg NodeRules.dt h.rules :)
  unfold Federation.evolveField mode
  rw [h.nodes, h.controller, h.meanField, h.stream, capacity, dt]

theorem Alike.consulted (h : Alike f f') (nodes : List Node) (tick : Nat) :
    f.consulted nodes tick = f'.consulted nodes tick := by
  have interval : f.rules.analysisInterval = f'.rules.analysisInterval :=
    (congrArg NodeRules.analysisInterval h.rules :)
  have due : f.IsConsulted nodes tick ↔ f'.IsConsulted nodes tick := by
    unfold IsConsulted
    rw [interval]
  unfold Federation.consulted
  rw [h.controller]
  exact if_congr due rfl rfl

theorem Alike.ticked (h : Alike f f') (n : Node) (field : List Float) (signal : Float) :
    n.ticked field signal f.rules = n.ticked field signal f'.rules := by
  rw [← Node.ticked_bare, h.rules, Node.ticked_bare]

theorem Alike.nodeTransitions (h : Alike f f') (n : Node) (field : List Float) (signal : Float) :
    nodeTransitions n field signal f.rules = nodeTransitions n field signal f'.rules := by
  rw [← nodeTransitions_bare, h.rules, nodeTransitions_bare]

/-- A tick under the same signal leaves populations alike, and they report the same of it. -/
theorem Alike.advances (h : Alike f f') {field field' : List Float} {signal : Float}
    {report report' : TickReport} (adv : f.Advances field signal report g)
    (adv' : f'.Advances field' signal report' g') :
    Alike g g' ∧ report.bare = report'.bare := by
  obtain ⟨rfl, stream⟩ : field = field' ∧ g.stream = g'.stream :=
    Prod.ext_iff.1 (adv.evolved.symm.trans ((h.evolveField signal).trans adv'.evolved))
  have nodes : g.nodes = g'.nodes := by
    rw [adv.nodes, adv'.nodes, h.nodes]
    exact List.map_congr_left fun n _ => h.ticked n field signal
  have ticks : g.ticks = g'.ticks := by rw [adv.ticks, adv'.ticks, h.ticks]
  have controller : g.controller = g'.controller := by
    rw [adv.controller, adv'.controller, nodes, ticks, h.consulted]
  have alike : Alike g g' :=
    ⟨by rw [adv.config, adv'.config, h.config], nodes, controller,
      by rw [adv.meanField, adv'.meanField, nodes], stream, ticks⟩
  have changes : report.transitions.map LedgerBlock.change =
      report'.transitions.map LedgerBlock.change := by
    rw [adv.changes, adv'.changes, switches, switches, h.nodes, nodes, ticks, h.consulted]
    congr 1
    exact List.flatMap_congr fun n _ => h.nodeTransitions n field signal
  refine ⟨alike, ?_⟩
  unfold TickReport.bare
  rw [LedgerBlock.map_bare_eq adv.texts adv'.texts changes, adv.tick, adv'.tick, h.ticks,
    adv.reportAverage, adv'.reportAverage, nodes, adv.reportMode, adv'.reportMode, mode, mode,
    controller, adv.reportInput, adv'.reportInput]

/-- A tick under the same input leaves populations alike, whatever the clock says. -/
theorem Alike.tick (h : Alike f f') {external : Float} {clock clock' : Clock}
    {report report' : TickReport} {events events' : List Event}
    (ht : f.tick external clock = .ok (report, events, g))
    (ht' : f'.tick external clock' = .ok (report', events', g')) :
    Alike g g' ∧ report.bare = report'.bare := by
  obtain ⟨field, adv⟩ := advances_sanitized_of_tick ht
  obtain ⟨field', adv'⟩ := advances_sanitized_of_tick ht'
  rw [← h.ticks] at adv'
  exact h.advances adv adv'

theorem Alike.trauma (h : Alike f f') : Alike f.trauma.1 f'.trauma.1 where
  config := h.config
  nodes := congrArg (List.map Node.reinitialize) h.nodes
  controller := h.controller
  meanField := (congrArg (fun nodes => fieldOf (nodes.map Node.reinitialize)) h.nodes :)
  stream := h.stream
  ticks := h.ticks

theorem alike_connect {members : List NodeId} {weight : Float} {now : Instant}
    (h : f.connect members weight now = .ok g) : Alike g f := by
  obtain ⟨graph, rfl⟩ := connect_eq_ok h
  exact ⟨rfl, rfl, rfl, rfl, rfl, rfl⟩

end Alike

/-! ## Beginnings -/

theorem Built.spawned {c : EngineConfig} {f : Federation} {seed : UInt64} (built : Built c f)
    (seeded : c.seed = some seed) :
    (f.nodes, f.stream) = spawn c (.ofSeed seed) ∧ f.meanField = fieldOf f.nodes := by
  induction built with
  | create h =>
    have created := created_of_create h
    have spawned := created.spawned
    rw [seeded] at spawned
    exact ⟨spawned, created.meanField⟩
  | withSource _ _ ih => exact ih
  | withLedger _ _ ih => exact ih
  | observe _ _ ih => exact ih

/-- Configurations with a seed that differ in what only observes build populations alike. -/
theorem Built.alike {c c' : EngineConfig} {f f' : Federation} (built : Built c f)
    (built' : Built c' f') (seeded : c.seed ≠ none) (same : c.bare = c'.bare) : Alike f f' := by
  obtain ⟨seed, hs⟩ := Option.ne_none_iff_exists'.1 seeded
  have hs' : c'.seed = some seed := (congrArg EngineConfig.seed same :).symm.trans hs
  obtain ⟨nodes, field⟩ := built.spawned hs
  obtain ⟨nodes', field'⟩ := built'.spawned hs'
  have spawned : spawn c (.ofSeed seed) = spawn c' (.ofSeed seed) :=
    (congrArg (fun c => spawn c (.ofSeed seed)) same :)
  obtain ⟨hn, stream⟩ := Prod.mk.inj (nodes.trans (spawned.trans nodes'.symm))
  have hysteresis : c.hysteresis = c'.hysteresis := (congrArg EngineConfig.hysteresis same :)
  constructor
  case config => rw [built.initial.config, built'.initial.config, same]
  case nodes => exact hn
  case controller => rw [built.initial.controller, built'.initial.controller, hysteresis]
  case meanField => rw [field, field', hn]
  case stream => exact stream
  case ticks => rw [built.initial.ticks, built'.initial.ticks]

end Federation

end AdaptivePopulation
