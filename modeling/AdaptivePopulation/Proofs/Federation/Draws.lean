import AdaptivePopulation.Proofs.Federation.Alike
import AdaptivePopulation.Proofs.Federation.Bounded

/-!
# How many numbers are drawn

A node draws its state when it is created and whenever there is a trauma, and one number for each
element at a tick that it starts exploring.  The population draws a seed for each node, and one
number for each element at a tick that it starts in exploration.  Nothing else draws.  So where all
streams stand after a course is told by its chronicle: the traumas, and the mode and the strategies
that the ticks started with.
-/

namespace AdaptivePopulation

/-! ## Streams -/

namespace RandomStream

/-- The stream after some draws, whatever they are used for. -/
def skip (g : RandomStream) (count : ℕ) : RandomStream := (g.draws id count).2

theorem skip_eq_after (g : RandomStream) (count : ℕ) :
    g.skip count = after g.key (g.position + count) :=
  draws_snd id count g

theorem snd_draws {β : Type} (f : UInt64 → β) (count : ℕ) (g : RandomStream) :
    (draws f count g).2 = g.skip count :=
  (draws_snd f count g).trans (g.skip_eq_after count).symm

@[simp] theorem position_skip (g : RandomStream) (count : ℕ) :
    (g.skip count).position = g.position + count := by
  rw [skip_eq_after]
  rfl

theorem skip_skip (g : RandomStream) (j k : ℕ) : (g.skip j).skip k = g.skip (j + k) := by
  simp only [skip_eq_after, after, Nat.add_assoc]

/-- The draws of a stream one by one. -/
theorem getElem?_draws {β : Type} (f : UInt64 → β) {count i : ℕ} (hi : i < count)
    (g : RandomStream) : (draws f count g).1[i]? = some (f (g.skip i).next.1) := by
  induction count generalizing g i with
  | zero => exact absurd hi (Nat.not_lt_zero i)
  | succ count ih =>
    cases i with
    | zero => rfl
    | succ i =>
      have later : g.next.2.skip i = g.skip (i + 1) := by
        rw [Nat.add_comm, ← skip_skip]
        rfl
      rw [← later]
      exact ih (Nat.lt_of_succ_lt_succ hi) g.next.2

end RandomStream

/-! ## What draws -/

section

variable (state field : List Float) (external dt complexity : Float) (g : RandomStream)

theorem Strategy.snd_apply (strategy : Strategy) :
    (strategy.apply state field external dt complexity g).2 =
      g.skip (if strategy = .explore then state.length else 0) := by
  cases strategy with
  | explore => exact g.snd_draws _ _
  | stabilize | sync | decay => rfl

theorem PopulationMode.snd_apply (mode : PopulationMode) :
    (mode.apply field external dt complexity g).2 =
      g.skip (if mode = .exploration then field.length else 0) := by
  cases mode with
  | exploration => exact g.snd_draws _ _
  | consolidation | transcendence => rfl

end

namespace Node

theorem stream_ticked (n : Node) (field : List Float) (external : Float) (rules : NodeRules) :
    (n.ticked field external rules).stream =
      n.stream.skip (if n.strategy = .explore then n.state.length else 0) := by
  have moved : (n.ticked field external rules).stream =
      (n.strategy.apply n.state field external rules.dt n.complexity n.stream).2 := by
    unfold ticked stepped
    split_ifs <;> rfl
  rw [moved, Strategy.snd_apply]

theorem stream_reinitialize (n : Node) :
    n.reinitialize.stream = n.stream.skip n.state.length :=
  n.stream.snd_draws _ _

end Node

namespace Federation

/-! ## Chronicles -/

/-- What may draw numbers: a tick, which starts with a mode and strategies, or a trauma. -/
inductive Occurrence where
  | tick (mode : PopulationMode) (strategies : List Strategy)
  | trauma

/-- What has occurred between a start and a population. -/
inductive Chronicle (start : Federation) : List Occurrence → Federation → Prop where
  | start : Chronicle start [] start
  | tick {past : List Occurrence} {f g : Federation} {external : Float} {clock : Clock}
      {report : TickReport} {events : List Event} (chronicle : Chronicle start past f)
      (h : f.tick external clock = .ok (report, events, g)) :
      Chronicle start (past ++ [.tick f.mode (f.nodes.map Node.strategy)]) g
  | trauma {past : List Occurrence} {f : Federation} (chronicle : Chronicle start past f) :
      Chronicle start (past ++ [.trauma]) f.trauma.1
  | connect {past : List Occurrence} {f g : Federation} {members : List NodeId} {weight : Float}
      {now : Instant} (chronicle : Chronicle start past f)
      (h : f.connect members weight now = .ok g) : Chronicle start past g

namespace Occurrence

/-- A tick that starts in exploration. -/
def inExploration : Occurrence → Bool
  | tick mode _ => mode = .exploration
  | trauma => false

/-- A tick that the node at a position starts exploring. -/
def explores (position : ℕ) : Occurrence → Bool
  | tick _ strategies => strategies[position]? = some .explore
  | trauma => false

/-- A trauma. -/
def isTrauma : Occurrence → Bool
  | tick _ _ => false
  | trauma => true

end Occurrence

variable {c : EngineConfig} {start f g : Federation} {past : List Occurrence} {seed : UInt64}

theorem Chronicle.exists_course (chronicle : Chronicle start past f) :
    ∃ log since, Course start log since f := by
  induction chronicle with
  | start => exact ⟨[], 0, .start⟩
  | tick _ h ih =>
    obtain ⟨_, _, course⟩ := ih
    exact ⟨_, _, course.tick h⟩
  | trauma _ ih =>
    obtain ⟨_, _, course⟩ := ih
    exact ⟨_, _, course.trauma⟩
  | connect _ h ih =>
    obtain ⟨_, _, course⟩ := ih
    exact ⟨_, _, course.connect h⟩

/-! ## Where the streams stand -/

/-- The seed of the node at a position: the draw of the population's stream at that position. -/
def nodeSeed (seed : UInt64) (position : ℕ) : UInt64 :=
  ((RandomStream.ofSeed seed).skip position).next.1

/-- How many numbers the population has drawn: the seeds, and its noise. -/
def drawsOf (c : EngineConfig) (past : List Occurrence) : ℕ :=
  c.nodeCount + c.stateDim * past.countP Occurrence.inExploration

/-- How many numbers the node at a position has drawn: its states, and its noise. -/
def nodeDrawsOf (c : EngineConfig) (past : List Occurrence) (position : ℕ) : ℕ :=
  c.stateDim * (1 + past.countP Occurrence.isTrauma + past.countP (Occurrence.explores position))

section

variable (c : EngineConfig) (past : List Occurrence) (mode : PopulationMode)
  (strategies : List Strategy) (position : ℕ)

theorem drawsOf_tick : drawsOf c (past ++ [.tick mode strategies]) =
    drawsOf c past + if mode = .exploration then c.stateDim else 0 := by
  unfold drawsOf
  rw [List.countP_append, Nat.mul_add, Nat.add_assoc, List.countP_singleton]
  simp [Occurrence.inExploration]

theorem drawsOf_trauma : drawsOf c (past ++ [.trauma]) = drawsOf c past := by
  unfold drawsOf
  rw [List.countP_append]
  rfl

theorem nodeDrawsOf_tick : nodeDrawsOf c (past ++ [.tick mode strategies]) position =
    nodeDrawsOf c past position +
      if strategies[position]? = some .explore then c.stateDim else 0 := by
  have noTrauma : [Occurrence.tick mode strategies].countP Occurrence.isTrauma = 0 := rfl
  unfold nodeDrawsOf
  rw [List.countP_append, List.countP_append, noTrauma, Nat.add_zero, ← Nat.add_assoc, Nat.mul_add,
    List.countP_singleton]
  simp [Occurrence.explores]

theorem nodeDrawsOf_trauma : nodeDrawsOf c (past ++ [.trauma]) position =
    nodeDrawsOf c past position + c.stateDim := by
  have one : [Occurrence.trauma].countP Occurrence.isTrauma = 1 := rfl
  have notExploring : [Occurrence.trauma].countP (Occurrence.explores position) = 0 := rfl
  unfold nodeDrawsOf
  rw [List.countP_append, List.countP_append, one, notExploring]
  ring

end

/-- All streams have come as far as the chronicle says. -/
structure HasDrawn (c : EngineConfig) (seed : UInt64) (past : List Occurrence) (f : Federation) :
    Prop where
  stream : f.stream = (RandomStream.ofSeed seed).skip (drawsOf c past)
  nodes : ∀ (i : ℕ) (n : Node), f.nodes[i]? = some n →
    n.stream = (RandomStream.ofSeed (nodeSeed seed i)).skip (nodeDrawsOf c past i)

theorem Built.hasDrawn (built : Built c f) (seeded : c.seed = some seed) :
    HasDrawn c seed [] f := by
  obtain ⟨spawned, -⟩ := built.spawned seeded
  obtain ⟨nodes, stream⟩ := Prod.mk.inj spawned
  refine ⟨stream, fun i n hn => ?_⟩
  have seeds := RandomStream.length_draws id c.nodeCount (.ofSeed seed)
  have hi : i < c.nodeCount := by
    obtain ⟨lt, -⟩ := List.getElem?_eq_some_iff.1 hn
    simpa [nodes, spawn, seeds] using lt
  have drawn := RandomStream.getElem?_draws id hi (.ofSeed seed)
  have node : f.nodes[i]? =
      some (Node.ofSeed (nodeId i) c.stateDim c.historyCapacity (nodeSeed seed i)) := by
    rw [nodes]
    simp [List.getElem?_zipIdx, drawn, nodeSeed]
  obtain rfl := Option.some.inj (node.symm.trans hn)
  show (RandomStream.draws _ c.stateDim _).2 = _
  rw [RandomStream.snd_draws, nodeDrawsOf]
  simp

theorem HasDrawn.tick (h : HasDrawn c seed past f) {field : List Float} {signal : Float}
    {report : TickReport} (adv : f.Advances field signal report g)
    (meanField : f.meanField.length = c.stateDim)
    (states : ∀ n ∈ f.nodes, n.state.length = c.stateDim) :
    HasDrawn c seed (past ++ [.tick f.mode (f.nodes.map Node.strategy)]) g where
  stream := by
    have evolved : g.stream = (f.evolveField signal).2 := (congrArg Prod.snd adv.evolved).symm
    rw [evolved, evolveField, PopulationMode.snd_apply, meanField, h.stream,
      RandomStream.skip_skip, drawsOf_tick]
  nodes := by
    intro i n' hn'
    rw [adv.nodes, List.getElem?_map, Option.map_eq_some_iff] at hn'
    obtain ⟨n, hn, rfl⟩ := hn'
    have strategy : (f.nodes.map Node.strategy)[i]? = some n.strategy := by
      rw [List.getElem?_map, hn, Option.map_some]
    rw [Node.stream_ticked, states n (List.mem_of_getElem? hn), h.nodes i n hn,
      RandomStream.skip_skip, nodeDrawsOf_tick, strategy]
    simp only [Option.some.injEq]

theorem HasDrawn.trauma (h : HasDrawn c seed past f)
    (states : ∀ n ∈ f.nodes, n.state.length = c.stateDim) :
    HasDrawn c seed (past ++ [.trauma]) f.trauma.1 where
  stream := by
    rw [drawsOf_trauma]
    exact h.stream
  nodes := by
    intro i n' hn'
    obtain ⟨n, hn, rfl⟩ := Option.map_eq_some_iff.1 ((List.getElem?_map ..).symm.trans hn')
    rw [Node.stream_reinitialize, states n (List.mem_of_getElem? hn), h.nodes i n hn,
      RandomStream.skip_skip, nodeDrawsOf_trauma]

theorem Course.length_meanField {log : List LogEntry} {since : ℕ} (built : Built c start)
    (course : Course start log since f) : f.meanField.length = c.stateDim := by
  have bounded := course.bounded built
  rw [bounded.meanField]
  exact Series.length_meanField (mt List.map_eq_nil_iff.1 (course.nodes_ne_nil built))
    (List.forall_mem_map.2 fun n hn => (bounded.nodes n hn).state.length)

theorem Chronicle.hasDrawn (built : Built c start) (seeded : c.seed = some seed)
    (chronicle : Chronicle start past f) : HasDrawn c seed past f := by
  induction chronicle with
  | start => exact built.hasDrawn seeded
  | tick chronicle h ih =>
    obtain ⟨_, _, course⟩ := chronicle.exists_course
    obtain ⟨_, _, adv⟩ := advances_of_tick h
    exact ih.tick adv (course.length_meanField built) fun n hn =>
      ((course.bounded built).nodes n hn).state.length
  | trauma chronicle ih =>
    obtain ⟨_, _, course⟩ := chronicle.exists_course
    exact ih.trauma fun n hn => ((course.bounded built).nodes n hn).state.length
  | connect _ h ih =>
    obtain ⟨graph, rfl⟩ := connect_eq_ok h
    exact ⟨ih.stream, ih.nodes⟩

theorem Chronicle.ids (built : Built c start) (chronicle : Chronicle start past f) :
    f.nodes.map Node.id = (List.range c.nodeCount).map nodeId := by
  obtain ⟨_, _, course⟩ := chronicle.exists_course
  exact course.ids built

theorem Chronicle.length_nodes (built : Built c start) (chronicle : Chronicle start past f) :
    f.nodes.length = c.nodeCount := by
  simpa using congrArg List.length (chronicle.ids built)

/-- Populations with as many nodes, of one dimension, have the same streams once they have drawn
alike. -/
theorem HasDrawn.streams_eq {c' : EngineConfig} {f' : Federation} (h : HasDrawn c seed past f)
    (h' : HasDrawn c' seed past f') (nodes : c'.nodeCount = c.nodeCount)
    (dim : c'.stateDim = c.stateDim) (length : f'.nodes.length = f.nodes.length) :
    f'.stream = f.stream ∧ f'.nodes.map Node.stream = f.nodes.map Node.stream := by
  constructor
  · rw [h'.stream, h.stream, drawsOf, drawsOf, nodes, dim]
  · refine List.ext_getElem (by simpa using length) fun i hi hi' => ?_
    rw [List.getElem_map, List.getElem_map,
      h'.nodes i _ (List.getElem?_eq_getElem (by simpa using hi)),
      h.nodes i _ (List.getElem?_eq_getElem (by simpa using hi')), nodeDrawsOf, nodeDrawsOf, dim]

/-- Wherever a chronicle has led a seeded population, its stream has given one number for each node
and one for each element at the ticks that started in exploration, and the stream of each node one
for each element at its creation, at every trauma and at the ticks that the node started exploring;
and each stream is what these draws leave of that of its seed.  So populations of one size and seed
with the same chronicle have the same streams. -/
theorem draws_accounted (built : Built c start) (seeded : c.seed = some seed)
    (chronicle : Chronicle start past f) :
    f.stream.position =
      c.nodeCount + c.stateDim * past.countP Occurrence.inExploration ∧
    f.stream = (RandomStream.ofSeed seed).skip f.stream.position ∧
    f.nodes.map Node.id = (List.range c.nodeCount).map nodeId ∧
    (∀ (i : ℕ) (n : Node), f.nodes[i]? = some n →
      n.stream.position = c.stateDim *
        (1 + past.countP Occurrence.isTrauma + past.countP (Occurrence.explores i)) ∧
      n.stream = (RandomStream.ofSeed (nodeSeed seed i)).skip n.stream.position) ∧
    (∀ (c' : EngineConfig) (start' f' : Federation), Built c' start' → c'.seed = c.seed →
      c'.nodeCount = c.nodeCount → c'.stateDim = c.stateDim → Chronicle start' past f' →
        f'.stream = f.stream ∧ f'.nodes.map Node.stream = f.nodes.map Node.stream) ∧
    (f.source = none → ∀ external clock, ∃ report events g,
      f.tick external clock = .ok (report, events, g)) := by
  have drawn := chronicle.hasDrawn built seeded
  have stream : f.stream.position = drawsOf c past := by
    rw [drawn.stream, RandomStream.position_skip]
    exact Nat.zero_add _
  refine ⟨stream, stream.symm ▸ drawn.stream, chronicle.ids built, fun i n hn => ?_, ?_,
    exists_tick_eq_ok⟩
  · have node : n.stream.position = nodeDrawsOf c past i := by
      rw [drawn.nodes i n hn, RandomStream.position_skip]
      exact Nat.zero_add _
    exact ⟨node, node.symm ▸ drawn.nodes i n hn⟩
  · intro c' start' f' built' same nodes dim chronicle'
    have drawn' := chronicle'.hasDrawn built' (same.trans seeded)
    refine drawn.streams_eq drawn' nodes dim ?_
    rw [chronicle'.length_nodes built', chronicle.length_nodes built, nodes]

/-- A seeded standard population draws for its states twice and for its noise once, if there is a
trauma after its first tick. -/
theorem draws_accounted_seeded : ∃ (start f : Federation) (report : TickReport)
    (events : List Event),
    Built { EngineConfig.standard with seed := some 7 } start ∧
    start.tick 0.5 Instant.epoch = .ok (report, events, f) ∧
    f.trauma.1.stream.position = 16 + 64 ∧
    ∀ n ∈ f.trauma.1.nodes, n.stream.position = 64 * 3 := by
  obtain ⟨start, _, created, source⟩ := exists_create_eq_ok
    (c := { EngineConfig.standard with seed := some 7 }) (by decide) (by decide) 0
  have built : Built { EngineConfig.standard with seed := some 7 } start := .create created
  obtain ⟨report, events, f, ht⟩ := exists_tick_eq_ok source 0.5 Instant.epoch
  have size : start.nodes.length = 16 := Chronicle.start.length_nodes built
  have exploring : start.nodes.map Node.strategy = List.replicate 16 .explore := by
    refine List.eq_replicate_iff.2 ⟨by rw [List.length_map, size], ?_⟩
    exact List.forall_mem_map.2 fun n hn => (built.initial.untouched n hn).1
  have mode : start.mode = .exploration :=
    congrArg PopulationController.mode built.initial.controller
  have chronicle := (Chronicle.start.tick ht).trauma
  rw [mode, exploring] at chronicle
  obtain ⟨position, -, -, nodes, -⟩ := draws_accounted built rfl chronicle
  refine ⟨start, f, report, events, built, ht, position.trans (by decide), fun n hn => ?_⟩
  obtain ⟨i, hi⟩ := List.mem_iff_getElem?.1 hn
  have within : i < 16 := by
    obtain ⟨lt, -⟩ := List.getElem?_eq_some_iff.1 hi
    rwa [chronicle.length_nodes built] at lt
  rw [(nodes i n hi).1]
  have explored : (List.replicate 16 Strategy.explore)[i]? = some .explore :=
    List.getElem?_replicate_of_lt within
  simp [-List.reduceReplicate, List.countP_cons, Occurrence.explores, Occurrence.isTrauma,
    explored, EngineConfig.standard]

end Federation

end AdaptivePopulation
