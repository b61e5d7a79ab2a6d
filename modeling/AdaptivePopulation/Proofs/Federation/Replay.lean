import AdaptivePopulation.Proofs.Federation.Course
import AdaptivePopulation.Proofs.Metamorphosis.Dwell

/-!
# The ledger tells the whole story

Along every course the blocks that ticks append lead each node from its first strategy to its
current one, and the population from its first mode to its current one.  So whoever reads them in
order finds out what has become of everybody.
-/

namespace AdaptivePopulation

/-! ## Names of strategies and modes -/

theorem Strategy.ofName?_name (s : Strategy) : Tag.ofName? (Tag.name s) = some s := by
  cases s <;> decide

theorem PopulationMode.ofName?_name (m : PopulationMode) : Tag.ofName? (Tag.name m) = some m := by
  cases m <;> decide

/-- Tags that can be found by their names have different names. -/
theorem Tag.name_injective {τ : Type} [Tag τ] (h : ∀ t : τ, Tag.ofName? (Tag.name t) = some t) :
    Function.Injective (Tag.name : τ → String) := by
  intro s t e
  have found := h s
  rw [e, h t] at found
  exact (Option.some.inj found).symm

/-- A switch of the mode starts from the mode before and really changes it. -/
theorem PopulationController.observe_cases {α : Type} [Scalar α] (c : PopulationController α)
    (phi : α) :
    (c.observe phi).1 = none ∧ (c.observe phi).2.mode = c.mode ∨
      (c.observe phi).2.mode ≠ c.mode ∧
        (c.observe phi).1 = some (c.mode, (c.observe phi).2.mode) := by
  rcases c.observe_spec phi with ⟨stays, -⟩ | ⟨mode, -, hne, -, switches⟩
  · rw [stays]
    exact Or.inl ⟨rfl, rfl⟩
  · rw [switches]
    exact Or.inr ⟨hne, rfl⟩

/-! ## Transitions that lead somewhere -/

/-- The transitions lead from one name to another: each starts where the one before it ended. -/
def Leads : String → List Transition → String → Prop
  | first, [], last => first = last
  | first, t :: rest, last => t.source = first ∧ Leads t.target rest last

theorem leads_append {ts ts' : List Transition} {first last : String} :
    Leads first (ts ++ ts') last ↔ ∃ middle, Leads first ts middle ∧ Leads middle ts' last := by
  induction ts generalizing first with
  | nil => exact ⟨fun h => ⟨first, rfl, h⟩, fun ⟨_, e, h⟩ => e ▸ h⟩
  | cons t ts ih =>
    show t.source = first ∧ Leads t.target (ts ++ ts') last ↔ _
    rw [ih]
    exact ⟨fun ⟨e, m, h⟩ => ⟨m, ⟨e, h.1⟩, h.2⟩, fun ⟨m, ⟨e, h⟩, h'⟩ => ⟨e, m, h, h'⟩⟩

/-- The name that a subject is left with by blocks, when it had another one first. -/
def replayed (subject first : String) (blocks : List LedgerBlock) : String :=
  ((Federation.changesOf subject blocks).getLast?.map Transition.target).getD first

theorem replayed_of_leads {subject first last : String} {blocks : List LedgerBlock}
    (h : Leads first (Federation.changesOf subject blocks) last) :
    replayed subject first blocks = last := by
  unfold replayed
  generalize Federation.changesOf subject blocks = ts at h
  induction ts generalizing first with
  | nil => exact h
  | cons t ts ih =>
    rw [← ih h.2, List.getLast?_cons]
    cases ts.getLast? <;> rfl

namespace Federation

/-! ## One tick -/

variable {f g : Federation} {field : List Float} {signal : Float} {report : TickReport}

theorem Advances.leads_node (adv : f.Advances field signal report g)
    (nodup : (f.nodes.map Node.id ++ [subject]).Nodup) {n : Node} (hn : n ∈ f.nodes) :
    Leads (Tag.name n.strategy) (changesOf n.id report.transitions)
      (Tag.name (n.ticked field signal f.rules).strategy) := by
  rw [adv.changesOf_node nodup hn]
  rcases nodeTransitions_cases n field signal f.rules with ⟨h, hs⟩ | ⟨-, h⟩
  · rw [h, hs]
    rfl
  · rw [h]
    refine ⟨?_, rfl⟩
    show Tag.name (n.stepped field signal f.rules).strategy = _
    rw [Node.strategy_stepped]

/-- What a tick says of the population, with the mode after it. -/
theorem Advances.switches_cases (adv : f.Advances field signal report g) :
    f.switches g.nodes g.ticks = [] ∧ g.mode = f.mode ∨
      g.mode ≠ f.mode ∧
        f.switches g.nodes g.ticks =
          [modeTransition f.mode g.mode (averageIntegration g.nodes)] := by
  unfold switches mode
  rw [adv.controller]
  unfold consulted
  split_ifs
  · rcases f.controller.observe_cases (averageIntegration g.nodes) with ⟨h, hm⟩ | ⟨hm, h⟩
    · rw [h]
      exact Or.inl ⟨rfl, hm⟩
    · refine Or.inr ⟨hm, ?_⟩
      rw [h]
      rfl
  · exact Or.inl ⟨rfl, rfl⟩

theorem Advances.leads_mode (adv : f.Advances field signal report g)
    (nodup : (f.nodes.map Node.id ++ [subject]).Nodup) :
    Leads (Tag.name f.mode) (changesOf subject report.transitions) (Tag.name g.mode) := by
  rw [adv.changesOf_subject nodup]
  rcases adv.switches_cases with ⟨h, hm⟩ | ⟨-, h⟩
  · rw [h, hm]
    rfl
  · rw [h]
    exact ⟨rfl, rfl⟩

/-- Every block of a tick tells of a real change. -/
theorem Advances.source_ne_target (adv : f.Advances field signal report g) :
    ∀ b ∈ report.transitions, b.source ≠ b.target := by
  intro b hb
  have hc : b.change ∈ report.transitions.map LedgerBlock.change := List.mem_map_of_mem hb
  rw [adv.changes, List.mem_append, List.mem_flatMap] at hc
  show b.change.source ≠ b.change.target
  rcases hc with ⟨n, -, hc⟩ | hc
  · rcases nodeTransitions_cases n field signal f.rules with ⟨h, -⟩ | ⟨hs, h⟩
    · rw [h] at hc
      cases hc
    · rw [h, List.mem_singleton] at hc
      rw [hc]
      show Tag.name (n.stepped field signal f.rules).strategy ≠ _
      rw [Node.strategy_stepped]
      exact (Tag.name_injective Strategy.ofName?_name).ne hs.symm
  · rcases adv.switches_cases with ⟨h, -⟩ | ⟨hm, h⟩
    · rw [h] at hc
      cases hc
    · rw [h, List.mem_singleton] at hc
      rw [hc]
      exact (Tag.name_injective PopulationMode.ofName?_name).ne hm.symm

/-- A tick appends at most one block for each node, in their order, and then at most one for the
population. -/
theorem Advances.subjects_sublist (adv : f.Advances field signal report g) :
    (report.transitions.map LedgerBlock.subject).Sublist (f.nodes.map Node.id ++ [subject]) := by
  have changes : report.transitions.map LedgerBlock.subject =
      (report.transitions.map LedgerBlock.change).map Transition.subject := by
    rw [List.map_map]
    rfl
  rw [changes, adv.changes, List.map_append]
  refine List.Sublist.append ?_ ?_
  · rw [List.map_flatMap, List.map_eq_flatMap]
    generalize f.nodes = nodes
    induction nodes with
    | nil => exact List.Sublist.slnil
    | cons n nodes ih =>
      rw [List.flatMap_cons, List.flatMap_cons]
      refine List.Sublist.append ?_ ih
      rcases nodeTransitions_cases n field signal f.rules with ⟨h, -⟩ | ⟨-, h⟩
      · rw [h]
        exact List.nil_sublist _
      · rw [h]
        show [(n.stepped field signal f.rules).id].Sublist [n.id]
        rw [Node.id_stepped]
  · rcases adv.switches_cases with ⟨h, -⟩ | ⟨-, h⟩
    · rw [h]
      exact List.nil_sublist _
    · rw [h]
      exact List.Sublist.refl _

/-! ## Whole courses -/

/-- What the blocks that ticks have appended tell of a population. -/
structure Recounts (start : Federation) (appended : List LedgerBlock) (f : Federation) : Prop where
  ledger : f.ledger.blocks = start.ledger.blocks ++ appended
  linkage : f.ledger.linkage = start.ledger.linkage
  verify : start.ledger.verify = .ok () → f.ledger.verify = .ok ()
  moved : ∀ b ∈ appended, b.source ≠ b.target ∧ b.transition = b.source ++ " -> " ++ b.target
  strategies : ∀ n ∈ f.nodes,
    Leads "Explore" (changesOf n.id appended) (Tag.name n.strategy)
  mode : Leads "Exploration" (changesOf subject appended) (Tag.name f.mode)

theorem Recounts.tick {start : Federation} {appended : List LedgerBlock}
    (h : Recounts start appended f) (adv : f.Advances field signal report g)
    (nodup : (f.nodes.map Node.id ++ [subject]).Nodup) :
    Recounts start (appended ++ report.transitions) g where
  ledger := by rw [adv.ledger, h.ledger, List.append_assoc]
  linkage := adv.linkage.trans h.linkage
  verify := adv.verify ∘ h.verify
  moved := List.forall_mem_append.2
    ⟨h.moved, fun b hb => ⟨adv.source_ne_target b hb, adv.texts b hb⟩⟩
  strategies := by
    intro n' hn'
    rw [adv.nodes] at hn'
    obtain ⟨n, hn, rfl⟩ := List.mem_map.1 hn'
    rw [Node.id_ticked, changesOf_append, leads_append]
    exact ⟨_, h.strategies n hn, adv.leads_node nodup hn⟩
  mode := by
    rw [changesOf_append, leads_append]
    exact ⟨_, h.mode, adv.leads_mode nodup⟩

variable {c : EngineConfig} {start : Federation} {log : List LogEntry} {since : Nat}

theorem Course.nodup (built : Built c start) (course : Course start log since f) :
    (f.nodes.map Node.id ++ [subject]).Nodup := by
  rw [course.ids built]
  exact nodup_subjects c

theorem Course.recounts (built : Built c start) (course : Course start log since f) :
    Recounts start (log.flatMap fun e => e.report.transitions) f := by
  induction course with
  | start =>
    refine ⟨(List.append_nil _).symm, rfl, id, nofun, ?_, ?_⟩
    · intro n hn
      rw [(built.initial.untouched n hn).1]
      rfl
    · rw [mode, built.initial.controller]
      rfl
  | tick course h ih =>
    obtain ⟨_, _, adv⟩ := advances_of_tick h
    rw [List.flatMap_append, List.flatMap_singleton]
    exact ih.tick adv (course.nodup built)
  | trauma _ ih =>
    refine ⟨ih.ledger, ih.linkage, ih.verify, ih.moved, ?_, ih.mode⟩
    intro n' hn'
    obtain ⟨n, hn, rfl⟩ := List.mem_map.1 hn'
    exact ih.strategies n hn
  | connect _ h ih =>
    obtain ⟨graph, rfl⟩ := connect_eq_ok h
    exact ⟨ih.ledger, ih.linkage, ih.verify, ih.moved, ih.strategies, ih.mode⟩

theorem Course.subjects_sublist (built : Built c start) (course : Course start log since f) :
    ∀ e ∈ log, (e.report.transitions.map LedgerBlock.subject).Sublist (subjects c) := by
  refine course.forall_log fun course h => ?_
  obtain ⟨_, _, adv⟩ := advances_of_tick h
  rw [subjects, ← course.ids built]
  exact adv.subjects_sublist

/-- Whatever operations a population goes through, its ledger is that of the start followed by the
blocks of the reports, still verifies, and tells every strategy and the mode: the blocks of each
node, at most one a tick and in the order of the nodes, lead from its first strategy to its current
one, and those of the population, behind them, from its first mode to its current one.  Operations
can break down only in a source of activity. -/
theorem ledger_recounts (built : Built c start) (verified : start.ledger.verify = .ok ())
    (operations : List Operation) :
    (start.source = none → ∃ reports f, start.perform operations = .ok (reports, f)) ∧
    ∀ reports f, start.perform operations = .ok (reports, f) →
      let appended := reports.flatMap TickReport.transitions
      f.ledger.blocks = start.ledger.blocks ++ appended ∧
      f.ledger.linkage = start.ledger.linkage ∧ f.ledger.verify = .ok () ∧
      (∀ b ∈ appended, b.source ≠ b.target ∧ b.transition = b.source ++ " -> " ++ b.target) ∧
      f.nodes.map Node.id = (List.range c.nodeCount).map nodeId ∧
      (∀ n ∈ f.nodes, Leads "Explore" (changesOf n.id appended) (Tag.name n.strategy)) ∧
      Leads "Exploration" (changesOf subject appended) (Tag.name f.mode) ∧
      (subjects c).Nodup ∧
      (∀ r ∈ reports, (r.transitions.map LedgerBlock.subject).Sublist (subjects c)) ∧
      (∀ n ∈ f.nodes, Tag.ofName? (replayed n.id "Explore" appended) = some n.strategy) ∧
      Tag.ofName? (replayed subject "Exploration" appended) = some f.mode := by
  refine ⟨fun source => exists_perform_eq_ok source operations, ?_⟩
  intro reports f h appended
  obtain ⟨log, since, course, rfl⟩ := exists_course_of_perform h
  have told := course.recounts built
  have same : log.flatMap (fun e => e.report.transitions) = appended := by
    show _ = (log.map LogEntry.report).flatMap TickReport.transitions
    rw [List.flatMap_map]
  rw [same] at told
  refine ⟨told.ledger, told.linkage, told.verify verified, told.moved, course.ids built,
    told.strategies, told.mode, nodup_subjects c, ?_, ?_, ?_⟩
  · intro r hr
    obtain ⟨e, he, rfl⟩ := List.mem_map.1 hr
    exact course.subjects_sublist built e he
  · intro n hn
    rw [replayed_of_leads (told.strategies n hn), Strategy.ofName?_name]
  · rw [replayed_of_leads told.mode, PopulationMode.ofName?_name]

/-- A standard population with a ledger that is not empty, ticked before and after a trauma. -/
theorem ledger_recounts_standard :
    ∃ (start : Federation) (reports : List TickReport) (f : Federation),
    Built .standard start ∧ start.ledger.verify = .ok () ∧ start.ledger.blocks.length = 1 ∧
    start.perform [.run 20 (.constant 0.5) fun _ => Instant.epoch, .trauma,
      .connect [nodeId 0, nodeId 1] 0.5 .epoch, .tick 2.0 Instant.epoch] = .ok (reports, f) ∧
    f.ledger.blocks = start.ledger.blocks ++ reports.flatMap TickReport.transitions ∧
    f.ledger.verify = .ok () := by
  obtain ⟨first, _, created, source⟩ :=
    exists_create_eq_ok (c := .standard) (by decide) (by decide) 0
  let ledger := (Ledger.empty .chained).record .epoch ⟨subject, "Before", "After", 1.0⟩
  have built : Built .standard (first.withLedger ledger) := (Built.create created).withLedger ledger
  have verified : ledger.verify = .ok () := Ledger.verify_record Ledger.verify_empty _ _
  obtain ⟨succeeds, recounts⟩ := ledger_recounts built verified
    [.run 20 (.constant 0.5) fun _ => Instant.epoch, .trauma,
      .connect [nodeId 0, nodeId 1] 0.5 .epoch, .tick 2.0 Instant.epoch]
  obtain ⟨reports, f, h⟩ := succeeds source
  have told := recounts reports f h
  exact ⟨_, reports, f, built, verified, rfl, h, told.1, told.2.2.1⟩

end Federation

end AdaptivePopulation
