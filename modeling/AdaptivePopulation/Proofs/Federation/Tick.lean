import AdaptivePopulation.Proofs.Federation.Graph
import AdaptivePopulation.Proofs.Ledger.Verification
import AdaptivePopulation.Proofs.Node

/-!
# What a tick does

A tick advances every node against one field and one signal, appends to the ledger the blocks that
its report lists, and lets the controller observe the mean measure if it is consulted.  `Advances`
says all of this at once; what holds along runs is derived from it.
-/

namespace AdaptivePopulation

/-! ## Recorded changes -/

namespace Changes

/-- Recording transitions, with the blocks that are appended for them. -/
structure Records (c : Changes) (transitions : List Transition) (new : List LedgerBlock)
    (c' : Changes) : Prop where
  blocks : c'.blocks = c.blocks ++ new
  ledger : c'.ledger.blocks = c.ledger.blocks ++ new
  linkage : c'.ledger.linkage = c.ledger.linkage
  verify : c.ledger.verify = .ok () → c'.ledger.verify = .ok ()
  changes : new.map LedgerBlock.change = transitions
  texts : ∀ b ∈ new, b.transition = b.change.text

theorem records_nil (c : Changes) : c.Records [] [] c :=
  ⟨(List.append_nil _).symm, (List.append_nil _).symm, rfl, id, rfl, nofun⟩

theorem records_note (c : Changes) (e : Event) : c.Records [] [] (c.note e) :=
  ⟨(List.append_nil _).symm, (List.append_nil _).symm, rfl, id, rfl, nofun⟩

theorem records_record (c : Changes) (clock : Clock) (t : Transition) (e : Event) :
    c.Records [t] [c.ledger.nextBlock (clock (.block c.ledger.blocks.length)) t]
      (c.record clock t e) where
  blocks := rfl
  ledger := rfl
  linkage := rfl
  verify := fun h => Ledger.verify_record h _ t
  changes := rfl
  texts := fun _ hb => List.mem_singleton.1 hb ▸ rfl

theorem Records.trans {c c' c'' : Changes} {ts ts' : List Transition} {new new' : List LedgerBlock}
    (h : c.Records ts new c') (h' : c'.Records ts' new' c'') :
    c.Records (ts ++ ts') (new ++ new') c'' where
  blocks := by rw [h'.blocks, h.blocks, List.append_assoc]
  ledger := by rw [h'.ledger, h.ledger, List.append_assoc]
  linkage := h'.linkage.trans h.linkage
  verify := h'.verify ∘ h.verify
  changes := by rw [List.map_append, h.changes, h'.changes]
  texts := List.forall_mem_append.2 ⟨h.texts, h'.texts⟩

end Changes

namespace Federation

/-- The transitions of a node that is given a proposal: one, unless nothing changes. -/
def transitionsOf (proposal : Option Strategy) (n : Node) : List Transition :=
  match proposal with
  | none => []
  | some next => if next = n.strategy then [] else [strategyTransition n next]

theorem adoptProposal_spec (clock : Clock) (c : Changes) (proposal : Option Strategy) (n : Node) :
    (adoptProposal clock c proposal n).1 = n.adopt (proposal.getD n.strategy) ∧
      ∃ new, c.Records (transitionsOf proposal n) new (adoptProposal clock c proposal n).2 := by
  cases proposal with
  | none => exact ⟨rfl, [], c.records_nil⟩
  | some next =>
    have noted := c.records_note .changeProposed
    unfold adoptProposal transitionsOf
    dsimp only
    by_cases h : next = n.strategy
    · rw [if_pos h, if_pos h, Option.getD_some, h]
      exact ⟨rfl, [], noted⟩
    · rw [if_neg h, if_neg h]
      exact ⟨rfl, _, noted.trans (Changes.records_record _ clock _ _)⟩

theorem adoptProposals_spec (clock : Clock) (l : List (Option Strategy × Node)) (c : Changes) :
    (adoptProposals clock c l).1 = l.map (fun (p, n) => n.adopt (p.getD n.strategy)) ∧
      ∃ new, c.Records (l.flatMap fun (p, n) => transitionsOf p n) new
        (adoptProposals clock c l).2 := by
  induction l generalizing c with
  | nil => exact ⟨rfl, [], c.records_nil⟩
  | cons head l ih =>
    obtain ⟨p, n⟩ := head
    obtain ⟨hn, new, hc⟩ := adoptProposal_spec clock c p n
    obtain ⟨hns, news, hcs⟩ := ih (adoptProposal clock c p n).2
    exact ⟨congrArg₂ List.cons hn hns, new ++ news, hc.trans hcs⟩

/-- The transitions of a node in a tick. -/
def nodeTransitions (n : Node) (field : List Float) (signal : Float) (rules : NodeRules) :
    List Transition :=
  transitionsOf (n.proposal field signal rules) (n.stepped field signal rules)

/-- What the controller says to the measures of a tick, and the controller after it. -/
def consulted (f : Federation) (nodes : List Node) (tick : Nat) :
    Option (PopulationMode × PopulationMode) × PopulationController Float :=
  if f.IsConsulted nodes tick then f.controller.observe (averageIntegration nodes)
  else (none, f.controller)

/-- The transitions of the population in a tick. -/
def switches (f : Federation) (nodes : List Node) (tick : Nat) : List Transition :=
  (f.consulted nodes tick).1.toList.map fun m =>
    modeTransition m.1 m.2 (averageIntegration nodes)

theorem consult_spec (f : Federation) (nodes : List Node) (tick : Nat) (clock : Clock)
    (c : Changes) :
    (f.consult nodes tick clock c).1 = (f.consulted nodes tick).2 ∧
      ∃ new, c.Records (f.switches nodes tick) new (f.consult nodes tick clock c).2 := by
  unfold consult switches consulted
  split_ifs with h
  · dsimp only
    split
    case h_1 controller ho =>
      rw [ho]
      exact ⟨rfl, [], c.records_nil⟩
    case h_2 source target controller ho =>
      rw [ho]
      exact ⟨rfl, _, c.records_record clock _ _⟩
  · exact ⟨rfl, [], c.records_nil⟩

/-! ## The tick -/

/-- What a tick does, apart from what it tells and what it does to the graph. -/
structure Advances (f : Federation) (field : List Float) (signal : Float) (report : TickReport)
    (g : Federation) : Prop where
  config : g.config = f.config
  source : g.source = f.source
  ticks : g.ticks = f.ticks + 1
  tick : report.tick = f.ticks + 1
  evolved : f.evolveField signal = (field, g.stream)
  nodes : g.nodes = f.nodes.map fun n => n.ticked field signal f.rules
  meanField : g.meanField = fieldOf g.nodes
  controller : g.controller = (f.consulted g.nodes g.ticks).2
  reportAverage : report.averageIntegration = averageIntegration g.nodes
  reportMode : report.mode = g.mode
  reportInput : report.externalInput = signal
  ledger : g.ledger.blocks = f.ledger.blocks ++ report.transitions
  linkage : g.ledger.linkage = f.ledger.linkage
  verify : f.ledger.verify = .ok () → g.ledger.verify = .ok ()
  /-- Nodes come first, in their order; a switch of the mode comes last. -/
  changes : report.transitions.map LedgerBlock.change =
    f.nodes.flatMap (fun n => nodeTransitions n field signal f.rules) ++ f.switches g.nodes g.ticks
  texts : ∀ b ∈ report.transitions, b.transition = b.change.text

theorem analysisInterval_ne_zero (f : Federation) : f.rules.analysisInterval ≠ 0 := by
  show max _ 1 ≠ 0
  omega

/-- What the nodes of a tick propose, and the nodes before they adopt anything. -/
def proposals (f : Federation) (field : List Float) (signal : Float) :
    List (Option Strategy × Node) :=
  f.nodes.map fun n => (n.proposal field signal f.rules, n.stepped field signal f.rules)

theorem mapM_step (f : Federation) (field : List Float) (signal : Float) :
    f.nodes.mapM (fun n => n.step field signal f.rules) = .ok (f.proposals field signal) :=
  mapM_ok fun _ _ => Node.step_eq_ok f.analysisInterval_ne_zero

theorem map_adopt_proposals (f : Federation) (field : List Float) (signal : Float) :
    (f.proposals field signal).map (fun (p, n) => n.adopt (p.getD n.strategy)) =
      f.nodes.map fun n => n.ticked field signal f.rules := by
  rw [proposals, List.map_map]
  refine List.map_congr_left fun n _ => ?_
  show (n.stepped field signal f.rules).adopt (Option.getD _ (n.stepped _ _ _).strategy) = _
  rw [Node.strategy_stepped]
  rfl

/-- A tick advances the population under the signal as it is after sanitizing. -/
theorem advances_sanitized_of_tick {f g : Federation} {external : Float} {clock : Clock}
    {report : TickReport} {events : List Event}
    (h : f.tick external clock = .ok (report, events, g)) :
    ∃ field, f.Advances field (sanitize external (f.ticks + 1)).1 report g := by
  rcases hs : sanitize external (f.ticks + 1) with ⟨signal, warnings⟩
  rcases he : f.evolveField signal with ⟨field, stream⟩
  rcases ha : adoptProposals clock (.none f.ledger) (f.proposals field signal) with ⟨nodes, changes⟩
  rcases hc : f.consult nodes (f.ticks + 1) clock changes with ⟨controller, changes'⟩
  simp only [tick, hs, he, mapM_step, ok_bind, ha, hc] at h
  obtain ⟨graph, -, h⟩ := bind_eq_ok.1 h
  simp only [pure_eq_ok, Prod.mk.injEq] at h
  obtain ⟨rfl, -, rfl⟩ := h
  obtain ⟨hnodes, new, hnew⟩ :=
    adoptProposals_spec clock (f.proposals field signal) (.none f.ledger)
  obtain ⟨hcontroller, switch, hswitch⟩ := f.consult_spec nodes (f.ticks + 1) clock changes
  rw [ha] at hnodes hnew
  rw [hc] at hcontroller hswitch
  have all := hnew.trans hswitch
  have blocks : changes'.blocks = new ++ switch := all.blocks
  refine ⟨field, ?_⟩
  constructor
  case config | source | ticks | tick | meanField => rfl
  case reportAverage | reportMode | reportInput => rfl
  case evolved => exact he
  case nodes =>
    rw [← map_adopt_proposals]
    exact hnodes
  case controller => exact hcontroller
  case ledger =>
    rw [blocks]
    exact all.ledger
  case linkage => exact all.linkage
  case verify => exact all.verify
  case changes =>
    rw [blocks, all.changes, proposals, List.flatMap_map]
    rfl
  case texts =>
    rw [blocks]
    exact all.texts

theorem advances_of_tick {f g : Federation} {external : Float} {clock : Clock}
    {report : TickReport} {events : List Event}
    (h : f.tick external clock = .ok (report, events, g)) :
    ∃ field signal, f.Advances field signal report g :=
  have ⟨field, adv⟩ := advances_sanitized_of_tick h
  ⟨field, _, adv⟩

/-! ## Ticks succeed -/

/-- The source answers whatever it is asked. -/
def Answers (source : ActivitySource Float) : Prop :=
  ∀ clock window id, ∃ activity, source clock window id = .ok activity

/-- The source of activity, if there is one, answers. -/
def Answered (f : Federation) : Prop := ∀ source, f.source = some source → Answers source

theorem answered_of_none {f : Federation} (h : f.source = none) : f.Answered :=
  fun _ hs => nomatch h.symm.trans hs

theorem Answered.of_source {f g : Federation} (h : f.Answered) (same : g.source = f.source) :
    g.Answered :=
  fun source hs => h source (same.symm.trans hs)

theorem Answered.answeredBy {f : Federation} (h : f.Answered) (clock : Clock) :
    f.AnsweredBy clock :=
  fun source hs id _ => h source hs clock f.graph.window id

/-- A tick is the refreshing of the graph with what is computed before and after it. -/
theorem exists_tick_eq (f : Federation) (external : Float) (clock : Clock) :
    ∃ (nodes : List Node) (result : Hypergraph Float → TickReport × List Event × Federation),
      f.tick external clock = (f.refreshGraph nodes clock >>= fun graph => .ok (result graph)) ∧
        ∀ graph, (result graph).2.2.graph = graph := by
  rcases hs : sanitize external (f.ticks + 1) with ⟨signal, warnings⟩
  rcases he : f.evolveField signal with ⟨field, stream⟩
  simp only [tick, hs, he, mapM_step, ok_bind]
  exact ⟨_, _, rfl, fun _ => rfl⟩

section

variable {f g : Federation} {external : Float} {clock : Clock}

theorem sameFrame_of_tick {report : TickReport} {events : List Event}
    (h : f.tick external clock = .ok (report, events, g)) : f.graph.SameFrame g.graph := by
  obtain ⟨nodes, result, eq, keeps⟩ := f.exists_tick_eq external clock
  obtain ⟨graph, hg, hr⟩ := bind_eq_ok.1 (eq.symm.trans h)
  have same : g.graph = graph := by rw [← keeps graph, Except.ok.inj hr]
  rw [same]
  exact sameFrame_refreshGraph hg

/-- A tick breaks down only in a source of activity. -/
theorem AnsweredBy.exists_tick_eq_ok (h : f.AnsweredBy clock) (external : Float) :
    ∃ report events g, f.tick external clock = .ok (report, events, g) := by
  obtain ⟨nodes, result, eq, -⟩ := f.exists_tick_eq external clock
  obtain ⟨graph, hg⟩ := h.exists_refreshGraph_eq_ok nodes
  have ht : f.tick external clock = .ok (result graph) := by rw [eq, hg, ok_bind]
  exact ⟨_, _, _, ht⟩

/-- A source that breaks down for some node, and for each in one way only, breaks down the tick. -/
theorem tick_eq_error {source : ActivitySource Float} {fault : Fault} {id : NodeId}
    (hs : f.source = some source) (hid : id ∈ f.graph.nodes)
    (h : source clock f.graph.window id = .error fault)
    (only : ∀ id ∈ f.graph.nodes, ∀ fault',
      source clock f.graph.window id = .error fault' → fault' = fault)
    (external : Float) : f.tick external clock = .error fault := by
  obtain ⟨nodes, result, eq, -⟩ := f.exists_tick_eq external clock
  rw [eq, refreshGraph_eq_error hs hid h only nodes]
  rfl

theorem exists_tick_eq_ok (h : f.source = none) (external : Float) (clock : Clock) :
    ∃ report events g, f.tick external clock = .ok (report, events, g) :=
  ((answered_of_none h).answeredBy clock).exists_tick_eq_ok external

end

/-! ## The blocks of a tick -/

/-- What blocks tell of a subject. -/
def changesOf (subject : String) (blocks : List LedgerBlock) : List Transition :=
  (blocks.map LedgerBlock.change).filter (·.subject = subject)

theorem changesOf_append (subject : String) (blocks blocks' : List LedgerBlock) :
    changesOf subject (blocks ++ blocks') =
      changesOf subject blocks ++ changesOf subject blocks' := by
  rw [changesOf, List.map_append, List.filter_append]
  rfl

theorem nodeTransitions_cases (n : Node) (field : List Float) (signal : Float) (rules : NodeRules) :
    nodeTransitions n field signal rules = [] ∧
        (n.ticked field signal rules).strategy = n.strategy ∨
      (n.ticked field signal rules).strategy ≠ n.strategy ∧
        nodeTransitions n field signal rules =
          [strategyTransition (n.stepped field signal rules)
            (n.ticked field signal rules).strategy] := by
  have strategy : (n.ticked field signal rules).strategy =
      (n.proposal field signal rules).getD n.strategy := rfl
  rw [strategy]
  unfold nodeTransitions transitionsOf
  rw [Node.strategy_stepped]
  cases n.proposal field signal rules with
  | none => exact Or.inl ⟨rfl, rfl⟩
  | some next =>
    dsimp only
    split_ifs with h
    · exact Or.inl ⟨rfl, h⟩
    · exact Or.inr ⟨h, rfl⟩

theorem filter_nodeTransitions (n : Node) (field : List Float) (signal : Float) (rules : NodeRules)
    (s : String) : (nodeTransitions n field signal rules).filter (·.subject = s) =
      if n.id = s then nodeTransitions n field signal rules else [] := by
  rcases nodeTransitions_cases n field signal rules with ⟨h, -⟩ | ⟨-, h⟩
  · simp [h]
  · simp [h, List.filter_singleton, strategyTransition]

theorem filter_switches (f : Federation) (nodes : List Node) (tick : Nat) (s : String) :
    (f.switches nodes tick).filter (·.subject = s) =
      if subject = s then f.switches nodes tick else [] := by
  unfold switches
  cases (f.consulted nodes tick).1 with
  | none => simp
  | some m => simp [List.filter_singleton, modeTransition]

/-- Of lists with different keys, only that with a given key is left. -/
theorem flatMap_ite_key {β γ : Type} {key : β → String} (f : β → List γ) {l : List β}
    (nodup : (l.map key).Nodup) {a : β} (ha : a ∈ l) :
    (l.flatMap fun b => if key b = key a then f b else []) = f a := by
  induction l with
  | nil => cases ha
  | cons b l ih =>
    obtain ⟨hb, nodup⟩ := List.nodup_cons.1 nodup
    rw [List.flatMap_cons]
    rcases List.mem_cons.1 ha with rfl | ha
    · have rest : (l.flatMap fun b => if key b = key a then f b else []) = [] := by
        rw [List.flatMap_eq_nil_iff]
        refine fun c hc => if_neg fun e => hb ?_
        rw [← e]
        exact List.mem_map_of_mem hc
      rw [rest, if_pos rfl, List.append_nil]
    · have other : key b ≠ key a := fun e => hb (e ▸ List.mem_map_of_mem ha)
      rw [if_neg other, List.nil_append, ih nodup ha]

variable {f g : Federation} {field : List Float} {signal : Float} {report : TickReport}

theorem Advances.changesOf_eq (adv : f.Advances field signal report g) (s : String) :
    changesOf s report.transitions =
      (f.nodes.flatMap fun n =>
        if n.id = s then nodeTransitions n field signal f.rules else []) ++
      if subject = s then f.switches g.nodes g.ticks else [] := by
  rw [changesOf, adv.changes, List.filter_append, List.filter_flatMap, filter_switches]
  simp only [filter_nodeTransitions]

/-- The blocks of a tick tell of a node what it has adopted. -/
theorem Advances.changesOf_node (adv : f.Advances field signal report g)
    (nodup : (f.nodes.map Node.id ++ [subject]).Nodup) {n : Node} (hn : n ∈ f.nodes) :
    changesOf n.id report.transitions = nodeTransitions n field signal f.rules := by
  have ids := (List.nodup_append.1 nodup).1
  have other : subject ≠ n.id := fun e =>
    (List.nodup_append.1 nodup).2.2 n.id (List.mem_map_of_mem hn) subject
      (List.mem_singleton_self subject) e.symm
  rw [adv.changesOf_eq, flatMap_ite_key _ ids hn, if_neg other, List.append_nil]

/-- The blocks of a tick tell of the population what the controller has said. -/
theorem Advances.changesOf_subject (adv : f.Advances field signal report g)
    (nodup : (f.nodes.map Node.id ++ [subject]).Nodup) :
    changesOf subject report.transitions = f.switches g.nodes g.ticks := by
  have nodesSilent : (f.nodes.flatMap fun n =>
      if n.id = subject then nodeTransitions n field signal f.rules else []) = [] := by
    rw [List.flatMap_eq_nil_iff]
    exact fun n hn => if_neg <| (List.nodup_append.1 nodup).2.2 n.id (List.mem_map_of_mem hn)
      subject (List.mem_singleton_self subject)
  rw [adv.changesOf_eq, nodesSilent, if_pos rfl, List.nil_append]

end Federation

end AdaptivePopulation
