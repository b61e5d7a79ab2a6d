import AdaptivePopulation.Node
import AdaptivePopulation.Proofs.History

/-!
# One tick of a node

A node moves, is measured if its tick is one of analysis and its window is long enough, and then may
propose another strategy, which it adopts.  With an interval other than zero none of this can fail,
and `ticked` is the node that comes out.
-/

namespace AdaptivePopulation

namespace Node

variable (n : Node) (field : List Float) (external : Float) (rules : NodeRules)

/-- The node after a step, before it adopts anything. -/
def stepped : Node :=
  if (n.move field external rules.dt).IsDue rules then
    (n.move field external rules.dt).measure rules.spectral
  else n.move field external rules.dt

/-- What the node proposes in a step. -/
def proposal : Option Strategy :=
  if (n.move field external rules.dt).IsDue rules then
    rules.thresholds.propose n.strategy (n.stepped field external rules).integration
      (n.stepped field external rules).stateEntropy
  else none

/-- The node after a tick. -/
def ticked : Node :=
  (n.stepped field external rules).adopt ((n.proposal field external rules).getD n.strategy)

variable {n field external rules}

theorem step_eq_ok (h : rules.analysisInterval ≠ 0) :
    n.step field external rules =
      .ok (n.proposal field external rules, n.stepped field external rules) := by
  unfold step proposal stepped
  dsimp only
  rw [if_neg h]
  split_ifs
  · rfl
  · rfl

@[simp] theorem id_stepped : (n.stepped field external rules).id = n.id := by
  unfold stepped
  split_ifs <;> rfl

@[simp] theorem strategy_stepped : (n.stepped field external rules).strategy = n.strategy := by
  unfold stepped
  split_ifs <;> rfl

@[simp] theorem id_ticked : (n.ticked field external rules).id = n.id := id_stepped

@[simp] theorem ticks_ticked : (n.ticked field external rules).ticks = n.ticks + 1 := by
  unfold ticked stepped
  split_ifs <;> rfl

/-- The window gains the state that the node has after the tick. -/
theorem history_ticked : (n.ticked field external rules).history =
    n.history.push (n.ticked field external rules).state := by
  unfold ticked stepped
  split_ifs <;> rfl

/-- Neither a measure nor another strategy changes whether a node is due. -/
theorem isDue_ticked : (n.ticked field external rules).IsDue rules ↔
    (n.move field external rules.dt).IsDue rules := by
  unfold ticked stepped
  split_ifs <;> rfl

theorem ticked_of_isDue (h : (n.ticked field external rules).IsDue rules) :
    (n.ticked field external rules).integration =
        Spectrum.integration rules.spectral (n.ticked field external rules).history ∧
      (n.ticked field external rules).measured = true := by
  rw [isDue_ticked] at h
  unfold ticked stepped
  rw [if_pos h]
  exact ⟨rfl, rfl⟩

theorem proposal_of_not_isDue (h : ¬ (n.ticked field external rules).IsDue rules) :
    n.proposal field external rules = none :=
  if_neg (mt isDue_ticked.2 h)

theorem ticked_of_not_isDue (h : ¬ (n.ticked field external rules).IsDue rules) :
    n.ticked field external rules = n.move field external rules.dt := by
  unfold ticked
  rw [proposal_of_not_isDue h, stepped, if_neg (mt isDue_ticked.2 h)]
  rfl

end Node

end AdaptivePopulation
