import AdaptivePopulation.Config.Basic
import AdaptivePopulation.Proofs.Double.Arithmetic

/-!
# Valid configurations

What a configuration that breaks no rule is like, and what follows for its controllers.  The rules
refuse thresholds that are out of order and let undefined ones pass, and none of them looks at the
target of the population.  So the regions of the local controllers never overlap, and the band of
the population controller is in order as long as the target is not negative.
-/

namespace AdaptivePopulation

/-! ## Rules -/

namespace EngineConfig

variable {c : EngineConfig}

theorem validate_eq_ok {u : Unit} : c.validate = .ok u ↔ c.violation? = none := by
  unfold validate
  cases c.violation? with
  | none => exact ⟨fun _ => rfl, fun _ => rfl⟩
  | some cause => exact ⟨nofun, nofun⟩

theorem ite_eq_none_iff {rule : Prop} [Decidable rule] {cause : InvalidConfig}
    {rest : Option InvalidConfig} :
    (if rule then some cause else rest) = none ↔ ¬ rule ∧ rest = none := by
  split_ifs with h <;> simp [h]

/-- Every rule is kept. -/
structure Valid (c : EngineConfig) : Prop where
  nodes : c.nodeCount ≠ 0
  dims : c.stateDim ≠ 0
  room : 2 ≤ c.historyCapacity
  samples : c.spectral.minSamples ≤ c.historyCapacity
  step : c.dt.isFinite ∧ 0.0 < c.dt
  thresholds : ¬ c.thresholds.high < c.thresholds.low
  deadZone : ¬ c.thresholds.deadZone < 0.0
  hysteresis : 0.0 < c.hysteresis.hysteresis ∧ c.hysteresis.hysteresis < 1.0
  smoothing : 0.0 < c.hysteresis.smoothing ∧ c.hysteresis.smoothing ≤ 1.0
  window : 0 < c.coherenceWindowSeconds

theorem violation?_eq_none : c.violation? = none ↔ c.Valid := by
  simp only [violation?, ite_eq_none_iff, not_not, not_lt, not_le, and_true]
  constructor
  · rintro ⟨nodes, dims, room, samples, step, thresholds, deadZone, hysteresis, smoothing, window⟩
    exact ⟨nodes, dims, room, samples, step, thresholds, deadZone, hysteresis, smoothing, window⟩
  · intro h
    exact ⟨h.nodes, h.dims, h.room, h.samples, h.step, h.thresholds, h.deadZone, h.hysteresis,
      h.smoothing, h.window⟩

theorem nodeCount_ne_zero (h : c.violation? = none) : c.nodeCount ≠ 0 :=
  (violation?_eq_none.1 h).nodes

/-- The window of a valid configuration has room, at least for the samples that an analysis
needs. -/
theorem samples_fit (h : c.violation? = none) :
    2 ≤ c.historyCapacity ∧ c.spectral.minSamples ≤ c.historyCapacity :=
  ⟨(violation?_eq_none.1 h).room, (violation?_eq_none.1 h).samples⟩

theorem window_pos (h : c.violation? = none) : 0 < c.coherenceWindowSeconds :=
  (violation?_eq_none.1 h).window

end EngineConfig

/-! ## Thresholds -/

namespace LocalThresholds

variable {t : LocalThresholds Float} {phi psi : Float}

/-- The measure calls for decay. -/
def Overloaded (t : LocalThresholds Float) (phi : Float) : Prop := t.overload.any (· < phi) = true

theorem Overloaded.mono (h : t.Overloaded phi) (le : phi ≤ psi) : t.Overloaded psi := by
  unfold Overloaded at h ⊢
  rw [Option.any_eq_true] at h ⊢
  obtain ⟨o, ho, below⟩ := h
  exact ⟨o, ho, decide_eq_true (Double.lt_of_lt_of_le (of_decide_eq_true below) le)⟩

/-- The regions of the strategies do not overlap and lie on the axis in the order of the ranks. -/
structure Ordered (t : LocalThresholds Float) : Prop where
  apart (phi : Float) : ¬ (phi < t.low ∧ t.high < phi)
  explore (phi : Float) : t.classify phi = .explore ↔ ¬ t.Overloaded phi ∧ phi < t.low
  stabilize (phi : Float) : t.classify phi = .stabilize ↔ ¬ t.Overloaded phi ∧ t.high < phi
  mono (phi psi : Float) : phi ≤ psi → rank (t.classify phi) ≤ rank (t.classify psi)

theorem classify_eq_explore : t.classify phi = .explore ↔ ¬ t.Overloaded phi ∧ phi < t.low := by
  unfold classify Overloaded
  split_ifs <;> simp [*]

theorem classify_eq_stabilize :
    t.classify phi = .stabilize ↔ ¬ t.Overloaded phi ∧ ¬ phi < t.low ∧ t.high < phi := by
  unfold classify Overloaded
  split_ifs <;> simp [*]

theorem rank_classify_le (le : phi ≤ psi) : rank (t.classify phi) ≤ rank (t.classify psi) := by
  have overload : t.Overloaded phi → t.Overloaded psi := fun h => h.mono le
  have low : psi < t.low → phi < t.low := Double.lt_of_le_of_lt le
  have high : t.high < phi → t.high < psi := fun h => Double.lt_of_lt_of_le h le
  unfold Overloaded at overload
  unfold classify
  split_ifs <;> simp_all [rank]

theorem ordered (h : ¬ t.high < t.low) : t.Ordered where
  apart _ := fun ⟨low, high⟩ => h (Double.lt_trans high low)
  explore _ := classify_eq_explore
  stabilize _ := classify_eq_stabilize.trans
    ⟨fun ⟨calm, _, high⟩ => ⟨calm, high⟩,
      fun ⟨calm, high⟩ => ⟨calm, fun low => h (Double.lt_trans high low), high⟩⟩
  mono _ _ := rank_classify_le

end LocalThresholds

/-! ## The band -/

namespace HysteresisConfig

open Double

variable {c : HysteresisConfig Float}

/-- The ends of the band are positive multiples of the target, in order. -/
theorem factors (h : 0.0 < c.hysteresis ∧ c.hysteresis < 1.0) :
    (1.0 - c.hysteresis).isFinite ∧ (1.0 + c.hysteresis).isFinite ∧
      0 < realOf (1.0 - c.hysteresis) ∧
      realOf (1.0 - c.hysteresis) ≤ realOf (1.0 + c.hysteresis) := by
  obtain ⟨finite, pos, lt⟩ := isFinite_of_between h.1 h.2
  have one : (1.0 : Float).isFinite := by decide
  have low := sub_of_isFinite one finite
  have high := add_of_isFinite one finite
  rw [realOf_one] at low high
  have positive : 0 < rounded (1 - realOf c.hysteresis) := by
    have := rounded_sub_pos (x := c.hysteresis) (y := 1.0) (by rwa [realOf_one])
    rwa [realOf_one] at this
  have order : rounded (1 - realOf c.hysteresis) ≤ rounded (1 + realOf c.hysteresis) :=
    rounded_mono (by linarith)
  have top : rounded (1 + realOf c.hysteresis) < bound :=
    calc rounded (1 + realOf c.hysteresis) ≤ rounded (2 ^ (1 : ℤ)) :=
          rounded_mono (by rw [zpow_one]; linarith)
      _ = 2 ^ (1 : ℤ) := rounded_zpow (by decide)
      _ < bound := zpow_lt_bound (by decide)
  obtain ⟨lowFinite, lowValue⟩ := realOf_of_nearest low
    (by rw [abs_of_pos positive]; exact order.trans_lt top)
  obtain ⟨highFinite, highValue⟩ := realOf_of_nearest high
    (by rw [abs_of_pos (positive.trans_le order)]; exact top)
  rw [lowValue, highValue]
  exact ⟨lowFinite, highFinite, positive, order⟩

/-- The band of a target that is not negative is in order. -/
theorem band_ordered (h : 0.0 < c.hysteresis ∧ c.hysteresis < 1.0) (ht : 0.0 ≤ c.target) :
    c.band.1 ≤ c.band.2 := by
  obtain ⟨low, high, pos, order⟩ := factors h
  exact mul_le_mul_of_nonneg low high pos order ht

/-- The band of a target that is not positive is upside down. -/
theorem band_reversed (h : 0.0 < c.hysteresis ∧ c.hysteresis < 1.0) (ht : c.target ≤ 0.0) :
    c.band.2 ≤ c.band.1 := by
  obtain ⟨low, high, pos, order⟩ := factors h
  exact mul_le_mul_of_nonpos low high pos order ht

end HysteresisConfig

/-! ## Controllers of valid configurations -/

namespace EngineConfig

/-- In a valid configuration the thresholds are in order exactly if both are defined, and the dead
zone is not negative exactly if it is defined; the regions of the local controller are in order in
any case.  The band of the population controller is in order for a target that is not negative and
upside down for one that is not positive.  An undefined target leaves both of its ends undefined. -/
theorem controllers_of_validate {c : EngineConfig} (valid : c.validate = .ok ()) :
    (c.thresholds.low ≤ c.thresholds.high ↔
      c.thresholds.low.isNaN = false ∧ c.thresholds.high.isNaN = false) ∧
    (0.0 ≤ c.thresholds.deadZone ↔ c.thresholds.deadZone.isNaN = false) ∧
    c.thresholds.Ordered ∧
    (0.0 ≤ c.hysteresis.target → c.hysteresis.band.1 ≤ c.hysteresis.band.2) ∧
    (c.hysteresis.target ≤ 0.0 → c.hysteresis.band.2 ≤ c.hysteresis.band.1) ∧
    (c.hysteresis.target.isNaN = true →
      c.hysteresis.band.1.isNaN = true ∧ c.hysteresis.band.2.isNaN = true) ∧
    (¬ c.hysteresis.target < 0.0 →
      ∀ s, ¬ (s < c.hysteresis.band.1 ∧ c.hysteresis.band.2 < s)) := by
  have rules := violation?_eq_none.1 (validate_eq_ok.1 valid)
  refine ⟨?thresholds, ?deadZone, LocalThresholds.ordered rules.thresholds,
    HysteresisConfig.band_ordered rules.hysteresis, HysteresisConfig.band_reversed rules.hysteresis,
    fun h => ⟨Double.isNaN_mul_of_isNaN h, Double.isNaN_mul_of_isNaN h⟩, ?apart⟩
  case thresholds =>
    rw [Double.le_iff_not_lt]
    exact ⟨fun h => ⟨h.1, h.2.1⟩, fun h => ⟨h.1, h.2, rules.thresholds⟩⟩
  case deadZone =>
    rw [Double.le_iff_not_lt]
    exact ⟨fun h => h.2.1, fun h => ⟨by decide, h, rules.deadZone⟩⟩
  case apart =>
    intro notNegative s ⟨below, above⟩
    have crossed := Double.lt_trans above below
    by_cases undefined : c.hysteresis.target.isNaN = true
    · have := (Double.isNaN_of_lt below).2
      rw [show c.hysteresis.band.1.isNaN = true from Double.isNaN_mul_of_isNaN undefined] at this
      cases this
    · have nonneg := Double.le_of_not_lt (Bool.eq_false_iff.2 undefined) (by decide) notNegative
      exact Double.not_lt_of_le (HysteresisConfig.band_ordered rules.hysteresis nonneg) crossed

theorem controllers_of_validate_standard : standard.validate = .ok () ∧
    standard.thresholds.low ≤ standard.thresholds.high ∧ 0.0 ≤ standard.thresholds.deadZone ∧
    standard.thresholds.Ordered ∧ standard.hysteresis.band.1 ≤ standard.hysteresis.band.2 := by
  obtain ⟨thresholds, deadZone, regions, band, -⟩ := controllers_of_validate (c := standard) rfl
  exact ⟨rfl, thresholds.2 (by decide), deadZone.2 (by decide), regions, band (by decide)⟩

/-- Undefined thresholds are not in order, and a negative target turns the band upside down: then a
sample may lie below and above it at once. -/
theorem disordered_controllers_pass :
    let undefined : Float := 0.0 / 0.0
    let low := standard.withThresholds ⟨undefined, 2.0, none, 0.3, 0.05⟩
    let deadZone := standard.withThresholds ⟨1.2, 2.0, none, undefined, 0.05⟩
    let target := standard.withHysteresis ⟨-1.6, 0.1, 0.3, 3⟩
    (low.validate = .ok () ∧ ¬ low.thresholds.low ≤ low.thresholds.high) ∧
    (deadZone.validate = .ok () ∧ ¬ 0.0 ≤ deadZone.thresholds.deadZone) ∧
    target.validate = .ok () ∧ ¬ target.hysteresis.band.1 ≤ target.hysteresis.band.2 ∧
      -1.6 < target.hysteresis.band.1 ∧ target.hysteresis.band.2 < -1.6 := by
  refine ⟨⟨rfl, by decide⟩, ⟨rfl, by decide⟩, rfl, by decide, by decide, by decide⟩

end EngineConfig

end AdaptivePopulation
