import Mathlib.Analysis.Convex.Basic
import AdaptivePopulation.Proofs.Exact
import AdaptivePopulation.Proofs.Metamorphosis.Dwell

/-!
# Staying in the band

In exact arithmetic the smoothed measure never leaves an interval that holds all samples: each
observation moves it part of the way to the new sample.  Hence samples inside the band keep it there
once it is inside, and as long as it is inside the population keeps its mode.
-/

namespace AdaptivePopulation

namespace HysteresisConfig

/-- The measure lies in the band, whose ends belong to it. -/
def InBand {α : Type} [Scalar α] (c : HysteresisConfig α) (s : α) : Prop :=
  c.band.1 ≤ s ∧ s ≤ c.band.2

/-- Whatever the setting is, a new sample has a positive weight of at most one. -/
theorem weight_mem (c : HysteresisConfig ℝ) : 0 < c.weight ∧ c.weight ≤ 1 := by
  unfold weight Scalar.clamp
  split_ifs with low high
  · norm_num
  · norm_num
  · norm_num at low high ⊢
    constructor
    · linarith
    · linarith

end HysteresisConfig

namespace PopulationController

/-! ## Feeding samples -/

section Feeding

variable {α : Type} [Scalar α] {c : PopulationController α} {phi : α} {samples : List α}

/-- The controller after it has observed samples. -/
def feed (c : PopulationController α) (samples : List α) : PopulationController α :=
  samples.foldl (fun c phi => (c.observe phi).2) c

/-- What the controller answers to samples, one by one. -/
def answers (c : PopulationController α) :
    List α → List (Option (PopulationMode × PopulationMode))
  | [] => []
  | phi :: samples => (c.observe phi).1 :: (c.observe phi).2.answers samples

theorem feed_concat : c.feed (samples ++ [phi]) = ((c.feed samples).observe phi).2 := by
  rw [feed, List.foldl_append]
  rfl

theorem smoothed_observe (c : PopulationController α) (phi : α) :
    (c.observe phi).2.smoothed = some (c.smooth phi) := by
  rcases observe_spec c phi with ⟨e, -⟩ | ⟨_, -, -, -, e⟩
  · rw [e, stay]
  · rw [e]

theorem config_observe (c : PopulationController α) (phi : α) :
    (c.observe phi).2.config = c.config := by
  rcases observe_spec c phi with ⟨e, -⟩ | ⟨_, -, -, -, e⟩
  · rw [e, stay]
  · rw [e]

end Feeding

/-! ## The smoothed measure among the samples -/

variable {c : PopulationController ℝ} {phi : ℝ} {samples : List ℝ} {range : Set ℝ}

/-- The smoothed measure, if there is one, lies in a set. -/
def SmoothedIn (c : PopulationController ℝ) (range : Set ℝ) : Prop :=
  ∀ s, c.smoothed = some s → s ∈ range

theorem smooth_mem (convex : Convex ℝ range) (h : c.SmoothedIn range) (hphi : phi ∈ range) :
    c.smooth phi ∈ range := by
  unfold smooth
  cases hs : c.smoothed with
  | none => exact hphi
  | some previous =>
    obtain ⟨pos, le_one⟩ := c.config.weight_mem
    exact convex.add_smul_sub_mem (h previous hs) hphi ⟨pos.le, le_one⟩

theorem SmoothedIn.observe (h : c.SmoothedIn range) (convex : Convex ℝ range)
    (hphi : phi ∈ range) : (c.observe phi).2.SmoothedIn range := by
  intro s hs
  rw [smoothed_observe] at hs
  exact Option.some.inj hs ▸ smooth_mem convex h hphi

theorem SmoothedIn.feed (h : c.SmoothedIn range) (convex : Convex ℝ range)
    (hs : ∀ phi ∈ samples, phi ∈ range) : (c.feed samples).SmoothedIn range := by
  induction samples generalizing c with
  | nil => exact h
  | cons phi samples ih =>
    obtain ⟨first, rest⟩ := List.forall_mem_cons.1 hs
    exact ih (h.observe convex first) rest

theorem exists_smoothed_fed (config : HysteresisConfig ℝ) (hne : samples ≠ []) :
    ∃ s, (fed config samples).smoothed = some s := by
  obtain ⟨front, last, rfl⟩ := (List.eq_nil_or_concat samples).resolve_left hne
  rw [List.concat_eq_append]
  show ∃ s, ((start config).feed (front ++ [last])).smoothed = some s
  rw [feed_concat, smoothed_observe]
  exact ⟨_, rfl⟩

/-- The smoothed measure lies between the least and the greatest sample. -/
theorem smoothed_fed_mem_Icc (config : HysteresisConfig ℝ) {lo hi s : ℝ}
    (hlo : samples.min? = some lo) (hhi : samples.max? = some hi)
    (hs : (fed config samples).smoothed = some s) : s ∈ Set.Icc lo hi := by
  have fresh : (start config).SmoothedIn (Set.Icc lo hi) := fun _ h => nomatch h
  refine fresh.feed (convex_Icc lo hi) (fun phi hphi => ?_) s hs
  exact ⟨(List.min?_eq_some_iff.1 hlo).2 phi hphi, (List.max?_eq_some_iff.1 hhi).2 phi hphi⟩

/-! ## Samples in the band -/

/-- Nothing is called for inside the band. -/
theorem observe_of_inBand (h : c.config.InBand (c.smooth phi)) :
    c.observe phi = (none, c.stay phi) := by
  have quiet : c.desired? (c.smooth phi) = none :=
    (if_neg h.1.not_gt).trans (if_neg h.2.not_gt)
  rcases observe_spec c phi with ⟨e, -⟩ | ⟨mode, called, -⟩
  · exact e
  · rw [quiet] at called
    contradiction

/-- Samples in the band switch nothing, once the smoothed measure is none or in the band. -/
theorem quiet_of_inBand (h : c.SmoothedIn {s | c.config.InBand s})
    (hs : ∀ phi ∈ samples, c.config.InBand phi) :
    (∀ answer ∈ c.answers samples, answer = none) ∧ (c.feed samples).mode = c.mode := by
  induction samples generalizing c with
  | nil => exact ⟨nofun, rfl⟩
  | cons phi samples ih =>
    obtain ⟨first, rest⟩ := List.forall_mem_cons.1 hs
    have convex : Convex ℝ {s | c.config.InBand s} := convex_Icc _ _
    have stays := observe_of_inBand (smooth_mem convex h first)
    have next := h.observe convex first
    rw [← config_observe c phi] at next rest
    obtain ⟨quiet, mode⟩ := ih next rest
    refine ⟨List.forall_mem_cons.2 ⟨by rw [stays], quiet⟩, mode.trans ?_⟩
    rw [stays, stay]

/-- In exact arithmetic and for every setting of the smoothing, the smoothed measure of a controller
that has been fed samples lies between the least and the greatest of them.  A controller in any
mode, at any count since its last switch, whose smoothed measure is none or in the band answers
further samples in the band with no switch and keeps its mode. -/
theorem band_is_stable :
    (∀ (config : HysteresisConfig ℝ) (samples : List ℝ), samples ≠ [] →
      ∃ s lo hi, (fed config samples).smoothed = some s ∧ samples.min? = some lo ∧
        samples.max? = some hi ∧ lo ≤ s ∧ s ≤ hi) ∧
    ∀ c : PopulationController ℝ, (∀ s, c.smoothed = some s → c.config.InBand s) →
      ∀ samples : List ℝ, (∀ phi ∈ samples, c.config.InBand phi) →
        (∀ answer ∈ c.answers samples, answer = none) ∧ (c.feed samples).mode = c.mode := by
  refine ⟨fun config samples hne => ?_, fun c h samples hs => quiet_of_inBand h hs⟩
  obtain ⟨s, hs⟩ := exists_smoothed_fed config hne
  obtain ⟨lo, hlo⟩ := Option.ne_none_iff_exists'.1 (mt List.min?_eq_none_iff.1 hne)
  obtain ⟨hi, hhi⟩ := Option.ne_none_iff_exists'.1 (mt List.max?_eq_none_iff.1 hne)
  obtain ⟨above, below⟩ := smoothed_fed_mem_Icc config hlo hhi hs
  exact ⟨s, lo, hi, hs, hlo, hhi, above, below⟩

/-- A population that has consolidated and come back into its band stays consolidated there. -/
theorem band_is_stable_consolidated :
    let config : HysteresisConfig ℝ := { HysteresisConfig.standard with smoothing := 1.0 }
    let c := fed config [2.0, 1.6]
    c.mode = .consolidation ∧ c.smoothed = some 1.6 ∧
      (∃ s lo hi, c.smoothed = some s ∧ [2.0, 1.6].min? = some lo ∧ [2.0, 1.6].max? = some hi ∧
        lo ≤ s ∧ s ≤ hi) ∧
      (∀ answer ∈ c.answers [1.5, 1.7], answer = none) ∧ (c.feed [1.5, 1.7]).mode = c.mode := by
  intro config c
  have other : PopulationMode.consolidation ≠ .exploration := by decide
  have up : ((start config).observe 2.0).2 = ⟨config, .consolidation, some 2.0, 0⟩ := by
    norm_num [config, start, observe, smooth, desired?, other, HysteresisConfig.standard,
      HysteresisConfig.band, HysteresisConfig.weight, Scalar.clamp, countLimit]
  have back : (observe ⟨config, .consolidation, some 2.0, 0⟩ 1.6).2 =
      ⟨config, .consolidation, some 1.6, 1⟩ := by
    norm_num [config, observe, smooth, desired?, HysteresisConfig.standard,
      HysteresisConfig.band, HysteresisConfig.weight, Scalar.clamp, countLimit]
  have hc : c = ⟨config, .consolidation, some 1.6, 1⟩ := by rw [← back, ← up]; rfl
  obtain ⟨between, stable⟩ := band_is_stable
  refine ⟨by rw [hc], by rw [hc], between config [2.0, 1.6] (by simp),
    stable c (fun s hs => ?_) [1.5, 1.7] ?_⟩
  · rw [hc] at hs ⊢
    obtain rfl := Option.some.inj hs
    norm_num [HysteresisConfig.InBand, HysteresisConfig.band, config, HysteresisConfig.standard]
  · rw [hc]
    norm_num [HysteresisConfig.InBand, HysteresisConfig.band, config, HysteresisConfig.standard]

end PopulationController

end AdaptivePopulation
