import AdaptivePopulation.Proofs.Series.Entropy
import AdaptivePopulation.Spectrum.Integration

/-!
# The ceiling of the integration measure

The eigenvalues above the floor are positive, so that they are the shares of a distribution.  Their
entropy is at most the logarithm of their number, and of the number of snapshots, whatever the
rotations have made of the covariance.
-/

namespace AdaptivePopulation.Spectrum

open Real Series

/-! ## The eigenvalues that are kept -/

/-- The eigenvalues above a floor. -/
def kept {α : Type} [Scalar α] (eigenvalues : List α) (floor : α) : List α :=
  eigenvalues.filter (floor < ·)

/-- The eigenvalues that are kept, as shares of their sum. -/
noncomputable def shares (eigenvalues : List ℝ) (floor : ℝ) : List ℝ :=
  (kept eigenvalues floor).map (· / (kept eigenvalues floor).sum)

section

variable {eigenvalues : List ℝ} {floor : ℝ}

theorem mem_kept {l : ℝ} : l ∈ kept eigenvalues floor ↔ l ∈ eigenvalues ∧ floor < l := by
  simp [kept]

theorem length_kept (eigenvalues : List ℝ) (floor : ℝ) :
    (kept eigenvalues floor).length = eigenvalues.countP (floor < ·) :=
  List.countP_eq_length_filter.symm

theorem length_shares (eigenvalues : List ℝ) (floor : ℝ) :
    (shares eigenvalues floor).length = eigenvalues.countP (floor < ·) := by
  rw [shares, List.length_map, length_kept]

theorem kept_ne_nil_iff : kept eigenvalues floor ≠ [] ↔ 0 < eigenvalues.countP (floor < ·) := by
  rw [← length_kept, List.length_pos_iff]

theorem shares_perm {eigenvalues' : List ℝ} (perm : eigenvalues'.Perm eigenvalues) :
    (shares eigenvalues' floor).Perm (shares eigenvalues floor) := by
  have kept : (kept eigenvalues' floor).Perm (kept eigenvalues floor) := perm.filter _
  rw [shares, shares, kept.sum_eq]
  exact kept.map _

section

variable (nonneg : 0 ≤ floor)

include nonneg

theorem sum_kept_pos (nonempty : kept eigenvalues floor ≠ []) : 0 < (kept eigenvalues floor).sum :=
  List.sum_pos _ (fun _ hl => nonneg.trans_lt (mem_kept.1 hl).2) nonempty

theorem isDistribution_shares (nonempty : kept eigenvalues floor ≠ []) :
    IsDistribution (shares eigenvalues floor) where
  pos := List.forall_mem_map.2 fun l hl =>
    div_pos (nonneg.trans_lt (mem_kept.1 hl).2) (sum_kept_pos nonneg nonempty)
  sum := by
    simp only [shares, div_eq_mul_inv, List.sum_map_mul_right, List.map_id']
    exact mul_inv_cancel₀ (sum_kept_pos nonneg nonempty).ne'

theorem spectralEntropy_eq :
    spectralEntropy eigenvalues floor = entropy (shares eigenvalues floor) := by
  have formula : spectralEntropy eigenvalues floor =
      let weight := total (kept eigenvalues floor)
      if (kept eigenvalues floor).isEmpty ∨ weight ≤ 0.0 ∨ ¬ Scalar.isFinite weight then 0.0
      else total ((kept eigenvalues floor).map fun l => entropyTerm (l / weight)) := rfl
  rw [formula, entropy, shares, List.map_map]
  by_cases empty : kept eigenvalues floor = []
  · simp [empty, zero_literal]
  · have pos := sum_kept_pos nonneg empty
    simp only [total_eq_sum, zero_literal]
    rw [if_neg (by simp [empty, pos, Scalar.isFinite])]
    rfl

/-- The shares are even if and only if the eigenvalues are equal. -/
theorem shares_even_iff (nonempty : kept eigenvalues floor ≠ []) :
    (∀ p ∈ shares eigenvalues floor, (shares eigenvalues floor).length * p = 1) ↔
      ∀ l ∈ kept eigenvalues floor, ∀ m ∈ kept eigenvalues floor, l = m := by
  have pos := sum_kept_pos nonneg nonempty
  rw [shares, List.length_map, List.forall_mem_map]
  constructor
  · intro even l hl m hm
    have length := left_ne_zero_of_mul_eq_one (even l hl)
    have same := mul_left_cancel₀ length ((even l hl).trans (even m hm).symm)
    exact (div_left_inj' pos.ne').1 same
  · intro same l hl
    have sum : (kept eigenvalues floor).sum = (kept eigenvalues floor).length * l := by
      rw [List.eq_replicate_of_mem fun m hm => same m hm l hl, List.sum_replicate, nsmul_eq_mul,
        List.length_replicate]
    rw [← mul_div_assoc, ← sum, div_self pos.ne']

theorem spectralEntropy_eq_zero (one : eigenvalues.countP (floor < ·) ≤ 1) :
    spectralEntropy eigenvalues floor = 0 := by
  rw [spectralEntropy_eq nonneg]
  by_cases empty : kept eigenvalues floor = []
  · simp [shares, empty, entropy]
  · rw [← length_shares] at one
    exact (isDistribution_shares nonneg empty).entropy_eq_zero one

theorem spectralEntropy_of_two_le (two : 2 ≤ eigenvalues.countP (floor < ·)) :
    0 < spectralEntropy eigenvalues floor ∧
      spectralEntropy eigenvalues floor ≤ logb 2 (eigenvalues.countP (floor < ·)) ∧
      (spectralEntropy eigenvalues floor = logb 2 (eigenvalues.countP (floor < ·)) ↔
        ∀ l ∈ kept eigenvalues floor, ∀ m ∈ kept eigenvalues floor, l = m) := by
  have nonempty := kept_ne_nil_iff.2 (two_pos.trans_le two)
  have distribution := isDistribution_shares nonneg nonempty
  rw [spectralEntropy_eq nonneg, ← shares_even_iff nonneg nonempty, ← length_shares]
  exact ⟨distribution.entropy_pos (two.trans_eq (length_shares _ _).symm), distribution.entropy_le,
    distribution.entropy_eq_iff⟩

/-- Whatever is kept, the entropy is at most the logarithm of the number of eigenvalues. -/
theorem spectralEntropy_mem_Icc (nonempty : 0 < eigenvalues.length) :
    spectralEntropy eigenvalues floor ∈ Set.Icc 0 (logb 2 eigenvalues.length) := by
  obtain one | two := Nat.lt_or_ge (eigenvalues.countP (floor < ·)) 2
  · rw [spectralEntropy_eq_zero nonneg (Nat.le_of_lt_succ one)]
    exact ⟨le_rfl, logb_nonneg one_lt_two (Nat.one_le_cast.2 nonempty)⟩
  · obtain ⟨pos, le, -⟩ := spectralEntropy_of_two_le nonneg two
    have kept_pos : (0 : ℝ) < eigenvalues.countP (floor < ·) :=
      Nat.cast_pos.2 (two_pos.trans_le two)
    have fewer : (eigenvalues.countP (floor < ·) : ℝ) ≤ eigenvalues.length :=
      Nat.cast_le.2 List.countP_le_length
    exact ⟨pos.le, le.trans (logb_le_logb_of_le one_lt_two kept_pos fewer)⟩

/-- The entropy reaches the logarithm of the number of eigenvalues if all are kept and equal. -/
theorem spectralEntropy_eq_logb_length_iff (two : 2 ≤ eigenvalues.length) :
    spectralEntropy eigenvalues floor = logb 2 eigenvalues.length ↔
      ∀ l ∈ eigenvalues, floor < l ∧ ∀ m ∈ eigenvalues, l = m := by
  have pos : 0 < logb 2 (eigenvalues.length : ℝ) :=
    logb_pos one_lt_two (Nat.one_lt_cast.2 two)
  constructor
  · intro reached
    have several : 2 ≤ eigenvalues.countP (floor < ·) := by
      by_contra! few
      have vanishes := spectralEntropy_eq_zero nonneg (Nat.le_of_lt_succ few)
      exact pos.ne' (reached.symm.trans vanishes)
    obtain ⟨-, le, even⟩ := spectralEntropy_of_two_le nonneg several
    have all : eigenvalues.countP (floor < ·) = eigenvalues.length := by
      refine List.countP_le_length.antisymm ?_
      have kept_pos : (0 : ℝ) < eigenvalues.countP (floor < ·) :=
        Nat.cast_pos.2 (two_pos.trans_le several)
      have length_pos : (0 : ℝ) < eigenvalues.length := Nat.cast_pos.2 (two_pos.trans_le two)
      rw [reached, logb_le_logb one_lt_two length_pos kept_pos] at le
      exact Nat.cast_le.1 le
    rw [all] at even
    have above : ∀ l ∈ eigenvalues, floor < l := by simpa using List.countP_eq_length.1 all
    intro l hl
    refine ⟨above l hl, fun m hm => ?_⟩
    exact even.1 reached l (mem_kept.2 ⟨hl, above l hl⟩) m (mem_kept.2 ⟨hm, above m hm⟩)
  · intro same
    have all : eigenvalues.countP (floor < ·) = eigenvalues.length :=
      List.countP_eq_length.2 fun l hl => decide_eq_true (same l hl).1
    obtain ⟨-, -, even⟩ := spectralEntropy_of_two_le nonneg (two.trans all.ge)
    rw [all] at even
    exact even.2 fun l hl m hm => (same l (mem_kept.1 hl).1).2 m (mem_kept.1 hm).1

end

end

/-! ## The measure of a window -/

section

variable {α : Type} [Scalar α] {config : SpectralConfig α} {samples : List (List α)}

theorem integrationOf_of_none (enough : max config.minSamples 1 ≤ samples.length)
    (undefined : covariance samples = none) : integrationOf config samples = 0.0 := by
  rw [integrationOf, dif_neg enough.not_gt, undefined]

theorem integrationOf_of_some (enough : max config.minSamples 1 ≤ samples.length)
    (h : 0 < samples.length) {C : SquareMatrix α samples.length}
    (defined : covariance samples = some C) :
    integrationOf config samples =
      spectralEntropy (eigenvalues h C config.epsilon config.maxRotations) config.epsilon := by
  rw [integrationOf, dif_neg enough.not_gt, defined]

end

theorem integrationOf_mem_Icc {config : SpectralConfig ℝ} {samples : List (List ℝ)}
    (nonneg : 0 ≤ config.epsilon) (enough : max config.minSamples 1 ≤ samples.length) :
    integrationOf config samples ∈ Set.Icc 0 (logb 2 samples.length) := by
  have pos : 0 < samples.length := (Nat.le_max_right _ _).trans enough
  cases h : covariance samples with
  | none =>
    rw [integrationOf_of_none enough h, zero_literal]
    exact ⟨le_rfl, logb_nonneg one_lt_two (Nat.one_le_cast.2 pos)⟩
  | some C =>
    rw [integrationOf_of_some enough pos h]
    have length : (eigenvalues pos C config.epsilon config.maxRotations).length = samples.length :=
      List.length_ofFn
    have := spectralEntropy_mem_Icc nonneg (length ▸ pos)
    rwa [length] at this

theorem clamp_of_mem {x : ℝ} (h : x ∈ Set.Icc (0 : ℝ) 1) : Scalar.clamp 0.0 1.0 x = x := by
  norm_num [Scalar.clamp, h.1.not_gt, h.2.not_gt]

/-- In exact arithmetic and for a floor that is not negative, the entropy of eigenvalues is zero if
at most one is above the floor.  If `k` are, it is positive and at most `log2 k`, which it reaches
exactly when these `k` are equal.  The order of the eigenvalues does not matter.  Hence, for any
limit of rotations, the measure of a window is at most the logarithm of its number of snapshots, and
its ratio to that ceiling needs no clamping. -/
theorem entropy_ceiling :
    (∀ (eigenvalues : List ℝ) (floor : ℝ), 0 ≤ floor →
      (eigenvalues.countP (floor < ·) ≤ 1 → spectralEntropy eigenvalues floor = 0) ∧
      (2 ≤ eigenvalues.countP (floor < ·) →
        0 < spectralEntropy eigenvalues floor ∧
        spectralEntropy eigenvalues floor ≤ logb 2 (eigenvalues.countP (floor < ·)) ∧
        (spectralEntropy eigenvalues floor = logb 2 (eigenvalues.countP (floor < ·)) ↔
          ∀ l ∈ eigenvalues, ∀ m ∈ eigenvalues, floor < l → floor < m → l = m)) ∧
      ∀ eigenvalues', eigenvalues'.Perm eigenvalues →
        spectralEntropy eigenvalues' floor = spectralEntropy eigenvalues floor) ∧
    ∀ (config : SpectralConfig ℝ) (samples : List (List ℝ)), 0 ≤ config.epsilon →
      max config.minSamples 2 ≤ samples.length →
        integrationOf config samples ∈ Set.Icc 0 (logb 2 samples.length) ∧
        integrationOf config samples / logb 2 samples.length ∈ Set.Icc (0 : ℝ) 1 ∧
        normalised (integrationOf config samples) samples.length =
          integrationOf config samples / logb 2 samples.length := by
  refine ⟨fun eigenvalues floor nonneg => ⟨spectralEntropy_eq_zero nonneg, fun two => ?_,
    fun eigenvalues' perm => ?_⟩, fun config samples nonneg enough => ?_⟩
  · obtain ⟨pos, le, even⟩ := spectralEntropy_of_two_le nonneg two
    refine ⟨pos, le, even.trans ?_⟩
    simp only [mem_kept]
    exact ⟨fun same l hl m hm above above' => same l ⟨hl, above⟩ m ⟨hm, above'⟩,
      fun same l hl m hm => same l hl.1 m hm.1 hl.2 hm.2⟩
  · rw [spectralEntropy_eq nonneg, spectralEntropy_eq nonneg, entropy, entropy]
    exact ((shares_perm perm).map _).sum_eq
  · have two : 2 ≤ samples.length := (Nat.le_max_right _ _).trans enough
    have ceiling := integrationOf_mem_Icc nonneg
      ((max_le_max_left config.minSamples one_le_two).trans enough)
    have pos : 0 < logb 2 samples.length := logb_pos one_lt_two (Nat.one_lt_cast.2 two)
    have unit : integrationOf config samples / logb 2 samples.length ∈ Set.Icc (0 : ℝ) 1 :=
      ⟨div_nonneg ceiling.1 pos.le, (div_le_one pos).2 ceiling.2⟩
    refine ⟨ceiling, unit, ?_⟩
    rw [normalised, if_neg two.not_gt]
    exact clamp_of_mem unit

/-- Four equal eigenvalues and one that is not kept, and a window of two snapshots. -/
theorem entropy_ceiling_even :
    let eigenvalues : List ℝ := [2, 2, 0, 2, 2]
    let config : SpectralConfig ℝ := ⟨2, 0, 0, 0⟩
    let samples : List (List ℝ) := [[1, 2, 3], [3, 2, 1, 7]]
    2 ≤ eigenvalues.countP (0 < ·) ∧ spectralEntropy eigenvalues 0 = logb 2 4 ∧
      max config.minSamples 2 ≤ samples.length ∧ integrationOf config samples ≤ logb 2 2 ∧
      normalised (integrationOf config samples) 2 = integrationOf config samples / logb 2 2 := by
  intro eigenvalues config samples
  have count : eigenvalues.countP (0 < ·) = 4 := by simp [eigenvalues]
  obtain ⟨spectrum, window⟩ := entropy_ceiling
  obtain ⟨-, many, -⟩ := spectrum eigenvalues 0 le_rfl
  obtain ⟨-, -, reached⟩ := many (by omega)
  obtain ⟨ceiling, -, unclamped⟩ := window config samples le_rfl le_rfl
  refine ⟨by omega, ?_, le_rfl, ceiling.2, unclamped⟩
  rw [count] at reached
  exact_mod_cast reached.2 (by simp [eigenvalues])

end AdaptivePopulation.Spectrum
