import AdaptivePopulation.Proofs.Extended
import AdaptivePopulation.Proofs.Spectrum.Entropy
import AdaptivePopulation.Series.Entropy

/-!
# The entropy of a histogram

Every value falls into one bucket, so that the counts of a histogram sum to the number of values and
do not depend on their order.  In exact arithmetic the entropy of the histogram is that of its
counts as weights, over the logarithm of their number, which is its ceiling.
-/

namespace AdaptivePopulation.Series

open Real Spectrum

/-! ## Counts -/

section

variable {α : Type} [Scalar α] {values values' : List α} {bins : ℕ}

theorem bucket_lt (bins_pos : 0 < bins) (v : α) : bucket bins v < bins := by
  unfold bucket
  omega

theorem length_histogram (values : List α) (bins : ℕ) : (histogram values bins).length = bins := by
  simp [histogram]

theorem histogram_eq_map (values : List α) (bins : ℕ) : histogram values bins =
    (List.range bins).map fun b => values.countP (bucket bins · = b) := by
  refine List.map_congr_left fun b _ => ?_
  rw [List.count_eq_countP, List.countP_map]
  rfl

/-- No value is lost. -/
theorem sum_histogram (bins_pos : 0 < bins) (values : List α) :
    (histogram values bins).sum = values.length := by
  have inside : ∀ b ∈ (values.map (bucket bins) : Multiset ℕ), b ∈ Finset.range bins := by
    intro b hb
    obtain ⟨v, -, rfl⟩ := List.mem_map.1 (Multiset.mem_coe.1 hb)
    exact Finset.mem_range.2 (bucket_lt bins_pos v)
  have all := Multiset.sum_count_eq_card inside
  simp only [Multiset.coe_count, Multiset.coe_card, List.length_map] at all
  rw [← all]
  rfl

theorem histogram_perm (perm : values'.Perm values) :
    histogram values' bins = histogram values bins := by
  rw [histogram_eq_map, histogram_eq_map]
  exact List.map_congr_left fun b _ => perm.countP_eq _

/-- The order of the values does not matter, however the operations round. -/
theorem shannonEntropy_perm (perm : values'.Perm values) :
    shannonEntropy values' bins = shannonEntropy values bins := by
  have empty : values'.isEmpty = values.isEmpty := by
    rw [Bool.eq_iff_iff, List.isEmpty_iff, List.isEmpty_iff]
    exact ⟨fun h => (h ▸ perm).nil_eq.symm, fun h => (h ▸ perm).eq_nil⟩
  rw [shannonEntropy, shannonEntropy, histogram_perm perm, perm.length_eq, empty]

/-- The buckets that hold values. -/
def occupied (values : List α) (bins : ℕ) : List ℕ :=
  (List.range bins).filter (0 < (values.map (bucket bins)).count ·)

theorem mem_occupied (bins_pos : 0 < bins) {b : ℕ} :
    b ∈ occupied values bins ↔ ∃ v ∈ values, bucket bins v = b := by
  simp only [occupied, List.mem_filter, List.mem_range, decide_eq_true_eq, List.count_pos_iff,
    List.mem_map, and_iff_right_iff_imp]
  rintro ⟨v, -, rfl⟩
  exact bucket_lt bins_pos v

/-- At most one bucket holds values if and only if all values share one. -/
theorem countP_histogram_le_one_iff (bins_pos : 0 < bins) (values : List α) :
    (histogram values bins).countP (0 < ·) ≤ 1 ↔
      ∃ b, ∀ v ∈ values, bucket bins v = b := by
  have same : (histogram values bins).countP (0 < ·) = (occupied values bins).length := by
    rw [histogram, List.countP_map, List.countP_eq_length_filter]
    rfl
  have distinct : (occupied values bins).Nodup := List.nodup_range.filter _
  rw [same, ← List.toFinset_card_of_nodup distinct, Finset.card_le_one]
  simp only [List.mem_toFinset, mem_occupied bins_pos]
  constructor
  · intro single
    cases values with
    | nil => exact ⟨0, nofun⟩
    | cons w values => exact ⟨bucket bins w, fun v hv => single _ ⟨v, hv, rfl⟩ _ ⟨w, by simp, rfl⟩⟩
  · rintro ⟨b, shared⟩ _ ⟨v, hv, rfl⟩ _ ⟨w, hw, rfl⟩
    rw [shared v hv, shared w hw]

/-- Where all counts are equal, they are positive if and only if there are values. -/
theorem pos_iff_of_equal_counts (bins_pos : 0 < bins)
    (equal : ∀ c ∈ histogram values bins, ∀ d ∈ histogram values bins, c = d) {c : ℕ}
    (hc : c ∈ histogram values bins) : 0 < c ↔ values ≠ [] := by
  have sum := sum_histogram bins_pos values
  rw [List.eq_replicate_of_mem fun d hd => equal d hd c hc, List.sum_replicate, length_histogram,
    smul_eq_mul] at sum
  rw [← List.length_pos_iff, ← sum]
  exact (Nat.mul_pos_iff_of_pos_left bins_pos).symm

end

/-! ## In exact arithmetic -/

section

variable {bins : ℕ}

/-- A bucket holds the values from its lower end to below its upper end, the last one also the value
one. -/
theorem bucket_eq_iff (bins_pos : 0 < bins) (v : Extended) (b : ℕ) :
    bucket bins v = b ↔
      b < bins ∧ b ≤ v.nearestUnit * bins ∧ (v.nearestUnit * bins < b + 1 ∨ b + 1 = bins) := by
  have scaled : bucket bins v = min ⌊v.nearestUnit * bins⌋₊ (bins - 1) := by
    rw [bucket, Extended.clampUnit_eq_nearestUnit]
    rfl
  have nonneg : 0 ≤ v.nearestUnit * bins := mul_nonneg v.nearestUnit_mem.1 (Nat.cast_nonneg bins)
  rw [scaled, ← Nat.le_floor_iff nonneg, ← Nat.cast_succ, ← Nat.floor_lt nonneg]
  omega

/-- The counts of a histogram as weights. -/
noncomputable def weights (values : List Extended) (bins : ℕ) : List ℝ :=
  (histogram values bins).map Nat.cast

theorem kept_weights (values : List Extended) (bins : ℕ) :
    kept (weights values bins) 0 = ((histogram values bins).filter (0 < ·)).map Nat.cast := by
  simp [kept, weights, List.filter_map, Function.comp_def]

theorem sum_filter_pos (counts : List ℕ) : (counts.filter (0 < ·)).sum = counts.sum := by
  induction counts with
  | nil => rfl
  | cons c counts ih =>
    rw [List.filter_cons]
    split_ifs with pos
    · rw [List.sum_cons, List.sum_cons, ih]
    · have zero : c = 0 := by simpa using pos
      rw [ih, zero, List.sum_cons, zero_add]

theorem sum_kept_weights (bins_pos : 0 < bins) (values : List Extended) :
    (kept (weights values bins) 0).sum = values.length := by
  rw [kept_weights, ← Nat.cast_list_sum, sum_filter_pos, sum_histogram bins_pos]

theorem countP_weights (values : List Extended) (bins : ℕ) :
    (weights values bins).countP (0 < ·) = (histogram values bins).countP (0 < ·) := by
  simp [weights, List.countP_map, Function.comp_def]

theorem entropyTerm_finite {p : ℝ} (pos : 0 < p) :
    entropyTerm (Extended.finite p) = .finite (entropyTerm p) := by
  rw [entropyTerm, Extended.log2_finite pos, Extended.finite_neg, Extended.finite_mul, entropyTerm]

/-- The terms of the entropy are those of the shares of the counts. -/
theorem terms_eq (bins_pos : 0 < bins) (values : List Extended) (values_pos : 0 < values.length) :
    ((histogram values bins).filter (0 < ·)).map (fun c =>
        entropyTerm (Scalar.ofNat c / Scalar.ofNat values.length : Extended)) =
      ((shares (weights values bins) 0).map entropyTerm).map .finite := by
  have length : (0 : ℝ) < values.length := Nat.cast_pos.2 values_pos
  rw [shares, sum_kept_weights bins_pos, kept_weights, List.map_map, List.map_map, List.map_map]
  refine List.map_congr_left fun c hc => ?_
  have count : (0 : ℝ) < c := by simpa using (List.mem_filter.1 hc).2
  calc entropyTerm (Extended.finite c / .finite values.length)
      = entropyTerm (.finite (c / values.length)) := by rw [Extended.finite_div _ length.ne']
    _ = .finite (entropyTerm (c / values.length)) := entropyTerm_finite (div_pos count length)

theorem shannonEntropy_eq (two : 2 ≤ bins) (values : List Extended) : shannonEntropy values bins =
    .finite (spectralEntropy (weights values bins) 0 / logb 2 bins) := by
  have bins_pos : 0 < bins := two_pos.trans_le two
  have ceiling : 0 < logb 2 (bins : ℝ) := logb_pos one_lt_two (Nat.one_lt_cast.2 two)
  cases values with
  | nil =>
    have single : (weights [] bins).countP (0 < ·) ≤ 1 := by
      rw [countP_weights, countP_histogram_le_one_iff bins_pos]
      exact ⟨0, nofun⟩
    rw [spectralEntropy_eq_zero le_rfl single, zero_div, ← zero_literal]
    exact if_pos (.inl rfl)
  | cons v values =>
    have formula : shannonEntropy (v :: values) bins =
        total (((histogram (v :: values) bins).filter (0 < ·)).map fun c => entropyTerm
          (Scalar.ofNat c / Scalar.ofNat (v :: values).length)) / Scalar.log2 (.finite bins) :=
      if_neg (by simp; omega)
    rw [formula, terms_eq bins_pos _ (by simp), Extended.total_finite, total_eq_sum,
      spectralEntropy_eq le_rfl, Extended.log2_finite (Nat.cast_pos.2 bins_pos)]
    exact Extended.finite_div _ ceiling.ne'

theorem length_weights (values : List Extended) (bins : ℕ) :
    (weights values bins).length = bins := by
  rw [weights, List.length_map, length_histogram]

theorem spectralEntropy_weights_eq_zero_iff (bins_pos : 0 < bins) (values : List Extended) :
    spectralEntropy (weights values bins) 0 = 0 ↔ ∃ b, ∀ v ∈ values, bucket bins v = b := by
  rw [← countP_histogram_le_one_iff bins_pos, ← countP_weights]
  refine ⟨fun zero => ?_, spectralEntropy_eq_zero le_rfl⟩
  by_contra! many
  exact (spectralEntropy_of_two_le le_rfl many).1.ne' zero

theorem spectralEntropy_weights_eq_logb_iff (two : 2 ≤ bins) (values : List Extended) :
    spectralEntropy (weights values bins) 0 = logb 2 bins ↔
      values ≠ [] ∧ ∀ c ∈ histogram values bins, ∀ d ∈ histogram values bins, c = d := by
  have ceiling := spectralEntropy_eq_logb_length_iff (le_refl (0 : ℝ))
    (two.trans_eq (length_weights values bins).symm)
  rw [length_weights] at ceiling
  simp only [weights, List.forall_mem_map, Nat.cast_pos, Nat.cast_inj] at ceiling
  rw [weights, ceiling]
  have bins_pos : 0 < bins := two_pos.trans_le two
  constructor
  · intro full
    have equal : ∀ c ∈ histogram values bins, ∀ d ∈ histogram values bins, c = d :=
      fun c hc => (full c hc).2
    obtain ⟨c, hc⟩ :=
      List.exists_mem_of_length_pos (bins_pos.trans_eq (length_histogram values bins).symm)
    exact ⟨(pos_iff_of_equal_counts bins_pos equal hc).1 (full c hc).1, equal⟩
  · rintro ⟨values_ne, equal⟩ c hc
    exact ⟨(pos_iff_of_equal_counts bins_pos equal hc).2 values_ne, equal c hc⟩

/-- A histogram of at least two buckets counts every value in the one bucket that the clamped value
lies in, so that its counts sum to the number of values.  In exact arithmetic its entropy lies
between zero and one.  It is zero exactly if all values share a bucket, and one exactly if there are
values and all counts are equal.  The order of the values does not matter. -/
theorem histogram_entropy_normalised {bins : ℕ} (two : 2 ≤ bins) (values : List Extended) :
    (∀ (v : Extended) (b : ℕ), bucket bins v = b ↔
      b < bins ∧ b ≤ v.nearestUnit * bins ∧ (v.nearestUnit * bins < b + 1 ∨ b + 1 = bins)) ∧
    histogram values bins = (List.range bins).map (fun b => values.countP (bucket bins · = b)) ∧
    (histogram values bins).sum = values.length ∧
    ∃ e : ℝ, shannonEntropy values bins = .finite e ∧ e ∈ Set.Icc 0 1 ∧
      (e = 0 ↔ values = [] ∨ ∃ b, ∀ v ∈ values, bucket bins v = b) ∧
      (e = 1 ↔ values ≠ [] ∧
        ∀ c ∈ histogram values bins, ∀ d ∈ histogram values bins, c = d) ∧
      ∀ values', values'.Perm values → shannonEntropy values' bins = .finite e := by
  have bins_pos : 0 < bins := two_pos.trans_le two
  have ceiling : 0 < logb 2 (bins : ℝ) := logb_pos one_lt_two (Nat.one_lt_cast.2 two)
  have bounds := spectralEntropy_mem_Icc (le_refl (0 : ℝ))
    (bins_pos.trans_eq (length_weights values bins).symm)
  rw [length_weights] at bounds
  refine ⟨bucket_eq_iff bins_pos, histogram_eq_map values bins, sum_histogram bins_pos values,
    spectralEntropy (weights values bins) 0 / logb 2 bins, shannonEntropy_eq two values,
    ⟨div_nonneg bounds.1 ceiling.le, (div_le_one ceiling).2 bounds.2⟩, ?_, ?_, ?_⟩
  · rw [div_eq_zero_iff, or_iff_left ceiling.ne', spectralEntropy_weights_eq_zero_iff bins_pos]
    exact ⟨.inr, fun shared => shared.elim (fun empty => ⟨0, by simp [empty]⟩) id⟩
  · rw [div_eq_one_iff_eq ceiling.ne', spectralEntropy_weights_eq_logb_iff two]
  · intro values' perm
    rw [shannonEntropy_perm perm, shannonEntropy_eq two]

/-- The undefined value counts as zero, the infinite one as one. -/
theorem histogram_entropy_normalised_half :
    let values : List Extended := [.undefined, .infinite true, .finite 0.25, .finite 0.5]
    (2 : ℕ) ≤ 2 ∧ histogram values 2 = [2, 2] ∧ shannonEntropy values 2 = .finite 1 := by
  intro values
  obtain ⟨place, counts, -, e, entropy, -, -, flat, -⟩ :=
    histogram_entropy_normalised le_rfl values
  have undefined : bucket 2 Extended.undefined = 0 :=
    (place _ _).2 (by norm_num [Extended.nearestUnit])
  have infinite : bucket 2 (Extended.infinite true) = 1 :=
    (place _ _).2 (by norm_num [Extended.nearestUnit])
  have quarter : bucket 2 (Extended.finite 0.25) = 0 :=
    (place _ _).2 (by norm_num [Extended.nearestUnit])
  have half : bucket 2 (Extended.finite 0.5) = 1 :=
    (place _ _).2 (by norm_num [Extended.nearestUnit])
  have even : histogram values 2 = [2, 2] := by
    rw [counts]
    simp [values, List.range_succ, undefined, infinite, quarter, half]
  refine ⟨le_rfl, even, ?_⟩
  rw [entropy, flat.2 ⟨by simp [values], by simp [even]⟩]

end

end AdaptivePopulation.Series
