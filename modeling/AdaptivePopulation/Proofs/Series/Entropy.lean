import Mathlib.Algebra.Order.BigOperators.Group.List
import Mathlib.Analysis.SpecialFunctions.Log.NegMulLog
import AdaptivePopulation.Proofs.Exact
import AdaptivePopulation.Series.Entropy

/-!
# The entropy of a distribution

The terms of the entropy lie below their tangents at `1 / k`, and for `k` shares of a whole the
tangents sum to the logarithm of `k`.  So this is the greatest entropy, which only even shares have.
The least is that of a single share, zero.
-/

namespace AdaptivePopulation.Series

open Real

/-- Positive shares of a whole. -/
structure IsDistribution (shares : List ℝ) : Prop where
  pos : ∀ p ∈ shares, 0 < p
  sum : shares.sum = 1

/-- The entropy of shares, in bits. -/
noncomputable def entropy (shares : List ℝ) : ℝ := (shares.map entropyTerm).sum

theorem entropyTerm_eq (p : ℝ) : entropyTerm p = -p * logb 2 p := rfl

/-! ## Terms and their tangents -/

theorem entropyTerm_mul_log (p : ℝ) : entropyTerm p * log 2 = negMulLog p := by
  rw [entropyTerm_eq, mul_assoc, logb, div_mul_cancel₀ _ (log_pos one_lt_two).ne', negMulLog]

theorem entropy_mul_log (shares : List ℝ) :
    entropy shares * log 2 = (shares.map negMulLog).sum := by
  rw [entropy, ← List.sum_map_mul_right]
  simp only [entropyTerm_mul_log]

theorem negMulLog_pos {p : ℝ} (pos : 0 < p) (lt : p < 1) : 0 < negMulLog p := by
  rw [negMulLog, neg_mul, ← mul_neg]
  exact mul_pos pos (neg_pos.2 (log_neg pos lt))

/-- The line that touches the entropy term at `1 / k`, in natural units. -/
noncomputable def tangent (k p : ℝ) : ℝ := p * log k + (1 / k - p)

theorem tangent_sub_negMulLog {k p : ℝ} (hk : 0 < k) (hp : 0 < p) :
    tangent k p - negMulLog p = p * ((k * p)⁻¹ - 1 - log (k * p)⁻¹) := by
  rw [tangent, negMulLog, log_inv, log_mul hk.ne' hp.ne']
  field_simp
  ring

theorem negMulLog_le_tangent {k p : ℝ} (hk : 0 < k) (hp : 0 < p) : negMulLog p ≤ tangent k p := by
  have below := log_le_sub_one_of_pos (inv_pos.2 (mul_pos hk hp))
  rw [← sub_nonneg, tangent_sub_negMulLog hk hp]
  exact mul_nonneg hp.le (sub_nonneg.2 below)

theorem negMulLog_eq_tangent_iff {k p : ℝ} (hk : 0 < k) (hp : 0 < p) :
    negMulLog p = tangent k p ↔ k * p = 1 := by
  rw [eq_comm, ← sub_eq_zero, tangent_sub_negMulLog hk hp]
  constructor
  · intro touches
    by_contra other
    have below := log_lt_sub_one_of_pos (inv_pos.2 (mul_pos hk hp)) (inv_ne_one.2 other)
    exact (mul_pos hp (sub_pos.2 below)).ne' touches
  · intro unit
    simp [unit]

theorem sum_tangent (k : ℝ) (shares : List ℝ) : (shares.map (tangent k)).sum =
    shares.sum * log k + (shares.length * (1 / k) - shares.sum) := by
  induction shares with
  | nil => simp
  | cons p shares ih =>
    rw [List.map_cons, List.sum_cons, ih, List.sum_cons, List.length_cons, tangent, Nat.cast_succ]
    ring

/-! ## Shares -/

namespace IsDistribution

variable {shares : List ℝ}

theorem length_pos (h : IsDistribution shares) : (0 : ℝ) < shares.length := by
  refine Nat.cast_pos.2 (List.length_pos_iff.2 ?_)
  rintro rfl
  exact zero_ne_one h.sum

theorem le_one (h : IsDistribution shares) {p : ℝ} (hp : p ∈ shares) : p ≤ 1 :=
  h.sum ▸ List.single_le_sum (fun q hq => (h.pos q hq).le) p hp

theorem sum_tangent (h : IsDistribution shares) :
    (shares.map (tangent shares.length)).sum = log shares.length := by
  rw [Series.sum_tangent, h.sum, mul_one_div_cancel h.length_pos.ne', sub_self, one_mul, add_zero]

theorem entropy_le (h : IsDistribution shares) : entropy shares ≤ logb 2 shares.length := by
  rw [logb, le_div_iff₀ (log_pos one_lt_two), entropy_mul_log, ← h.sum_tangent]
  exact List.sum_le_sum fun p hp => negMulLog_le_tangent h.length_pos (h.pos p hp)

theorem entropy_eq_iff (h : IsDistribution shares) :
    entropy shares = logb 2 shares.length ↔ ∀ p ∈ shares, shares.length * p = 1 := by
  have below (p : ℝ) (hp : p ∈ shares) := negMulLog_le_tangent h.length_pos (h.pos p hp)
  have touches (p : ℝ) (hp : p ∈ shares) := negMulLog_eq_tangent_iff h.length_pos (h.pos p hp)
  rw [logb, eq_div_iff (log_pos one_lt_two).ne', entropy_mul_log, ← h.sum_tangent]
  constructor
  · intro same p hp
    by_contra other
    have strict : negMulLog p < tangent shares.length p :=
      (below p hp).lt_of_ne (mt (touches p hp).1 other)
    exact (List.sum_lt_sum negMulLog (tangent shares.length) below ⟨p, hp, strict⟩).ne same
  · intro even
    exact congrArg List.sum (List.map_congr_left fun p hp => (touches p hp).2 (even p hp))

theorem entropy_pos (h : IsDistribution shares) (two : 2 ≤ shares.length) :
    0 < entropy shares := by
  obtain ⟨p, hp, lt⟩ : ∃ p ∈ shares, p < 1 := by
    by_contra! full
    have least := List.card_nsmul_le_sum shares 1 full
    rw [h.sum, nsmul_one, Nat.cast_le_one] at least
    omega
  have positive := List.sum_lt_sum (fun _ => 0) negMulLog
    (fun q hq => negMulLog_nonneg (h.pos q hq).le (h.le_one hq))
    ⟨p, hp, negMulLog_pos (h.pos p hp) lt⟩
  rw [← entropy_mul_log, List.map_const', List.sum_replicate, smul_zero] at positive
  exact pos_of_mul_pos_left positive (log_pos one_lt_two).le

theorem entropy_eq_zero (h : IsDistribution shares) (one : shares.length ≤ 1) :
    entropy shares = 0 := by
  obtain ⟨p, rfl⟩ := List.length_eq_one_iff.1 (one.antisymm (Nat.cast_pos.1 h.length_pos))
  have whole : p = 1 := List.sum_singleton.symm.trans h.sum
  simp [entropy, entropyTerm_eq, whole]

end IsDistribution

end AdaptivePopulation.Series
