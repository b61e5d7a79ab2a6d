import Mathlib.Analysis.Complex.Trigonometric
import Mathlib.Analysis.SpecialFunctions.Log.Base
import AdaptivePopulation.Series.Statistics

/-!
# Exact arithmetic

The real numbers as scalars.  What is proved of them holds of the formulas of the library when no
operation is rounded.
-/

namespace AdaptivePopulation

noncomputable instance : Scalar ℝ where
  toAdd := Real.instAdd
  toSub := Real.instSub
  toMul := Real.instMul
  toDiv := inferInstanceAs (Div ℝ)
  toNeg := Real.instNeg
  toLT := Real.instLT
  toLE := Real.instLE
  toOfScientific := inferInstanceAs (OfScientific ℝ)
  decLt := Real.decidableLT
  decLe := Real.decidableLE
  ofNat n := n
  sqrt := Real.sqrt
  log2 := Real.logb 2
  sin := Real.sin
  tanh := Real.tanh
  isFinite _ := true
  floorNat x := ⌊x⌋₊

theorem zero_literal : (0.0 : ℝ) = 0 := by norm_num

theorem one_literal : (1.0 : ℝ) = 1 := by norm_num

theorem two_literal : (2.0 : ℝ) = 2 := by norm_num

theorem clampUnit_eq (x : ℝ) : Scalar.clampUnit x = max (min x 1) 0 := by
  have defined : ¬ Scalar.IsUndefined x := not_not.2 le_rfl
  have unfolded : Scalar.clampUnit x = if x < 0.0 then 0.0 else if 1.0 < x then 1.0 else x :=
    if_neg defined
  rw [unfolded, one_literal, zero_literal]
  split_ifs with below above
  · exact (max_eq_right ((min_le_left x 1).trans below.le)).symm
  · rw [min_eq_right above.le, max_eq_left zero_le_one]
  · rw [min_eq_left (not_lt.1 above), max_eq_left (not_lt.1 below)]

theorem Series.total_eq_sum (values : List ℝ) : Series.total values = values.sum := by
  have zero : (-0.0 : ℝ) = 0 := by norm_num
  rw [List.sum_eq_foldl, Series.total, zero]

theorem Series.mean_eq_div (values : List ℝ) : mean values = values.sum / values.length := by
  unfold mean
  split_ifs with empty
  · rw [List.isEmpty_iff.1 empty, List.sum_nil, zero_div, zero_literal]
  · rw [total_eq_sum]
    rfl

end AdaptivePopulation
