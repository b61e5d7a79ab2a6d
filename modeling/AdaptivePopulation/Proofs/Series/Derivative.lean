import Mathlib.Algebra.Polynomial.Derivative
import Mathlib.Algebra.Polynomial.Eval.Degree
import AdaptivePopulation.Proofs.Exact
import AdaptivePopulation.Series.Derivative

/-!
# Differences of sampled polynomials

The central difference of a polynomial of degree three is a polynomial of degree two: its derivative
and a constant, which the next difference removes.  Every difference loses one position at either
end, where it is one-sided and exact for degree one only.
-/

namespace AdaptivePopulation.Series

open Polynomial

/-! ## Differences by position -/

section

variable {α : Type} [Scalar α] {values : List α} {step a b : α} {i : ℕ}

theorem length_gradient (two : 2 ≤ values.length) (step : α) :
    (gradient values step).length = values.length := by
  match values, two with
  | v :: w :: rest, _ =>
    simp only [gradient, List.cons_append, List.length_cons, List.length_append, List.length_nil,
      List.length_zipWith]
    omega

theorem getElem?_gradient_zero (ha : values[0]? = some a) (hb : values[1]? = some b) :
    (gradient values step)[0]? = some ((b - a) / step) := by
  match values, ha, hb with
  | _ :: _ :: _, rfl, rfl => rfl

/-- The central difference at a position, from its neighbours. -/
theorem getElem?_gradient_succ (ha : values[i]? = some a) (hb : values[i + 2]? = some b) :
    (gradient values step)[i + 1]? = some ((b - a) / (2.0 * step)) := by
  match values, ha, hb with
  | v :: w :: rest, ha, hb =>
    have central : (List.zipWith (fun next prev => (next - prev) / (2.0 * step)) rest
        (v :: w :: rest))[i]? = some ((b - a) / (2.0 * step)) :=
      List.getElem?_zipWith_eq_some.2 ⟨b, a, hb, ha, rfl⟩
    rw [gradient, List.cons_append, List.getElem?_cons_succ]
    exact List.getElem?_append_left (List.getElem?_eq_some_iff.1 central).1 ▸ central

theorem lastDifference_eq {v w : α} {rest : List α} (ha : (v :: w :: rest)[rest.length]? = some a)
    (hb : (w :: rest)[rest.length]? = some b) : lastDifference v w rest = b - a := by
  induction rest generalizing v w with
  | nil =>
    cases ha
    cases hb
    rfl
  | cons u rest ih => exact ih ha hb

theorem getElem?_gradient_last (length : values.length = i + 2) (ha : values[i]? = some a)
    (hb : values[i + 1]? = some b) : (gradient values step)[i + 1]? = some ((b - a) / step) := by
  match values, length, ha, hb with
  | v :: w :: rest, length, ha, hb =>
    obtain rfl : rest.length = i := by simpa using length
    have inner : (List.zipWith (fun next prev => (next - prev) / (2.0 * step)) rest
        (v :: w :: rest)).length = rest.length := by
      rw [List.length_zipWith, List.length_cons, List.length_cons]
      omega
    rw [gradient, List.cons_append, List.getElem?_cons_succ,
      List.getElem?_append_right inner.le, inner, Nat.sub_self, lastDifference_eq ha hb]
    rfl

end

/-! ## Polynomials -/

section

variable {p q : ℝ[X]} {h : ℝ}

/-- What the central difference makes of a polynomial of degree three. -/
noncomputable def slope (p : ℝ[X]) (h : ℝ) : ℝ[X] := derivative p + C (p.coeff 3 * h ^ 2)

theorem central_difference (cubic : p.natDegree ≤ 3) (nonzero : h ≠ 0) (x : ℝ) :
    (p.eval (x + h) - p.eval (x - h)) / (2 * h) = (slope p h).eval x := by
  have expanded := eval_eq_sum_range' (Nat.lt_succ_of_le cubic)
  have derived : (derivative p).natDegree < 3 :=
    Nat.lt_succ_of_le ((natDegree_derivative_le p).trans (Nat.sub_le_sub_right cubic 1))
  rw [div_eq_iff (mul_ne_zero two_ne_zero nonzero), slope, eval_add, eval_C, expanded, expanded,
    eval_eq_sum_range' derived]
  simp only [Finset.sum_range_succ, Finset.sum_range_zero, coeff_derivative]
  push_cast
  ring

theorem natDegree_slope_le (cubic : p.natDegree ≤ 3) : (slope p h).natDegree ≤ 2 :=
  (natDegree_add_C.trans_le (natDegree_derivative_le p)).trans (Nat.sub_le_sub_right cubic 1)

theorem derivative_slope (p : ℝ[X]) (h : ℝ) :
    derivative (slope p h) = derivative (derivative p) := by
  rw [slope, derivative_add, derivative_C, add_zero]

theorem slope_of_quadratic (quadratic : q.natDegree ≤ 2) (h : ℝ) : slope q h = derivative q := by
  rw [slope, coeff_eq_zero_of_natDegree_lt (Nat.lt_succ_of_le quadratic), zero_mul, C_0, add_zero]

/-- The difference of neighbours is exact for degree one, wherever the derivative is taken. -/
theorem difference_of_linear (linear : q.natDegree ≤ 1) (nonzero : h ≠ 0) (x y : ℝ) :
    (q.eval (x + h) - q.eval x) / h = (derivative q).eval y := by
  have expanded := eval_eq_sum_range' (Nat.lt_succ_of_le linear)
  have derived : (derivative q).natDegree < 1 :=
    Nat.lt_succ_of_le ((natDegree_derivative_le q).trans (Nat.sub_le_sub_right linear 1))
  rw [div_eq_iff nonzero, expanded, expanded, eval_eq_sum_range' derived]
  simp only [Finset.sum_range_succ, Finset.sum_range_zero, coeff_derivative]
  push_cast
  ring

end

/-! ## Samples -/

/-- The values of a polynomial at the multiples of a step, but for a margin at either end. -/
def Samples (margin : ℕ) (p : ℝ[X]) (h : ℝ) (values : List ℝ) : Prop :=
  ∀ i, margin ≤ i → i + margin < values.length → values[i]? = some (p.eval (i * h))

section

variable {p q : ℝ[X]} {h : ℝ} {values : List ℝ} {margin : ℕ} (nonzero : h ≠ 0)

include nonzero

theorem Samples.gradient (cubic : p.natDegree ≤ 3) (samples : Samples margin p h values)
    (two : 2 ≤ values.length) :
    Samples (margin + 1) (slope p h) h (Series.gradient values h) := by
  intro i above below
  rw [length_gradient two] at below
  obtain ⟨j, rfl⟩ : ∃ j, i = j + 1 := ⟨i - 1, by omega⟩
  have before := samples j (by omega) (by omega)
  have after := samples (j + 2) (by omega) (by omega)
  have previous : (j * h : ℝ) = (j + 1 : ℕ) * h - h := by
    push_cast
    ring
  have next : ((j + 2 : ℕ) * h : ℝ) = (j + 1 : ℕ) * h + h := by
    push_cast
    ring
  rw [getElem?_gradient_succ before after, previous, next, two_literal,
    central_difference cubic nonzero]

/-- With degree one the ends are exact as well. -/
theorem Samples.gradient_of_linear (linear : q.natDegree ≤ 1) (samples : Samples 0 q h values)
    (two : 2 ≤ values.length) : Samples 0 (derivative q) h (Series.gradient values h) := by
  have onward (j : ℕ) : ((j + 1 : ℕ) * h : ℝ) = j * h + h := by
    push_cast
    ring
  intro i _ below
  rw [length_gradient two] at below
  cases i with
  | zero =>
    rw [getElem?_gradient_zero (samples 0 le_rfl below) (samples 1 (Nat.zero_le 1) two), onward,
      difference_of_linear linear nonzero]
  | succ j =>
    obtain last | inside := eq_or_ne values.length (j + 2)
    · rw [getElem?_gradient_last last (samples j (Nat.zero_le j) (by omega))
        (samples (j + 1) (Nat.zero_le _) below), onward, difference_of_linear linear nonzero]
    · have inner := samples.gradient nonzero (linear.trans (by omega)) two
      rw [slope_of_quadratic (linear.trans one_le_two)] at inner
      exact inner (j + 1) (by omega) (by rw [length_gradient two]; omega)

end

/-- In exact arithmetic both derivatives of a series of at least two elements are as long as the
series.  For samples of a polynomial of degree three the second one is exact but for two positions
at either end.  For samples of one of degree two the first one is exact but for one position at
either end, and for degree one everywhere. -/
theorem differences_are_exact {h : ℝ} (nonzero : h ≠ 0) {values : List ℝ}
    (two : 2 ≤ values.length) :
    (gradient values h).length = values.length ∧
    (laplacian values h).length = values.length ∧
    (∀ p : ℝ[X], p.natDegree ≤ 3 → (∀ i < values.length, values[i]? = some (p.eval (i * h))) →
      ∀ i, 2 ≤ i → i + 3 ≤ values.length →
        (laplacian values h)[i]? = some ((derivative (derivative p)).eval (i * h))) ∧
    ∀ q : ℝ[X], q.natDegree ≤ 2 → (∀ i < values.length, values[i]? = some (q.eval (i * h))) →
      (∀ i, 1 ≤ i → i + 2 ≤ values.length →
        (gradient values h)[i]? = some ((derivative q).eval (i * h))) ∧
      (q.natDegree ≤ 1 → ∀ i < values.length,
        (gradient values h)[i]? = some ((derivative q).eval (i * h))) := by
  have length := length_gradient two h
  have two' : 2 ≤ (gradient values h).length := two.trans length.ge
  have length' : (laplacian values h).length = values.length :=
    (length_gradient two' h).trans length
  refine ⟨length, length', fun p cubic sampled i above below => ?_, fun q quadratic sampled => ?_⟩
  · have samples : Samples 0 p h values := fun i _ hi => sampled i hi
    have second := (samples.gradient nonzero cubic two).gradient nonzero
      ((natDegree_slope_le cubic).trans (by omega)) two'
    rw [slope_of_quadratic (natDegree_slope_le cubic), derivative_slope] at second
    exact second i above (length' ▸ below)
  · have samples : Samples 0 q h values := fun i _ hi => sampled i hi
    constructor
    · intro i above below
      have first := samples.gradient nonzero (quadratic.trans (by omega)) two
      rw [slope_of_quadratic quadratic] at first
      exact first i above (length ▸ below)
    · intro linear i below
      exact samples.gradient_of_linear nonzero linear two i (by omega) (length ▸ below)

/-- A cube at steps of one half. -/
theorem differences_are_exact_cube :
    let values : List ℝ := (List.range 5).map fun i : ℕ => ((i : ℝ) * 0.5) ^ 3
    (0.5 : ℝ) ≠ 0 ∧ 2 ≤ values.length ∧ (X ^ 3 : ℝ[X]).natDegree ≤ 3 ∧
      (laplacian values 0.5)[2]? = some 6 := by
  intro values
  have nonzero : (0.5 : ℝ) ≠ 0 := by norm_num
  have cubic : (X ^ 3 : ℝ[X]).natDegree ≤ 3 := natDegree_X_pow_le 3
  have sampled : ∀ i < values.length, values[i]? = some ((X ^ 3 : ℝ[X]).eval ((i : ℝ) * 0.5)) := by
    intro i hi
    have hi : i < 5 := by simpa [values] using hi
    rw [eval_pow, eval_X, List.getElem?_map, List.getElem?_range hi, Option.map_some]
  have two : 2 ≤ values.length := by simp [values]
  obtain ⟨-, -, second, -⟩ := differences_are_exact nonzero two
  refine ⟨nonzero, two, cubic, ?_⟩
  rw [second (X ^ 3) cubic sampled 2 le_rfl (by simp [values])]
  norm_num

end AdaptivePopulation.Series
