import Mathlib.Algebra.Order.BigOperators.Ring.Finset
import AdaptivePopulation.Proofs.Dynamics.Sites
import AdaptivePopulation.Proofs.Spectrum.Covariance

/-!
# Diffusion on a ring

In exact arithmetic the product of a series with the diffusion of another one is a sum over the
differences of neighbours, in which the two play the same part.  So diffusion is a symmetric
operator that neither creates nor destroys anything, and it evens out what is not constant.
-/

namespace AdaptivePopulation.Series

open Spectrum

/-! ## Positions on a ring -/

/-- The next position on a ring.  Its inverse is the previous one. -/
def nextPosition (n : ℕ) : Equiv.Perm (Fin n) where
  toFun i := ⟨(i + 1) % n, Nat.mod_lt _ i.pos⟩
  invFun i := ⟨(i + (n - 1)) % n, Nat.mod_lt _ i.pos⟩
  left_inv i := by
    have := i.pos
    refine Fin.ext ?_
    dsimp only
    rw [Nat.mod_add_mod, show (i : ℕ) + 1 + (n - 1) = i + n by omega, Nat.add_mod_right,
      Nat.mod_eq_of_lt i.isLt]
  right_inv i := by
    have := i.pos
    refine Fin.ext ?_
    dsimp only
    rw [Nat.mod_add_mod, show (i : ℕ) + (n - 1) + 1 = i + n by omega, Nat.add_mod_right,
      Nat.mod_eq_of_lt i.isLt]

/-- What does not change from one position to the next is the same everywhere on the ring. -/
theorem eq_of_next_eq {n : ℕ} {x : Fin n → ℝ} (h : ∀ i, x (nextPosition n i) = x i) (i j : Fin n) :
    x i = x j := by
  have first : ∀ k (hk : k < n), x ⟨k, hk⟩ = x ⟨0, i.pos⟩ := by
    intro k hk
    induction k with
    | zero => rfl
    | succ k ih =>
      have next : nextPosition n ⟨k, by omega⟩ = ⟨k + 1, hk⟩ := Fin.ext (Nat.mod_eq_of_lt hk)
      rw [← next, h, ih]
  rw [first i i.isLt, first j j.isLt]

/-! ## Gains -/

section

variable {ι : Type} [Fintype ι] (next : Equiv.Perm ι) (x y : ι → ℝ)

/-- What a position gains from its two neighbours. -/
def gain (i : ι) : ℝ := (x (next.symm i) - x i) + (x (next i) - x i)

/-- Summation by parts. -/
theorem sum_mul_gain :
    ∑ i, y i * gain next x i = -∑ i, (y (next i) - y i) * (x (next i) - x i) := by
  -- What comes from the previous position is counted there.
  have back : ∑ i, y i * (x (next.symm i) - x i) = ∑ i, y (next i) * (x i - x (next i)) := by
    simpa using (Equiv.sum_comp next fun i => y i * (x (next.symm i) - x i)).symm
  calc ∑ i, y i * gain next x i
      = ∑ i, y i * (x (next.symm i) - x i) + ∑ i, y i * (x (next i) - x i) := by
        simp only [gain, mul_add, Finset.sum_add_distrib]
    _ = ∑ i, y (next i) * (x i - x (next i)) + ∑ i, y i * (x (next i) - x i) := by rw [back]
    _ = -∑ i, (y (next i) - y i) * (x (next i) - x i) := by
        rw [← Finset.sum_add_distrib, ← Finset.sum_neg_distrib]
        exact Finset.sum_congr rfl fun i _ => by ring

/-- What one position gains others lose. -/
theorem sum_gain : ∑ i, gain next x i = 0 := by
  simpa using sum_mul_gain next x 1

theorem sum_mul_gain_comm : ∑ i, y i * gain next x i = ∑ i, gain next y i * x i := by
  simp only [mul_comm (gain next y _)]
  rw [sum_mul_gain, sum_mul_gain]
  exact congrArg _ (Finset.sum_congr rfl fun i _ => mul_comm _ _)

theorem sum_mul_gain_self : ∑ i, x i * gain next x i = -∑ i, (x (next i) - x i) ^ 2 := by
  simp only [sum_mul_gain, sq]

end

/-! ## The stencil -/

theorem stencilLaplacian_ofFn {n : ℕ} (x : Fin n → ℝ) :
    stencilLaplacian (List.ofFn x) = List.ofFn (gain (nextPosition n) x) := by
  have differences (prev center next : ℝ) :
      prev + next - 2 * center = (prev - center) + (next - center) := by ring
  refine List.ext_getElem (by simp) fun i hi _ => ?_
  simp only [getElem_stencilLaplacian, List.getElem_ofFn, List.length_ofFn, two_literal,
    differences]
  rfl

/-- In exact arithmetic diffusion keeps the length of a series, and what it adds sums to zero.  It
is a symmetric operator.  Its product with the series itself is the negative sum of the squared
differences of neighbours, so that it is never positive, and zero for constant series only. -/
theorem diffusion_conserves_and_dissipates {n : ℕ} (u v : Fin n → ℝ) :
    (stencilLaplacian (List.ofFn v)).length = n ∧
    (stencilLaplacian (List.ofFn v)).sum = 0 ∧
    innerProduct (List.ofFn u) (stencilLaplacian (List.ofFn v)) =
      innerProduct (stencilLaplacian (List.ofFn u)) (List.ofFn v) ∧
    innerProduct (List.ofFn v) (stencilLaplacian (List.ofFn v)) =
      -∑ i, (v (nextPosition n i) - v i) ^ 2 ∧
    innerProduct (List.ofFn v) (stencilLaplacian (List.ofFn v)) ≤ 0 ∧
    (innerProduct (List.ofFn v) (stencilLaplacian (List.ofFn v)) = 0 ↔ ∀ i j, v i = v j) := by
  have product (x y : Fin n → ℝ) : innerProduct (List.ofFn y) (stencilLaplacian (List.ofFn x)) =
      ∑ i, y i * gain (nextPosition n) x i := by
    rw [stencilLaplacian_ofFn, innerProduct_ofFn]
  have form := (product v v).trans (sum_mul_gain_self (nextPosition n) v)
  have squares : ∀ i ∈ Finset.univ, 0 ≤ (v (nextPosition n i) - v i) ^ 2 := fun i _ => sq_nonneg _
  refine ⟨by simp, ?_, ?_, form, ?_, ?_⟩
  · rw [stencilLaplacian_ofFn, List.sum_ofFn, sum_gain]
  · rw [product, sum_mul_gain_comm, stencilLaplacian_ofFn, innerProduct_ofFn]
  · rw [form]
    exact neg_nonpos.2 (Finset.sum_nonneg squares)
  · rw [form, neg_eq_zero, Finset.sum_eq_zero_iff_of_nonneg squares]
    constructor
    · intro still
      exact eq_of_next_eq fun i => sub_eq_zero.1 (sq_eq_zero_iff.1 (still i (Finset.mem_univ i)))
    · intro constant i _
      rw [constant _ i, sub_self, zero_pow two_ne_zero]

end AdaptivePopulation.Series
