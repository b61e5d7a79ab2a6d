import Mathlib.LinearAlgebra.Matrix.Symmetric
import Mathlib.LinearAlgebra.Matrix.Trace
import Mathlib.LinearAlgebra.UnitaryGroup
import AdaptivePopulation.Proofs.Exact
import AdaptivePopulation.Spectrum.Jacobi

/-!
# Plane rotations

A rotation updates two rows and two columns of a symmetric matrix entry by entry.  In exact
arithmetic that is a change to another orthonormal basis, so the matrix stays symmetric and keeps
its trace and the sum of its squares.  On the diagonal the sum of squares grows, by as much as the
annihilated entry and its mirror image had.
-/

namespace AdaptivePopulation

open Matrix

variable {n : ℕ}

/-! ## Matrices of real numbers -/

namespace SquareMatrix

variable {A B C : SquareMatrix ℝ n}

/-- The matrix equals its transpose. -/
def IsSymmetric (A : SquareMatrix ℝ n) : Prop := ∀ i j, A.get i j = A.get j i

/-- The sum of the diagonal. -/
def trace (A : SquareMatrix ℝ n) : ℝ := ∑ i, A.get i i

/-- The sum of the squared entries. -/
def squares (A : SquareMatrix ℝ n) : ℝ := ∑ i, ∑ j, A.get i j ^ 2

/-- The sum of the squares on the diagonal. -/
def diagonalSquares (A : SquareMatrix ℝ n) : ℝ := ∑ i, A.get i i ^ 2

/-- The sum of the squares off the diagonal. -/
def offDiagonalSquares (A : SquareMatrix ℝ n) : ℝ := ∑ i, ∑ j ∈ {i}ᶜ, A.get i j ^ 2

theorem squares_eq (A : SquareMatrix ℝ n) :
    A.squares = A.diagonalSquares + A.offDiagonalSquares := by
  simp only [squares, diagonalSquares, offDiagonalSquares, ← Finset.sum_add_distrib]
  exact Finset.sum_congr rfl fun i _ => Fintype.sum_eq_add_sum_compl i _

theorem diagonalSquares_le (A : SquareMatrix ℝ n) : A.diagonalSquares ≤ A.squares := by
  have nonneg : 0 ≤ A.offDiagonalSquares :=
    Finset.sum_nonneg fun i _ => Finset.sum_nonneg fun j _ => sq_nonneg (A.get i j)
  linarith [A.squares_eq]

theorem sum_diagonal (A : SquareMatrix ℝ n) : A.diagonal.sum = A.trace := List.sum_ofFn

theorem sum_squares_diagonal (A : SquareMatrix ℝ n) :
    (A.diagonal.map (· ^ 2)).sum = A.diagonalSquares := by
  rw [diagonal, List.map_ofFn, List.sum_ofFn]
  rfl

/-- The matrix as a function of row and column. -/
def toMatrix (A : SquareMatrix ℝ n) : Matrix (Fin n) (Fin n) ℝ := .of A.get

@[simp] theorem toMatrix_apply (A : SquareMatrix ℝ n) (i j : Fin n) :
    A.toMatrix i j = A.get i j := rfl

theorem isSymm_toMatrix : A.toMatrix.IsSymm ↔ A.IsSymmetric :=
  ⟨fun h i j => h.apply j i, fun h => Matrix.IsSymm.ext fun i j => h j i⟩

theorem trace_toMatrix (A : SquareMatrix ℝ n) : A.toMatrix.trace = A.trace := rfl

theorem IsSymmetric.trace_mul_self (h : A.IsSymmetric) :
    (A.toMatrix * A.toMatrix).trace = A.squares := by
  refine Finset.sum_congr rfl fun i _ => ?_
  rw [Matrix.diag_apply, Matrix.mul_apply]
  exact Finset.sum_congr rfl fun j _ => by
    rw [toMatrix_apply, toMatrix_apply, h j i, sq]

/-- The second matrix is the first one in another orthonormal basis. -/
def OrthogonallySimilar (A B : SquareMatrix ℝ n) : Prop :=
  ∃ Q ∈ orthogonalGroup (Fin n) ℝ, B.toMatrix = Qᵀ * A.toMatrix * Q

namespace OrthogonallySimilar

theorem refl (A : SquareMatrix ℝ n) : A.OrthogonallySimilar A :=
  ⟨1, one_mem _, by simp⟩

theorem trans (h : A.OrthogonallySimilar B) (h' : B.OrthogonallySimilar C) :
    A.OrthogonallySimilar C := by
  obtain ⟨Q, hQ, hB⟩ := h
  obtain ⟨R, hR, hC⟩ := h'
  refine ⟨Q * R, mul_mem hQ hR, ?_⟩
  rw [hC, hB, transpose_mul]
  simp only [Matrix.mul_assoc]

theorem isSymmetric (h : A.OrthogonallySimilar B) (symmetric : A.IsSymmetric) :
    B.IsSymmetric := by
  obtain ⟨Q, -, hB⟩ := h
  rw [← isSymm_toMatrix] at symmetric ⊢
  rw [hB, Matrix.IsSymm, transpose_mul, transpose_mul, transpose_transpose, symmetric.eq,
    Matrix.mul_assoc]

theorem trace_eq (h : A.OrthogonallySimilar B) : B.trace = A.trace := by
  obtain ⟨Q, hQ, hB⟩ := h
  have unit : Q * Qᵀ = 1 := (mem_orthogonalGroup_iff (Fin n) ℝ).1 hQ
  rw [← trace_toMatrix, hB, trace_mul_cycle, unit, Matrix.one_mul, trace_toMatrix]

theorem squares_eq (h : A.OrthogonallySimilar B) (symmetric : A.IsSymmetric) :
    B.squares = A.squares := by
  have symmetric' := h.isSymmetric symmetric
  obtain ⟨Q, hQ, hB⟩ := h
  have unit : Q * Qᵀ = 1 := (mem_orthogonalGroup_iff (Fin n) ℝ).1 hQ
  have product : B.toMatrix * B.toMatrix = Qᵀ * (A.toMatrix * A.toMatrix) * Q := by
    calc B.toMatrix * B.toMatrix
        = Qᵀ * A.toMatrix * (Q * Qᵀ) * A.toMatrix * Q := by
          rw [hB]
          simp only [Matrix.mul_assoc]
      _ = Qᵀ * (A.toMatrix * A.toMatrix) * Q := by
          rw [unit, Matrix.mul_one]
          simp only [Matrix.mul_assoc]
  rw [← symmetric'.trace_mul_self, product, trace_mul_cycle, unit, Matrix.one_mul,
    symmetric.trace_mul_self]

end OrthogonallySimilar

end SquareMatrix

namespace Spectrum

variable {A : SquareMatrix ℝ n} {p q : Fin n}

namespace Rotation

/-! ## The angle -/

/-- A rotation by an angle that annihilates the entry `(p, q)`. -/
structure Annihilates (r : Rotation ℝ) (A : SquareMatrix ℝ n) (p q : Fin n) : Prop where
  circle : r.cosine ^ 2 + r.sine ^ 2 = 1
  sine : r.sine = r.tangent * r.cosine
  root : r.tangent ^ 2 * A.get p q + r.tangent * (A.get q q - A.get p p) = A.get p q

/-- Both branches of the tangent solve `t² + 2θt = 1`. -/
theorem tangent_root {theta root : ℝ} (pos : 0 < root) (square : root ^ 2 = 1 + theta * theta) :
    let t := if 0 ≤ theta then 1 / (theta + root) else -1 / (-theta + root)
    t ^ 2 + 2 * theta * t = 1 := by
  intro t
  suffices h : (t * root) ^ 2 = (1 - t * theta) ^ 2 by
    linear_combination h - t ^ 2 * square
  by_cases sign : 0 ≤ theta
  · have unit : t * (theta + root) = 1 := by
      simp only [t, if_pos sign]
      exact one_div_mul_cancel (by linarith)
    rw [show t * root = 1 - t * theta by linarith]
  · have unit : t * (-theta + root) = -1 := by
      simp only [t, if_neg sign]
      exact div_mul_cancel₀ _ (by linarith)
    rw [show t * root = -(1 - t * theta) by linarith, neg_sq]

theorem annihilates_annihilating (h : A.get p q ≠ 0) :
    (annihilating A p q).Annihilates A p q := by
  set r := annihilating A p q with hr
  let theta := (A.get q q - A.get p p) / (2 * A.get p q)
  have one_add_pos (x : ℝ) : 0 < 1 + x * x := by linarith [mul_self_nonneg x]
  have tangent : r.tangent = if 0 ≤ theta then 1 / (theta + √(1 + theta * theta))
      else -1 / (-theta + √(1 + theta * theta)) := by
    norm_num [hr, annihilating, Scalar.sqrt, theta]
  have cosine : r.cosine = 1 / √(1 + r.tangent * r.tangent) := by
    norm_num [hr, annihilating, Scalar.sqrt]
  have sine : r.sine = r.tangent * r.cosine := rfl
  refine ⟨?_, sine, ?_⟩
  · have unit : r.cosine * √(1 + r.tangent * r.tangent) = 1 := by
      rw [cosine]
      exact one_div_mul_cancel (Real.sqrt_pos.2 (one_add_pos _)).ne'
    calc r.cosine ^ 2 + r.sine ^ 2 = r.cosine ^ 2 * (1 + r.tangent * r.tangent) := by
          rw [sine]
          ring
      _ = (r.cosine * √(1 + r.tangent * r.tangent)) ^ 2 := by
          rw [mul_pow, Real.sq_sqrt (one_add_pos _).le]
      _ = 1 := by rw [unit, one_pow]
  · have quadratic : r.tangent ^ 2 + 2 * theta * r.tangent = 1 := by
      rw [tangent]
      exact tangent_root (Real.sqrt_pos.2 (one_add_pos theta)) (Real.sq_sqrt (one_add_pos _).le)
    have ratio : theta * (2 * A.get p q) = A.get q q - A.get p p :=
      div_mul_cancel₀ _ (mul_ne_zero two_ne_zero h)
    linear_combination A.get p q * quadratic - r.tangent * ratio

/-! ## The change of basis -/

/-- The basis that a rotation turns the standard one into, in the plane of `p` and `q`. -/
def basis (r : Rotation ℝ) (p q : Fin n) : Matrix (Fin n) (Fin n) ℝ := .of fun i j =>
  if j = p then r.cosine * (1 : Matrix _ _ ℝ) i p - r.sine * (1 : Matrix _ _ ℝ) i q
  else if j = q then r.sine * (1 : Matrix _ _ ℝ) i p + r.cosine * (1 : Matrix _ _ ℝ) i q
  else (1 : Matrix _ _ ℝ) i j

theorem mul_basis_apply (r : Rotation ℝ) (M : Matrix (Fin n) (Fin n) ℝ) (i j : Fin n) :
    (M * r.basis p q) i j =
      if j = p then r.cosine * M i p - r.sine * M i q
      else if j = q then r.sine * M i p + r.cosine * M i q
      else M i j := by
  have column (k : Fin n) : ∑ x, M i x * (1 : Matrix _ _ ℝ) x k = M i k := by
    rw [← Matrix.mul_apply, Matrix.mul_one]
  simp only [Matrix.mul_apply, basis, of_apply]
  split_ifs
  · rw [← column p, ← column q, Finset.mul_sum, Finset.mul_sum, ← Finset.sum_sub_distrib]
    exact Finset.sum_congr rfl fun x _ => by ring
  · rw [← column p, ← column q, Finset.mul_sum, Finset.mul_sum, ← Finset.sum_add_distrib]
    exact Finset.sum_congr rfl fun x _ => by ring
  · exact column j

theorem basis_transpose_mul_apply (r : Rotation ℝ) (M : Matrix (Fin n) (Fin n) ℝ) (i j : Fin n) :
    ((r.basis p q)ᵀ * M) i j =
      if i = p then r.cosine * M p j - r.sine * M q j
      else if i = q then r.sine * M p j + r.cosine * M q j
      else M i j := by
  rw [← Matrix.transpose_apply (_ * M), transpose_mul, transpose_transpose, mul_basis_apply]
  rfl

/-- The positions that a rotation tells apart. -/
theorem eq_or_eq_or_ne (p q i : Fin n) : i = p ∨ i = q ∨ i ≠ p ∧ i ≠ q := by
  tauto

namespace Annihilates

variable {r : Rotation ℝ}

theorem basis_mem (h : r.Annihilates A p q) (ne : p ≠ q) :
    r.basis p q ∈ orthogonalGroup (Fin n) ℝ := by
  have circle := h.circle
  refine (mem_orthogonalGroup_iff' (Fin n) ℝ).2 ?_
  show (r.basis p q)ᵀ * r.basis p q = 1
  ext i j
  rw [basis_transpose_mul_apply]
  simp only [basis, of_apply, Matrix.one_apply]
  -- In the plane of `p` and `q` the columns are `(c, -s)` and `(s, c)`, and elsewhere as they were.
  obtain hi | hi | ⟨ip, iq⟩ := eq_or_eq_or_ne p q i <;>
    obtain hj | hj | ⟨jp, jq⟩ := eq_or_eq_or_ne p q j <;>
    simp only [*, ne.symm, if_true, if_false]
  · linear_combination circle
  · ring
  · simp [jp.symm, jq.symm]
  · ring
  · linear_combination circle
  · simp [jp.symm, jq.symm]
  · ring
  · ring

/-- The update entry by entry is the change of basis. -/
theorem entry_eq (h : r.Annihilates A p q) (symmetric : A.IsSymmetric) (ne : p ≠ q)
    (i j : Fin n) :
    r.entry A p q i j = ((r.basis p q)ᵀ * A.toMatrix * r.basis p q) i j := by
  obtain ⟨circle, sine, root⟩ := h
  rw [sine] at circle
  have mirror : A.get q p = A.get p q := symmetric q p
  simp only [mul_basis_apply, basis_transpose_mul_apply, SquareMatrix.toMatrix_apply, entry, sine]
  -- The annihilated entry and the two corners rest on the root and the circle; the entries of a row
  -- are computed from those of its column.
  obtain hi | hi | ⟨ip, iq⟩ := eq_or_eq_or_ne p q i <;>
    obtain hj | hj | ⟨jp, jq⟩ := eq_or_eq_or_ne p q j <;>
    simp only [*, zero_literal, ne.symm, and_self, false_and, and_false, or_self, or_true, true_or,
      if_true, if_false]
  · linear_combination
      (r.tangent * A.get p q - A.get p p) * circle - r.tangent * r.cosine ^ 2 * root
  · linear_combination r.cosine ^ 2 * root
  · rw [symmetric j p, symmetric j q]
  · linear_combination r.cosine ^ 2 * root
  · linear_combination
      -(A.get q q + r.tangent * A.get p q) * circle + r.tangent * r.cosine ^ 2 * root
  · rw [symmetric j p, symmetric j q]

/-- The squares of the two diagonal entries that change grow by those of the annihilated ones. -/
theorem corner_squares (h : r.Annihilates A p q) :
    (A.get p p - r.tangent * A.get p q) ^ 2 + (A.get q q + r.tangent * A.get p q) ^ 2 =
      A.get p p ^ 2 + A.get q q ^ 2 + 2 * A.get p q ^ 2 := by
  linear_combination 2 * A.get p q * h.root

end Annihilates

end Rotation

/-! ## The rotated matrix -/

theorem get_rotate (A : SquareMatrix ℝ n) (p q i j : Fin n) :
    (rotate A p q).get i j = (Rotation.annihilating A p q).entry A p q i j :=
  SquareMatrix.get_ofFn _ i j

theorem get_rotate_pivot (A : SquareMatrix ℝ n) (p q : Fin n) : (rotate A p q).get p q = 0 := by
  norm_num [get_rotate, Rotation.entry]

theorem similar_rotate (symmetric : A.IsSymmetric) (ne : p ≠ q) (h : A.get p q ≠ 0) :
    A.OrthogonallySimilar (rotate A p q) := by
  have annihilates := Rotation.annihilates_annihilating h
  refine ⟨_, annihilates.basis_mem ne, ?_⟩
  ext i j
  rw [SquareMatrix.toMatrix_apply, get_rotate, annihilates.entry_eq symmetric ne]

theorem diagonalSquares_rotate (ne : p ≠ q) (h : A.get p q ≠ 0) :
    (rotate A p q).diagonalSquares = A.diagonalSquares + 2 * A.get p q ^ 2 := by
  have rest : ∀ i, i ≠ p ∧ i ≠ q → (rotate A p q).get i i ^ 2 - A.get i i ^ 2 = 0 := by
    rintro i ⟨ip, iq⟩
    simp [get_rotate, Rotation.entry, ip, iq]
  have changed : (rotate A p q).diagonalSquares - A.diagonalSquares = 2 * A.get p q ^ 2 := by
    have corner := (Rotation.annihilates_annihilating h).corner_squares
    rw [SquareMatrix.diagonalSquares, SquareMatrix.diagonalSquares, ← Finset.sum_sub_distrib,
      Fintype.sum_eq_add p q ne rest]
    simp only [get_rotate, Rotation.entry, ne, ne.symm, and_self, false_and, and_false, or_self,
      if_true, if_false]
    linear_combination corner
  linear_combination changed

theorem offDiagonalSquares_rotate (symmetric : A.IsSymmetric) (ne : p ≠ q)
    (h : A.get p q ≠ 0) :
    (rotate A p q).offDiagonalSquares = A.offDiagonalSquares - 2 * A.get p q ^ 2 := by
  have squares := (similar_rotate symmetric ne h).squares_eq symmetric
  rw [SquareMatrix.squares_eq, A.squares_eq, diagonalSquares_rotate ne h] at squares
  linear_combination squares

end Spectrum

end AdaptivePopulation
