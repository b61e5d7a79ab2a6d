import AdaptivePopulation.Config.Basic
import AdaptivePopulation.Proofs.Spectrum.Jacobi

/-!
# Diagonal matrices

Off the diagonal of a diagonal matrix there is nothing to find.  A run with a positive tolerance
ends there.  With any other tolerance it goes on, with the corner entry as pivot on both sides, and
annihilates that entry: an eigenvalue is lost.
-/

namespace AdaptivePopulation

namespace SquareMatrix

variable {n : ℕ} {A : SquareMatrix ℝ n}

/-- Off the diagonal the matrix is zero. -/
def IsDiagonal (A : SquareMatrix ℝ n) : Prop := ∀ i j, i ≠ j → A.get i j = 0

/-- The matrix with zero for its diagonal entry at a position. -/
def without (A : SquareMatrix ℝ n) (p : Fin n) : SquareMatrix ℝ n :=
  .ofFn fun i j => if i = p ∧ j = p then 0 else A.get i j

theorem IsDiagonal.without (diagonal : A.IsDiagonal) (p : Fin n) : (A.without p).IsDiagonal := by
  intro i j ne
  simp [SquareMatrix.without, diagonal i j ne]

theorem without_without (A : SquareMatrix ℝ n) (p : Fin n) :
    (A.without p).without p = A.without p := by
  ext i j
  simp only [without, get_ofFn]
  split_ifs <;> rfl

theorem diagonal_without (A : SquareMatrix ℝ n) (p : Fin n) :
    (A.without p).diagonal = A.diagonal.set p 0 := by
  refine List.ext_getElem (by simp [diagonal]) fun i hi _ => ?_
  simp [diagonal, without, List.getElem_set, Fin.ext_iff, eq_comm]

theorem diagonal_without_eq_iff {p : Fin n} :
    (A.without p).diagonal = A.diagonal ↔ A.get p p = 0 := by
  rw [diagonal, diagonal, List.ofFn_inj]
  constructor
  · intro same
    simpa [without, eq_comm] using congrFun same p
  · intro zero
    ext i
    simp only [without, get_ofFn, and_self]
    split_ifs with hi
    · rw [hi, zero]
    · rfl

end SquareMatrix

namespace Spectrum

variable {n : ℕ} {A : SquareMatrix ℝ n}

theorem largestOffDiagonal_of_isDiagonal (diagonal : A.IsDiagonal) :
    largestOffDiagonal A = (0, none) := by
  have found := found_largestOffDiagonal A
  generalize largestOffDiagonal A = best at found ⊢
  cases found with
  | nothing => rfl
  | entry mem ne => exact absurd (diagonal _ _ (mem_upperPositions.1 mem).ne) ne

/-- A diagonal entry that is taken for a pivot is lost, whatever the angle. -/
theorem Rotation.entry_self (r : Rotation ℝ) (diagonal : A.IsDiagonal) (p i j : Fin n) :
    r.entry A p p i j = (A.without p).get i j := by
  have column (i : Fin n) (ip : i ≠ p) : A.get i p = 0 := diagonal i p ip
  simp only [entry, SquareMatrix.without, SquareMatrix.get_ofFn, zero_literal, or_self]
  by_cases ip : i = p <;> by_cases jp : j = p
  · simp only [ip, jp, and_self, if_true]
  · simp only [ip, jp, and_false, if_false, if_true, column j jp, diagonal p j (Ne.symm jp),
      mul_zero, add_zero]
  · simp only [ip, jp, false_and, if_false, if_true, column i ip, mul_zero, add_zero]
  · simp only [ip, jp, and_self, if_false]

theorem rotate_self (diagonal : A.IsDiagonal) (p : Fin n) : rotate A p p = A.without p := by
  ext i j
  rw [get_rotate, Rotation.entry_self _ diagonal]

theorem diagonalize_of_isDiagonal (h : 0 < n) (diagonal : A.IsDiagonal) (tolerance : ℝ)
    (limit : ℕ) :
    diagonalize h tolerance limit A =
      if 0 < tolerance ∨ limit = 0 then A else A.without ⟨0, h⟩ := by
  induction limit generalizing A with
  | zero => rw [if_pos (.inr rfl), diagonalize]
  | succ limit ih =>
    have largest := largestOffDiagonal_of_isDiagonal diagonal
    by_cases positive : 0 < tolerance
    · rw [if_pos (.inl positive)]
      exact diagonalize_of_lt (by rwa [largest]) _
    · have round : diagonalize h tolerance (limit + 1) A =
          diagonalize h tolerance limit (A.without ⟨0, h⟩) := by
        rw [← rotate_self diagonal]
        exact diagonalize_of_not_lt (by rwa [largest]) (by rw [largest]; rfl) limit
      rw [round, ih (diagonal.without _), SquareMatrix.without_without, ite_self]
      exact (if_neg (by simpa using positive)).symm

theorem jacobiEigenvalues_of_isDiagonal (h : 0 < n) (diagonal : A.IsDiagonal) (tolerance : ℝ)
    (limit : ℕ) :
    jacobiEigenvalues n A tolerance limit =
      .ok (if 0 < tolerance ∨ limit = 0 then A.diagonal else A.diagonal.set 0 0) := by
  rw [jacobiEigenvalues_eq h, diagonalize_of_isDiagonal h diagonal]
  split_ifs
  · rfl
  · rw [SquareMatrix.diagonal_without]

/-- With a positive tolerance, or if no rotation is allowed, the eigenvalues of a diagonal matrix
are its diagonal, those of a matrix stay as they are from when its rotations have made it diagonal,
and a run on what a run has given changes nothing.  With any other tolerance the first entry is lost
in each case, even though validation accepts every tolerance and every limit. -/
theorem positive_tolerance_keeps_diagonal (h : 0 < n) (A : SquareMatrix ℝ n) (tolerance : ℝ)
    (limit : ℕ) :
    (A.IsDiagonal →
      jacobiEigenvalues n A tolerance limit =
        .ok (if 0 < tolerance ∨ limit = 0 then A.diagonal else A.diagonal.set 0 0) ∧
      (jacobiEigenvalues n A tolerance limit = .ok A.diagonal ↔
        0 < tolerance ∨ limit = 0 ∨ A.get ⟨0, h⟩ ⟨0, h⟩ = 0)) ∧
    (∃ values, jacobiEigenvalues n A tolerance limit = .ok values ∧
      ((diagonalize h tolerance limit A).IsDiagonal → ∀ more,
        jacobiEigenvalues n A tolerance (limit + more) =
          .ok (if 0 < tolerance ∨ more = 0 then values else values.set 0 0)) ∧
      (∀ B : SquareMatrix ℝ n, B.IsDiagonal → B.diagonal = values → ∀ again,
        jacobiEigenvalues n B tolerance again =
          .ok (if 0 < tolerance ∨ again = 0 then values else values.set 0 0))) ∧
    ∀ (c : EngineConfig) (epsilon : Float) (maxRotations : ℕ),
      { c with spectral := { c.spectral with epsilon, maxRotations } }.validate = c.validate := by
  refine ⟨fun diagonal => ⟨jacobiEigenvalues_of_isDiagonal h diagonal tolerance limit, ?_⟩,
    ⟨_, jacobiEigenvalues_eq h A tolerance limit, ?_, ?_⟩, fun _ _ _ => rfl⟩
  · rw [jacobiEigenvalues_eq h, diagonalize_of_isDiagonal h diagonal, Except.ok.injEq, ← or_assoc]
    split_ifs with kept
    · exact iff_of_true rfl (.inl kept)
    · rw [SquareMatrix.diagonal_without_eq_iff, or_iff_right kept]
  · intro diagonal more
    rw [jacobiEigenvalues_eq h, diagonalize_add, ← jacobiEigenvalues_eq h,
      jacobiEigenvalues_of_isDiagonal h diagonal]
  · rintro B diagonal same again
    rw [jacobiEigenvalues_of_isDiagonal h diagonal, same]

/-- The eigenvalues `3` and `5` stay, and the first is lost to a run without tolerance. -/
theorem positive_tolerance_keeps_diagonal_pair :
    let A : SquareMatrix ℝ 2 := .ofFn fun i j => if i = j then (if i.val = 0 then 3 else 5) else 0
    jacobiEigenvalues 2 A 1 50 = .ok [3, 5] ∧ jacobiEigenvalues 2 A 0 50 = .ok [0, 5] := by
  intro A
  have diagonal : A.IsDiagonal := fun i j ne => by simp [A, ne]
  have kept := ((positive_tolerance_keeps_diagonal two_pos A 1 50).1 diagonal).1
  have lost := ((positive_tolerance_keeps_diagonal two_pos A 0 50).1 diagonal).1
  rw [if_pos (.inl one_pos)] at kept
  rw [if_neg (by norm_num)] at lost
  have values : A.diagonal = [3, 5] := by simp [A, SquareMatrix.diagonal]
  rw [values] at kept lost
  exact ⟨kept, lost⟩

/-- A valid configuration without tolerance, and a matrix that loses its only eigenvalue. -/
theorem corner_is_lost :
    let c := { EngineConfig.standard with
      spectral := { SpectralConfig.standard with epsilon := 0.0, maxRotations := 1 } }
    let A : SquareMatrix ℝ 1 := .ofFn fun _ _ => 1
    c.validate = .ok () ∧ A.IsDiagonal ∧ A.diagonal = [1] ∧
      jacobiEigenvalues 1 A 0 1 = .ok [0] := by
  let A : SquareMatrix ℝ 1 := .ofFn fun _ _ => 1
  have diagonal : A.IsDiagonal := fun i j ne => absurd (Subsingleton.elim i j) ne
  have values : A.diagonal = [1] := by simp [A, SquareMatrix.diagonal]
  have lost : jacobiEigenvalues 1 A 0 1 = .ok [0] := by
    rw [jacobiEigenvalues_of_isDiagonal one_pos diagonal, if_neg (by norm_num), values, List.set]
  exact ⟨rfl, diagonal, values, lost⟩

end Spectrum

end AdaptivePopulation
