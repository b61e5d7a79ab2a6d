import AdaptivePopulation.Proofs.Spectrum.Rotation

/-!
# Runs of rotations

The pivot of a rotation is a largest entry above the diagonal.  With a positive tolerance a
symmetric matrix is therefore rotated only at an entry that is not zero, each time to a symmetric
matrix that is orthogonally similar, with less off the diagonal.
-/

namespace AdaptivePopulation.Spectrum

variable {n : ℕ}

/-! ## Rounds in any arithmetic -/

section

variable {α : Type} [Scalar α] {h : 0 < n} {tolerance : α} {A : SquareMatrix α n}

theorem diagonalize_of_lt (small : (largestOffDiagonal A).1 < tolerance) (limit : ℕ) :
    diagonalize h tolerance limit A = A := by
  cases limit with
  | zero => rfl
  | succ limit => exact if_pos small

theorem diagonalize_of_not_lt (large : ¬ (largestOffDiagonal A).1 < tolerance) {p q : Fin n}
    (pivot : (largestOffDiagonal A).2.getD (⟨0, h⟩, ⟨0, h⟩) = (p, q)) (limit : ℕ) :
    diagonalize h tolerance (limit + 1) A = diagonalize h tolerance limit (rotate A p q) := by
  have round : diagonalize h tolerance (limit + 1) A =
      diagonalize h tolerance limit (rotate A
        ((largestOffDiagonal A).2.getD (⟨0, h⟩, ⟨0, h⟩)).1
        ((largestOffDiagonal A).2.getD (⟨0, h⟩, ⟨0, h⟩)).2) := if_neg large
  rw [round, pivot]

/-- More rotations continue where fewer have ended. -/
theorem diagonalize_add (j k : ℕ) (A : SquareMatrix α n) :
    diagonalize h tolerance (j + k) A =
      diagonalize h tolerance k (diagonalize h tolerance j A) := by
  induction j generalizing A with
  | zero => rw [Nat.zero_add, diagonalize]
  | succ j ih =>
    by_cases small : (largestOffDiagonal A).1 < tolerance
    · simp only [diagonalize_of_lt small]
    · rw [Nat.add_right_comm, diagonalize_of_not_lt small rfl, diagonalize_of_not_lt small rfl, ih]

theorem diagonalize_succ (k : ℕ) (A : SquareMatrix α n) :
    diagonalize h tolerance (k + 1) A =
      diagonalize h tolerance 1 (diagonalize h tolerance k A) :=
  diagonalize_add k 1 A

theorem jacobiEigenvalues_eq (h : 0 < n) (A : SquareMatrix α n) (tolerance : α) (limit : ℕ) :
    jacobiEigenvalues n A tolerance limit = .ok (diagonalize h tolerance limit A).diagonal := by
  cases n with
  | zero => exact absurd h (lt_irrefl 0)
  | succ n => rfl

end

variable {A B : SquareMatrix ℝ n} {h : 0 < n} {tolerance : ℝ}

/-! ## The pivot -/

theorem abs_eq (x : ℝ) : Scalar.abs x = |x| := by
  unfold Scalar.abs
  split_ifs with h <;> rw [zero_literal] at h
  · exact (abs_of_neg h).symm
  · exact (abs_of_nonneg (not_lt.1 h)).symm

theorem mem_upperPositions {i j : Fin n} : (i, j) ∈ upperPositions n ↔ i < j := by
  simp [upperPositions]

/-- What a search among some positions finds: a largest magnitude, if any is positive. -/
inductive Found (A : SquareMatrix ℝ n) (positions : List (Fin n × Fin n)) :
    ℝ × Option (Fin n × Fin n) → Prop where
  | nothing (zero : ∀ x ∈ positions, A.get x.1 x.2 = 0) : Found A positions (0, none)
  | entry {p q : Fin n} (mem : (p, q) ∈ positions) (ne : A.get p q ≠ 0)
      (largest : ∀ x ∈ positions, |A.get x.1 x.2| ≤ |A.get p q|) :
      Found A positions (|A.get p q|, some (p, q))

theorem Found.consider {positions : List (Fin n × Fin n)} {best : ℝ × Option (Fin n × Fin n)}
    (found : Found A positions best) (i j : Fin n) :
    Found A (positions ++ [(i, j)])
      (if best.1 < |A.get i j| then (|A.get i j|, some (i, j)) else best) := by
  have last : (i, j) ∈ positions ++ [(i, j)] := List.mem_append_right _ (List.mem_singleton_self _)
  cases found with
  | nothing zero =>
    split_ifs with more
    · refine .entry last (abs_pos.1 more) (List.forall_mem_append.2 ⟨fun x hx => ?_, ?_⟩)
      · rw [zero x hx, abs_zero]
        exact abs_nonneg _
      · exact List.forall_mem_singleton.2 le_rfl
    · refine .nothing (List.forall_mem_append.2 ⟨zero, List.forall_mem_singleton.2 ?_⟩)
      exact abs_nonpos_iff.1 (not_lt.1 more)
  | entry mem ne largest =>
    split_ifs with more
    · refine .entry last (abs_pos.1 ((abs_nonneg _).trans_lt more)) (List.forall_mem_append.2 ?_)
      exact ⟨fun x hx => (largest x hx).trans more.le, List.forall_mem_singleton.2 le_rfl⟩
    · refine .entry (List.mem_append_left _ mem) ne (List.forall_mem_append.2 ⟨largest, ?_⟩)
      exact List.forall_mem_singleton.2 (not_lt.1 more)

theorem found_largestOffDiagonal (A : SquareMatrix ℝ n) :
    Found A (upperPositions n) (largestOffDiagonal A) := by
  unfold largestOffDiagonal
  simp only [abs_eq, zero_literal]
  induction upperPositions n using List.reverseRecOn with
  | nil => exact .nothing fun x hx => absurd hx List.not_mem_nil
  | append_singleton positions position ih =>
    rw [List.foldl_append]
    exact ih.consider position.1 position.2

/-- No entry off the diagonal of a symmetric matrix exceeds the magnitude that the search finds. -/
theorem abs_get_le_largest (symmetric : A.IsSymmetric) {i j : Fin n} (ne : i ≠ j) :
    |A.get i j| ≤ (largestOffDiagonal A).1 := by
  have above (i j : Fin n) (lt : i < j) : |A.get i j| ≤ (largestOffDiagonal A).1 := by
    have found := found_largestOffDiagonal A
    generalize largestOffDiagonal A = best at found ⊢
    cases found with
    | nothing zero => rw [zero (i, j) (mem_upperPositions.2 lt), abs_zero]
    | entry mem ne largest => exact largest (i, j) (mem_upperPositions.2 lt)
  obtain lt | lt := ne.lt_or_gt
  · exact above i j lt
  · rw [symmetric i j]
    exact above j i lt

/-! ## Rotations -/

/-- All that one rotation of a run does, from a symmetric matrix to the next. -/
structure Rotates (tolerance : ℝ) (A B : SquareMatrix ℝ n) (p q : Fin n) : Prop where
  found : largestOffDiagonal A = (|A.get p q|, some (p, q))
  above : p < q
  large : tolerance ≤ |A.get p q|
  largest : ∀ i j, i ≠ j → A.get i j ^ 2 ≤ A.get p q ^ 2
  rotated : B = rotate A p q
  annihilated : B.get p q = 0
  similar : A.OrthogonallySimilar B
  symmetric : B.IsSymmetric
  trace : B.trace = A.trace
  squares : B.squares = A.squares
  offDiagonal : B.offDiagonalSquares = A.offDiagonalSquares - 2 * A.get p q ^ 2

theorem Rotates.diagonalSquares_le {p q : Fin n} (rotates : Rotates tolerance A B p q) :
    A.diagonalSquares ≤ B.diagonalSquares := by
  have before := A.squares_eq
  have after := B.squares_eq
  rw [rotates.squares, rotates.offDiagonal] at after
  linarith [sq_nonneg (A.get p q)]

/-- A round with a positive tolerance ends the run or rotates. -/
theorem first_round (symmetric : A.IsSymmetric) (positive : 0 < tolerance) :
    (largestOffDiagonal A).1 < tolerance ∧ diagonalize h tolerance 1 A = A ∨
      ∃ p q, Rotates tolerance A (diagonalize h tolerance 1 A) p q := by
  by_cases small : (largestOffDiagonal A).1 < tolerance
  · exact .inl ⟨small, diagonalize_of_lt small 1⟩
  have largest (i j : Fin n) := abs_get_le_largest (i := i) (j := j) symmetric
  have found := found_largestOffDiagonal A
  generalize hbest : largestOffDiagonal A = best at found small largest
  cases found with
  | nothing zero => exact absurd positive small
  | @entry p q mem ne _ =>
    have above : p < q := mem_upperPositions.1 mem
    have rotated : diagonalize h tolerance 1 A = rotate A p q :=
      diagonalize_of_not_lt (by rwa [hbest]) (by rw [hbest]; rfl) 0
    have similar := similar_rotate symmetric above.ne ne
    refine .inr ⟨p, q, ?_⟩
    rw [rotated]
    exact {
      found := hbest
      above
      large := not_lt.1 small
      largest := fun i j hij => sq_le_sq.2 (largest i j hij)
      rotated := rfl
      annihilated := get_rotate_pivot A p q
      similar
      symmetric := similar.isSymmetric symmetric
      trace := similar.trace_eq
      squares := similar.squares_eq symmetric
      offDiagonal := offDiagonalSquares_rotate symmetric above.ne ne }

/-! ## Runs -/

section

variable (h) (symmetric : A.IsSymmetric) (positive : 0 < tolerance)

include symmetric positive

theorem similar_diagonalize (limit : ℕ) :
    A.OrthogonallySimilar (diagonalize h tolerance limit A) := by
  induction limit with
  | zero => exact .refl A
  | succ limit ih =>
    rw [diagonalize_succ]
    obtain ⟨-, same⟩ | ⟨p, q, rotates⟩ := first_round (ih.isSymmetric symmetric) positive
    · rwa [same]
    · exact ih.trans rotates.similar

theorem each_round (k : ℕ) :
    (largestOffDiagonal (diagonalize h tolerance k A)).1 < tolerance ∧
        diagonalize h tolerance (k + 1) A = diagonalize h tolerance k A ∨
      ∃ p q, Rotates tolerance (diagonalize h tolerance k A)
        (diagonalize h tolerance (k + 1) A) p q := by
  rw [diagonalize_succ]
  exact first_round ((similar_diagonalize h symmetric positive k).isSymmetric symmetric) positive

theorem diagonalSquares_mono :
    Monotone fun limit => (diagonalize h tolerance limit A).diagonalSquares := by
  refine monotone_nat_of_le_succ fun limit => ?_
  obtain ⟨-, same⟩ | ⟨p, q, rotates⟩ := each_round h symmetric positive limit
  · rw [same]
  · exact rotates.diagonalSquares_le

/-- A run rotates until it has reached its limit or no entry off the diagonal is large. -/
theorem exists_count (limit : ℕ) :
    ∃ count ≤ limit, diagonalize h tolerance limit A = diagonalize h tolerance count A ∧
      (∀ k < count, ∃ p q, Rotates tolerance (diagonalize h tolerance k A)
        (diagonalize h tolerance (k + 1) A) p q) ∧
      (count < limit →
        (largestOffDiagonal (diagonalize h tolerance count A)).1 < tolerance) := by
  induction limit with
  | zero =>
    exact ⟨0, le_rfl, rfl, fun k hk => absurd hk (Nat.not_lt_zero k),
      fun hk => absurd hk (Nat.not_lt_zero 0)⟩
  | succ limit ih =>
    obtain ⟨count, le, last, rotations, stopped⟩ := ih
    obtain ⟨small, same⟩ | rotates := each_round h symmetric positive limit
    · exact ⟨count, Nat.le_succ_of_le le, same.trans last, rotations, fun _ => last ▸ small⟩
    · obtain lt | rfl := lt_or_eq_of_le le
      · have same : diagonalize h tolerance (limit + 1) A = diagonalize h tolerance count A := by
          rw [diagonalize_succ, last, diagonalize_of_lt (stopped lt)]
        exact ⟨count, Nat.le_succ_of_le le, same, rotations, fun _ => stopped lt⟩
      · refine ⟨count + 1, le_rfl, rfl, fun k hk => ?_, fun lt => absurd lt (lt_irrefl _)⟩
        obtain lt | rfl := Nat.lt_succ_iff_lt_or_eq.1 hk
        · exact rotations k lt
        · exact rotates

end

/-! ## Eigenvalues -/

theorem jacobiEigenvalues_zero (A : SquareMatrix ℝ 0) (positive : 0 < tolerance) (limit : ℕ) :
    jacobiEigenvalues 0 A tolerance limit = .ok [] := by
  exact if_pos (.inr (zero_literal ▸ positive))

/-- A run on a symmetric matrix performs at most as many rotations as its limit allows.  Each takes
a symmetric matrix to one that is orthogonally similar and has less off the diagonal, by twice the
square of the pivot, which is the largest there; a run that performs fewer leaves no entry off the
diagonal that reaches the tolerance.  So the values sum to the trace, and their squares to more the
more rotations are allowed, but never to more than those of the matrix. -/
theorem rotations_are_similarities (A : SquareMatrix ℝ n) (symmetric : A.IsSymmetric)
    (positive : 0 < tolerance) (limit : ℕ) :
    ∃ values, jacobiEigenvalues n A tolerance limit = .ok values ∧
      (∃ count ≤ limit, ∃ working : ℕ → SquareMatrix ℝ n,
        working 0 = A ∧ values = (working count).diagonal ∧
        (∀ k ≤ count, jacobiEigenvalues n A tolerance k = .ok (working k).diagonal) ∧
        (∀ k < count, ∃ p q, Rotates tolerance (working k) (working (k + 1)) p q) ∧
        (count < limit → ∀ i j, i ≠ j → |(working count).get i j| < tolerance)) ∧
      values.sum = A.trace ∧
      (values.map (· ^ 2)).sum ≤ A.squares ∧
      ∀ (more : ℕ) (values' : List ℝ), limit ≤ more →
        jacobiEigenvalues n A tolerance more = .ok values' →
          (values.map (· ^ 2)).sum ≤ (values'.map (· ^ 2)).sum := by
  obtain rfl | h := n.eq_zero_or_pos
  · refine ⟨[], jacobiEigenvalues_zero A positive limit, ⟨0, zero_le, fun _ => A, rfl, rfl,
      fun k _ => jacobiEigenvalues_zero A positive k, fun k hk => absurd hk (Nat.not_lt_zero k),
      fun _ i => i.elim0⟩, rfl, le_rfl, ?_⟩
    intro more values' _ result
    rw [jacobiEigenvalues_zero A positive more] at result
    rw [← Except.ok.inj result]
  · have similar := similar_diagonalize h symmetric positive limit
    refine ⟨_, jacobiEigenvalues_eq h A tolerance limit, ?_, ?_, ?_, ?_⟩
    · obtain ⟨count, le, last, rotations, stopped⟩ := exists_count h symmetric positive limit
      refine ⟨count, le, fun k => diagonalize h tolerance k A, rfl, by rw [last],
        fun k _ => jacobiEigenvalues_eq h A tolerance k, rotations, fun lt i j ne => ?_⟩
      have symmetric' := (similar_diagonalize h symmetric positive count).isSymmetric symmetric
      exact (abs_get_le_largest symmetric' ne).trans_lt (stopped lt)
    · rw [SquareMatrix.sum_diagonal, similar.trace_eq]
    · rw [SquareMatrix.sum_squares_diagonal, ← similar.squares_eq symmetric]
      exact SquareMatrix.diagonalSquares_le _
    · intro more values' le result
      rw [jacobiEigenvalues_eq h A tolerance more] at result
      rw [← Except.ok.inj result, SquareMatrix.sum_squares_diagonal,
        SquareMatrix.sum_squares_diagonal]
      exact diagonalSquares_mono h symmetric positive le

/-- The matrix with `2` on its diagonal and `1` beside it. -/
theorem rotations_are_similarities_two :
    let A : SquareMatrix ℝ 2 := .ofFn fun i j => if i = j then 2 else 1
    A.IsSymmetric ∧ ∃ values, jacobiEigenvalues 2 A 1 50 = .ok values ∧ values.sum = 4 ∧
      (values.map (· ^ 2)).sum ≤ 10 := by
  intro A
  have symmetric : A.IsSymmetric := fun i j => by simp [A, eq_comm]
  obtain ⟨values, result, -, sum, squares, -⟩ :=
    rotations_are_similarities A symmetric one_pos 50
  refine ⟨symmetric, values, result, ?_, ?_⟩
  · rw [sum]
    norm_num [A, SquareMatrix.trace]
  · refine squares.trans_eq ?_
    norm_num [A, SquareMatrix.squares, Fin.sum_univ_two]

end AdaptivePopulation.Spectrum
