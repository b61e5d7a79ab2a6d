import AdaptivePopulation.Proofs.Spectrum.Covariance
import AdaptivePopulation.Proofs.Spectrum.Entropy
import AdaptivePopulation.Proofs.Spectrum.Jacobi

/-!
# Windows of one direction

If the centred snapshots of a window are multiples of one vector, their covariance is the outer
product of a vector with itself.  A rotation keeps it one, and clears a coordinate of the vector, so
one rotation less than there are snapshots leaves a single coordinate.  A run that stops before that
has no two coordinates whose product reaches the tolerance.  In both cases at most one eigenvalue is
kept, which makes no entropy.
-/

namespace AdaptivePopulation

open Matrix

variable {n : ℕ}

namespace SquareMatrix

variable {A B : SquareMatrix ℝ n}

/-- The matrix is the outer product of a vector with itself. -/
def IsOuterSquare (A : SquareMatrix ℝ n) : Prop := ∃ w, A.toMatrix = vecMulVec w w

namespace IsOuterSquare

theorem isSymmetric (outer : A.IsOuterSquare) : A.IsSymmetric := by
  obtain ⟨w, hw⟩ := outer
  rw [← isSymm_toMatrix, Matrix.IsSymm, hw, transpose_vecMulVec]

theorem get_sq (outer : A.IsOuterSquare) (i j : Fin n) :
    A.get i j ^ 2 = A.get i i * A.get j j := by
  obtain ⟨w, hw⟩ := outer
  simp only [← toMatrix_apply, hw, vecMulVec_apply]
  ring

theorem of_similar (outer : A.IsOuterSquare) (similar : A.OrthogonallySimilar B) :
    B.IsOuterSquare := by
  obtain ⟨w, hw⟩ := outer
  obtain ⟨Q, -, hB⟩ := similar
  refine ⟨w ᵥ* Q, ?_⟩
  rw [hB, hw, mul_vecMulVec, vecMulVec_mul, mulVec_transpose]

end IsOuterSquare

/-- The coordinates that have a share in the diagonal. -/
noncomputable def support (A : SquareMatrix ℝ n) : Finset (Fin n) :=
  Finset.univ.filter fun i => A.get i i ≠ 0

theorem mem_support {i : Fin n} : i ∈ A.support ↔ A.get i i ≠ 0 := by
  simp [support]

theorem card_support_le (A : SquareMatrix ℝ n) : A.support.card ≤ n :=
  (Finset.card_filter_le _ _).trans_eq (Finset.card_fin n)

theorem IsOuterSquare.get_eq_zero_of_card_support (outer : A.IsOuterSquare)
    (one : A.support.card ≤ 1) {i j : Fin n} (ne : i ≠ j) : A.get i j = 0 := by
  have apart : A.get i i = 0 ∨ A.get j j = 0 := by
    by_contra! both
    exact ne (Finset.card_le_one.1 one i (mem_support.2 both.1) j (mem_support.2 both.2))
  rw [← sq_eq_zero_iff, outer.get_sq i j]
  exact mul_eq_zero.2 apart

end SquareMatrix

namespace Spectrum

open Series SquareMatrix

variable {A B : SquareMatrix ℝ n} {p q : Fin n} {h : 0 < n} {tolerance : ℝ}

/-! ## Rotations of an outer product -/

/-- A rotation clears one of the two coordinates of its plane and leaves those beside it. -/
theorem Rotates.card_support_lt (rotates : Rotates tolerance A B p q) (outer : A.IsOuterSquare)
    (positive : 0 < tolerance) : B.support.card < A.support.card := by
  -- The squared pivot is the product of its two diagonal entries, before the rotation and after it.
  have pivot : A.get p q ^ 2 ≠ 0 := pow_ne_zero 2 (abs_pos.1 (positive.trans_le rotates.large))
  rw [outer.get_sq p q] at pivot
  have before : p ∈ A.support ∧ q ∈ A.support :=
    ⟨mem_support.2 (left_ne_zero_of_mul pivot), mem_support.2 (right_ne_zero_of_mul pivot)⟩
  have cleared : B.get p p = 0 ∨ B.get q q = 0 := by
    rw [← mul_eq_zero, ← (outer.of_similar rotates.similar).get_sq p q, rotates.annihilated]
    exact zero_pow two_ne_zero
  have beside (i : Fin n) (ip : i ≠ p) (iq : i ≠ q) : B.get i i = A.get i i := by
    rw [rotates.rotated, get_rotate]
    simp [Rotation.entry, ip, iq]
  have fewer : B.support ⊆ A.support := by
    intro i hi
    obtain rfl | rfl | ⟨ip, iq⟩ := Rotation.eq_or_eq_or_ne p q i
    · exact before.1
    · exact before.2
    · rw [mem_support, beside i ip iq] at hi
      exact mem_support.2 hi
  obtain zero | zero := cleared
  · exact Finset.card_lt_card ⟨fewer, fun all => mem_support.1 (all before.1) zero⟩
  · exact Finset.card_lt_card ⟨fewer, fun all => mem_support.1 (all before.2) zero⟩

/-- Each rotation of a run clears a coordinate. -/
theorem card_support_diagonalize (outer : A.IsOuterSquare) (positive : 0 < tolerance) {count : ℕ}
    (rotations : ∀ k < count, ∃ p q, Rotates tolerance (diagonalize h tolerance k A)
      (diagonalize h tolerance (k + 1) A) p q) :
    (diagonalize h tolerance count A).support.card + count ≤ A.support.card := by
  induction count with
  | zero => exact le_rfl
  | succ count ih =>
    obtain ⟨p, q, rotates⟩ := rotations count (Nat.lt_succ_self count)
    have clears := rotates.card_support_lt
      (outer.of_similar (similar_diagonalize h outer.isSymmetric positive count)) positive
    have rest := ih fun k hk => rotations k (Nat.lt_succ_of_lt hk)
    omega

/-- One rotation less than there are rows leaves nothing large off the diagonal. -/
theorem abs_diagonalize_lt (outer : A.IsOuterSquare) (positive : 0 < tolerance) {limit : ℕ}
    (enough : n - 1 ≤ limit) {i j : Fin n} (ne : i ≠ j) :
    |(diagonalize h tolerance limit A).get i j| < tolerance := by
  have symmetric := outer.isSymmetric
  obtain ⟨count, le, last, rotations, stopped⟩ := exists_count h symmetric positive limit
  have similar := similar_diagonalize h symmetric positive count
  rw [last]
  -- A run that stops early has found nothing large; the full one has cleared all coordinates but
  -- one.
  obtain lt | rfl := lt_or_eq_of_le le
  · exact (abs_get_le_largest (similar.isSymmetric symmetric) ne).trans_lt (stopped lt)
  · have cleared := card_support_diagonalize outer positive rotations
    have room := A.card_support_le
    have one : (diagonalize h tolerance count A).support.card ≤ 1 := by omega
    rwa [(outer.of_similar similar).get_eq_zero_of_card_support one ne, abs_zero]

/-! ## Eigenvalues of an outer product -/

theorem countP_le_one {l : List ℝ} {keep : ℝ → Bool}
    (alone : l.Pairwise fun x y => ¬ (keep x ∧ keep y)) : l.countP keep ≤ 1 := by
  induction l with
  | nil => exact Nat.zero_le 1
  | cons x l ih =>
    obtain ⟨first, rest⟩ := List.pairwise_cons.1 alone
    by_cases hx : keep x
    · have noneLeft : l.countP keep = 0 :=
        List.countP_eq_zero.2 fun y hy hy' => first y hy ⟨hx, hy'⟩
      rw [List.countP_cons_of_pos hx, noneLeft]
    · rw [List.countP_cons_of_neg hx]
      exact ih rest

/-- Of two diagonal entries above the tolerance the entry beside them would be above it too. -/
theorem countP_diagonal_le_one (outer : A.IsOuterSquare) (positive : 0 < tolerance)
    (small : ∀ i j, i ≠ j → |A.get i j| < tolerance) :
    A.diagonal.countP (tolerance < ·) ≤ 1 := by
  refine countP_le_one (List.pairwise_ofFn.2 fun i j lt => ?_)
  rintro ⟨hi, hj⟩
  have large : tolerance ^ 2 < A.get i j ^ 2 := by
    rw [sq, outer.get_sq i j]
    exact mul_lt_mul'' (of_decide_eq_true hi) (of_decide_eq_true hj) positive.le positive.le
  rw [sq_lt_sq, abs_of_pos positive] at large
  exact (small i j lt.ne).not_gt large

/-! ## Windows -/

variable {samples : List (List ℝ)} {dim : ℕ}

theorem innerProduct_mul (u : List ℝ) (a b : ℝ) :
    innerProduct (u.map (a * ·)) (u.map (b * ·)) = a * b * innerProduct u u := by
  have products : List.zipWith (· * ·) (u.map (a * ·)) (u.map (b * ·)) =
      (List.zipWith (· * ·) u u).map (a * b * ·) := by
    simp only [List.zipWith_map, List.map_zipWith, mul_mul_mul_comm]
  rw [innerProduct, products, total_eq_sum, List.sum_map_mul_left, List.map_id', innerProduct,
    total_eq_sum]

theorem innerProduct_self_nonneg (u : List ℝ) : 0 ≤ innerProduct u u := by
  rw [innerProduct, total_eq_sum, List.zipWith_self]
  exact List.sum_nonneg (List.forall_mem_map.2 fun x _ => mul_self_nonneg x)

/-- Offset and scale of a series leave its deviations as they are, up to the scale. -/
theorem centered_affine (base : List ℝ) (a b : ℝ) :
    centered (base.map (a * · + b)) = (centered base).map (a * ·) := by
  have sum : (base.map (a * · + b)).sum = a * base.sum + base.length * b := by
    rw [List.sum_map_add, List.sum_map_mul_left, List.map_id', List.map_const', List.sum_replicate,
      nsmul_eq_mul]
  simp only [centered, total_eq_sum, sum, List.length_map, List.map_map]
  refine List.map_congr_left fun v hv => ?_
  have length : (base.length : ℝ) ≠ 0 := Nat.cast_ne_zero.2 (List.length_pos_of_mem hv).ne'
  have mean :
      (a * base.sum + base.length * b) / base.length = a * (base.sum / base.length) + b := by
    field_simp
  show a * v + b - (a * base.sum + base.length * b) / base.length =
    a * (v - base.sum / base.length)
  rw [mean]
  ring

/-- The centred snapshots are multiples of one vector. -/
def Aligned (samples : List (List ℝ)) (direction : List ℝ) : Prop :=
  ∀ s ∈ samples, ∃ a, centered s = direction.map (a * ·)

theorem aligned_of_affine {base : List ℝ}
    (affine : ∀ s ∈ samples, ∃ a b, s = base.map (a * · + b)) :
    Aligned samples (centered base) := by
  intro s hs
  obtain ⟨a, b, rfl⟩ := affine s hs
  exact ⟨a, centered_affine base a b⟩

theorem Aligned.isOuterSquare {direction : List ℝ} (aligned : Aligned samples direction)
    (lengths : ∀ s ∈ samples, s.length = dim) {C : SquareMatrix ℝ samples.length}
    (defined : covariance samples = some C) : C.IsOuterSquare := by
  obtain ⟨shared, common, -, entries⟩ := exists_of_covariance_eq_some defined
  obtain ⟨s, hs, rfl⟩ := List.mem_map.1 (List.min?_eq_some_iff.1 common).1
  have whole (i : Fin samples.length) : (samples.get i).take s.length = samples.get i :=
    List.take_of_length_le (by rw [lengths _ (List.get_mem _ i), lengths s hs])
  choose a scale using fun i : Fin samples.length => aligned _ (List.get_mem samples i)
  let share := innerProduct direction direction / Scalar.ofNat (s.length - 1)
  have nonneg : 0 ≤ share := div_nonneg (innerProduct_self_nonneg direction) (Nat.cast_nonneg _)
  refine ⟨fun i => a i * √share, ?_⟩
  ext i j
  rw [toMatrix_apply, entries, whole, whole, scale, scale, innerProduct_mul, vecMulVec_apply,
    mul_mul_mul_comm, Real.mul_self_sqrt nonneg, mul_div_assoc]

/-- The covariance of an aligned window leaves at most one eigenvalue to be kept. -/
theorem Aligned.integrationOf_eq {direction : List ℝ} (aligned : Aligned samples direction)
    (lengths : ∀ s ∈ samples, s.length = dim) {config : SpectralConfig ℝ}
    (positive : 0 < config.epsilon) (enough : max config.minSamples 1 ≤ samples.length)
    (rotations : samples.length - 1 ≤ config.maxRotations) : integrationOf config samples = 0 := by
  have pos : 0 < samples.length := (Nat.le_max_right _ _).trans enough
  cases defined : covariance samples with
  | none => rw [integrationOf_of_none enough defined, zero_literal]
  | some C =>
    have outer := aligned.isOuterSquare lengths defined
    have last := outer.of_similar
      (similar_diagonalize pos outer.isSymmetric positive config.maxRotations)
    rw [integrationOf_of_some enough pos defined]
    exact spectralEntropy_eq_zero positive.le (countP_diagonal_le_one last positive fun i j ne =>
      abs_diagonalize_lt outer positive rotations ne)

/-- In exact arithmetic and with a positive tolerance, a window of snapshots of one length has no
integration if its centred snapshots are multiples of one vector and there are as many rotations as
snapshots, less one.  So it is with snapshots that differ in offset and scale, which constant ones
(scale zero) and identical ones (scale one, no offset) do. -/
theorem aligned_window_has_no_integration (config : SpectralConfig ℝ) (samples : List (List ℝ))
    (dim : ℕ) (positive : 0 < config.epsilon) (enough : max config.minSamples 1 ≤ samples.length)
    (lengths : ∀ s ∈ samples, s.length = dim)
    (rotations : samples.length - 1 ≤ config.maxRotations) :
    (∀ direction : List ℝ, (∀ s ∈ samples, ∃ a : ℝ, centered s = direction.map (a * ·)) →
      integrationOf config samples = 0) ∧
    ∀ base : List ℝ, (∀ s ∈ samples, ∃ a b : ℝ, s = base.map (a * · + b)) →
      integrationOf config samples = 0 := by
  have vanishes (direction : List ℝ) (aligned : Aligned samples direction) :
      integrationOf config samples = 0 :=
    aligned.integrationOf_eq lengths positive enough rotations
  exact ⟨vanishes, fun base affine => vanishes _ (aligned_of_affine affine)⟩

/-- Three snapshots, one of them constant and two that differ in offset and scale. -/
theorem aligned_window_has_no_integration_three :
    let config : SpectralConfig ℝ := ⟨3, 0, 1, 2⟩
    let samples : List (List ℝ) := [[1, 2, 6], [3, 5, 13], [7, 7, 7]]
    0 < config.epsilon ∧ max config.minSamples 1 ≤ samples.length ∧
      (∀ s ∈ samples, s.length = 3) ∧ samples.length - 1 ≤ config.maxRotations ∧
      (∀ s ∈ samples, ∃ a : ℝ, centered s = [-2, -1, 3].map (a * ·)) ∧
      (∀ s ∈ samples, ∃ a b : ℝ, s = [1, 2, 6].map (a * · + b)) ∧
      integrationOf config samples = 0 := by
  intro config samples
  have lengths : ∀ s ∈ samples, s.length = 3 := by simp [samples]
  have affine : ∀ s ∈ samples, ∃ a b : ℝ, s = [1, 2, 6].map (a * · + b) := by
    refine List.forall_mem_cons.2 ⟨⟨1, 0, ?_⟩, List.forall_mem_cons.2 ⟨⟨2, 1, ?_⟩,
      List.forall_mem_singleton.2 ⟨0, 7, ?_⟩⟩⟩ <;> norm_num
  have direction : centered [1, 2, 6] = ([-2, -1, 3] : List ℝ) := by
    norm_num [centered, total_eq_sum, Scalar.ofNat]
  have aligned := direction ▸ aligned_of_affine affine
  obtain ⟨vanishes, -⟩ :=
    aligned_window_has_no_integration config samples 3 one_pos le_rfl lengths le_rfl
  exact ⟨one_pos, le_rfl, lengths, le_rfl, aligned, affine, vanishes _ aligned⟩

end Spectrum

end AdaptivePopulation
