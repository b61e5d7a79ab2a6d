import AdaptivePopulation.Proofs.Spectrum.Rotation
import AdaptivePopulation.Spectrum.Covariance

/-!
# Covariance between snapshots

In exact arithmetic the entries of the covariance are sample covariances: sums of products of
deviations from the mean, over one less than the number of dimensions.  So the matrix is symmetric
and positive semidefinite, does not see offsets or the order of the dimensions, and follows scaling
and reordering of the snapshots.
-/

namespace AdaptivePopulation

namespace SquareMatrix

variable {α : Type} {m n : ℕ}

/-- The matrix of the entries at the images of positions. -/
def submatrix (A : SquareMatrix α n) (f : Fin m → Fin n) : SquareMatrix α m :=
  .ofFn fun i j => A.get (f i) (f j)

/-- The matrix with each row and each column multiplied by the factor of its position. -/
def scaled (A : SquareMatrix ℝ n) (factor : Fin n → ℝ) : SquareMatrix ℝ n :=
  .ofFn fun i j => factor i * factor j * A.get i j

end SquareMatrix

namespace Spectrum

open Series

variable {n dim : ℕ}

/-! ## Two series -/

/-- How far an element is from the mean. -/
noncomputable def deviation (x : Fin dim → ℝ) (k : Fin dim) : ℝ := x k - (∑ l, x l) / dim

/-- The sample covariance of two series. -/
noncomputable def sampleCovariance (x y : Fin dim → ℝ) : ℝ :=
  (∑ k, deviation x k * deviation y k) / (dim - 1)

theorem sampleCovariance_comm (x y : Fin dim → ℝ) :
    sampleCovariance x y = sampleCovariance y x := by
  simp only [sampleCovariance, mul_comm]

theorem deviation_add (x : Fin dim → ℝ) (b : ℝ) : deviation (fun k => x k + b) = deviation x := by
  funext k
  have pos : (dim : ℝ) ≠ 0 := Nat.cast_ne_zero.2 k.pos.ne'
  simp only [deviation, Finset.sum_add_distrib, Finset.sum_const, Finset.card_univ,
    Fintype.card_fin, nsmul_eq_mul, add_div, mul_div_cancel_left₀ b pos]
  ring

theorem deviation_mul (x : Fin dim → ℝ) (a : ℝ) :
    deviation (fun k => a * x k) = fun k => a * deviation x k := by
  funext k
  simp only [deviation, ← Finset.mul_sum]
  ring

theorem sampleCovariance_mul (x y : Fin dim → ℝ) (a b : ℝ) :
    sampleCovariance (fun k => a * x k) (fun k => b * y k) = a * b * sampleCovariance x y := by
  rw [sampleCovariance, deviation_mul, deviation_mul, sampleCovariance, ← mul_div_assoc,
    Finset.mul_sum]
  simp only [mul_mul_mul_comm]

theorem deviation_comp (x : Fin dim → ℝ) (σ : Equiv.Perm (Fin dim)) :
    deviation (x ∘ σ) = deviation x ∘ σ := by
  funext k
  simp only [deviation, Function.comp_apply, Equiv.sum_comp σ x]

theorem sampleCovariance_comp (x y : Fin dim → ℝ) (σ : Equiv.Perm (Fin dim)) :
    sampleCovariance (x ∘ σ) (y ∘ σ) = sampleCovariance x y := by
  rw [sampleCovariance, deviation_comp, deviation_comp, sampleCovariance]
  congr 1
  exact Equiv.sum_comp σ fun k => deviation x k * deviation y k

/-- A quadratic form of sample covariances is a sum of squares. -/
theorem sum_sampleCovariance (x : Fin n → Fin dim → ℝ) (y : Fin n → ℝ) :
    ∑ i, ∑ j, y i * sampleCovariance (x i) (x j) * y j =
      (∑ k, (∑ i, y i * deviation (x i) k) ^ 2) / (dim - 1) := by
  have term (i j : Fin n) : y i * sampleCovariance (x i) (x j) * y j =
      (∑ k, (y i * deviation (x i) k) * (y j * deviation (x j) k)) / (dim - 1) := by
    rw [sampleCovariance, mul_div_assoc', div_mul_eq_mul_div, Finset.mul_sum, Finset.sum_mul]
    congr 1
    exact Finset.sum_congr rfl fun k _ => by ring
  simp only [term, ← Finset.sum_div]
  congr 1
  calc ∑ i, ∑ j, ∑ k, (y i * deviation (x i) k) * (y j * deviation (x j) k)
      = ∑ i, ∑ k, ∑ j, (y i * deviation (x i) k) * (y j * deviation (x j) k) :=
        Finset.sum_congr rfl fun i _ => Finset.sum_comm
    _ = ∑ k, ∑ i, ∑ j, (y i * deviation (x i) k) * (y j * deviation (x j) k) := Finset.sum_comm
    _ = ∑ k, (∑ i, y i * deviation (x i) k) ^ 2 :=
        Finset.sum_congr rfl fun k _ => by rw [sq, Finset.sum_mul_sum]

/-! ## The matrix of a list of snapshots -/

/-- The first elements of a snapshot. -/
def coordinates (dim : ℕ) (snapshot : List ℝ) (k : Fin dim) : ℝ := snapshot.getD k 0

theorem take_eq_ofFn {snapshot : List ℝ} (le : dim ≤ snapshot.length) :
    snapshot.take dim = List.ofFn (coordinates dim snapshot) := by
  refine List.ext_getElem (by simpa using le) fun k hk _ => ?_
  have hk : k < snapshot.length := (List.length_take_le' _ _).trans_lt' hk
  simp [coordinates, hk]

theorem centered_ofFn (x : Fin dim → ℝ) :
    centered (List.ofFn x) = List.ofFn (deviation x) := by
  rw [centered, total_eq_sum, List.sum_ofFn, List.length_ofFn, List.map_ofFn]
  rfl

theorem innerProduct_ofFn (x y : Fin dim → ℝ) :
    innerProduct (List.ofFn x) (List.ofFn y) = ∑ k, x k * y k := by
  have products : List.zipWith (· * ·) (List.ofFn x) (List.ofFn y) =
      List.ofFn fun k => x k * y k := by
    refine List.ext_getElem (by simp) fun k _ _ => ?_
    simp
  rw [innerProduct, products, total_eq_sum, List.sum_ofFn]

section

variable {α : Type}

/-- The length of a shortest snapshot. -/
structure IsShortest (x : Fin n → List α) (dim : ℕ) : Prop where
  reached : ∃ k, (x k).length = dim
  le : ∀ i, dim ≤ (x i).length

theorem exists_isShortest (h : 0 < n) (x : Fin n → List α) : ∃ dim, IsShortest x dim := by
  have : Nonempty (Fin n) := ⟨⟨0, h⟩⟩
  obtain ⟨k, least⟩ := Finite.exists_min fun i => (x i).length
  exact ⟨_, ⟨k, rfl⟩, least⟩

theorem IsShortest.commonDimension {x : Fin n → List α} (shortest : IsShortest x dim) :
    commonDimension (List.ofFn x) = some dim := by
  obtain ⟨⟨k, reached⟩, le⟩ := shortest
  rw [Spectrum.commonDimension, List.map_ofFn, List.min?_eq_some_iff]
  exact ⟨List.mem_ofFn.2 ⟨k, reached⟩, List.forall_mem_ofFn_iff.2 le⟩

variable [Scalar α] {samples : List (List α)}

theorem covariance_eq (common : commonDimension samples = some dim) :
    covariance samples = if dim < 2 then none else
      some (.ofFn fun i j =>
        innerProduct (centered ((samples.get i).take dim)) (centered ((samples.get j).take dim)) /
          Scalar.ofNat (dim - 1)) := by
  unfold covariance
  rw [common]
  dsimp only
  congr 2
  ext i j
  simp [Vector.get]
  rfl

theorem exists_of_covariance_eq_some {C : SquareMatrix α samples.length}
    (defined : covariance samples = some C) : ∃ dim, commonDimension samples = some dim ∧ 2 ≤ dim ∧
      ∀ i j, C.get i j =
        innerProduct (centered ((samples.get i).take dim)) (centered ((samples.get j).take dim)) /
          Scalar.ofNat (dim - 1) := by
  cases common : commonDimension samples with
  | none =>
    unfold covariance at defined
    rw [common] at defined
    contradiction
  | some dim =>
    rw [covariance_eq common] at defined
    split_ifs at defined with small
    obtain rfl := Option.some.inj defined
    exact ⟨dim, rfl, not_lt.1 small, fun i j => SquareMatrix.get_ofFn _ i j⟩

/-- The covariance of snapshots that are given by their positions. -/
def covarianceOf (x : Fin n → List α) : Option (SquareMatrix α n) :=
  (covariance (List.ofFn x)).map (·.submatrix (Fin.cast List.length_ofFn.symm))

theorem map_submatrix_cast {samples' : List (List α)} (same : samples' = samples) :
    (covariance samples').map (·.submatrix (Fin.cast (congrArg List.length same.symm))) =
      covariance samples := by
  subst same
  have unchanged (A : SquareMatrix α samples'.length) : A.submatrix (Fin.cast rfl) = A :=
    SquareMatrix.ext fun i j => SquareMatrix.get_ofFn _ i j
  simp only [unchanged, Option.map_id']

/-- Every list of snapshots is given by their positions. -/
theorem covarianceOf_get (samples : List (List α)) :
    covarianceOf samples.get = covariance samples :=
  map_submatrix_cast (List.ofFn_get samples)

theorem covarianceOf_eq_none (x : Fin 0 → List α) : covarianceOf x = none := by
  have empty : commonDimension (List.ofFn x) = none := by
    rw [Spectrum.commonDimension, List.ofFn_zero, List.map_nil, List.min?_nil]
  unfold covarianceOf covariance
  rw [empty]
  rfl

end

/-- The sample covariances of the first elements of snapshots. -/
noncomputable def covarianceMatrix (dim : ℕ) (x : Fin n → List ℝ) : SquareMatrix ℝ n :=
  .ofFn fun i j => sampleCovariance (coordinates dim (x i)) (coordinates dim (x j))

theorem get_covarianceMatrix (x : Fin n → List ℝ) (i j : Fin n) :
    (covarianceMatrix dim x).get i j =
      sampleCovariance (coordinates dim (x i)) (coordinates dim (x j)) :=
  SquareMatrix.get_ofFn _ i j

theorem IsShortest.covarianceOf_eq {x : Fin n → List ℝ} (shortest : IsShortest x dim) :
    covarianceOf x = if dim < 2 then none else some (covarianceMatrix dim x) := by
  rw [covarianceOf, covariance_eq shortest.commonDimension]
  split_ifs with small
  · rfl
  · refine congrArg some (SquareMatrix.ext fun i j => ?_)
    have normaliser : (Scalar.ofNat (dim - 1) : ℝ) = dim - 1 := by
      show ((dim - 1 : ℕ) : ℝ) = dim - 1
      rw [Nat.cast_sub (by omega), Nat.cast_one]
    simp only [SquareMatrix.submatrix, SquareMatrix.get_ofFn, List.get_eq_getElem,
      List.getElem_ofFn, Fin.val_cast, normaliser, take_eq_ofFn (shortest.le _), centered_ofFn,
      innerProduct_ofFn, get_covarianceMatrix]
    rfl

theorem covarianceOf_eq_none_iff (x : Fin n → List ℝ) :
    covarianceOf x = none ↔ n = 0 ∨ ∃ i, (x i).length < 2 := by
  obtain rfl | pos := n.eq_zero_or_pos
  · exact iff_of_true (covarianceOf_eq_none x) (.inl rfl)
  · obtain ⟨dim, shortest⟩ := exists_isShortest pos x
    have short : (∃ i, (x i).length < 2) ↔ dim < 2 := by
      constructor
      · rintro ⟨i, hi⟩
        exact (shortest.le i).trans_lt hi
      · obtain ⟨k, rfl⟩ := shortest.reached
        exact fun hk => ⟨k, hk⟩
    rw [shortest.covarianceOf_eq, or_iff_right pos.ne', short]
    simp

theorem exists_of_covarianceOf_eq_some {x : Fin n → List ℝ} {C : SquareMatrix ℝ n}
    (h : covarianceOf x = some C) :
    ∃ dim, IsShortest x dim ∧ 2 ≤ dim ∧ C = covarianceMatrix dim x := by
  obtain rfl | pos := n.eq_zero_or_pos
  · rw [covarianceOf_eq_none] at h
    contradiction
  · obtain ⟨dim, shortest⟩ := exists_isShortest pos x
    rw [shortest.covarianceOf_eq] at h
    split_ifs at h with small
    exact ⟨dim, shortest, not_lt.1 small, (Option.some.inj h).symm⟩

/-! ## Symmetric and positive semidefinite -/

theorem isSymmetric_covarianceMatrix (dim : ℕ) (x : Fin n → List ℝ) :
    (covarianceMatrix dim x).IsSymmetric := by
  intro i j
  rw [get_covarianceMatrix, get_covarianceMatrix, sampleCovariance_comm]

theorem covarianceMatrix_nonneg (large : 1 ≤ dim) (x : Fin n → List ℝ) (y : Fin n → ℝ) :
    0 ≤ ∑ i, ∑ j, y i * (covarianceMatrix dim x).get i j * y j := by
  simp only [get_covarianceMatrix, sum_sampleCovariance]
  have normaliser : (0 : ℝ) ≤ dim - 1 := sub_nonneg.2 (Nat.one_le_cast.2 large)
  exact div_nonneg (Finset.sum_nonneg fun k _ => sq_nonneg _) normaliser

/-! ## Changes to the snapshots -/

theorem coordinates_map {snapshot : List ℝ} (le : dim ≤ snapshot.length) (f : ℝ → ℝ) :
    coordinates dim (snapshot.map f) = fun k => f (coordinates dim snapshot k) := by
  funext k
  have hk : k < snapshot.length := k.isLt.trans_le le
  simp [coordinates, hk]

theorem coordinates_take (snapshot : List ℝ) {cut : ℕ} (le : dim ≤ cut) :
    coordinates dim (snapshot.take cut) = coordinates dim snapshot := by
  funext k
  have hk : k < cut := k.isLt.trans_le le
  simp [coordinates, hk]

theorem coordinates_ofFn (x : Fin dim → ℝ) : coordinates dim (List.ofFn x) = x := by
  funext k
  simp [coordinates]

theorem IsShortest.congr {x x' : Fin n → List ℝ} (shortest : IsShortest x dim)
    (lengths : ∀ i, (x' i).length = (x i).length) : IsShortest x' dim where
  reached := shortest.reached.imp fun k hk => (lengths k).trans hk
  le i := (shortest.le i).trans_eq (lengths i).symm

/-- A change that keeps the shortest length changes the covariance as it changes the sample
covariances. -/
theorem covarianceOf_eq_map {x x' : Fin n → List ℝ} (g : SquareMatrix ℝ n → SquareMatrix ℝ n)
    (same : ∀ dim, IsShortest x dim → IsShortest x' dim)
    (entries : ∀ dim, IsShortest x dim → covarianceMatrix dim x' = g (covarianceMatrix dim x)) :
    covarianceOf x' = (covarianceOf x).map g := by
  obtain rfl | pos := n.eq_zero_or_pos
  · rw [covarianceOf_eq_none, covarianceOf_eq_none, Option.map_none]
  · obtain ⟨dim, shortest⟩ := exists_isShortest pos x
    rw [(same dim shortest).covarianceOf_eq, shortest.covarianceOf_eq]
    split_ifs
    · rfl
    · rw [Option.map_some, entries dim shortest]

theorem covarianceOf_congr {x x' : Fin n → List ℝ}
    (same : ∀ dim, IsShortest x dim → IsShortest x' dim)
    (entries : ∀ dim, IsShortest x dim → covarianceMatrix dim x' = covarianceMatrix dim x) :
    covarianceOf x' = covarianceOf x :=
  (covarianceOf_eq_map id same entries).trans Option.map_id_apply

theorem covarianceOf_take {x : Fin n → List ℝ} (cut : Fin n)
    (least : ∀ i, (x cut).length ≤ (x i).length) :
    covarianceOf (fun i => (x i).take (x cut).length) = covarianceOf x := by
  have lengths (i : Fin n) : ((x i).take (x cut).length).length = (x cut).length := by
    rw [List.length_take, min_eq_left (least i)]
  refine covarianceOf_congr (fun dim shortest => ?_) fun dim shortest => ?_
  · obtain ⟨k, hk⟩ := shortest.reached
    have reached : (x cut).length = dim := (hk ▸ least k).antisymm (shortest.le cut)
    exact ⟨⟨cut, (lengths cut).trans reached⟩, fun i => (lengths i).trans reached |>.ge⟩
  · ext i j
    simp only [get_covarianceMatrix, coordinates_take _ (shortest.le cut)]

theorem covarianceOf_offset (x : Fin n → List ℝ) (offset : Fin n → ℝ) :
    covarianceOf (fun i => (x i).map (· + offset i)) = covarianceOf x := by
  refine covarianceOf_congr (fun dim shortest => shortest.congr fun i => List.length_map _)
    fun dim shortest => ?_
  ext i j
  simp only [get_covarianceMatrix, coordinates_map (shortest.le _), sampleCovariance, deviation_add]

theorem covarianceOf_factor (x : Fin n → List ℝ) (factor : Fin n → ℝ) :
    covarianceOf (fun i => (x i).map (factor i * ·)) = (covarianceOf x).map (·.scaled factor) := by
  refine covarianceOf_eq_map _ (fun dim shortest => shortest.congr fun i => List.length_map _)
    fun dim shortest => ?_
  ext i j
  simp only [SquareMatrix.scaled, SquareMatrix.get_ofFn, get_covarianceMatrix,
    coordinates_map (shortest.le _), sampleCovariance_mul]

theorem covarianceOf_comp (x : Fin n → List ℝ) (order : Equiv.Perm (Fin n)) :
    covarianceOf (x ∘ order) = (covarianceOf x).map (·.submatrix order) := by
  refine covarianceOf_eq_map _ (fun dim shortest => ?_) fun dim _ => ?_
  · obtain ⟨k, hk⟩ := shortest.reached
    exact ⟨⟨order.symm k, by rwa [Function.comp_apply, order.apply_symm_apply]⟩,
      fun i => shortest.le (order i)⟩
  · ext i j
    simp only [SquareMatrix.submatrix, SquareMatrix.get_ofFn, get_covarianceMatrix,
      Function.comp_apply]

/-- The snapshot with its elements in another order. -/
def reordered (order : Equiv.Perm (Fin dim)) (snapshot : List ℝ) : List ℝ :=
  List.ofFn (coordinates dim snapshot ∘ order)

theorem covarianceOf_reordered {x : Fin n → List ℝ} (lengths : ∀ i, (x i).length = dim)
    (order : Equiv.Perm (Fin dim)) :
    covarianceOf (fun i => reordered order (x i)) = covarianceOf x := by
  refine covarianceOf_congr
    (fun dim shortest => shortest.congr fun i => List.length_ofFn.trans (lengths i).symm)
    fun dim' shortest => ?_
  obtain ⟨k, hk⟩ := shortest.reached
  obtain rfl : dim = dim' := (lengths k).symm.trans hk
  ext i j
  simp only [get_covarianceMatrix, reordered, coordinates_ofFn, sampleCovariance_comp]

/-- In exact arithmetic, snapshots have a covariance unless there are none or one of them has less
than two elements.  It is symmetric and positive semidefinite, is that of the snapshots cut to the
shortest one, stays as it is when offsets are added to the snapshots, is scaled by rows and columns
when the snapshots are, and is reordered with them.  For snapshots of one length its entries are the
sample covariances, and the order of the elements does not matter. -/
theorem covariance_is_genuine :
    (∀ samples : List (List ℝ), covarianceOf samples.get = covariance samples) ∧
    ∀ (n : ℕ) (x : Fin n → List ℝ),
      (covarianceOf x = none ↔ n = 0 ∨ ∃ i, (x i).length < 2) ∧
      (∀ C, covarianceOf x = some C →
        C.IsSymmetric ∧ ∀ y : Fin n → ℝ, 0 ≤ ∑ i, ∑ j, y i * C.get i j * y j) ∧
      (∀ shortest, (∀ i, (x shortest).length ≤ (x i).length) →
        covarianceOf (fun i => (x i).take (x shortest).length) = covarianceOf x) ∧
      (∀ offset : Fin n → ℝ, covarianceOf (fun i => (x i).map (· + offset i)) = covarianceOf x) ∧
      (∀ factor : Fin n → ℝ, covarianceOf (fun i => (x i).map (factor i * ·)) =
        (covarianceOf x).map (·.scaled factor)) ∧
      (∀ order : Equiv.Perm (Fin n),
        covarianceOf (x ∘ order) = (covarianceOf x).map (·.submatrix order)) ∧
      ∀ dim, (∀ i, (x i).length = dim) →
        (∀ C, covarianceOf x = some C → ∀ i j,
          C.get i j = sampleCovariance (coordinates dim (x i)) (coordinates dim (x j))) ∧
        ∀ order : Equiv.Perm (Fin dim),
          covarianceOf (fun i => reordered order (x i)) = covarianceOf x := by
  refine ⟨covarianceOf_get, fun n x => ⟨covarianceOf_eq_none_iff x, fun C hC => ?_,
    covarianceOf_take, covarianceOf_offset x, covarianceOf_factor x, covarianceOf_comp x,
    fun dim lengths => ⟨fun C hC i j => ?_, covarianceOf_reordered lengths⟩⟩⟩
  · obtain ⟨dim, -, large, rfl⟩ := exists_of_covarianceOf_eq_some hC
    exact ⟨isSymmetric_covarianceMatrix dim x, covarianceMatrix_nonneg (one_le_two.trans large) x⟩
  · obtain ⟨dim', shortest, -, rfl⟩ := exists_of_covarianceOf_eq_some hC
    obtain ⟨k, hk⟩ := shortest.reached
    obtain rfl : dim = dim' := (lengths k).symm.trans hk
    exact get_covarianceMatrix x i j

/-- Two opposite snapshots, of which one is longer. -/
theorem covariance_is_genuine_opposite :
    let ragged : Fin 2 → List ℝ := ![[1, 2, 3], [3, 2, 1, 7]]
    let even : Fin 2 → List ℝ := ![[1, 2, 3], [3, 2, 1]]
    (∀ i, (ragged 0).length ≤ (ragged i).length) ∧ covarianceOf even = covarianceOf ragged ∧
      (∀ i, (even i).length = 3) ∧
      ∃ C, covarianceOf even = some C ∧ C.IsSymmetric ∧ C.get 0 0 = 1 ∧ C.get 0 1 = -1 := by
  intro ragged even
  obtain ⟨-, laws⟩ := covariance_is_genuine
  obtain ⟨-, -, truncation, -⟩ := laws 2 ragged
  obtain ⟨undefined, symmetric, -, -, -, -, formula⟩ := laws 2 even
  have least : ∀ i, (ragged 0).length ≤ (ragged i).length := by simp [ragged, Fin.forall_fin_two]
  have lengths : ∀ i, (even i).length = 3 := by simp [even, Fin.forall_fin_two]
  have cut : (fun i => (ragged i).take (ragged 0).length) = even := by
    funext i
    fin_cases i <;> simp [ragged, even]
  have defined : covarianceOf even ≠ none := by
    rw [Ne, undefined]
    simp [lengths]
  obtain ⟨C, hC⟩ := Option.ne_none_iff_exists'.1 defined
  have entries := (formula 3 lengths).1 C hC
  refine ⟨least, cut ▸ truncation 0 least, lengths, C, hC, (symmetric C hC).1, ?_, ?_⟩ <;>
    norm_num [entries, even, sampleCovariance, deviation, coordinates, Fin.sum_univ_three]

end Spectrum

end AdaptivePopulation
