import Mathlib.Algebra.Order.BigOperators.Group.List
import Mathlib.Data.List.GetD
import AdaptivePopulation.Proofs.Exact
import AdaptivePopulation.Series.Statistics

/-!
# The mean field

Of states of one length the mean field has this length, and its elements are the means of the
elements of the states.  In exact arithmetic the mean of values between zero and one is between zero
and one.
-/

namespace AdaptivePopulation.Series

/-! ## Element by element -/

section

variable {α : Type} [Scalar α] {states : List (List α)} {width j : ℕ}

/-- The elements that the states have at a position. -/
def column (states : List (List α)) (j : ℕ) : List α := states.map (·.getD j 0.0)

theorem getElem?_foldl_add (acc : List α) (lengths : ∀ s ∈ states, s.length = acc.length)
    (hj : j < acc.length) : (states.foldl (List.zipWith (· + ·)) acc)[j]? =
      some ((column states j).foldl (· + ·) acc[j]) := by
  induction states generalizing acc with
  | nil => exact List.getElem?_eq_getElem hj
  | cons s states ih =>
    obtain ⟨hs, lengths⟩ := List.forall_mem_cons.1 lengths
    have length : (List.zipWith (· + ·) acc s).length = acc.length := by simp [hs]
    rw [List.foldl_cons, ih _ (by rwa [length]) (by rwa [length]), List.getElem_zipWith]
    simp [column, hs, hj]

theorem length_foldl_add (acc : List α) (lengths : ∀ s ∈ states, s.length = acc.length) :
    (states.foldl (List.zipWith (· + ·)) acc).length = acc.length := by
  induction states generalizing acc with
  | nil => rfl
  | cons s states ih =>
    obtain ⟨hs, lengths⟩ := List.forall_mem_cons.1 lengths
    have length : (List.zipWith (· + ·) acc s).length = acc.length := by simp [hs]
    rw [List.foldl_cons, ih _ (by rwa [length]), length]

variable (nonempty : states ≠ []) (lengths : ∀ s ∈ states, s.length = width)

include nonempty lengths

theorem meanField_eq : meanField states =
    (states.foldl (List.zipWith (· + ·)) (List.replicate width 0.0)).map
      (· / Scalar.ofNat states.length) := by
  have shortest : (states.map List.length).min? = some width := by
    have same : states.map List.length = List.replicate states.length width :=
      List.map_eq_replicate_iff.2 lengths
    rw [same, List.min?_replicate_of_pos (List.length_pos_iff.2 nonempty)]
  unfold meanField
  rw [shortest]

theorem length_meanField : (meanField states).length = width := by
  have zeros : ∀ s ∈ states, s.length = (List.replicate width (0.0 : α)).length := by simpa
  rw [meanField_eq nonempty lengths, List.length_map, length_foldl_add _ zeros,
    List.length_replicate]

/-- Each element of the mean field is the mean of the elements at its position. -/
theorem getElem?_meanField (hj : j < width) : (meanField states)[j]? =
    some ((column states j).foldl (· + ·) 0.0 / Scalar.ofNat states.length) := by
  have zeros : ∀ s ∈ states, s.length = (List.replicate width (0.0 : α)).length := by simpa
  rw [meanField_eq nonempty lengths, List.getElem?_map, getElem?_foldl_add _ zeros (by simpa),
    List.getElem_replicate, Option.map_some]

end

/-! ## In exact arithmetic -/

/-- The mean of values in an interval lies in this interval. -/
theorem mean_mem_Icc {values : List ℝ} {lo hi : ℝ} (nonempty : values ≠ [])
    (h : ∀ v ∈ values, v ∈ Set.Icc lo hi) : mean values ∈ Set.Icc lo hi := by
  have pos : (0 : ℝ) < values.length := Nat.cast_pos.2 (List.length_pos_iff.2 nonempty)
  have above : values.length * lo ≤ values.sum := by
    simpa using List.card_nsmul_le_sum values lo fun v hv => (h v hv).1
  have below : values.sum ≤ values.length * hi := by
    simpa using List.sum_le_card_nsmul values hi fun v hv => (h v hv).2
  rw [mean_eq_div]
  exact ⟨(le_div_iff₀' pos).2 above, (div_le_iff₀' pos).2 below⟩

theorem meanField_mem_Icc {states : List (List ℝ)} {width : ℕ} (nonempty : states ≠ [])
    (lengths : ∀ s ∈ states, s.length = width)
    (unit : ∀ s ∈ states, ∀ v ∈ s, v ∈ Set.Icc (0 : ℝ) 1) :
    ∀ v ∈ meanField states, v ∈ Set.Icc (0 : ℝ) 1 := by
  intro v hv
  obtain ⟨j, hj, rfl⟩ := List.mem_iff_getElem.1 hv
  have hw : j < width := by rwa [length_meanField nonempty lengths] at hj
  have value : (meanField states)[j] = mean (column states j) := by
    have element := getElem?_meanField nonempty lengths hw
    rw [List.getElem?_eq_getElem hj] at element
    rw [Option.some.inj element, mean_eq_div, List.sum_eq_foldl, column, List.length_map,
      zero_literal]
    rfl
  rw [value]
  refine mean_mem_Icc (mt List.map_eq_nil_iff.1 nonempty) fun v hv => ?_
  obtain ⟨s, hs, rfl⟩ := List.mem_map.1 hv
  rw [List.getD_eq_getElem s 0.0 (by rwa [lengths s hs])]
  exact unit s hs _ (List.getElem_mem _)

end AdaptivePopulation.Series
