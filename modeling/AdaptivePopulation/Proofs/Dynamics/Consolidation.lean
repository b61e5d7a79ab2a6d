import AdaptivePopulation.Proofs.Dynamics.Contraction
import AdaptivePopulation.Proofs.MeanField

/-!
# Consolidation homogenises

In exact arithmetic a step of consolidation makes each element an average, with weights that are not
negative as long as the step is short, of itself, its neighbours, the mean of the field and the
target.  Mean and target are shared by all elements, so that only the other weights count for the
spread of the field; the mean is as far from the target as the elements are at most, so that only
the weight of the target takes from the distance.
-/

namespace AdaptivePopulation

/-! ## Spread -/

/-- The greatest element less the least one, zero for an empty state. -/
noncomputable def spread (x : List ℝ) : ℝ := x.max?.getD 0 - x.min?.getD 0

theorem spread_le_iff {x : List ℝ} {c : ℝ} (nonempty : x ≠ []) :
    spread x ≤ c ↔ ∀ a ∈ x, ∀ b ∈ x, a - b ≤ c := by
  obtain ⟨hi, greatest⟩ := Option.isSome_iff_exists.1 (List.isSome_max?_iff.2 nonempty)
  obtain ⟨lo, least⟩ := Option.isSome_iff_exists.1 (List.isSome_min?_iff.2 nonempty)
  rw [spread, greatest, least, Option.getD_some, Option.getD_some]
  obtain ⟨hiMem, le_hi⟩ := List.max?_eq_some_iff.1 greatest
  obtain ⟨loMem, lo_le⟩ := List.min?_eq_some_iff.1 least
  exact ⟨fun h a ha b hb => (sub_le_sub (le_hi a ha) (lo_le b hb)).trans h,
    fun h => h hi hiMem lo loMem⟩

theorem abs_sub_le_spread {x : List ℝ} {a b : ℝ} (ha : a ∈ x) (hb : b ∈ x) :
    |a - b| ≤ spread x := by
  have all := (spread_le_iff (List.ne_nil_of_mem ha)).1 le_rfl
  exact abs_sub_le_iff.2 ⟨all a ha b hb, all b hb a ha⟩

namespace PopulationMode

/-! ## One element -/

section

variable {target dt D v v' p p' q q' m : ℝ}

theorem consolidateAt_eq (target dt v p q m : ℝ) :
    consolidateAt target dt ⟨v, p + q - 2.0 * v, m⟩ =
      Scalar.clampUnit (v + dt * (0.1 * (p + q - 2 * v) - (v - target) + 0.3 * (m - v))) := by
  rw [← two_literal]
  rfl

/-- The own weight of an element is not negative. -/
theorem weights_mul_le_one (short : dt ≤ 2 / 3) : (1.3 + 2 * 0.1) * dt ≤ 1 :=
  calc (1.3 + 2 * 0.1) * dt ≤ (1.3 + 2 * 0.1) * (2 / 3) := by gcongr
    _ = 1 := by norm_num

variable (nonneg : 0 ≤ dt) (short : dt ≤ 2 / 3)

include nonneg short

/-- Elements that see one mean and one target. -/
theorem abs_consolidateAt_sub_le (hv : |v - v'| ≤ D) (hp : |p - p'| ≤ D) (hq : |q - q'| ≤ D) :
    |consolidateAt target dt ⟨v, p + q - 2.0 * v, m⟩ -
      consolidateAt target dt ⟨v', p' + q' - 2.0 * v', m⟩| ≤ (1 - 1.3 * dt) * D := by
  rw [consolidateAt_eq, consolidateAt_eq]
  calc _ ≤ |_ - _| := abs_clampUnit_sub_le _ _
    _ = |(v - v') + dt * (0.1 * ((p - p') + (q - q') - 2 * (v - v')) - 1.3 * (v - v'))| := by
      congr 1
      ring
    _ ≤ (1 - 1.3 * dt) * D :=
      abs_relaxed_le (by norm_num) nonneg (weights_mul_le_one short) hv hp hq

theorem abs_consolidateAt_sub_target_le (unit : target ∈ Set.Icc (0 : ℝ) 1)
    (hv : |v - target| ≤ D) (hp : |p - target| ≤ D) (hq : |q - target| ≤ D)
    (hm : |m - target| ≤ D) :
    |consolidateAt target dt ⟨v, p + q - 2.0 * v, m⟩ - target| ≤ (1 - dt) * D := by
  rw [consolidateAt_eq]
  calc _ ≤ |_ - target| := abs_clampUnit_sub_le_of_mem unit
    _ = |(v - target) + dt * (0.1 * ((p - target) + (q - target) - 2 * (v - target)) -
          1.3 * (v - target)) + 0.3 * dt * (m - target)| := by
      congr 1
      ring
    _ ≤ _ + |0.3 * dt * (m - target)| := abs_add_le _ _
    _ ≤ (1 - 1.3 * dt) * D + 0.3 * dt * D := by
      rw [abs_mul, abs_of_nonneg (by positivity : 0 ≤ 0.3 * dt)]
      gcongr
      exact abs_relaxed_le (by norm_num) nonneg (weights_mul_le_one short) hv hp hq
    _ = (1 - dt) * D := by ring

end

/-! ## A step -/

/-- Where values lie within a distance of the target, so does their mean. -/
theorem abs_mean_sub_le {values : List ℝ} {target D : ℝ} (nonempty : values ≠ [])
    (h : ∀ v ∈ values, |v - target| ≤ D) : |Series.mean values - target| ≤ D := by
  have within : ∀ v ∈ values, v ∈ Set.Icc (target - D) (target + D) := fun v hv =>
    Set.mem_Icc_iff_abs_le.1 (abs_sub_comm target v ▸ h v hv)
  rw [abs_sub_comm]
  exact Set.mem_Icc_iff_abs_le.2 (Series.mean_mem_Icc nonempty within)

section

variable {target dt : ℝ} {field : List ℝ} {external complexity : ℝ} {g : RandomStream}

theorem getElem_consolidation {i : ℕ}
    (h : i < (evolve target .consolidation field external dt complexity g).1.length) :
    have hi : i < field.length := by simpa using h
    have prev : (i + (field.length - 1)) % field.length < field.length :=
      Nat.mod_lt _ (by omega)
    have next : (i + 1) % field.length < field.length := Nat.mod_lt _ (by omega)
    (evolve target .consolidation field external dt complexity g).1[i] =
      consolidateAt target dt ⟨field[i], field[(i + (field.length - 1)) % field.length] +
        field[(i + 1) % field.length] - 2.0 * field[i], Series.mean field⟩ := by
  have hi : i < field.length := by simpa using h
  simp only [evolve, List.getElem_map, getElem_sites, Series.getElem_stencilLaplacian,
    List.getElem?_replicate_of_lt hi, Option.getD_some]

variable (nonneg : 0 ≤ dt) (short : dt ≤ 2 / 3)

include nonneg short

theorem spread_consolidation_le :
    spread (evolve target .consolidation field external dt complexity g).1 ≤
      (1 - 1.3 * dt) * spread field := by
  obtain rfl | nonempty := eq_or_ne field []
  · simp [evolve, sites, coveredBy, spread]
  have evolved_ne : (evolve target .consolidation field external dt complexity g).1 ≠ [] := by
    rw [← List.length_pos_iff, length_evolve]
    exact List.length_pos_iff.2 nonempty
  rw [spread_le_iff evolved_ne]
  intro a ha b hb
  obtain ⟨i, hi, rfl⟩ := List.mem_iff_getElem.1 ha
  obtain ⟨j, hj, rfl⟩ := List.mem_iff_getElem.1 hb
  rw [getElem_consolidation, getElem_consolidation]
  refine (le_abs_self _).trans (abs_consolidateAt_sub_le nonneg short ?_ ?_ ?_) <;>
    exact abs_sub_le_spread (List.getElem_mem _) (List.getElem_mem _)

theorem distance_consolidation_le (unit : target ∈ Set.Icc (0 : ℝ) 1) :
    distance (evolve target .consolidation field external dt complexity g).1
        (List.replicate field.length target) ≤
      (1 - dt) * distance field (List.replicate field.length target) := by
  have same : field.length = (List.replicate field.length target).length := by simp
  have kept : 0 ≤ 1 - dt := by linarith only [short]
  have within : ∀ v ∈ field,
      |v - target| ≤ distance field (List.replicate field.length target) := by
    intro v hv
    obtain ⟨i, hi, rfl⟩ := List.mem_iff_getElem.1 hv
    simpa using abs_sub_le_distance same hi
  refine (distance_le_iff (by simp)).2 ⟨mul_nonneg kept (distance_nonneg same), fun i hi => ?_⟩
  have nonempty : field ≠ [] := by
    rintro rfl
    simp at hi
  rw [getElem_consolidation, List.getElem_replicate]
  exact abs_consolidateAt_sub_target_le nonneg short unit (within _ (List.getElem_mem _))
    (within _ (List.getElem_mem _)) (within _ (List.getElem_mem _))
    (abs_mean_sub_le nonempty within)

end

/-! ## Many steps -/

/-- One step of consolidation for each external input and complexity. -/
def consolidated {α : Type} [Scalar α] (target dt : α) (inputs : List (α × α))
    (s : List α × RandomStream) : List α × RandomStream :=
  inputs.foldl (fun (field, g) (external, complexity) =>
    evolve target .consolidation field external dt complexity g) s

@[simp] theorem length_consolidated {α : Type} [Scalar α] (target dt : α) (inputs : List (α × α))
    (s : List α × RandomStream) : (consolidated target dt inputs s).1.length = s.1.length := by
  induction inputs generalizing s with
  | nil => rfl
  | cons input inputs ih =>
    rw [consolidated, List.foldl_cons]
    exact (ih _).trans (length_evolve ..)

section

variable {target dt : ℝ} (nonneg : 0 ≤ dt) (short : dt ≤ 2 / 3)

include nonneg short

theorem spread_consolidated_le (inputs : List (ℝ × ℝ)) (field : List ℝ) (g : RandomStream) :
    spread (consolidated target dt inputs (field, g)).1 ≤
      (1 - 1.3 * dt) ^ inputs.length * spread field := by
  have kept : 0 ≤ 1 - 1.3 * dt := by linarith only [short]
  induction inputs generalizing field g with
  | nil => simp [consolidated]
  | cons input inputs ih =>
    obtain ⟨external, complexity⟩ := input
    calc _ ≤ (1 - 1.3 * dt) ^ inputs.length *
          spread (evolve target .consolidation field external dt complexity g).1 := ih _ _
      _ ≤ (1 - 1.3 * dt) ^ inputs.length * ((1 - 1.3 * dt) * spread field) := by
        gcongr
        exact spread_consolidation_le nonneg short
      _ = (1 - 1.3 * dt) ^ (inputs.length + 1) * spread field := by rw [pow_succ, mul_assoc]

theorem distance_consolidated_le (unit : target ∈ Set.Icc (0 : ℝ) 1) (inputs : List (ℝ × ℝ))
    (field : List ℝ) (g : RandomStream) :
    distance (consolidated target dt inputs (field, g)).1
        (List.replicate field.length target) ≤
      (1 - dt) ^ inputs.length * distance field (List.replicate field.length target) := by
  have kept : 0 ≤ 1 - dt := by linarith only [short]
  induction inputs generalizing field g with
  | nil => simp [consolidated]
  | cons input inputs ih =>
    obtain ⟨external, complexity⟩ := input
    have rest := ih (evolve target .consolidation field external dt complexity g).1 g
    rw [length_evolve] at rest
    calc _ ≤ (1 - dt) ^ inputs.length *
          distance (evolve target .consolidation field external dt complexity g).1
            (List.replicate field.length target) := rest
      _ ≤ (1 - dt) ^ inputs.length *
          ((1 - dt) * distance field (List.replicate field.length target)) := by
        gcongr
        exact distance_consolidation_le nonneg short unit
      _ = (1 - dt) ^ (inputs.length + 1) * distance field (List.replicate field.length target) := by
        rw [pow_succ, mul_assoc]

end

/-- A step of consolidation leaves a field at most `1 - 1.3 * dt` of its spread and `1 - dt` of its
greatest distance from the target, and `k` steps leave it the `k`-th powers of these. -/
theorem consolidation_homogenises {target dt : ℝ} (unit : target ∈ Set.Icc (0 : ℝ) 1)
    (nonneg : 0 ≤ dt) (short : dt ≤ 2 / 3) (field : List ℝ) :
    (∀ (external complexity : ℝ) (g : RandomStream),
      let next := (evolve target .consolidation field external dt complexity g).1
      next.length = field.length ∧
      spread next ≤ (1 - 1.3 * dt) * spread field ∧
      distance next (List.replicate field.length target) ≤
        (1 - dt) * distance field (List.replicate field.length target)) ∧
    ∀ (inputs : List (ℝ × ℝ)) (g : RandomStream),
      let last := (consolidated target dt inputs (field, g)).1
      last.length = field.length ∧
      spread last ≤ (1 - 1.3 * dt) ^ inputs.length * spread field ∧
      distance last (List.replicate field.length target) ≤
        (1 - dt) ^ inputs.length * distance field (List.replicate field.length target) := by
  refine ⟨fun external complexity g => ⟨?_, ?_, ?_⟩, fun inputs g => ⟨?_, ?_, ?_⟩⟩
  · exact length_evolve ..
  · exact spread_consolidation_le nonneg short
  · exact distance_consolidation_le nonneg short unit
  · exact length_consolidated ..
  · exact spread_consolidated_le nonneg short inputs field g
  · exact distance_consolidated_le nonneg short unit inputs field g

/-- The step of a mode is one towards the inverse of the golden ratio. -/
theorem consolidation_homogenises_golden :
    spread (apply .consolidation [0, 0.5, 1] 0.5 0.1 0.2 (.ofSeed 7)).1 ≤
      (1 - 1.3 * 0.1) * spread [0, 0.5, 1] ∧
    distance (consolidated goldenTarget 0.1 [(0.5, 0.2), (0, 0.9)] ([0, 0.5, 1], .ofSeed 7)).1
        (List.replicate 3 goldenTarget) ≤
      (1 - 0.1) ^ 2 * distance [0, 0.5, 1] (List.replicate 3 goldenTarget) := by
  have nonneg : (0 : ℝ) ≤ 0.1 := by norm_num
  obtain ⟨step, steps⟩ :=
    consolidation_homogenises goldenTarget_mem nonneg (by norm_num) [0, 0.5, 1]
  exact ⟨(step 0.5 0.2 (.ofSeed 7)).2.1, (steps [(0.5, 0.2), (0, 0.9)] (.ofSeed 7)).2.2⟩

end PopulationMode

end AdaptivePopulation
