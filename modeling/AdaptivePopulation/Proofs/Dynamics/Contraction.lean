import Mathlib.Algebra.Order.Group.MinMax
import AdaptivePopulation.Proofs.Exact
import AdaptivePopulation.Proofs.Dynamics.Sites

/-!
# Stabilisation contracts

In exact arithmetic a step of stabilisation makes each element an average, with weights that are not
negative as long as the step is short, of itself, its neighbours, the field and the target.  The
share of the state in this average is what remains of the distance between two states.
-/

namespace AdaptivePopulation

/-! ## Distances -/

/-- The greatest elementwise distance of two states, zero for empty ones. -/
noncomputable def distance (x y : List ℝ) : ℝ :=
  (List.zipWith (fun a b => |a - b|) x y).foldr max 0

theorem foldr_max_le_iff {values : List ℝ} {c : ℝ} :
    values.foldr max 0 ≤ c ↔ 0 ≤ c ∧ ∀ v ∈ values, v ≤ c := by
  induction values with
  | nil => simp
  | cons v values ih =>
    rw [List.foldr_cons, max_le_iff, ih, List.forall_mem_cons]
    tauto

section

variable {x y : List ℝ} {c : ℝ} (same : x.length = y.length)

include same

theorem distance_le_iff : distance x y ≤ c ↔
    0 ≤ c ∧ ∀ i (hi : i < x.length), |x[i] - y[i]| ≤ c := by
  rw [distance, foldr_max_le_iff, List.forall_mem_iff_forall_getElem]
  simp [same]

theorem abs_sub_le_distance {i : ℕ} (hi : i < x.length) :
    |x[i] - y[i]| ≤ distance x y :=
  ((distance_le_iff same).1 le_rfl).2 i hi

theorem distance_nonneg : 0 ≤ distance x y :=
  ((distance_le_iff same).1 le_rfl).1

end

/-! ## Clamping -/

theorem clampUnit_of_mem {x : ℝ} (h : x ∈ Set.Icc (0 : ℝ) 1) : Scalar.clampUnit x = x := by
  rw [clampUnit_eq, min_eq_left h.2, max_eq_left h.1]

/-- Clamping takes no two numbers further apart. -/
theorem abs_clampUnit_sub_le (a b : ℝ) :
    |Scalar.clampUnit a - Scalar.clampUnit b| ≤ |a - b| := by
  rw [clampUnit_eq, clampUnit_eq]
  calc |max (min a 1) 0 - max (min b 1) 0| ≤ |min a 1 - min b 1| := abs_max_sub_max_le_abs _ _ _
    _ ≤ max |a - b| |1 - 1| := abs_min_sub_min_le_max _ _ _ _
    _ = |a - b| := by simp

theorem abs_clampUnit_sub_le_of_mem {x c : ℝ} (h : c ∈ Set.Icc (0 : ℝ) 1) :
    |Scalar.clampUnit x - c| ≤ |x - c| := by
  simpa only [clampUnit_of_mem h] using abs_clampUnit_sub_le x c

theorem goldenTarget_mem : (goldenTarget : ℝ) ∈ Set.Icc (0 : ℝ) 1 := by
  have golden : (goldenTarget : ℝ) = 1.0 / 1.618033988749895 := rfl
  rw [golden]
  norm_num

/-! ## One element -/

/-- A relaxation at the rate `r` that also averages with two neighbours of the weight `w`, of three
numbers within `D` of zero. -/
theorem abs_relaxed_le {w r dt a b c D : ℝ} (weight : 0 ≤ w) (nonneg : 0 ≤ dt)
    (short : (r + 2 * w) * dt ≤ 1) (ha : |a| ≤ D) (hb : |b| ≤ D) (hc : |c| ≤ D) :
    |a + dt * (w * (b + c - 2 * a) - r * a)| ≤ (1 - r * dt) * D := by
  -- The three weights add up to `1 - r * dt`.
  have own : 0 ≤ 1 - (r + 2 * w) * dt := sub_nonneg.2 short
  have neighbour : 0 ≤ w * dt := by positivity
  calc |a + dt * (w * (b + c - 2 * a) - r * a)|
      = |(1 - (r + 2 * w) * dt) * a + w * dt * b + w * dt * c| := by ring_nf
    _ ≤ |(1 - (r + 2 * w) * dt) * a| + |w * dt * b| + |w * dt * c| := abs_add_three _ _ _
    _ = (1 - (r + 2 * w) * dt) * |a| + w * dt * |b| + w * dt * |c| := by
      rw [abs_mul, abs_mul _ b, abs_mul _ c, abs_of_nonneg own, abs_of_nonneg neighbour]
    _ ≤ (1 - (r + 2 * w) * dt) * D + w * dt * D + w * dt * D := by gcongr
    _ = (1 - r * dt) * D := by ring

namespace Strategy

section

variable {dt D v v' p p' q q' : ℝ} (target : ℝ)

theorem stabilizeAt_eq (dt v p q f : ℝ) : stabilizeAt target dt ⟨v, p + q - 2.0 * v, f⟩ =
    Scalar.clampUnit
      (v + dt * (0.2 * (p + q - 2 * v) - 1.5 * (v - target) + 0.2 * (f - v))) := by
  rw [← two_literal]
  rfl

/-- The rate is that of the relaxation and of the coupling taken together. -/
theorem abs_stabilizeAt_sub_le {r f f' : ℝ} (nonneg : 0 ≤ dt) (short : (r + 2 * 0.2) * dt ≤ 1)
    (rate : 1.5 * (v - v') - 0.2 * ((f - v) - (f' - v')) = r * (v - v'))
    (hv : |v - v'| ≤ D) (hp : |p - p'| ≤ D) (hq : |q - q'| ≤ D) :
    |stabilizeAt target dt ⟨v, p + q - 2.0 * v, f⟩ -
      stabilizeAt target dt ⟨v', p' + q' - 2.0 * v', f'⟩| ≤ (1 - r * dt) * D := by
  rw [stabilizeAt_eq, stabilizeAt_eq]
  calc _ ≤ |_ - _| := abs_clampUnit_sub_le _ _
    _ = |(v - v') + dt * (0.2 * ((p - p') + (q - q') - 2 * (v - v')) - r * (v - v'))| := by
      rw [← rate]
      congr 1
      ring
    _ ≤ (1 - r * dt) * D := abs_relaxed_le (by norm_num) nonneg short hv hp hq

end

/-! ## A step -/

/-- The rate of the relaxation of the element at a position, greater where the field reaches it. -/
noncomputable def relaxationRate (field : List ℝ) (i : ℕ) : ℝ :=
  if i < field.length then 1.7 else 1.5

theorem relaxationRate_spec (field : List ℝ) (i : ℕ) (v v' : ℝ) :
    1.5 * (v - v') - 0.2 * ((field[i]?.getD v - v) - (field[i]?.getD v' - v')) =
      relaxationRate field i * (v - v') := by
  rw [relaxationRate]
  split_ifs with reached
  · rw [List.getElem?_eq_getElem reached, Option.getD_some, Option.getD_some]
    ring
  · rw [List.getElem?_eq_none (not_lt.1 reached), Option.getD_none, Option.getD_none]
    ring

theorem relaxationRate_mem (field : List ℝ) (i : ℕ) :
    relaxationRate field i ∈ Set.Icc (1.5 : ℝ) 1.7 := by
  rw [relaxationRate]
  split_ifs <;> norm_num

section

variable {dt : ℝ} (nonneg : 0 ≤ dt) (short : dt ≤ 10 / 21)

include nonneg short

/-- The own weight of an element is not negative. -/
theorem rate_mul_le_one {r : ℝ} (slow : r ≤ 1.7) : (r + 2 * 0.2) * dt ≤ 1 :=
  calc (r + 2 * 0.2) * dt ≤ 2.1 * (10 / 21) := by
        refine mul_le_mul ?_ short nonneg (by norm_num)
        linarith
    _ = 1 := by norm_num

variable (target : ℝ) (field : List ℝ) (external complexity : ℝ) (g : RandomStream) {x y : List ℝ}
  (same : x.length = y.length)

include same

/-- Of a distance there remains what the least of the rates leaves. -/
theorem distance_stabilize_le {r : ℝ} (slow : r ≤ 1.7)
    (least : ∀ i < x.length, r ≤ relaxationRate field i) :
    distance (evolve target .stabilize x field external dt complexity g).1
      (evolve target .stabilize y field external dt complexity g).1 ≤
        (1 - r * dt) * distance x y := by
  have kept : 0 ≤ 1 - r * dt := by linarith only [rate_mul_le_one nonneg short slow, nonneg]
  have sameSteps : (evolve target .stabilize x field external dt complexity g).1.length =
      (evolve target .stabilize y field external dt complexity g).1.length := by
    simpa using same
  refine (distance_le_iff sameSteps).2 ⟨mul_nonneg kept (distance_nonneg same), fun i hi => ?_⟩
  replace hi : i < x.length := by simpa using hi
  have weight := rate_mul_le_one nonneg short (relaxationRate_mem field i).2
  have atSite := abs_stabilizeAt_sub_le target nonneg weight (relaxationRate_spec field i _ _)
    (abs_sub_le_distance same hi)
    (abs_sub_le_distance same (Nat.mod_lt (i + (x.length - 1)) (by omega)))
    (abs_sub_le_distance same (Nat.mod_lt (i + 1) (by omega)))
  simp only [evolve, List.getElem_map, getElem_sites, Series.getElem_stencilLaplacian, ← same]
  calc _ ≤ (1 - relaxationRate field i * dt) * distance x y := atSite
    _ ≤ (1 - r * dt) * distance x y := by
      gcongr
      · exact distance_nonneg same
      · exact least i hi

end

/-! ## Many steps -/

/-- One step of stabilisation for each external input and complexity. -/
def stabilized {α : Type} [Scalar α] (target dt : α) (field : List α) (inputs : List (α × α))
    (s : List α × RandomStream) : List α × RandomStream :=
  inputs.foldl (fun (x, g) (external, complexity) =>
    evolve target .stabilize x field external dt complexity g) s

@[simp] theorem length_stabilized {α : Type} [Scalar α] (target dt : α) (field : List α)
    (inputs : List (α × α)) (s : List α × RandomStream) :
    (stabilized target dt field inputs s).1.length = s.1.length := by
  induction inputs generalizing s with
  | nil => rfl
  | cons input inputs ih =>
    rw [stabilized, List.foldl_cons]
    exact (ih _).trans (length_evolve ..)

section

variable {target dt : ℝ} {field : List ℝ} {n : ℕ}

theorem relaxationRate_of_covered (covered : ∀ i < n, field[i]? = some target) {i : ℕ}
    (hi : i < n) : relaxationRate field i = 1.7 :=
  if_pos (List.getElem?_eq_some_iff.1 (covered i hi)).1

variable (unit : target ∈ Set.Icc (0 : ℝ) 1) (covered : ∀ i < n, field[i]? = some target)

include unit covered

/-- At the target nothing pulls. -/
theorem stabilize_replicate (dt external complexity : ℝ) (g : RandomStream) :
    evolve target .stabilize (List.replicate n target) field external dt complexity g =
      (List.replicate n target, g) := by
  refine Prod.ext (List.ext_getElem (by simp) fun i _ hi => ?_) rfl
  have pull : target + dt * (0.2 * (target + target - 2 * target) - 1.5 * (target - target) +
      0.2 * (target - target)) = target := by ring
  simp only [evolve, List.getElem_map, getElem_sites, Series.getElem_stencilLaplacian,
    List.getElem_replicate, covered i (by simpa using hi), Option.getD_some]
  rw [stabilizeAt_eq, pull, clampUnit_of_mem unit]

variable (nonneg : 0 ≤ dt) (short : dt ≤ 10 / 21)

include nonneg short

theorem distance_stabilized_le (inputs : List (ℝ × ℝ)) (x : List ℝ) (g : RandomStream)
    (length : x.length = n) :
    distance (stabilized target dt field inputs (x, g)).1 (List.replicate n target) ≤
      (1 - 1.7 * dt) ^ inputs.length * distance x (List.replicate n target) := by
  have kept : 0 ≤ 1 - 1.7 * dt := by
    linarith only [rate_mul_le_one nonneg short (r := 1.7) le_rfl, nonneg]
  induction inputs generalizing x g with
  | nil => simp [stabilized]
  | cons input inputs ih =>
    obtain ⟨external, complexity⟩ := input
    have step := distance_stabilize_le nonneg short target field external complexity g
      (y := List.replicate n target) (by simpa) (r := 1.7) le_rfl
      (fun i hi => (relaxationRate_of_covered covered (length ▸ hi)).ge)
    -- The target has not moved, so this is the distance from it.
    rw [stabilize_replicate unit covered] at step
    calc _ ≤ (1 - 1.7 * dt) ^ inputs.length * distance
          (evolve target .stabilize x field external dt complexity g).1 (List.replicate n target) :=
          ih _ _ (by simpa using length)
      _ ≤ (1 - 1.7 * dt) ^ inputs.length *
          ((1 - 1.7 * dt) * distance x (List.replicate n target)) := by gcongr
      _ = (1 - 1.7 * dt) ^ (inputs.length + 1) * distance x (List.replicate n target) := by
          rw [pow_succ, mul_assoc]

end

/-- A step of stabilisation contracts by a factor of `1 - 1.5 * dt`.  In a field that is the target
wherever the state is, the target is a fixed point that `k` steps come nearer to by a factor of
`(1 - 1.7 * dt) ^ k`. -/
theorem stabilize_contracts {target dt : ℝ} (unit : target ∈ Set.Icc (0 : ℝ) 1) (nonneg : 0 ≤ dt)
    (short : dt ≤ 10 / 21) (field : List ℝ) :
    (∀ (external complexity : ℝ) (g : RandomStream) (x y : List ℝ), x.length = y.length →
      (evolve target .stabilize x field external dt complexity g).1.length = x.length ∧
      distance (evolve target .stabilize x field external dt complexity g).1
        (evolve target .stabilize y field external dt complexity g).1 ≤
          (1 - 1.5 * dt) * distance x y) ∧
    ∀ n, (∀ i < n, field[i]? = some target) →
      (∀ (external complexity : ℝ) (g : RandomStream),
        evolve target .stabilize (List.replicate n target) field external dt complexity g =
          (List.replicate n target, g)) ∧
      ∀ (inputs : List (ℝ × ℝ)) (g : RandomStream) (x : List ℝ), x.length = n →
        (stabilized target dt field inputs (x, g)).1.length = n ∧
        distance (stabilized target dt field inputs (x, g)).1 (List.replicate n target) ≤
          (1 - 1.7 * dt) ^ inputs.length * distance x (List.replicate n target) := by
  refine ⟨fun external complexity g x y same => ⟨?_, ?_⟩,
    fun n covered => ⟨?_, fun inputs g x length => ⟨?_, ?_⟩⟩⟩
  · exact length_evolve ..
  · exact distance_stabilize_le nonneg short target field external complexity g same (by norm_num)
      fun i _ => (relaxationRate_mem field i).1
  · exact stabilize_replicate unit covered dt
  · rw [length_stabilized, length]
  · exact distance_stabilized_le unit covered nonneg short inputs x g length

/-- The step of a strategy is one towards the inverse of the golden ratio. -/
theorem stabilize_contracts_golden :
    distance (apply .stabilize [0, 0.5, 1] [0.25] 0.5 0.1 0.2 (.ofSeed 7)).1
      (apply .stabilize [1, 0.5, 0] [0.25] 0.5 0.1 0.2 (.ofSeed 7)).1 ≤
        (1 - 1.5 * 0.1) * distance [0, 0.5, 1] [1, 0.5, 0] ∧
    distance (stabilized goldenTarget 0.1 [goldenTarget, goldenTarget] [(0.5, 0.2), (0, 0.9)]
      ([0, 1], .ofSeed 7)).1 (List.replicate 2 goldenTarget) ≤
        (1 - 1.7 * 0.1) ^ 2 * distance [0, 1] (List.replicate 2 goldenTarget) := by
  have unit := goldenTarget_mem
  have covered : ∀ i < 2, [goldenTarget, goldenTarget][i]? = some (goldenTarget : ℝ) := by
    intro i hi
    obtain rfl | rfl : i = 0 ∨ i = 1 := by omega
    all_goals rfl
  constructor
  · exact ((stabilize_contracts unit (by norm_num) (by norm_num) [0.25]).1 0.5 0.2 (.ofSeed 7)
      [0, 0.5, 1] [1, 0.5, 0] rfl).2
  · exact (((stabilize_contracts unit (by norm_num) (by norm_num) _).2 2 covered).2
      [(0.5, 0.2), (0, 0.9)] (.ofSeed 7) [0, 1] rfl).2

end Strategy

end AdaptivePopulation
