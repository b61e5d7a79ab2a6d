import Mathlib.Data.List.Zip
import Mathlib.Tactic.SplitIfs
import AdaptivePopulation.Dynamics.PopulationMode
import AdaptivePopulation.Dynamics.Strategy

/-!
# What every step of the dynamics keeps

Whatever they are applied to, strategies and modes keep the length of a state and clamp each of its
elements.
-/

namespace AdaptivePopulation

variable {α : Type} [Scalar α]

/-! ## Sites -/

theorem length_rotations {α : Type} (values : List α) :
    values.rotateRight.length = values.length ∧ values.rotateLeft.length = values.length := by
  unfold List.rotateRight List.rotateLeft
  dsimp only
  split_ifs with short
  · exact ⟨rfl, rfl⟩
  · have lt : 1 % values.length < values.length := Nat.mod_lt 1 (by omega)
    simp only [List.length_append, List.length_drop, List.length_take]
    omega

@[simp] theorem Series.length_stencilLaplacian (values : List α) :
    (stencilLaplacian values).length = values.length := by
  simp [stencilLaplacian, length_rotations]

@[simp] theorem length_coveredBy {α : Type} (state field : List α) :
    (coveredBy state field).length = state.length := by
  fun_induction coveredBy <;> simp_all

@[simp] theorem length_sites (state field : List α) :
    (sites state field).length = state.length := by
  simp [sites]

/-! ## Clamped values -/

/-- Every value has been clamped. -/
def IsClamped (values : List α) : Prop := ∀ v ∈ values, ∃ x, v = Scalar.clampUnit x

theorem isClamped_map {β : Type} {f : β → α} {l : List β}
    (h : ∀ b, ∃ x, f b = Scalar.clampUnit x) : IsClamped (l.map f) := by
  intro v hv
  obtain ⟨b, -, rfl⟩ := List.mem_map.1 hv
  exact h b

theorem isClamped_zipWith {β γ : Type} {f : β → γ → α} {l : List β} {l' : List γ}
    (h : ∀ b c, ∃ x, f b c = Scalar.clampUnit x) : IsClamped (List.zipWith f l l') := by
  rw [← List.map_uncurry_zip_eq_zipWith]
  exact isClamped_map fun p => h p.1 p.2

section

variable (state field : List α) (external dt complexity : α) (g : RandomStream)

@[simp] theorem Strategy.length_evolve (target : α) (strategy : Strategy) :
    (evolve target strategy state field external dt complexity g).1.length = state.length := by
  cases strategy <;> simp [evolve, RandomStream.length_draws]

theorem Strategy.length_apply (strategy : Strategy) :
    (strategy.apply state field external dt complexity g).1.length = state.length :=
  length_evolve state field external dt complexity g goldenTarget strategy

theorem Strategy.isClamped_apply (strategy : Strategy) :
    IsClamped (strategy.apply state field external dt complexity g).1 := by
  cases strategy with
  | explore => exact isClamped_zipWith fun _ _ => ⟨_, rfl⟩
  | stabilize | sync | decay => exact isClamped_map fun _ => ⟨_, rfl⟩

@[simp] theorem PopulationMode.length_evolve (target : α) (mode : PopulationMode) :
    (evolve target mode field external dt complexity g).1.length = field.length := by
  cases mode <;> simp [evolve, RandomStream.length_draws]

theorem PopulationMode.length_apply (mode : PopulationMode) :
    (mode.apply field external dt complexity g).1.length = field.length :=
  length_evolve field external dt complexity g goldenTarget mode

theorem PopulationMode.isClamped_apply (mode : PopulationMode) :
    IsClamped (mode.apply field external dt complexity g).1 := by
  cases mode with
  | exploration => exact isClamped_zipWith fun _ _ => ⟨_, rfl⟩
  | consolidation | transcendence => exact isClamped_map fun _ => ⟨_, rfl⟩

end

end AdaptivePopulation
