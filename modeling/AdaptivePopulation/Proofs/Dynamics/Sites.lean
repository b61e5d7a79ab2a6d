import Mathlib.Data.List.Rotate
import AdaptivePopulation.Proofs.Dynamics

/-!
# Sites by their positions

What the element of a state at a position sees: itself, its two neighbours on the ring, which are
the element itself in a state of one element and the same one in a state of two, and the field where
it reaches that far.
-/

namespace AdaptivePopulation

theorem rotateLeft_eq_rotate {β : Type} (l : List β) : l.rotateLeft = l.rotate 1 := by
  rw [List.rotate_eq_drop_append_take_mod, List.rotateLeft]
  dsimp only
  split_ifs with short
  · obtain empty | single : l.length = 0 ∨ l.length = 1 := by omega
    · rw [List.eq_nil_of_length_eq_zero empty, List.drop_nil, List.take_nil, List.append_nil]
    · rw [single, Nat.mod_self, List.drop_zero, List.take_zero, List.append_nil]
  · rfl

theorem rotateRight_eq_rotate {β : Type} (l : List β) :
    l.rotateRight = l.rotate (l.length - 1) := by
  rw [List.rotate_eq_drop_append_take_mod, List.rotateRight]
  dsimp only
  split_ifs with short
  · rw [Nat.sub_eq_zero_of_le short, Nat.zero_mod, List.drop_zero, List.take_zero,
      List.append_nil]
  · rw [Nat.mod_eq_of_lt (by omega : 1 < l.length),
      Nat.mod_eq_of_lt (by omega : l.length - 1 < l.length)]

theorem getElem_coveredBy {β : Type} (state field : List β) (i : ℕ)
    (h : i < (coveredBy state field).length) :
    have hi : i < state.length := by simpa using h
    (coveredBy state field)[i] = field[i]?.getD state[i] := by
  fun_induction coveredBy generalizing i with
  | case1 => simp at h
  | case2 v state ih | case3 v state f field ih =>
    cases i with
    | zero => rfl
    | succ i => simpa [coveredBy] using ih i (by simpa using h)

variable {α : Type} [Scalar α]

/-- The neighbours of a position on the ring, less twice its own value. -/
theorem Series.getElem_stencilLaplacian (values : List α) (i : ℕ)
    (h : i < (stencilLaplacian values).length) :
    have hi : i < values.length := by simpa using h
    have prev : (i + (values.length - 1)) % values.length < values.length :=
      Nat.mod_lt _ (by omega)
    have next : (i + 1) % values.length < values.length := Nat.mod_lt _ (by omega)
    (stencilLaplacian values)[i] = values[(i + (values.length - 1)) % values.length] +
      values[(i + 1) % values.length] - 2.0 * values[i] := by
  simp only [stencilLaplacian, List.getElem_zipWith, List.getElem_zip, rotateLeft_eq_rotate,
    rotateRight_eq_rotate, List.getElem_rotate]

theorem getElem_sites (state field : List α) (i : ℕ) (h : i < (sites state field).length) :
    have hi : i < state.length := by simpa using h
    have hl : i < (Series.stencilLaplacian state).length := by simpa using h
    (sites state field)[i] =
      ⟨state[i], (Series.stencilLaplacian state)[i], field[i]?.getD state[i]⟩ := by
  simp only [sites, List.getElem_zipWith, List.getElem_zip, getElem_coveredBy]

end AdaptivePopulation
