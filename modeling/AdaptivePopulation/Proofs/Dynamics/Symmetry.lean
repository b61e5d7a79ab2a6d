import AdaptivePopulation.Proofs.Double.Arithmetic
import AdaptivePopulation.Proofs.Dynamics.Sites

/-!
# No position is preferred

The positions of a state form a ring.  Strategies that take no draws treat all positions alike, so
that a state and a field that are turned together lead to the turned result, whatever the operations
on the elements are.  Reversing swaps the two neighbours of every element, which are added: where
addition is commutative, as it is on doubles, a state and a field that are reversed lead to the
reversed result.
-/

namespace AdaptivePopulation

/-! ## Rearranging positions -/

/-- A rearrangement of lists that looks at positions only. -/
structure IsPositional (σ : {β : Type} → List β → List β) : Prop where
  length {β : Type} (l : List β) : (σ l).length = l.length
  zipWith {β γ δ : Type} (f : β → γ → δ) {l : List β} {l' : List γ} (same : l.length = l'.length) :
    σ (List.zipWith f l l') = List.zipWith f (σ l) (σ l')

theorem isPositional_rotate (k : ℕ) : IsPositional (·.rotate k) where
  length l := List.length_rotate l k
  zipWith f l l' := List.zipWith_rotate_distrib f l l' k

theorem isPositional_reverse : IsPositional List.reverse where
  length _ := List.length_reverse
  zipWith _ _ _ := List.reverse_zipWith

section

variable {σ : {β : Type} → List β → List β} (hσ : IsPositional σ)

include hσ

theorem IsPositional.map {β γ : Type} (f : β → γ) (l : List β) : σ (l.map f) = (σ l).map f := by
  have map_eq (l : List β) : l.map f = List.zipWith (fun b _ => f b) l l :=
    (List.zipWith_self (f := fun b _ => f b)).symm
  rw [map_eq, map_eq, hσ.zipWith _ rfl]

end

/-! ## Neighbours -/

section

variable {β : Type} (l : List β)

theorem rotateRight_reverse : l.reverse.rotateRight = l.rotateLeft.reverse := by
  rw [rotateLeft_eq_rotate, rotateRight_eq_rotate]
  cases l with
  | nil => rfl
  | cons b l => simpa using List.rotate_append_length_eq l.reverse [b]

theorem rotateLeft_reverse : l.reverse.rotateLeft = l.rotateRight.reverse := by
  have swapped := rotateRight_reverse l.reverse
  rw [List.reverse_reverse] at swapped
  rw [swapped, List.reverse_reverse]

end

variable {α : Type} [Scalar α]

theorem Series.stencilLaplacian_rotate (values : List α) (k : ℕ) :
    stencilLaplacian (values.rotate k) = (stencilLaplacian values).rotate k := by
  have turned (n : ℕ) : (values.rotate k).rotate n = (values.rotate n).rotate k := by
    rw [List.rotate_rotate, List.rotate_rotate, Nat.add_comm]
  have pairs : ((values.rotate (values.length - 1)).zip (values.rotate 1)).rotate k =
      ((values.rotate (values.length - 1)).rotate k).zip ((values.rotate 1).rotate k) :=
    List.zipWith_rotate_distrib _ _ _ _ (by simp)
  simp only [stencilLaplacian, rotateLeft_eq_rotate, rotateRight_eq_rotate, List.length_rotate,
    turned, ← pairs]
  exact (List.zipWith_rotate_distrib _ _ _ _ (by simp)).symm

theorem Series.stencilLaplacian_reverse (comm : ∀ a b : α, a + b = b + a) (values : List α) :
    stencilLaplacian values.reverse = (stencilLaplacian values).reverse := by
  obtain ⟨right, left⟩ := length_rotations values
  have pairs : values.rotateLeft.reverse.zip values.rotateRight.reverse =
      ((values.rotateRight.zip values.rotateLeft).map Prod.swap).reverse := by
    rw [List.zip_swap]
    exact (List.reverse_zipWith (left.trans right.symm)).symm
  rw [stencilLaplacian, stencilLaplacian, rotateRight_reverse, rotateLeft_reverse, pairs,
    ← List.reverse_zipWith (by simp [right, left]), List.zipWith_map_right]
  simp only [Prod.fst_swap, Prod.snd_swap, comm]

/-! ## Strategies -/

section

variable {σ : {β : Type} → List β → List β} (hσ : IsPositional σ) {state field : List α}
  (same : field.length = state.length)
  (stencil : Series.stencilLaplacian (σ state) = σ (Series.stencilLaplacian state))

/-- A field that is as long as the state is seen as it is. -/
theorem coveredBy_of_length {β : Type} {state field : List β} (same : field.length = state.length) :
    coveredBy state field = field := by
  refine List.ext_getElem (by simp [same]) fun i _ hi => ?_
  rw [getElem_coveredBy, List.getElem?_eq_getElem hi, Option.getD_some]

include hσ same stencil

theorem IsPositional.sites : sites (σ state) (σ field) = σ (sites state field) := by
  have same' : (σ field).length = (σ state).length := by rw [hσ.length, hσ.length, same]
  have zipped : (σ state).zip (σ (Series.stencilLaplacian state)) =
      σ (state.zip (Series.stencilLaplacian state)) :=
    (hσ.zipWith Prod.mk (Series.length_stencilLaplacian state).symm).symm
  rw [AdaptivePopulation.sites, AdaptivePopulation.sites, coveredBy_of_length same,
    coveredBy_of_length same', stencil, zipped, hσ.zipWith _ (by simp [same])]

/-- A strategy without draws moves rearranged states as it moves the states themselves, if the
neighbours of rearranged positions are the rearranged neighbours. -/
theorem IsPositional.evolve {strategy : Strategy} (calm : strategy ≠ .explore)
    (target external dt complexity : α) (g : RandomStream) :
    Strategy.evolve target strategy (σ state) (σ field) external dt complexity g =
      (σ (Strategy.evolve target strategy state field external dt complexity g).1, g) := by
  cases strategy with
  | explore => exact absurd rfl calm
  | stabilize | sync =>
    simp only [Strategy.evolve]
    rw [hσ.sites same stencil, hσ.map]
  | decay =>
    simp only [Strategy.evolve]
    rw [hσ.map]

end

namespace Strategy

/-- Strategies without draws move a state and a field that are both turned to the turned result, and
where addition is commutative also a state and a field that are both reversed to the reversed
result. -/
theorem no_position_is_preferred (strategy : Strategy) (calm : strategy ≠ .explore)
    {state field : List α} (same : field.length = state.length) (external dt complexity : α)
    (g : RandomStream) :
    let next := (apply strategy state field external dt complexity g).1
    (∀ k, apply strategy (state.rotate k) (field.rotate k) external dt complexity g =
      (next.rotate k, g)) ∧
    ((∀ a b : α, a + b = b + a) →
      apply strategy state.reverse field.reverse external dt complexity g = (next.reverse, g)) :=
  ⟨fun k => (isPositional_rotate k).evolve same (Series.stencilLaplacian_rotate state k) calm ..,
    fun comm => isPositional_reverse.evolve same (Series.stencilLaplacian_reverse comm state)
      calm ..⟩

theorem no_position_is_preferred_doubles :
    let state : List Float := [0.1, 0.9, 0.4, 0.2]
    let field : List Float := [0.8, 0.3, 0.5, 0.6]
    let next := (apply .sync state field 0.5 0.1 0.2 (.ofSeed 7)).1
    apply .sync (state.rotate 3) (field.rotate 3) 0.5 0.1 0.2 (.ofSeed 7) =
        (next.rotate 3, .ofSeed 7) ∧
      apply .sync state.reverse field.reverse 0.5 0.1 0.2 (.ofSeed 7) =
        (next.reverse, .ofSeed 7) := by
  intro state field next
  have same : field.length = state.length := by simp [state, field]
  have symmetric := no_position_is_preferred .sync nofun same 0.5 0.1 0.2 (.ofSeed 7)
  exact ⟨symmetric.1 3, symmetric.2 Double.add_commutes⟩

end Strategy

end AdaptivePopulation
