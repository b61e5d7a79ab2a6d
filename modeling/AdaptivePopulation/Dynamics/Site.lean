import AdaptivePopulation.Series.Derivative

/-!
# Sites

What one element of a state sees when it moves: its value, the diffusion from its two neighbours on
the ring, and the matching element of the field it is coupled to.
-/

namespace AdaptivePopulation

variable {α : Type} [Scalar α]

/-- What the rule of a step reads at one position of a state. -/
structure Site (α : Type) where
  value : α
  laplacian : α
  field : α

/-- The field as a state sees it: where it is too short the state sees itself. -/
def coveredBy {α : Type} : (state field : List α) → List α
  | [], _ => []
  | v :: state, [] => v :: coveredBy state []
  | _ :: state, f :: field => f :: coveredBy state field

/-- The sites of a state in a field. -/
def sites (state field : List α) : List (Site α) :=
  List.zipWith (fun (value, laplacian) field => ⟨value, laplacian, field⟩)
    (state.zip (Series.stencilLaplacian state)) (coveredBy state field)

/-- The golden ratio. -/
def goldenRatio : α := 1.618033988749895

/-- The value that the stabilising dynamics relax towards. -/
def goldenTarget : α := 1.0 / goldenRatio

end AdaptivePopulation
