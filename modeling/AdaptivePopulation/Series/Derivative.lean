import AdaptivePopulation.Scalar

/-!
# Finite differences

First and second derivatives of a sampled series.  `gradient` and `laplacian` treat the ends as open
and use one-sided differences there; `stencilLaplacian` closes the series into a ring.
-/

namespace AdaptivePopulation.Series

variable {α : Type} [Scalar α]

/-- The difference of the last two elements of `a :: b :: rest`. -/
def lastDifference : α → α → List α → α
  | a, b, [] => b - a
  | _, b, c :: rest => lastDifference b c rest

/-- The first derivative: central differences inside, one-sided ones at both ends. -/
def gradient (values : List α) (step : α) : List α :=
  match values with
  | a :: b :: rest =>
    let inner := List.zipWith (fun next prev => (next - prev) / (2.0 * step)) rest (a :: b :: rest)
    (b - a) / step :: inner ++ [lastDifference a b rest / step]
  | _ => [0.0]

/-- The second derivative as the gradient of the gradient. -/
def laplacian (values : List α) (step : α) : List α := gradient (gradient values step) step

/-- The three-point diffusion stencil on a ring: both neighbours less twice the centre. -/
def stencilLaplacian (values : List α) : List α :=
  List.zipWith (fun center (prev, next) => prev + next - 2.0 * center) values
    (values.rotateRight.zip values.rotateLeft)

end AdaptivePopulation.Series
