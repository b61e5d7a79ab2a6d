import AdaptivePopulation.Series.Statistics
import AdaptivePopulation.Spectrum.SquareMatrix

/-!
# Covariance between snapshots

Each snapshot is one variable, observed over its dimensions.  Snapshots of different lengths are cut
to the shortest one; below two dimensions the covariance is undefined.
-/

namespace AdaptivePopulation.Spectrum

open Series

variable {α : Type} [Scalar α]

/-- The number of dimensions that all snapshots have. -/
def commonDimension (samples : List (List α)) : Option Nat := (samples.map List.length).min?

/-- The deviations of a series from its mean. -/
def centered (row : List α) : List α :=
  let center := total row / Scalar.ofNat row.length
  row.map (· - center)

/-- The sum of the products of the values at equal positions. -/
def innerProduct (u v : List α) : α := total (List.zipWith (· * ·) u v)

/-- The sample covariance, normalised by one less than the dimension. -/
def covariance (samples : List (List α)) : Option (SquareMatrix α samples.length) :=
  match commonDimension samples with
  | none => none
  | some dim =>
    if dim < 2 then none
    else
      let rows := Vector.ofFn fun i : Fin samples.length => centered ((samples.get i).take dim)
      some (.ofFn fun i j => innerProduct (rows.get i) (rows.get j) / Scalar.ofNat (dim - 1))

end AdaptivePopulation.Spectrum
