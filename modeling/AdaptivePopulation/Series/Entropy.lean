import AdaptivePopulation.Series.Statistics

/-!
# Histogram entropy

The base-2 entropy of values in `[0, 1]` over equal buckets, relative to that of a flat histogram.
-/

namespace AdaptivePopulation.Series

variable {α : Type} [Scalar α]

/-- What an outcome of probability `p` adds to the entropy. -/
def entropyTerm (p : α) : α := -p * Scalar.log2 p

/-- The bucket of a value; the value one belongs to the last bucket. -/
def bucket (bins : Nat) (value : α) : Nat :=
  min (Scalar.floorNat (Scalar.clampUnit value * Scalar.ofNat bins)) (bins - 1)

/-- How many values fall into each bucket. -/
def histogram (values : List α) (bins : Nat) : List Nat :=
  let buckets := values.map (bucket bins)
  (List.range bins).map fun b => buckets.count b

/-- The entropy of the histogram over its greatest possible value. -/
def shannonEntropy (values : List α) (bins : Nat) : α :=
  if values.isEmpty ∨ bins < 2 then 0.0
  else
    let occupied := (histogram values bins).filter (0 < ·)
    let terms := occupied.map fun c => entropyTerm (Scalar.ofNat c / Scalar.ofNat values.length)
    total terms / Scalar.log2 (Scalar.ofNat bins)

end AdaptivePopulation.Series
