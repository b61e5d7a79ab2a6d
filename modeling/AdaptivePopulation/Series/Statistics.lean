import AdaptivePopulation.Scalar

/-!
# Statistics of a series

Sums, means and spreads of finite series.  An empty series has mean and deviation zero.  The sum
starts from negative zero, which is the neutral element of addition on doubles.
-/

namespace AdaptivePopulation.Series

variable {α : Type} [Scalar α]

/-- The sum from left to right. -/
def total (values : List α) : α := values.foldl (· + ·) (-0.0)

/-- The arithmetic mean, zero for an empty series. -/
def mean (values : List α) : α :=
  if values.isEmpty then 0.0 else total values / Scalar.ofNat values.length

/-- The population standard deviation, zero for an empty series. -/
def standardDeviation (values : List α) : α :=
  if values.isEmpty then 0.0
  else
    let center := mean values
    Scalar.sqrt (mean (values.map fun v => (v - center) * (v - center)))

/-- The elementwise mean of several states, as long as the shortest of them. -/
def meanField (states : List (List α)) : List α :=
  match (states.map List.length).min? with
  | none => []
  | some width =>
    let sums := states.foldl (List.zipWith (· + ·)) (List.replicate width 0.0)
    sums.map (· / Scalar.ofNat states.length)

end AdaptivePopulation.Series
