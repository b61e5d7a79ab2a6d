/-!
# Shortest decimals

The shortest decimal that reads back as a given double.  A double stands for all reals that round to
it; of the decimals among them those with the fewest digits count, and of those the one closest to
the double itself.
-/

namespace AdaptivePopulation.Decimal

/-- Which of two equally close decimals is taken. -/
inductive Tie where
  | away
  | even
  deriving DecidableEq, Repr

/-- A positive double and the reals that round to it, all as numerators over one denominator. -/
structure Interval where
  low : Nat
  value : Nat
  high : Nat
  denominator : Nat
  /-- The two ends round to the double as well. -/
  closed : Bool

/-- The interval of `significand * 2 ^ exponent`.  The neighbour below is half as far away as the
one above where the significand is the least of its binade. -/
def Interval.ofBinary (significand : Nat) (exponent : Int) (atBinade : Bool) : Interval :=
  let up := Nat.pow 2 (exponent - 2).toNat
  { low := (4 * significand - if atBinade then 1 else 2) * up
    value := 4 * significand * up
    high := (4 * significand + 2) * up
    denominator := Nat.pow 2 (2 - exponent).toNat
    closed := significand % 2 = 0 }

/-- The interval of a positive finite double, by its bits. -/
def Interval.ofBits (bits : Nat) : Interval :=
  let fraction := bits % Nat.pow 2 52
  let biased := bits / Nat.pow 2 52 % Nat.pow 2 11
  if biased = 0 then .ofBinary fraction (-1074) false
  else .ofBinary (Nat.pow 2 52 + fraction) (Int.ofNat biased - 1075) (fraction = 0 ∧ 1 < biased)

/-- The exponent `k` with `10 ^ (k - 1) ≤ value < 10 ^ k`. -/
def Interval.magnitude (i : Interval) : Int :=
  if i.denominator ≤ i.value then (Nat.toDigits 10 (i.value / i.denominator)).length
  else
    let inverse := (i.denominator + i.value - 1) / i.value
    1 - (Nat.toDigits 10 (inverse - 1)).length

/-- The multiple of `10 ^ exponent` in the interval that is closest to the value, if any is. -/
def Interval.closest? (i : Interval) (tie : Tie) (exponent : Int) : Option Nat :=
  let up := Nat.pow 10 (-exponent).toNat
  let unit := i.denominator * Nat.pow 10 exponent.toNat
  let low := i.low * up
  let value := i.value * up
  let high := i.high * up
  let below := value / unit
  let belowFits : Bool := low < below * unit || i.closed && low == below * unit
  let aboveFits : Bool := (below + 1) * unit < high || i.closed && (below + 1) * unit == high
  let upper : Bool :=
    match compare (value - below * unit) ((below + 1) * unit - value) with
    | .lt => false
    | .gt => true
    | .eq => tie = .away ∨ below % 2 = 1
  if belowFits && !(aboveFits && upper) then some below
  else if aboveFits then some (below + 1)
  else none

/-- The digits `d₁d₂…` without trailing zeros and the exponent `k` of the shortest decimal
`0.d₁d₂… × 10 ^ k`.  Seventeen digits always suffice. -/
def shortest (tie : Tie) (i : Interval) : List Char × Int :=
  let k := i.magnitude
  let found := (List.range 17).findSome? fun (n : Nat) =>
    let exponent := k - (n + 1 : Nat)
    (i.closest? tie exponent).map fun c => (c, exponent)
  let (coefficient, exponent) := found.getD (0, 0)
  let digits := Nat.toDigits 10 coefficient
  ((digits.reverse.dropWhile (· == '0')).reverse, exponent + digits.length)

end AdaptivePopulation.Decimal
