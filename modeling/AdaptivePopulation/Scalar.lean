/-!
# Scalars

The numbers that states, measures and weights are made of.  Every formula of the library is written
once over `Scalar`, in the order in which it is evaluated, so that it can be run on doubles and
reasoned about on any other interpretation of the operations.
-/

namespace AdaptivePopulation

/-- Ordered numbers with decimal literals and the functions that the dynamics use. -/
class Scalar (α : Type) extends Add α, Sub α, Mul α, Div α, Neg α, LT α, LE α, OfScientific α where
  decLt (x y : α) : Decidable (x < y)
  decLe (x y : α) : Decidable (x ≤ y)
  /-- The nearest scalar to a natural number. -/
  ofNat : Nat → α
  sqrt : α → α
  log2 : α → α
  sin : α → α
  tanh : α → α
  /-- Neither infinite nor undefined. -/
  isFinite : α → Bool
  /-- The integral part, zero for what is negative or undefined. -/
  floorNat : α → Nat

attribute [reducible, instance] Scalar.decLt Scalar.decLe

instance : Scalar Float where
  decLt x y := inferInstanceAs (Decidable (x < y))
  decLe x y := inferInstanceAs (Decidable (x ≤ y))
  ofNat := Float.ofNat
  sqrt := Float.sqrt
  log2 := Float.log2
  sin := Float.sin
  tanh := Float.tanh
  isFinite := Float.isFinite
  floorNat x := x.toUInt64.toNat

namespace Scalar

variable {α : Type} [Scalar α]

/-- A value that is not even at most itself, the result of an undefined operation. -/
def IsUndefined (x : α) : Prop := ¬ x ≤ x

instance (x : α) : Decidable (IsUndefined x) := inferInstanceAs (Decidable (¬ x ≤ x))

/-- The magnitude of a value. -/
def abs (x : α) : α := if x < 0.0 then -x else x

/-- The nearest value in `[lo, hi]`; an undefined value stays undefined. -/
def clamp (lo hi x : α) : α := if x < lo then lo else if hi < x then hi else x

/-- The nearest value in `[0, 1]`; an undefined value counts as zero. -/
def clampUnit (x : α) : α := if IsUndefined x then 0.0 else clamp 0.0 1.0 x

/-- The value itself where it is positive, else zero. -/
def positivePart (x : α) : α := if 0.0 < x then x else 0.0

end Scalar

end AdaptivePopulation
