import AdaptivePopulation.Proofs.Exact

/-!
# Exact arithmetic with undefined results

The real numbers, two infinities and an undefined number as scalars: everything that doubles stand
for, without rounding and without a sign of zero.  What is proved of them holds for every input of
exact arithmetic, whether or not it is a number.
-/

namespace AdaptivePopulation

/-- A number, an infinity, or the result of an undefined operation. -/
inductive Extended where
  | undefined
  | infinite (positive : Bool)
  | finite (x : ℝ)

namespace Extended

/-! ## Operations -/

/-- The opposite value. -/
protected def neg : Extended → Extended
  | finite x => finite (-x)
  | infinite positive => infinite (!positive)
  | undefined => undefined

/-- The sum; that of opposite infinities is undefined. -/
protected def add : Extended → Extended → Extended
  | finite x, finite y => finite (x + y)
  | finite _, infinite positive | infinite positive, finite _ => infinite positive
  | infinite p, infinite q => if p = q then infinite p else undefined
  | undefined, _ | _, undefined => undefined

/-- The product; that of zero and an infinity is undefined. -/
protected noncomputable def mul : Extended → Extended → Extended
  | finite x, finite y => finite (x * y)
  | finite x, infinite positive | infinite positive, finite x =>
    if x = 0 then undefined else infinite (positive == decide (0 < x))
  | infinite p, infinite q => infinite (p == q)
  | undefined, _ | _, undefined => undefined

/-- Zero has no sign, so that a quotient by zero has none either and is undefined. -/
protected noncomputable def div : Extended → Extended → Extended
  | finite x, finite y => if y = 0 then undefined else finite (x / y)
  | finite _, infinite _ => finite 0
  | infinite positive, finite y =>
    if y = 0 then undefined else infinite (positive == decide (0 < y))
  | infinite _, infinite _ => undefined
  | undefined, _ | _, undefined => undefined

/-- Not greater; undefined results are not comparable. -/
protected def le : Extended → Extended → Prop
  | finite x, finite y => x ≤ y
  | finite _, infinite positive => positive = true
  | infinite positive, finite _ => positive = false
  | infinite p, infinite q => p ≤ q
  | undefined, _ | _, undefined => False

/-- Less; undefined results are not comparable. -/
protected def lt : Extended → Extended → Prop
  | finite x, finite y => x < y
  | finite _, infinite positive => positive = true
  | infinite positive, finite _ => positive = false
  | infinite p, infinite q => p < q
  | undefined, _ | _, undefined => False

/-- The square root, undefined below zero. -/
protected noncomputable def sqrt : Extended → Extended
  | finite x => if x < 0 then undefined else finite (Scalar.sqrt x)
  | infinite positive => if positive then infinite true else undefined
  | undefined => undefined

/-- The logarithm to the base two, infinite at zero and undefined below it. -/
protected noncomputable def log2 : Extended → Extended
  | finite x =>
    if x < 0 then undefined else if x = 0 then infinite false else finite (Scalar.log2 x)
  | infinite positive => if positive then infinite true else undefined
  | undefined => undefined

/-- The sine, undefined at the infinities. -/
protected noncomputable def sin : Extended → Extended
  | finite x => finite (Scalar.sin x)
  | infinite _ | undefined => undefined

/-- The hyperbolic tangent, one or minus one at the infinities. -/
protected noncomputable def tanh : Extended → Extended
  | finite x => finite (Scalar.tanh x)
  | infinite positive => finite (if positive then 1 else -1)
  | undefined => undefined

/-- An infinite count is the greatest one that is stored. -/
protected noncomputable def floorNat : Extended → ℕ
  | finite x => Scalar.floorNat x
  | infinite positive => if positive then UInt64.size - 1 else 0
  | undefined => 0

/-- The value is a real number. -/
protected def isFinite : Extended → Bool
  | finite _ => true
  | infinite _ | undefined => false

noncomputable instance : Scalar Extended where
  add := Extended.add
  sub x y := x.add y.neg
  mul := Extended.mul
  div := Extended.div
  neg := Extended.neg
  lt := Extended.lt
  le := Extended.le
  ofScientific m s e := finite (OfScientific.ofScientific m s e)
  decLt _ _ := Classical.propDecidable _
  decLe _ _ := Classical.propDecidable _
  ofNat n := finite n
  sqrt := Extended.sqrt
  log2 := Extended.log2
  sin := Extended.sin
  tanh := Extended.tanh
  isFinite := Extended.isFinite
  floorNat := Extended.floorNat

/-! ## Numbers -/

theorem finite_add (x y : ℝ) : finite x + finite y = finite (x + y) := rfl

theorem finite_mul (x y : ℝ) : finite x * finite y = finite (x * y) := rfl

theorem finite_neg (x : ℝ) : -finite x = finite (-x) := rfl

theorem finite_div (x : ℝ) {y : ℝ} (nonzero : y ≠ 0) : finite x / finite y = finite (x / y) :=
  if_neg nonzero

theorem log2_finite {x : ℝ} (pos : 0 < x) : Scalar.log2 (finite x) = finite (Scalar.log2 x) :=
  (if_neg pos.not_gt).trans (if_neg pos.ne')

theorem total_finite (values : List ℝ) :
    Series.total (values.map finite) = finite (Series.total values) := by
  have sums (x : ℝ) : (values.map finite).foldl (· + ·) (finite x) =
      finite (values.foldl (· + ·) x) := by
    induction values generalizing x with
    | nil => rfl
    | cons y values ih => rw [List.map_cons, List.foldl_cons, finite_add, ih, List.foldl_cons]
  exact sums (-0.0)

/-! ## The unit interval -/

/-- The number of the unit interval that is nearest, zero for what is undefined. -/
noncomputable def nearestUnit : Extended → ℝ
  | undefined => 0
  | infinite positive => if positive then 1 else 0
  | finite x => max (min x 1) 0

theorem nearestUnit_mem (v : Extended) : v.nearestUnit ∈ Set.Icc (0 : ℝ) 1 := by
  cases v with
  | undefined => exact ⟨le_rfl, zero_le_one⟩
  | infinite positive => cases positive <;> simp [nearestUnit]
  | finite x => exact ⟨le_max_right _ _, max_le (min_le_right _ _) zero_le_one⟩

theorem clampUnit_finite (x : ℝ) : Scalar.clampUnit (finite x) = finite (Scalar.clampUnit x) := by
  have defined : ¬ Scalar.IsUndefined (finite x) := not_not.2 (le_refl x)
  have defined' : ¬ Scalar.IsUndefined x := not_not.2 le_rfl
  rw [Scalar.clampUnit, if_neg defined, Scalar.clampUnit, if_neg defined', Scalar.clamp,
    Scalar.clamp, apply_ite finite, apply_ite finite]
  congr 1

theorem clampUnit_eq_nearestUnit (v : Extended) : Scalar.clampUnit v = finite v.nearestUnit := by
  cases v with
  | undefined => exact (if_pos not_false).trans (congrArg finite zero_literal)
  | infinite positive =>
    have defined : ¬ Scalar.IsUndefined (infinite positive) := not_not.2 (le_refl positive)
    rw [Scalar.clampUnit, if_neg defined]
    cases positive with
    | false => exact (if_pos rfl).trans (congrArg finite zero_literal)
    | true => exact (if_neg nofun).trans ((if_pos rfl).trans (congrArg finite one_literal))
  | finite x => rw [clampUnit_finite, clampUnit_eq, nearestUnit]

end Extended

end AdaptivePopulation
