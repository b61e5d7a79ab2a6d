import AdaptivePopulation.Proofs.Decimal.Doubles
import AdaptivePopulation.Proofs.Exact
import AdaptivePopulation.Random.Stream

/-!
# The unit interval

Everything that is clamped is a defined double from zero to one, whatever it has been computed from,
and so is every fraction that is drawn.  Such a double stands for a real number of this interval.
-/

namespace AdaptivePopulation

open Float.Model Float.Model.UnpackedFloat

/-! ## The order of doubles -/

namespace Double

theorem lt_iff {x y : Float} : x < y ↔ x.toModel.unpack.compare y.toModel.unpack = some .lt := by
  show Float.lt x y = true ↔ _
  rw [Float.lt, decide_eq_true_iff]
  show (_ == _) = true ↔ _
  rw [beq_iff_eq]

theorem le_iff {x y : Float} :
    x ≤ y ↔ ∃ o, x.toModel.unpack.compare y.toModel.unpack = some o ∧ o.isLE = true := by
  show Float.le x y = true ↔ _
  rw [Float.le, decide_eq_true_iff]
  show Option.any _ _ = true ↔ _
  rw [Option.any_eq_true]

theorem compare_swap (a b : UnpackedFloat) : b.compare a = (a.compare b).map Ordering.swap := by
  cases a with
  | notANumber => cases b <;> rfl
  | infinity s => cases s <;> rcases b with ⟨_ | _⟩ | _ | _ | _ <;> rfl
  | zero s => rcases b with ⟨_ | _⟩ | _ | _ | ⟨_ | _⟩ <;> rfl
  | finite s m e =>
    rcases b with ⟨_ | _⟩ | _ | _ | ⟨s', m', e', -⟩
    case finite =>
      have exponents : compare e' e = (compare e e').swap := Std.OrientedCmp.eq_swap
      have significands : compare m' m = (compare m m').swap := Std.OrientedCmp.eq_swap
      cases s <;> cases s' <;>
        simp [UnpackedFloat.compare, exponents, significands, Ordering.swap_then]
    all_goals cases s <;> rfl

/-- Only an undefined operand keeps doubles from being compared. -/
theorem compare_eq_none {a b : UnpackedFloat} :
    a.compare b = none ↔ a.isNaN = true ∨ b.isNaN = true := by
  rcases a with ⟨_ | _⟩ | _ | _ | ⟨_ | _⟩ <;> rcases b with ⟨_ | _⟩ | _ | _ | ⟨_ | _⟩ <;>
    simp [UnpackedFloat.compare, UnpackedFloat.isNaN]

theorem isNaN_of_le {x y : Float} (h : x ≤ y) : x.isNaN = false ∧ y.isNaN = false := by
  obtain ⟨o, ho, -⟩ := le_iff.1 h
  have defined := mt compare_eq_none.2 (Option.ne_none_iff_exists'.2 ⟨o, ho⟩)
  rwa [not_or, Bool.not_eq_true, Bool.not_eq_true] at defined

/-- Defined doubles are in one order or the other. -/
theorem le_of_not_lt {x y : Float} (hx : x.isNaN = false) (hy : y.isNaN = false) (h : ¬ x < y) :
    y ≤ x := by
  have defined : x.toModel.unpack.compare y.toModel.unpack ≠ none := by
    rw [Ne, compare_eq_none]
    show ¬ (x.isNaN = true ∨ y.isNaN = true)
    rw [hx, hy]
    decide
  obtain ⟨o, ho⟩ := Option.ne_none_iff_exists'.1 defined
  refine le_iff.2 ⟨o.swap, by rw [compare_swap, ho, Option.map_some], ?_⟩
  cases o with
  | lt => exact absurd (lt_iff.2 ho) h
  | eq | gt => rfl

end Double

/-! ## Doubles from zero to one -/

/-- A defined double from zero to one. -/
structure InUnit (v : Float) : Prop where
  defined : v.isNaN = false
  least : 0.0 ≤ v
  greatest : v ≤ 1.0

theorem inUnit_iff {v : Float} : InUnit v ↔ 0.0 ≤ v ∧ v ≤ 1.0 :=
  ⟨fun h => ⟨h.least, h.greatest⟩, fun h => ⟨(Double.isNaN_of_le h.1).2, h.1, h.2⟩⟩

theorem inUnit_zero : InUnit 0.0 := inUnit_iff.2 (by decide)

theorem inUnit_one : InUnit 1.0 := inUnit_iff.2 (by decide)

/-- Whatever is clamped lies between zero and one. -/
theorem inUnit_clampUnit (x : Float) : InUnit (Scalar.clampUnit x) := by
  unfold Scalar.clampUnit Scalar.clamp
  split_ifs with undefined below above
  · exact inUnit_zero
  · exact inUnit_zero
  · exact inUnit_one
  · have defined := (Double.isNaN_of_le (not_not.1 undefined)).1
    exact inUnit_iff.2 ⟨Double.le_of_not_lt defined inUnit_zero.defined below,
      Double.le_of_not_lt inUnit_one.defined defined above⟩

/-! ## Draws -/

section

open Decimal

variable {m : ℕ} {e : ℤ}

theorem inUnit_signed (h : IsDouble m e) (below : e < -52) :
    InUnit (signed .positive m e h.pos) := by
  have unpacked : (signed .positive m e h.pos).toModel.unpack = .finite .positive m e h.pos :=
    unpack_pack h .positive
  refine inUnit_iff.2 ⟨Double.le_iff.2 ⟨.lt, ?_, rfl⟩, Double.le_iff.2 ⟨.lt, ?_, rfl⟩⟩
  · rw [unpacked]
    rfl
  · rw [unpacked]
    show some ((compare e (-52)).then (compare m (2 ^ 52))) = _
    rw [Int.compare_eq_lt.2 below]
    rfl

theorem ofNat_eq {c : ℕ} (hc : c ≠ 0) (hlt : c < 2 ^ 53) :
    (Scalar.ofNat c : Float) =
      signed .positive (wholeSignificand c) (c.log2 - 52) (isDouble_whole hc hlt).pos := by
  have h := isDouble_whole hc hlt
  have hq : RoundsTo (wholeSignificand c) (c.log2 - 52) (c * 10 ^ (0 : ℤ)) := by
    rw [zpow_zero, mul_one, ← value_whole hc hlt]
    exact roundsTo_self h.pos
  exact floatOfScientific_eq h hc hq

/-- Division by the fifty-third power of two is exact: the exponent sinks and the significand
stays. -/
theorem ofNat_div_eq {c : ℕ} (hc : c ≠ 0) (hlt : c < 2 ^ 53) :
    ∃ h : IsDouble (wholeSignificand c) (c.log2 - 105),
      (Scalar.ofNat c : Float) / 9007199254740992.0 =
        signed .positive (wholeSignificand c) (c.log2 - 105) h.pos := by
  have whole := isDouble_whole hc hlt
  have log := log2_le_of_lt hc hlt
  have two : IsDouble (2 ^ 52) 1 := ⟨by decide, by decide, by decide, by decide, .inr (by decide)⟩
  have quotient : IsDouble (wholeSignificand c) (c.log2 - 105) :=
    ⟨whole.pos, whole.lt, by omega, by omega, .inr (whole.normal.resolve_left (by omega))⟩
  have value : (wholeSignificand c * 2 ^ ((c.log2 : ℤ) - 52) / ((2 ^ 52 : ℕ) * 2 ^ (1 : ℤ)) : ℚ) =
      wholeSignificand c * 2 ^ ((c.log2 : ℤ) - 105) := by
    rw [show ((c.log2 : ℤ) - 52) = (c.log2 - 105) + 53 by omega, zpow_add₀ two_ne_zero]
    norm_num
    ring
  have hq : RoundsTo (wholeSignificand c) (c.log2 - 105)
      (wholeSignificand c * 2 ^ ((c.log2 : ℤ) - 52) / ((2 ^ 52 : ℕ) * 2 ^ (1 : ℤ))) := by
    rw [value]
    exact roundsTo_self quotient.pos
  refine ⟨quotient, ?_⟩
  rw [ofNat_eq hc hlt]
  exact signed_div quotient whole two hq

/-- The fraction of a draw lies between zero and one. -/
theorem inUnit_unitFraction (word : UInt64) : InUnit (Random.unitFraction word) := by
  unfold Random.unitFraction
  have hlt : (word >>> 11).toNat < 2 ^ 53 := by
    have bound := word.toNat_lt
    rw [UInt64.toNat_shiftRight, Nat.shiftRight_eq_div_pow]
    show _ / 2 ^ 11 < _
    omega
  generalize (word >>> 11).toNat = c at hlt
  by_cases hc : c = 0
  · rw [hc]
    exact inUnit_iff.2 (by decide)
  · have log := log2_le_of_lt hc hlt
    obtain ⟨h, divided⟩ := ofNat_div_eq hc hlt
    rw [divided]
    exact inUnit_signed h (by omega)

end

/-! ## The numbers that doubles stand for -/

/-- The real number that a finite double stands for, zero for any other. -/
noncomputable def realOf (v : Float) : ℝ :=
  match v.toModel.unpack with
  | .finite s m e _ => (s.apply m * 2 ^ e : ℚ)
  | _ => 0

theorem significand_lt {v : Float} {s : Sign} {m : ℕ} {e : ℤ} {hm : 0 < m}
    (h : v.toModel.unpack = .finite s m e hm) : m < 2 ^ 53 := by
  change UnpackedFloat.unpack Format.binary64 v.toBits.toBitVec = _ at h
  unfold UnpackedFloat.unpack at h
  dsimp only at h
  split_ifs at h <;> cases h
  · exact (BitVec.isLt _).trans (by decide)
  · exact BitVec.isLt _

theorem mul_zpow_le_one {m k : ℕ} {e : ℤ} (hm : m ≤ 2 ^ k) (he : e ≤ -k) :
    (m * 2 ^ e : ℚ) ≤ 1 :=
  calc (m * 2 ^ e : ℚ) ≤ 2 ^ k * 2 ^ (-k : ℤ) :=
        mul_le_mul (by exact_mod_cast hm) (zpow_le_zpow_right₀ one_le_two he) (by positivity)
          (by positivity)
    _ = 1 := by rw [zpow_neg, zpow_natCast, mul_inv_cancel₀ (by positivity)]

/-- A double of the unit interval stands for a number of it. -/
theorem realOf_mem {v : Float} (h : InUnit v) : realOf v ∈ Set.Icc 0 1 := by
  obtain ⟨o, least, ho⟩ := Double.le_iff.1 h.least
  obtain ⟨o', greatest, ho'⟩ := Double.le_iff.1 h.greatest
  unfold realOf
  rcases hv : v.toModel.unpack with s | _ | s | ⟨s, m, e, hm⟩
  case finite =>
    have lt := significand_lt hv
    rw [hv] at least greatest
    cases s with
    | negative =>
      cases least
      cases ho
    | positive =>
      -- One has the exponent -52, so a greater significand comes with a smaller exponent.
      change some ((compare e (-52)).then (compare m (2 ^ 52))) = some o' at greatest
      rw [← Option.some.inj greatest, Ordering.isLE_then_iff_or, Int.compare_eq_lt,
        Int.compare_eq_eq, Nat.isLE_compare] at ho'
      have value : (Sign.positive.apply m * 2 ^ e : ℚ) = m * 2 ^ e := by simp [Sign.apply]
      have unit : (0 : ℚ) ≤ m * 2 ^ e ∧ (m * 2 ^ e : ℚ) ≤ 1 := by
        refine ⟨by positivity, ?_⟩
        obtain small | ⟨rfl, hm'⟩ := ho'
        · exact mul_zpow_le_one lt.le (by push_cast; omega)
        · exact mul_zpow_le_one hm' (by norm_num)
      dsimp only
      rw [value, Set.mem_Icc]
      exact_mod_cast unit
  all_goals exact ⟨le_refl 0, zero_le_one⟩

end AdaptivePopulation
