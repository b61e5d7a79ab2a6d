import AdaptivePopulation.Proofs.Double.Arithmetic
import AdaptivePopulation.Series.Statistics

/-!
# Sums and means of doubles

A sum of doubles that are small enough stays finite however many there are: once it has grown so
large that they are less than half of its last place, they no longer change it.  A mean is at most
as large as the sum.
-/

namespace AdaptivePopulation.Double

open Float.Model Float.Model.UnpackedFloat Decimal

/-- Finite and at most as large as a number. -/
structure AtMost (b : ℝ) (x : Float) : Prop where
  finite : x.isFinite
  le : |realOf x| ≤ b

variable {x y : Float} {b c : ℝ} {values : List Float}

theorem AtMost.mono (h : AtMost b x) (hb : b ≤ c) : AtMost c x := ⟨h.finite, h.le.trans hb⟩

theorem AtMost.zero (hb : 0 ≤ b) : AtMost b 0.0 :=
  ⟨by decide, by rw [realOf_zero, abs_zero]; exact hb⟩

theorem abs_rounded_le {q r : ℝ} (h : |q| ≤ r) : |rounded q| ≤ rounded r := by
  obtain ⟨low, high⟩ := abs_le.1 h
  rw [abs_le, ← rounded_neg]
  exact ⟨rounded_mono low, rounded_mono high⟩

/-- What rounds to a number of at most a size that is no overflow. -/
theorem atMost_of_nearest {q : ℝ} (h : x.isNaN = false ∧ extended x = nearest q)
    (le : |rounded q| ≤ b) (hb : b < bound) : AtMost b x := by
  obtain ⟨finite, value⟩ := realOf_of_nearest h (le.trans_lt hb)
  exact ⟨finite, value ▸ le⟩

theorem rounded_abs_realOf (x : Float) : rounded |realOf x| = |realOf x| := by
  obtain nonneg | neg := le_or_gt 0 (realOf x)
  · rw [abs_of_nonneg nonneg, rounded_realOf]
  · rw [abs_of_neg neg, rounded_neg, rounded_realOf]

theorem realOf_neg_one : realOf (-1.0) = -1 := by
  have value : (-1.0 : Float).toModel.unpack = .finite .negative (2 ^ 52) (-52) (by decide) := rfl
  rw [realOf_eq, value, valueOf_negative]
  norm_num

theorem atMost_one (low : -1.0 ≤ x) (high : x ≤ 1.0) : AtMost 1 x := by
  obtain ⟨-, defined, low⟩ := le_iff_extended.1 low
  obtain ⟨-, -, high⟩ := le_iff_extended.1 high
  rw [extended_of_isFinite (by decide : (-1.0 : Float).isFinite), realOf_neg_one] at low
  rw [extended_of_isFinite (by decide : (1.0 : Float).isFinite), realOf_one] at high
  have finite : x.isFinite := (isFinite_iff defined).2
    ⟨(high.trans_lt (EReal.coe_lt_top 1)).ne, ((EReal.bot_lt_coe (-1)).trans_le low).ne'⟩
  rw [extended_of_isFinite finite, EReal.coe_le_coe_iff] at low high
  exact ⟨finite, abs_le.2 ⟨low, high⟩⟩

/-- A factor between minus one and one does not enlarge. -/
theorem AtMost.mul (hx : AtMost b x) (hb : b < bound) (hy : AtMost 1 y) : AtMost b (y * x) := by
  refine atMost_of_nearest (mul_of_isFinite hy.finite hx.finite) ?_ hb
  have smaller : |realOf y * realOf x| ≤ |realOf x| := by
    rw [abs_mul]
    exact mul_le_of_le_one_left (abs_nonneg _) hy.le
  exact (abs_rounded_le smaller).trans ((rounded_abs_realOf x).le.trans hx.le)

/-! ## Sums -/

/-- A summand that is at most half of the last place above a power of two does not lead past it. -/
theorem AtMost.add {k : ℤ} (least : -1074 ≤ k) (greatest : k ≤ 970)
    (hx : AtMost (2 ^ (53 + k)) x) (hy : AtMost (2 ^ k) y) : AtMost (2 ^ (53 + k)) (x + y) := by
  refine atMost_of_nearest (add_of_isFinite hx.finite hy.finite) ?_ (zpow_lt_bound (by omega))
  have sum : |realOf x + realOf y| ≤ 2 ^ (53 + k) + 2 ^ k :=
    (abs_add_le _ _).trans (add_le_add hx.le hy.le)
  exact (abs_rounded_le sum).trans (rounded_le_zpow least le_rfl)

theorem atMost_foldl {k : ℤ} (least : -1074 ≤ k) (greatest : k ≤ 970)
    (hx : AtMost (2 ^ (53 + k)) x) (h : ∀ y ∈ values, AtMost (2 ^ k) y) :
    AtMost (2 ^ (53 + k)) (values.foldl (· + ·) x) := by
  induction values generalizing x with
  | nil => exact hx
  | cons y values ih =>
    obtain ⟨first, rest⟩ := List.forall_mem_cons.1 h
    exact ih (hx.add least greatest first) rest

theorem realOf_neg_zero : realOf (-0.0) = 0 := rfl

/-- However many small doubles there are, their sum is finite. -/
theorem atMost_total {k : ℤ} (least : -1074 ≤ k) (greatest : k ≤ 970)
    (h : ∀ y ∈ values, AtMost (2 ^ k) y) : AtMost (2 ^ (53 + k)) (Series.total values) := by
  refine atMost_foldl least greatest ⟨by decide, ?_⟩ h
  rw [realOf_neg_zero, abs_zero]
  exact (zpow_pos_two _).le

theorem isNaN_add_of_isFinite (hx : x.isNaN = false) (hy : y.isFinite) :
    (x + y).isNaN = false := by
  rw [Bool.eq_false_iff, Ne, isNaN_add_iff, hx, isNaN_of_isFinite hy, extended_of_isFinite hy]
  simp

/-- A sum of finite doubles is defined, though it may be infinite. -/
theorem isNaN_total (h : ∀ y ∈ values, y.isFinite) : (Series.total values).isNaN = false := by
  have along (x : Float) (hx : x.isNaN = false) : (values.foldl (· + ·) x).isNaN = false := by
    induction values generalizing x with
    | nil => exact hx
    | cons y values ih =>
      obtain ⟨first, rest⟩ := List.forall_mem_cons.1 h
      exact ih rest _ (isNaN_add_of_isFinite hx first)
  exact along (-0.0) (by decide)

/-! ## Whole numbers -/

theorem nearest_realOf (x : Float) : nearest (realOf x) = realOf x := by
  rw [nearest, rounded_realOf, overflow_of_abs_lt (abs_realOf_lt x)]

theorem rounds_ofScientific {n : ℕ} (hn : 2 ^ 53 ≤ n) :
    Rounds (UnpackedFloat.ofScientific Format.binary64 n 0) n := by
  have bits : Format.binary64.mantissaBits = 53 := rfl
  have large : ¬ (0 : ℤ) < -(2 ^ Format.binary64.exponentBits + n.log2) :=
    not_lt.2 (neg_nonpos.2 (by positivity))
  have value : ((n * 2 ^ 53 : ℕ) : ℝ) * 2 ^ (-53 : ℤ) = n := by
    rw [Nat.cast_mul, Nat.cast_pow, Nat.cast_ofNat, mul_assoc, pow_mul_zpow]
    norm_num
  have rounds := rounds_roundWithAccuracy_exact (m := n * 2 ^ 53) (e := -53) (by omega) .positive
    (.inr ((Nat.le_log2 (by omega)).2 (by omega)))
  rw [value, Sign.apply, Int.cast_one, one_mul] at rounds
  unfold UnpackedFloat.ofScientific
  rw [dif_neg (by omega), if_neg (by decide), if_neg large, if_pos le_rfl, UnpackedFloat.mul]
  simp only [bits, Nat.shiftLeft_eq, Int.toNat_zero, pow_zero, mul_one, add_zero]
  exact rounds

/-- A whole number is converted to the double nearest to it. -/
theorem ofNat_nearest (n : ℕ) :
    (Float.ofNat n).isNaN = false ∧ extended (Float.ofNat n) = nearest n := by
  obtain rfl | pos := n.eq_zero_or_pos
  · have zero := nearest_realOf 0.0
    rw [realOf_zero] at zero
    refine ⟨by decide, ?_⟩
    rw [Nat.cast_zero, zero]
    rfl
  obtain small | large := Nat.lt_or_ge n (2 ^ 53)
  · have unpacked : (Float.ofNat n).toModel.unpack =
        .finite .positive (wholeSignificand n) (n.log2 - 52) (isDouble_whole pos.ne' small).pos :=
      (congrArg (fun x => x.toModel.unpack) (ofNat_eq pos.ne' small)).trans
        (unpack_pack (isDouble_whole pos.ne' small) .positive)
    have finite : (Float.ofNat n).isFinite := congrArg UnpackedFloat.isFinite unpacked
    have value : realOf (Float.ofNat n) = n := by
      have exact := congrArg (Rat.cast : ℚ → ℝ) (value_whole pos.ne' small)
      push_cast at exact
      rw [realOf_eq, unpacked, valueOf_positive, exact]
    rw [extended_of_isFinite finite, ← nearest_realOf, value]
    exact ⟨isNaN_of_isFinite finite, rfl⟩
  · have model : Float.ofNat n = .ofModel (.ofScientific n 0) := dif_neg (by omega)
    rw [model]
    exact (rounds_ofScientific large).nearest

/-! ## Means -/

theorem one_le_ofNat {n : ℕ} (hn : n ≠ 0) : 1 ≤ extended (Float.ofNat n) := by
  have one := nearest_realOf 1.0
  rw [realOf_one] at one
  have le : (1 : ℝ) ≤ n := by exact_mod_cast Nat.pos_of_ne_zero hn
  rw [(ofNat_nearest n).2, ← EReal.coe_one, ← one]
  exact nearest_mono le

theorem unpack_div_of_infinity {s : Sign} (hx : x.isFinite) (hy : y.toModel.unpack = .infinity s) :
    ∃ s, (x / y).toModel.unpack = .zero s := by
  change x.toModel.unpack.isFinite = true at hx
  have zero :
      ∃ s, UnpackedFloat.div Format.binary64 x.toModel.unpack y.toModel.unpack = .zero s := by
    rw [hy]
    cases h : x.toModel.unpack with
    | infinity | notANumber => rw [h] at hx; cases hx
    | zero s' | finite s' => exact ⟨s' / s, rfl⟩
  obtain ⟨s, zero⟩ := zero
  refine ⟨s, ?_⟩
  rw [← unpack_pack_zero s, ← zero]
  rfl

theorem unpack_infinity_div {s : Sign} (hx : x.toModel.unpack = .infinity s) (hy : y.isFinite) :
    ∃ s, (x / y).toModel.unpack = .infinity s := by
  change y.toModel.unpack.isFinite = true at hy
  have infinite : ∃ s, UnpackedFloat.div Format.binary64 x.toModel.unpack y.toModel.unpack =
      .infinity s := by
    rw [hx]
    cases h : y.toModel.unpack with
    | infinity | notANumber => rw [h] at hy; cases hy
    | zero s' | finite s' => exact ⟨s / s', rfl⟩
  obtain ⟨s, infinite⟩ := infinite
  refine ⟨s, ?_⟩
  rw [← unpack_pack_infinity s, ← infinite]
  rfl

theorem one_le_realOf (hy : y.isFinite) (one : 1 ≤ extended y) : 1 ≤ realOf y := by
  rw [extended_of_isFinite hy, ← EReal.coe_one, EReal.coe_le_coe_iff] at one
  exact one

/-- Division by a double that is at least one does not enlarge. -/
theorem AtMost.div (hx : AtMost b x) (hb : b < bound) (hy : y.isNaN = false)
    (one : 1 ≤ extended y) : AtMost b (x / y) := by
  obtain finite | ⟨s, infinite⟩ := isFinite_or_eq_infinity hy
  · have one := one_le_realOf finite one
    refine atMost_of_nearest (div_of_isFinite hx.finite finite (by linarith)) ?_ hb
    have smaller : |realOf x / realOf y| ≤ |realOf x| := by
      rw [abs_div, abs_of_pos (by linarith : 0 < realOf y)]
      exact div_le_self (abs_nonneg _) one
    exact (abs_rounded_le smaller).trans ((rounded_abs_realOf x).le.trans hx.le)
  · obtain ⟨s, zero⟩ := unpack_div_of_infinity hx.finite infinite
    refine ⟨congrArg UnpackedFloat.isFinite zero, ?_⟩
    rw [realOf_eq, zero, valueOf_zero, abs_zero]
    exact (abs_nonneg _).trans hx.le

/-- A mean of doubles that are small enough is finite. -/
theorem atMost_mean {k : ℤ} (least : -1074 ≤ k) (greatest : k ≤ 970)
    (h : ∀ y ∈ values, AtMost (2 ^ k) y) : AtMost (2 ^ (53 + k)) (Series.mean values) := by
  unfold Series.mean
  split_ifs with empty
  · exact AtMost.zero (zpow_pos_two _).le
  · refine (atMost_total least greatest h).div (zpow_lt_bound (by omega)) ?_ ?_
    · exact (ofNat_nearest _).1
    · exact one_le_ofNat fun h => empty (List.isEmpty_iff.2 (List.length_eq_zero_iff.1 h))

/-- A number of things that fits a word is at most the power of two. -/
theorem atMost_ofNat {n : ℕ} (hn : n ≤ 2 ^ 64) : AtMost (2 ^ (64 : ℤ)) (Float.ofNat n) := by
  refine atMost_of_nearest (ofNat_nearest n) ?_ (zpow_lt_bound (by decide))
  have le : |(n : ℝ)| ≤ 2 ^ (64 : ℤ) := by
    rw [abs_of_nonneg n.cast_nonneg]
    exact_mod_cast hn
  exact (abs_rounded_le le).trans (rounded_zpow (by decide)).le

/-- A mean of finite doubles, of which there are not too many, is defined, though it may be
infinite. -/
theorem isNaN_mean (h : ∀ y ∈ values, y.isFinite) (few : values.length ≤ 2 ^ 64) :
    (Series.mean values).isNaN = false := by
  unfold Series.mean
  split_ifs with empty
  · decide
  have count : values.length ≠ 0 :=
    fun h => empty (List.isEmpty_iff.2 (List.length_eq_zero_iff.1 h))
  have finite := (atMost_ofNat few).finite
  have one := one_le_realOf finite (one_le_ofNat count)
  obtain small | ⟨s, infinite⟩ := isFinite_or_eq_infinity (isNaN_total h)
  · exact (div_of_isFinite small finite (by linarith)).1
  · obtain ⟨s, infinite⟩ := unpack_infinity_div infinite finite
    exact congrArg UnpackedFloat.isNaN infinite

end AdaptivePopulation.Double
