import Mathlib

/-!
# Rounding to doubles

A positive double is a significand times a power of two.  The rational numbers closer to it than to
its neighbours round to it, and so do the two numbers halfway if its significand is even.  The
rounding of floating-point quotients and products follows this rule.
-/

namespace AdaptivePopulation.Decimal

open Float.Model Float.Model.UnpackedFloat

/-! ## Doubles and what rounds to them -/

/-- The significand and the exponent of a positive finite double. -/
structure IsDouble (m : ℕ) (e : ℤ) : Prop where
  pos : 0 < m
  lt : m < 2 ^ 53
  least : -1074 ≤ e
  greatest : e ≤ 971
  normal : e = -1074 ∨ 2 ^ 52 ≤ m

/-- The neighbour below is half as far away as the one above. -/
def AtBinade (m : ℕ) (e : ℤ) : Prop := m = 2 ^ 52 ∧ -1074 < e

instance (m : ℕ) (e : ℤ) : Decidable (AtBinade m e) := inferInstanceAs (Decidable (_ ∧ _))

/-- Halfway to the neighbour below, in quarters of the last place. -/
def lowQuarters (m : ℕ) (e : ℤ) : ℕ := 4 * m - if AtBinade m e then 1 else 2

/-- The number rounds to the double `m * 2 ^ e`. -/
structure RoundsTo (m : ℕ) (e : ℤ) (q : ℚ) : Prop where
  low : lowQuarters m e * 2 ^ (e - 2) < q ∨ m % 2 = 0 ∧ lowQuarters m e * 2 ^ (e - 2) = q
  high : q < (4 * m + 2 : ℕ) * 2 ^ (e - 2) ∨ m % 2 = 0 ∧ (4 * m + 2 : ℕ) * 2 ^ (e - 2) = q

/-! ## Mantissas of fractions -/

/-- The mantissa of a fraction with what is known of the digits after it. -/
def ofFraction (n d : ℕ) : ExtendedMantissa where
  mantissa := n / d
  roundBit := decide (d ≤ 2 * (n % d))
  stickyBit := decide (n % d ≠ 0 ∧ 2 * (n % d) ≠ d)

variable {n d : ℕ}

theorem ofMantissaAndAccuracy_eq (hd : 0 < d) :
    ExtendedMantissa.ofMantissaAndAccuracy (n / d) (accuracyOfFraction (n % d) d) =
      ofFraction n d := by
  unfold accuracyOfFraction ofFraction
  by_cases h : n % d = 0
  · simp [h, ExtendedMantissa.ofMantissaAndAccuracy, hd.ne']
  · rw [if_neg h]
    cases hc : compare (2 * (n % d)) d with
    | lt =>
      have := Nat.compare_eq_lt.1 hc
      simp [ExtendedMantissa.ofMantissaAndAccuracy, h, this, this.ne]
    | eq =>
      have := Nat.compare_eq_eq.1 hc
      simp [ExtendedMantissa.ofMantissaAndAccuracy, h, this]
    | gt =>
      have := Nat.compare_eq_gt.1 hc
      simp [ExtendedMantissa.ofMantissaAndAccuracy, h, this.le, this.ne']

theorem shiftRightOne_ofFraction (hd : 0 < d) :
    (ofFraction n d).shiftRightOne = ofFraction n (d * 2) := by
  have split : n % (d * 2) = n % d + d * (n / d % 2) := Nat.mod_mul
  have small := Nat.mod_lt n hd
  unfold ofFraction ExtendedMantissa.shiftRightOne
  obtain h | h := Nat.mod_two_eq_zero_or_one (n / d)
  all_goals
    simp only [Nat.div_div_eq_div_mul, split, h, ExtendedMantissa.mk.injEq, true_and]
    refine ⟨by simp; omega, ?_⟩
    rw [Bool.eq_iff_iff]
    simp
    omega

theorem shiftRight_ofFraction (hd : 0 < d) (k : ℕ) :
    ofFraction n d >>> k = ofFraction n (d * 2 ^ k) := by
  induction k with
  | zero => rw [pow_zero, mul_one]; rfl
  | succ k ih =>
    rw [pow_succ, ← mul_assoc, ← shiftRightOne_ofFraction (by positivity), ← ih]
    rfl

/-- The integer `m` is nearest to the fraction `n / d`, and even if there are two nearest ones. -/
def Nearest (n d m : ℕ) : Prop :=
  (2 * m * d < 2 * n + d ∨ m % 2 = 0 ∧ 2 * m * d = 2 * n + d) ∧
    (2 * n < 2 * m * d + d ∨ m % 2 = 0 ∧ 2 * n = 2 * m * d + d)

theorem roundedMantissa_ofFraction (hd : 0 < d) {m : ℕ} (h : Nearest n d m) :
    (ofFraction n d).roundedMantissa = m := by
  have split : d * (n / d) + n % d = n := Nat.div_add_mod n d
  have small := Nat.mod_lt n hd
  unfold ofFraction
  generalize n / d = a at *
  generalize n % d = r at *
  have below : a ≤ m := by
    by_contra hlt
    have : (m + 1) * d ≤ a * d := Nat.mul_le_mul_right d (by omega)
    obtain ⟨-, h | ⟨-, h⟩⟩ := h <;> nlinarith
  have above : m ≤ a + 1 := by
    by_contra hlt
    have : (a + 2) * d ≤ m * d := Nat.mul_le_mul_right d (by omega)
    obtain ⟨h | ⟨-, h⟩, -⟩ := h <;> nlinarith
  obtain rfl | rfl : m = a ∨ m = a + 1 := by omega
  · obtain rest | ⟨even, rest⟩ : 2 * r < d ∨ m % 2 = 0 ∧ 2 * r = d := by
      obtain ⟨-, h | ⟨he, h⟩⟩ := h
      · left; nlinarith
      · right; exact ⟨he, by nlinarith⟩
    · have notHalf : ¬ d ≤ 2 * r := Nat.not_le.2 rest
      by_cases hr : r = 0
      · simp [ExtendedMantissa.roundedMantissa, ExtendedMantissa.accuracy,
          Accuracy.roundToNearestEven, hr, hd.ne']
      · simp [ExtendedMantissa.roundedMantissa, ExtendedMantissa.accuracy,
          Accuracy.roundToNearestEven, hr, notHalf, rest.ne]
    · simp [ExtendedMantissa.roundedMantissa, ExtendedMantissa.accuracy,
        Accuracy.roundToNearestEven, rest, even]
  · obtain rest | ⟨even, rest⟩ : d < 2 * r ∨ (a + 1) % 2 = 0 ∧ 2 * r = d := by
      obtain ⟨h | ⟨he, h⟩, -⟩ := h
      · left; nlinarith
      · right; exact ⟨he, by nlinarith⟩
    · have hr : r ≠ 0 := by omega
      simp [ExtendedMantissa.roundedMantissa, ExtendedMantissa.accuracy,
        Accuracy.roundToNearestEven, hr, rest.le, rest.ne']
    · have odd : a % 2 = 1 := by omega
      simp [ExtendedMantissa.roundedMantissa, ExtendedMantissa.accuracy,
        Accuracy.roundToNearestEven, rest, odd]

/-! ## Exponents -/

theorem targetExponent_eq (a : ℕ) (e : ℤ) :
    Format.binary64.targetExponent (totalExponent a e) = max (a.log2 + e - 52) (-1074) := by
  simp only [Format.targetExponent, totalExponent, Format.mantissaBits, Format.minExponent]
  norm_num
  omega

/-- Moving a fraction to the exponent that its size asks for. -/
theorem shiftToTargetExponent_fraction (hd : 0 < d) {e t : ℤ}
    (ht : max ((n / d).log2 + e - 52) (-1074) = t) (he : e ≤ t) :
    shiftToTargetExponent Format.binary64 (n / d) e (accuracyOfFraction (n % d) d) =
      (ofFraction n (d * 2 ^ (t - e).toNat), t) := by
  have : e + (t - e).toNat = t := by omega
  simp only [shiftToTargetExponent, shiftToExponent, targetExponent_eq, ht,
    ofMantissaAndAccuracy_eq hd, shiftRight_ofFraction hd, this]

/-- Moving a rounded mantissa to the exponent that its size asks for. -/
theorem shiftToTargetExponent_exact {a : ℕ} {e t : ℤ} (ht : max (a.log2 + e - 52) (-1074) = t)
    (he : e ≤ t) :
    shiftToTargetExponent Format.binary64 a e .exact = (ofFraction a (2 ^ (t - e).toNat), t) := by
  have := shiftToTargetExponent_fraction (n := a) (d := 1) one_pos (by simpa using ht) he
  simpa [accuracyOfFraction, Nat.mod_one] using this

theorem IsDouble.log2 {m : ℕ} {e : ℤ} (h : IsDouble m e) :
    max ((m.log2 : ℤ) + e - 52) (-1074) = e := by
  have upper : m.log2 < 53 := (Nat.log2_lt h.pos.ne').2 h.lt
  obtain he | hm := h.normal
  · omega
  · have lower : 52 ≤ m.log2 := (Nat.le_log2 h.pos.ne').2 hm
    have := h.least
    omega

/-! ## Fractions in quarters of a place -/

theorem two_zpow_pos (k : ℤ) : (0 : ℚ) < 2 ^ k := zpow_pos two_pos k

theorem two_pow_mul_zpow (k : ℕ) (e : ℤ) : (2 : ℚ) ^ k * 2 ^ e = 2 ^ (k + e) := by
  rw [zpow_add₀ two_ne_zero, zpow_natCast]

/-- A scaled fraction, in quarters of the place to which it is moved. -/
theorem scaled_eq_quarters (hd : 0 < d) {e t : ℤ} (he : e ≤ t) :
    (n / d : ℚ) * 2 ^ e = (4 * n : ℕ) / (d * 2 ^ (t - e).toNat : ℕ) * 2 ^ (t - 2) := by
  have shift : (2 : ℚ) ^ (t - 2) * 4 = 2 ^ (t - e).toNat * 2 ^ e := by
    rw [mul_comm, show (4 : ℚ) = 2 ^ 2 by norm_num, two_pow_mul_zpow, two_pow_mul_zpow]
    congr 1
    omega
  have hd : (d : ℚ) ≠ 0 := by positivity
  push_cast
  field_simp
  linear_combination -(n : ℚ) * shift

section

variable {d' k : ℕ} {t : ℤ}

theorem quarters_lt_iff (hd : 0 < d') {c : ℕ} :
    (c : ℚ) * 2 ^ t < (k : ℕ) / (d' : ℕ) * 2 ^ t ↔ c * d' < k := by
  rw [mul_lt_mul_iff_of_pos_right (two_zpow_pos t), lt_div_iff₀ (by exact_mod_cast hd)]
  exact_mod_cast Iff.rfl

theorem lt_quarters_iff (hd : 0 < d') {c : ℕ} :
    (k : ℕ) / (d' : ℕ) * (2 : ℚ) ^ t < c * 2 ^ t ↔ k < c * d' := by
  rw [mul_lt_mul_iff_of_pos_right (two_zpow_pos t), div_lt_iff₀ (by exact_mod_cast hd)]
  exact_mod_cast Iff.rfl

theorem quarters_eq_iff (hd : 0 < d') {c : ℕ} :
    (c : ℚ) * 2 ^ t = (k : ℕ) / (d' : ℕ) * 2 ^ t ↔ c * d' = k := by
  rw [mul_left_inj' (two_zpow_pos t).ne', eq_div_iff (by positivity)]
  exact_mod_cast Iff.rfl

end

/-! ## Rounding -/

section

variable {m : ℕ} {e : ℤ} (h : IsDouble m e)

include h in
/-- Rounding ends with the double if the fraction has the double's exponent and is nearest to its
significand, or if it has the exponent below and is rounded up to the next power of two. -/
theorem roundWithAccuracy_of_nearest (hd : 0 < d) {e' t : ℤ} (s : Sign)
    (ht : max ((n / d).log2 + e' - 52) (-1074) = t) (he : e' ≤ t)
    (hn : t = e ∧ Nearest n (d * 2 ^ (t - e').toNat) m ∨
      t = e - 1 ∧ m = 2 ^ 52 ∧ Nearest n (d * 2 ^ (t - e').toNat) (2 ^ 53)) :
    roundWithAccuracy Format.binary64 s (n / d) e' (accuracyOfFraction (n % d) d) =
      .finite s m e h.pos := by
  have hd' : 0 < d * 2 ^ (t - e').toNat := by positivity
  unfold roundWithAccuracy
  rw [shiftToTargetExponent_fraction hd ht he]
  obtain ⟨rfl, hn⟩ | ⟨rfl, rfl, hn⟩ := hn
  · dsimp only
    rw [roundedMantissa_ofFraction hd' hn, shiftToTargetExponent_exact h.log2 le_rfl]
    simp [ofFraction, h.pos.ne']
  · have next : max (((2 ^ 53 : ℕ).log2 : ℤ) + (e - 1) - 52) (-1074) = e := by
      have := h.least
      rw [Nat.log2_two_pow]
      omega
    dsimp only
    rw [roundedMantissa_ofFraction hd' hn, shiftToTargetExponent_exact next (by omega)]
    simp [ofFraction]

end

theorem lowQuarters_of_not {m : ℕ} {e : ℤ} (hb : ¬ AtBinade m e) : lowQuarters m e = 4 * m - 2 := by
  rw [lowQuarters, if_neg hb]

theorem lowQuarters_of {m : ℕ} {e : ℤ} (hb : AtBinade m e) : lowQuarters m e = 4 * m - 1 := by
  rw [lowQuarters, if_pos hb]

/-- At the exponent of the double, what rounds to the double is nearest to its significand. -/
theorem nearest_of_roundsTo {m : ℕ} {e e' : ℤ} (hm : 0 < m) (hd : 0 < d) (he : e' ≤ e)
    (hq : RoundsTo m e ((n / d : ℚ) * 2 ^ e')) :
    Nearest n (d * 2 ^ (e - e').toNat) m := by
  have hd' : 0 < d * 2 ^ (e - e').toNat := by positivity
  obtain ⟨low, high⟩ := hq
  rw [scaled_eq_quarters hd he] at low high
  generalize d * 2 ^ (e - e').toNat = d' at *
  rw [quarters_lt_iff hd', quarters_eq_iff hd'] at low
  rw [lt_quarters_iff hd', quarters_eq_iff hd'] at high
  have lowest : (4 * m - 2) * d' + 2 * d' = 4 * m * d' := by
    rw [← add_mul]; congr 1; omega
  refine ⟨?_, ?_⟩
  · by_cases hb : AtBinade m e
    · have : (4 * m - 1) * d' + d' = 4 * m * d' := by
        rw [← Nat.succ_mul]; congr 1; omega
      rw [lowQuarters_of hb] at low
      left
      obtain low | ⟨-, low⟩ := low <;> nlinarith
    · rw [lowQuarters_of_not hb] at low
      exact low.imp (fun h => by nlinarith) fun h => ⟨h.1, by nlinarith [h.2]⟩
  · exact high.imp (fun h => by nlinarith) fun h => ⟨h.1, by nlinarith [h.2]⟩

/-- Below the least significand, what rounds to it is nearest to the next power of two. -/
theorem nearest_of_roundsTo_below (hd : 0 < d) {e e' : ℤ} (he : e' ≤ e - 1)
    (hb : AtBinade (2 ^ 52) e) (hq : RoundsTo (2 ^ 52) e ((n / d : ℚ) * 2 ^ e'))
    (below : (n / d : ℚ) * 2 ^ e' < 2 ^ (52 + e)) :
    Nearest n (d * 2 ^ (e - 1 - e').toNat) (2 ^ 53) := by
  have hd' : 0 < d * 2 ^ (e - 1 - e').toNat := by positivity
  have low := hq.low
  have half (c : ℕ) : (c : ℚ) * 2 ^ (e - 2) = (c * 2 : ℕ) * 2 ^ (e - 1 - 2) := by
    have : (2 : ℚ) ^ (e - 2) = 2 * 2 ^ (e - 1 - 2) := by
      rw [← zpow_one_add₀ two_ne_zero]
      congr 1
      omega
    rw [this]
    push_cast
    ring
  have top : (2 : ℚ) ^ (52 + e) = (2 ^ 55 : ℕ) * 2 ^ (e - 1 - 2) := by
    rw [Nat.cast_pow, Nat.cast_ofNat, two_pow_mul_zpow]
    congr 1
    omega
  rw [lowQuarters_of hb, half, scaled_eq_quarters hd he] at low
  rw [top, scaled_eq_quarters hd he] at below
  generalize d * 2 ^ (e - 1 - e').toNat = d' at *
  rw [quarters_lt_iff hd', quarters_eq_iff hd'] at low
  rw [lt_quarters_iff hd'] at below
  norm_num at low below
  unfold Nearest
  omega

/-! ## Where a fraction lies -/

theorem log2_div_le (hd : 0 < d) (hn : n / d ≠ 0) (e : ℤ) :
    (2 : ℚ) ^ ((n / d).log2 + e) ≤ n / d * 2 ^ e := by
  have : (2 : ℚ) ^ (n / d).log2 ≤ n / d := by
    have := Nat.log2_self_le hn
    have : 2 ^ (n / d).log2 * d ≤ n := (Nat.le_div_iff_mul_le hd).1 this
    rw [le_div_iff₀ (by exact_mod_cast hd)]
    exact_mod_cast this
  rw [← two_pow_mul_zpow]
  exact mul_le_mul_of_nonneg_right this (two_zpow_pos e).le

theorem lt_log2_div (hd : 0 < d) (e : ℤ) :
    (n / d : ℚ) * 2 ^ e < 2 ^ ((n / d).log2 + 1 + e) := by
  have : (n / d : ℚ) < 2 ^ ((n / d).log2 + 1) := by
    have floor := Nat.lt_log2_self (n := n / d)
    have : n < 2 ^ ((n / d).log2 + 1) * d := (Nat.div_lt_iff_lt_mul hd).1 floor
    rw [div_lt_iff₀ (by exact_mod_cast hd)]
    exact_mod_cast this
  have scaled := mul_lt_mul_of_pos_right this (two_zpow_pos e)
  rwa [two_pow_mul_zpow, Nat.cast_succ] at scaled

section

variable {m : ℕ} {e : ℤ} {q : ℚ} (h : IsDouble m e) (hq : RoundsTo m e q)

include h hq

theorem RoundsTo.lt_top : q < 2 ^ (53 + e) := by
  have top : ((4 * m + 2 : ℕ) : ℚ) * 2 ^ (e - 2) < 2 ^ (53 + e) := by
    have : ((4 * m + 2 : ℕ) : ℚ) < 2 ^ (55 : ℕ) := by
      have := h.lt
      exact_mod_cast (by omega : 4 * m + 2 < 2 ^ 55)
    calc ((4 * m + 2 : ℕ) : ℚ) * 2 ^ (e - 2) < 2 ^ (55 : ℕ) * 2 ^ (e - 2) :=
          mul_lt_mul_of_pos_right this (two_zpow_pos _)
      _ = 2 ^ (53 + e) := by
          rw [two_pow_mul_zpow]
          congr 1
          omega
  obtain high | ⟨-, high⟩ := hq.high
  · exact high.trans top
  · exact high ▸ top

/-- What rounds to a double with a full significand and lies below the powers of two that such
doubles reach rounds to a power of two, from the place below. -/
theorem RoundsTo.binade (he : e ≠ -1074) (below : q < 2 ^ (52 + e)) :
    AtBinade m e ∧ 2 ^ (51 + e) ≤ q := by
  have normal := h.normal.resolve_left he
  have least := h.least
  have scale (k : ℕ) : ((2 ^ k : ℕ) : ℚ) * 2 ^ (e - 2) = 2 ^ (k + e - 2) := by
    rw [Nat.cast_pow, Nat.cast_ofNat, two_pow_mul_zpow, add_sub_assoc]
  have bound {c : ℕ} (hc : c ≤ lowQuarters m e) : (c : ℚ) * 2 ^ (e - 2) ≤ q := by
    have : (c : ℚ) * 2 ^ (e - 2) ≤ lowQuarters m e * 2 ^ (e - 2) :=
      mul_le_mul_of_nonneg_right (by exact_mod_cast hc) (two_zpow_pos _).le
    obtain low | ⟨-, low⟩ := hq.low
    · exact this.trans low.le
    · exact low ▸ this
  have binade : AtBinade m e := by
    refine ⟨?_, by omega⟩
    by_contra hm
    have : 2 ^ 54 ≤ lowQuarters m e := by
      rw [lowQuarters_of_not fun hb => hm hb.1]
      omega
    have := bound this
    rw [scale] at this
    have exponent : ((54 : ℕ) : ℤ) + e - 2 = 52 + e := by omega
    exact absurd below (not_lt.2 (exponent ▸ this))
  refine ⟨binade, ?_⟩
  have : 2 ^ 53 ≤ lowQuarters m e := by
    rw [lowQuarters_of binade, binade.1]
    omega
  have := bound this
  rw [scale] at this
  have exponent : ((53 : ℕ) : ℤ) + e - 2 = 51 + e := by omega
  exact exponent ▸ this

end

/-- Rounding a fraction that rounds to a double gives this double, if enough digits of the fraction
are known. -/
theorem roundWithAccuracy_eq {m : ℕ} {e : ℤ} (h : IsDouble m e) (hd : 0 < d) (e' : ℤ) (s : Sign)
    (precise : e' ≤ -1074 ∨ 52 ≤ (n / d).log2) (hq : RoundsTo m e ((n / d : ℚ) * 2 ^ e')) :
    roundWithAccuracy Format.binary64 s (n / d) e' (accuracyOfFraction (n % d) d) =
      .finite s m e h.pos := by
  have least := h.least
  -- the position of the leading digit, as far as the size of the fraction tells it
  have above {k : ℤ} (hk : 2 ^ k ≤ (n / d : ℚ) * 2 ^ e') : k < (n / d).log2 + 1 + e' :=
    (zpow_lt_zpow_iff_right₀ one_lt_two).1 (hk.trans_lt (lt_log2_div hd e'))
  have under {k : ℤ} (hk : (n / d : ℚ) * 2 ^ e' < 2 ^ k) :
      n / d = 0 ∧ (n / d).log2 = 0 ∨ (n / d).log2 + e' < k := by
    by_cases hn : n / d = 0
    · exact .inl ⟨hn, by rw [hn]; rfl⟩
    · exact .inr ((zpow_lt_zpow_iff_right₀ one_lt_two).1 ((log2_div_le hd hn e').trans_lt hk))
  have top := under (hq.lt_top h)
  by_cases aligned : (2 : ℚ) ^ (52 + e) ≤ n / d * 2 ^ e' ∨ e = -1074
  · have := aligned.imp_left above
    have ht : max ((n / d).log2 + e' - 52) (-1074) = e := by omega
    have he : e' ≤ e := by omega
    exact roundWithAccuracy_of_nearest h hd s ht he (.inl ⟨rfl, nearest_of_roundsTo h.pos hd he hq⟩)
  · obtain ⟨notFull, notLeast⟩ := not_or.1 aligned
    have below := not_le.1 notFull
    obtain ⟨binade, large⟩ := hq.binade h notLeast below
    obtain ⟨rfl, -⟩ := id binade
    have := above large
    have := under below
    have ht : max ((n / d).log2 + e' - 52) (-1074) = e - 1 := by omega
    have he : e' ≤ e - 1 := by omega
    exact roundWithAccuracy_of_nearest h hd s ht he
      (.inr ⟨rfl, rfl, nearest_of_roundsTo_below hd he binade hq below⟩)

/-! ## Products and quotients -/

section

variable {m m₁ m₂ : ℕ} {e e₁ e₂ : ℤ} (h : IsDouble m e) (h₁ : 0 < m₁) (h₂ : 0 < m₂) (s₁ s₂ : Sign)

/-- A quotient is a fraction of which at least fifty-three digits are known, unless it is far below
the least double. -/
theorem exists_div_eq (e₁ e₂ : ℤ) : ∃ (n : ℕ) (t : ℤ),
    UnpackedFloat.div Format.binary64 (.finite s₁ m₁ e₁ h₁) (.finite s₂ m₂ e₂ h₂) =
        roundWithAccuracy Format.binary64 (s₁ / s₂) (n / m₂) t (accuracyOfFraction (n % m₂) m₂) ∧
      (t ≤ -1074 ∨ 52 ≤ (n / m₂).log2) ∧ (n / m₂ : ℚ) * 2 ^ t = m₁ * 2 ^ e₁ / (m₂ * 2 ^ e₂) := by
  have target : Format.binary64.targetExponent (totalExponent m₁ e₁ - totalExponent m₂ e₂) =
      max (m₁.log2 + e₁ - (m₂.log2 + e₂) - 53) (-1074) := by
    simp only [Format.targetExponent, totalExponent, Format.mantissaBits, Format.minExponent]
    norm_num
    omega
  unfold UnpackedFloat.div
  simp only [divCore, target, Nat.shiftLeft_eq]
  generalize ht : min (e₁ - e₂) (max (m₁.log2 + e₁ - (m₂.log2 + e₂) - 53) (-1074)) = t
  have hk : ((e₁ - e₂ - t).toNat : ℤ) = e₁ - e₂ - t := by omega
  generalize (e₁ - e₂ - t).toNat = k at *
  refine ⟨m₁ * 2 ^ k, t, rfl, ?_, ?_⟩
  · by_cases least : t ≤ -1074
    · exact .inl least
    · right
      have numerator : 2 ^ (52 + (m₂.log2 + 1)) ≤ m₁ * 2 ^ k := by
        have := Nat.mul_le_mul_right (2 ^ k) (Nat.log2_self_le h₁.ne')
        rw [← pow_add] at this
        exact (Nat.pow_le_pow_right two_pos (by omega)).trans this
      have : 2 ^ 52 ≤ m₁ * 2 ^ k / m₂ := by
        rw [Nat.le_div_iff_mul_le h₂]
        refine le_trans ?_ numerator
        rw [pow_add]
        exact Nat.mul_le_mul_left _ Nat.lt_log2_self.le
      exact (Nat.le_log2 (by omega)).2 this
  · have exponents : (2 : ℚ) ^ k * 2 ^ t * 2 ^ e₂ = 2 ^ e₁ := by
      rw [two_pow_mul_zpow, ← zpow_add₀ two_ne_zero]
      congr 1
      omega
    have := two_zpow_pos e₂
    push_cast
    field_simp
    linear_combination exponents

include h

/-- Rounding a whole number in place of a fraction. -/
theorem roundWithAccuracy_exact (s : Sign) (precise : 52 ≤ n.log2)
    (hq : RoundsTo m e (n * 2 ^ e₁)) :
    roundWithAccuracy Format.binary64 s n e₁ .exact = .finite s m e h.pos := by
  have := roundWithAccuracy_eq h (n := n) one_pos e₁ s (.inr (by simpa using precise))
    (by simpa using hq)
  simpa [accuracyOfFraction, Nat.mod_one] using this

theorem mul_eq (precise : 52 ≤ (m₁ * m₂).log2)
    (hq : RoundsTo m e (m₁ * 2 ^ e₁ * (m₂ * 2 ^ e₂))) :
    UnpackedFloat.mul Format.binary64 (.finite s₁ m₁ e₁ h₁) (.finite s₂ m₂ e₂ h₂) =
      .finite (s₁ * s₂) m e h.pos := by
  refine roundWithAccuracy_exact h (s₁ * s₂) precise ?_
  have : ((m₁ * m₂ : ℕ) : ℚ) * 2 ^ (e₁ + e₂) = m₁ * 2 ^ e₁ * (m₂ * 2 ^ e₂) := by
    rw [zpow_add₀ two_ne_zero]
    push_cast
    ring
  rwa [this]

theorem div_eq (hq : RoundsTo m e (m₁ * 2 ^ e₁ / (m₂ * 2 ^ e₂))) :
    UnpackedFloat.div Format.binary64 (.finite s₁ m₁ e₁ h₁) (.finite s₂ m₂ e₂ h₂) =
      .finite (s₁ / s₂) m e h.pos := by
  obtain ⟨n, t, quotient, precise, value⟩ := exists_div_eq h₁ h₂ s₁ s₂ e₁ e₂
  rw [quotient, roundWithAccuracy_eq h h₂ t (s₁ / s₂) precise (by rwa [value])]

end

end AdaptivePopulation.Decimal
