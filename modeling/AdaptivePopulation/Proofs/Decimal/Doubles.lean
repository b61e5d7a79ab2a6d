import AdaptivePopulation.Proofs.Decimal.Shortest

/-!
# Reading doubles

A decimal that rounds to a double is read as this double.  The reader multiplies or divides by a
power of ten: two exact doubles where digits and exponent are few, else two numbers of any size.
-/

namespace AdaptivePopulation.Decimal

open Float.Model Float.Model.UnpackedFloat

variable {m : ℕ} {e : ℤ} {c : ℕ} {s : ℤ}

/-! ## Operations on doubles -/

section

variable {m₁ m₂ : ℕ} {e₁ e₂ : ℤ} (h : IsDouble m e) (h₁ : IsDouble m₁ e₁) (h₂ : IsDouble m₂ e₂)

theorem signed_mul (precise : 52 ≤ (m₁ * m₂).log2)
    (hq : RoundsTo m e (m₁ * 2 ^ e₁ * (m₂ * 2 ^ e₂))) :
    signed .positive m₁ e₁ h₁.pos * signed .positive m₂ e₂ h₂.pos = signed .positive m e h.pos := by
  show Float.ofModel (.pack (.mul Format.binary64 (Float.Model.pack _).unpack
    (Float.Model.pack _).unpack)) = _
  rw [unpack_pack h₁, unpack_pack h₂, mul_eq h h₁.pos h₂.pos _ _ precise hq]
  rfl

theorem signed_div (hq : RoundsTo m e (m₁ * 2 ^ e₁ / (m₂ * 2 ^ e₂))) :
    signed .positive m₁ e₁ h₁.pos / signed .positive m₂ e₂ h₂.pos = signed .positive m e h.pos := by
  show Float.ofModel (.pack (.div Format.binary64 (Float.Model.pack _).unpack
    (Float.Model.pack _).unpack)) = _
  rw [unpack_pack h₁, unpack_pack h₂, div_eq h h₁.pos h₂.pos _ _ hq]
  rfl

end

theorem roundsTo_self (h : 0 < m) : RoundsTo m e (m * 2 ^ e) := by
  have quarters : (m * 2 ^ e : ℚ) = (4 * m : ℕ) * 2 ^ (e - 2) := by
    have : (2 : ℚ) ^ e = 4 * 2 ^ (e - 2) := by
      rw [show (4 : ℚ) = 2 ^ 2 by norm_num, two_pow_mul_zpow]
      congr 1
      omega
    rw [this]
    push_cast
    ring
  rw [quarters]
  refine ⟨.inl ?_, .inl ?_⟩
  · have : lowQuarters m e < 4 * m := by
      unfold lowQuarters
      split_ifs <;> omega
    exact mul_lt_mul_of_pos_right (by exact_mod_cast this) (two_zpow_pos _)
  · exact mul_lt_mul_of_pos_right (by exact_mod_cast Nat.lt_add_of_pos_right two_pos)
      (two_zpow_pos _)

/-! ## Whole numbers -/

section

/-- The significand of a whole number of at most fifty-three binary digits. -/
def wholeSignificand (c : ℕ) : ℕ := c * 2 ^ (52 - c.log2)

variable (hc : c ≠ 0) (hlt : c < 2 ^ 53)

include hc hlt

theorem log2_le_of_lt : c.log2 ≤ 52 := Nat.lt_succ_iff.1 ((Nat.log2_lt hc).2 hlt)

theorem isDouble_whole : IsDouble (wholeSignificand c) (c.log2 - 52) := by
  have log := log2_le_of_lt hc hlt
  have low := Nat.mul_le_mul_right (2 ^ (52 - c.log2)) (Nat.log2_self_le hc)
  have high := Nat.mul_lt_mul_of_pos_right (Nat.lt_log2_self (n := c))
    (Nat.two_pow_pos (52 - c.log2))
  rw [← pow_add] at low high
  rw [show c.log2 + (52 - c.log2) = 52 by omega] at low
  rw [show c.log2 + 1 + (52 - c.log2) = 53 by omega] at high
  exact ⟨by unfold wholeSignificand; omega, high, by omega, by omega, .inr low⟩

theorem value_whole : (wholeSignificand c * 2 ^ ((c.log2 : ℤ) - 52) : ℚ) = c := by
  have log := log2_le_of_lt hc hlt
  rw [wholeSignificand, Nat.cast_mul, Nat.cast_pow, Nat.cast_ofNat, mul_assoc, two_pow_mul_zpow,
    show ((52 - c.log2 : ℕ) : ℤ) + (c.log2 - 52) = 0 by omega, zpow_zero, mul_one]

/-- Small whole numbers are converted without rounding. -/
theorem toFloat_eq :
    c.toUInt64.toFloat =
      signed .positive (wholeSignificand c) (c.log2 - 52) (isDouble_whole hc hlt).pos := by
  have h := isDouble_whole hc hlt
  have log := log2_le_of_lt hc hlt
  have exact : c.toUInt64.toNat = c := by
    rw [Nat.toUInt64, UInt64.toNat_ofNat']
    omega
  show Float.ofModel (.pack (.normalize Format.binary64 c.toUInt64.toNat 0 .positive)) = _
  rw [exact, UnpackedFloat.normalize, Int.compare_eq_gt.2 (by omega)]
  dsimp only
  have target : max ((c.log2 : ℤ) + 0 - 52) (-1074) = c.log2 - 52 := by omega
  have shift : (0 - ((c.log2 : ℤ) - 52)).toNat = 52 - c.log2 := by omega
  have place : (0 : ℤ) - (52 - c.log2 : ℕ) = c.log2 - 52 := by omega
  rw [UnpackedFloat.round, Int.toNat_natCast, targetExponent_eq, target, decreaseExponent, shift]
  dsimp only
  rw [place, Nat.shiftLeft_eq]
  have bits : 52 ≤ (wholeSignificand c).log2 := (Nat.le_log2 h.pos.ne').2 (by
    obtain he | hm := h.normal
    · omega
    · exact hm)
  rw [← wholeSignificand, roundWithAccuracy_exact h _ bits (roundsTo_self h.pos)]
  rfl

end

/-! ## Powers of ten -/

/-- The significand of a power of ten. -/
def tenSignificand (k : ℕ) : ℕ := 5 ^ k * 2 ^ (k + 52 - (10 ^ k).log2)

/-- The exponent of two that goes with the significand of a power of ten. -/
def tenExponent (k : ℕ) : ℤ := (10 ^ k).log2 - 52

theorem value_ten {k : ℕ} (hk : k ≤ 22) : (tenSignificand k * 2 ^ tenExponent k : ℚ) = 10 ^ k := by
  have small : ∀ k ≤ 22, (10 ^ k).log2 ≤ k + 52 := by decide
  have places : ((k + 52 - (10 ^ k).log2 : ℕ) : ℤ) + tenExponent k = k := by
    have := small k hk
    unfold tenExponent
    omega
  rw [tenSignificand, Nat.cast_mul, Nat.cast_pow, Nat.cast_pow, Nat.cast_ofNat, Nat.cast_ofNat,
    mul_assoc, two_pow_mul_zpow, places, zpow_natCast, ← mul_pow]
  norm_num

theorem isDouble_ten {k : ℕ} (hk : k ≤ 22) : IsDouble (tenSignificand k) (tenExponent k) := by
  have bounds : ∀ k ≤ 22, 2 ^ 52 ≤ tenSignificand k ∧ tenSignificand k < 2 ^ 53 ∧
      -52 ≤ tenExponent k ∧ tenExponent k ≤ 22 := by
    decide +kernel
  obtain ⟨low, high, least, greatest⟩ := bounds k hk
  exact ⟨by omega, high, by omega, by omega, .inr low⟩

theorem powersOfTen_eq {k : ℕ} (hk : k ≤ 22) (hs : k < Float.exactlyRepresentablePowersOfTen.size) :
    Float.exactlyRepresentablePowersOfTen[k] =
      signed .positive (tenSignificand k) (tenExponent k) (isDouble_ten hk).pos := by
  have table : ∀ k : Fin 23, Float.exactlyRepresentablePowersOfTen[k.val]? =
      some (signed .positive (tenSignificand k) (tenExponent k)
        (isDouble_ten (Nat.lt_succ_iff.1 k.isLt)).pos) := by
    decide +kernel
  have := table ⟨k, Nat.lt_succ_iff.2 hk⟩
  rw [Array.getElem?_eq_getElem hs] at this
  exact Option.some.inj this

/-! ## Decimals -/

section

variable {q : ℚ} (h : IsDouble m e) (hq : RoundsTo m e q)

include h hq

theorem RoundsTo.bottom_le : 2 ^ (-1075 : ℤ) ≤ q := by
  have pos := h.pos
  have least := h.least
  have quarters : ((2 : ℕ) : ℚ) ≤ lowQuarters m e := by
    have : 2 ≤ lowQuarters m e := by
      unfold lowQuarters
      split_ifs <;> omega
    exact_mod_cast this
  have low : (lowQuarters m e : ℚ) * 2 ^ (e - 2) ≤ q := by
    obtain low | ⟨-, low⟩ := hq.low
    · exact low.le
    · exact low.le
  calc (2 : ℚ) ^ (-1075 : ℤ) ≤ 2 ^ (e - 1) := zpow_le_zpow_right₀ one_le_two (by omega)
    _ = (2 : ℕ) * 2 ^ (e - 2) := by
      rw [Nat.cast_ofNat, ← zpow_one_add₀ two_ne_zero]
      congr 1
      omega
    _ ≤ lowQuarters m e * 2 ^ (e - 2) := mul_le_mul_of_nonneg_right quarters (two_zpow_pos _).le
    _ ≤ q := low

theorem RoundsTo.lt_overflow : q < 2 ^ (1024 : ℤ) := by
  have greatest := h.greatest
  exact (hq.lt_top h).trans_le (zpow_le_zpow_right₀ one_le_two (by omega))

end

section

variable (h : IsDouble m e) (hc : c ≠ 0) (hq : RoundsTo m e (c * 10 ^ s))

include h hc hq

theorem le_of_roundsTo : s ≤ 1024 := by
  by_contra hs
  have one : (1 : ℚ) ≤ c := by exact_mod_cast Nat.one_le_iff_ne_zero.2 hc
  have : (2 : ℚ) ^ (1024 : ℤ) ≤ c * 10 ^ s :=
    calc (2 : ℚ) ^ (1024 : ℤ) ≤ 2 ^ s := zpow_le_zpow_right₀ one_le_two (by omega)
      _ ≤ 10 ^ s := zpow_le_zpow_left₀ (by omega) two_pos.le (by norm_num)
      _ ≤ c * 10 ^ s := le_mul_of_one_le_left (by positivity) one
  exact absurd (hq.lt_overflow h) (not_lt.2 this)

omit hc in
theorem ge_of_roundsTo : -1077 - (c.log2 : ℤ) ≤ s := by
  by_contra hs
  have upper : (c : ℚ) < 2 ^ (c.log2 + 1) := by exact_mod_cast Nat.lt_log2_self
  have : (c * 10 ^ s : ℚ) < 2 ^ (-1075 : ℤ) :=
    calc (c * 10 ^ s : ℚ) < 2 ^ (c.log2 + 1) * 10 ^ s :=
          mul_lt_mul_of_pos_right upper (by positivity)
      _ ≤ 2 ^ (c.log2 + 1) * 2 ^ s := by
          have larger : (2 : ℚ) ^ (-s) ≤ 10 ^ (-s) :=
            zpow_le_zpow_left₀ (by omega) two_pos.le (by norm_num)
          have := inv_anti₀ (two_zpow_pos (-s)) larger
          rw [← zpow_neg, ← zpow_neg, neg_neg] at this
          exact mul_le_mul_of_nonneg_left this (by positivity)
      _ = 2 ^ ((c.log2 + 1 : ℕ) + s) := two_pow_mul_zpow _ _
      _ ≤ 2 ^ (-1075 : ℤ) := zpow_le_zpow_right₀ one_le_two (by push_cast; omega)
  exact absurd (hq.bottom_le h) (not_le.2 this)

/-- Decimals are read with the rounding of products and quotients. -/
theorem ofScientific_eq :
    UnpackedFloat.ofScientific Format.binary64 c s = .finite .positive m e h.pos := by
  have upper := le_of_roundsTo h hc hq
  have lower := ge_of_roundsTo h hq
  have bits : Format.binary64.mantissaBits = 53 := rfl
  unfold UnpackedFloat.ofScientific
  rw [dif_neg hc, if_neg (by norm_num; omega), if_neg (by norm_num; omega)]
  split_ifs with hs
  · refine mul_eq h _ _ _ _ ?_ ?_
    · have : 2 ^ 52 ≤ c <<< 53 * 10 ^ s.toNat := by
        have one : 1 ≤ c * 10 ^ s.toNat := Nat.mul_pos (Nat.pos_of_ne_zero hc) (by positivity)
        rw [Nat.shiftLeft_eq, Nat.mul_right_comm]
        omega
      rw [bits]
      exact (Nat.le_log2 (by omega)).2 this
    · have power : (10 : ℚ) ^ s = 10 ^ s.toNat := by
        rw [← zpow_natCast, Int.toNat_of_nonneg hs]
      have value : ((c <<< 53 : ℕ) * 2 ^ (-(53 : ℕ) : ℤ) * ((10 ^ s.toNat : ℕ) * 2 ^ (0 : ℤ)) : ℚ) =
          c * 10 ^ s := by
        rw [Nat.shiftLeft_eq, power]
        push_cast
        norm_num
        ring
      rwa [bits, value]
  · refine div_eq h _ _ _ _ ?_
    have power : (10 : ℚ) ^ s = (10 ^ (-s).toNat)⁻¹ := by
      rw [← zpow_natCast, Int.toNat_of_nonneg (by omega), zpow_neg, inv_inv]
    have value : (c * 2 ^ (0 : ℤ) / ((10 ^ (-s).toNat : ℕ) * 2 ^ (0 : ℤ)) : ℚ) = c * 10 ^ s := by
      rw [power]
      push_cast
      rw [mul_one, mul_one, div_eq_mul_inv]
    rwa [value]

/-- The product or quotient of two exact doubles that a decimal with few digits and a small exponent
is. -/
theorem fast_eq (hlt : c < 2 ^ 53) (hs : s.natAbs ≤ 22) :
    (if s < 0 then
      signed .positive (wholeSignificand c) (c.log2 - 52) (isDouble_whole hc hlt).pos /
        signed .positive (tenSignificand s.natAbs) (tenExponent s.natAbs) (isDouble_ten hs).pos
    else
      signed .positive (wholeSignificand c) (c.log2 - 52) (isDouble_whole hc hlt).pos *
        signed .positive (tenSignificand s.natAbs) (tenExponent s.natAbs) (isDouble_ten hs).pos) =
      signed .positive m e h.pos := by
  have whole := isDouble_whole hc hlt
  have value := value_whole hc hlt
  have ten := value_ten hs
  split_ifs with neg
  · refine signed_div h whole (isDouble_ten hs) ?_
    have power : (10 : ℚ) ^ s = (10 ^ s.natAbs)⁻¹ := by
      rw [← zpow_natCast, ← zpow_neg]
      congr 1
      omega
    rw [value, ten, div_eq_mul_inv, ← power]
    exact hq
  · refine signed_mul h whole (isDouble_ten hs) ?_ ?_
    · have full : 2 ^ 52 ≤ wholeSignificand c := whole.normal.resolve_left (by omega)
      have := Nat.mul_le_mul full (isDouble_ten hs).pos
      exact (Nat.le_log2 (by omega)).2 (by omega)
    · have power : (10 : ℚ) ^ s = 10 ^ s.natAbs := by
        rw [← zpow_natCast]
        congr 1
        omega
      rw [value, ten, ← power]
      exact hq

/-- A decimal that rounds to a double is read as this double. -/
theorem floatOfScientific_eq :
    Float.ofScientific c (s < 0) s.natAbs = signed .positive m e h.pos := by
  unfold Float.ofScientific
  by_cases small : c < 2 ^ 53 ∧ s.natAbs ≤ 22
  · rw [dif_pos small]
    dsimp only
    rw [powersOfTen_eq small.2, toFloat_eq hc small.1]
    simpa using fast_eq h hc hq small.1 small.2
  · have exponent :
        (if decide (s < 0) = true then Int.negOfNat s.natAbs else Int.ofNat s.natAbs) = s := by
      simp only [decide_eq_true_eq]
      split_ifs with neg
      · rw [Int.negOfNat_eq]
        simp only [Int.ofNat_eq_natCast]
        omega
      · simp only [Int.ofNat_eq_natCast]
        omega
    rw [dif_neg small]
    dsimp only
    rw [exponent, Float.Model.ofScientific, ofScientific_eq h hc hq]
    rfl

/-- The reader computes the power of ten, since the number is neither too large nor too small. -/
theorem nearest_eq : Numeral.nearest c s = signed .positive m e h.pos := by
  have high := hq.lt_overflow h
  have low := hq.bottom_le h
  have below : (c * 10 ^ s : ℚ) < 10 ^ ((Nat.toDigits 10 c).length + s) := by
    have : (c : ℚ) < 10 ^ (Nat.toDigits 10 c).length := by exact_mod_cast lt_pow_length c
    rw [zpow_add₀ (by norm_num), zpow_natCast]
    exact mul_lt_mul_of_pos_right this (by positivity)
  have above : (10 : ℚ) ^ ((Nat.toDigits 10 c).length + s - 1) ≤ c * 10 ^ s := by
    have : (10 : ℚ) ^ ((Nat.toDigits 10 c).length - 1) ≤ c := by exact_mod_cast pow_length_le hc
    have length := Nat.length_toDigits_pos (b := 10) (n := c)
    rw [show ((Nat.toDigits 10 c).length + s - 1 : ℤ) = ((Nat.toDigits 10 c).length - 1 : ℕ) + s by
      omega, zpow_add₀ (by norm_num), zpow_natCast]
    exact mul_le_mul_of_nonneg_right this (by positivity)
  have notLarge : ((Nat.toDigits 10 c).length + s - 1 : ℤ) < 309 := by
    have : ((2 ^ 1024 : ℕ) : ℚ) < (10 ^ 309 : ℕ) := Nat.cast_lt.2 (by decide +kernel)
    simp only [Nat.cast_pow, Nat.cast_ofNat] at this
    exact (zpow_lt_zpow_iff_right₀ (by norm_num)).1 ((above.trans_lt high).trans this)
  have notSmall : (-324 : ℤ) < (Nat.toDigits 10 c).length + s := by
    have : ((2 ^ 1075 : ℕ) : ℚ) < (10 ^ 324 : ℕ) := Nat.cast_lt.2 (by decide +kernel)
    simp only [Nat.cast_pow, Nat.cast_ofNat] at this
    have := inv_strictAnti₀ (by positivity) this
    rw [zpow_neg] at low
    exact (zpow_lt_zpow_iff_right₀ (by norm_num)).1 ((this.trans_le low).trans below)
  unfold Numeral.nearest
  dsimp only
  rw [if_neg (by omega), if_neg (by omega)]
  exact floatOfScientific_eq h hc hq

end

/-! ## Numerals -/

/-- The sign of a numeral. -/
def signOfNumeral (negative : Bool) : Sign := if negative then .negative else .positive

theorem toFloat_of_roundsTo {n : Numeral} (h : IsDouble m e)
    (hq : RoundsTo m e (n.coefficient * 10 ^ n.scale)) :
    n.toFloat = signed (signOfNumeral n.negative) m e h.pos := by
  have hc : n.coefficient ≠ 0 := by
    intro hc
    have := (two_zpow_pos _).trans_le (hq.bottom_le h)
    rw [hc, Nat.cast_zero, zero_mul] at this
    exact lt_irrefl _ this
  rw [Numeral.toFloat, nearest_eq h hc hq, signOfNumeral]
  split_ifs
  · exact neg_signed h .positive
  · rfl

section

variable (digits : List Char) (negative : Bool)

theorem positionalNumeral_negative (k : ℤ) :
    (positionalNumeral negative digits k).negative = negative := by
  unfold positionalNumeral
  split_ifs <;> rfl

/-- The point of a positional text stands where the digits say. -/
theorem positionalNumeral_value (k : ℤ) :
    let n := positionalNumeral negative digits k
    (n.coefficient * 10 ^ n.scale : ℚ) = natOfDigits digits * 10 ^ (k - digits.length) := by
  unfold positionalNumeral Numeral.coefficient Numeral.scale
  dsimp only
  split_ifs with hk
  · simp only [Option.getD_some, Option.getD_none, List.length_append, List.length_replicate]
    rw [← List.replicate_one, natOfDigits_replicate_append, natOfDigits_replicate_append]
    congr 2
    omega
  · by_cases hlen : digits.length ≤ k.toNat
    · have drop : digits.drop k.toNat = [] := List.drop_eq_nil_of_le hlen
      have take : digits.take k.toNat = digits := List.take_of_length_le hlen
      have after : digitsAfter digits k.toNat = List.replicate 1 '0' := by simp [digitsAfter, drop]
      simp only [after, take, Option.getD_some, Option.getD_none, List.length_replicate]
      rw [natOfDigits_append_zeros, natOfDigits_append_zeros]
      have tenth : (10 : ℚ) * 10 ^ (-1 : ℤ) = 1 := by norm_num
      push_cast
      rw [mul_assoc, mul_assoc, tenth, mul_one, ← zpow_natCast]
      congr 2
      omega
    · have after : digitsAfter digits k.toNat = digits.drop k.toNat := by
        simp [digitsAfter]; omega
      simp only [after, Option.getD_some, Option.getD_none, List.length_drop,
        Nat.sub_eq_zero_of_le (Nat.le_of_not_le hlen), List.replicate_zero, List.append_nil,
        List.take_append_drop]
      congr 2
      omega

theorem exponentialNumeral_value (hne : digits ≠ []) (k : ℤ) :
    let n := exponentialNumeral negative digits (k - 1)
    (n.coefficient * 10 ^ n.scale : ℚ) = natOfDigits digits * 10 ^ (k - digits.length) := by
  obtain ⟨d, rest, rfl⟩ := List.exists_cons_of_ne_nil hne
  have after : (digitsAfterFirst (d :: rest)).getD [] = rest := by
    unfold digitsAfterFirst
    split_ifs with h
    · exact (List.isEmpty_iff.1 h).symm
    · rfl
  simp only [exponentialNumeral, Numeral.coefficient, Numeral.scale, after, Option.getD_some,
    List.take_succ_cons, List.take_zero, List.singleton_append, List.length_cons]
  congr 2
  push_cast
  omega

end

end AdaptivePopulation.Decimal
