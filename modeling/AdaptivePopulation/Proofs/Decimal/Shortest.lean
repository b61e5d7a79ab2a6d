import AdaptivePopulation.Proofs.Decimal.Digits
import AdaptivePopulation.Proofs.Decimal.Numerals
import AdaptivePopulation.Proofs.Decimal.Packing

/-!
# Shortest decimals round back

Whatever decimal is found for an interval lies in the interval, and seventeen digits are enough to
find one for the interval of a double.
-/

namespace AdaptivePopulation.Decimal

/-! ## Powers with integer exponents -/

theorem zpow_eq_div (b : ℚ) (k : ℤ) : b ^ k = b ^ k.toNat / b ^ (-k).toNat := by
  obtain h | h := le_total 0 k
  · obtain ⟨n, rfl⟩ := Int.eq_ofNat_of_zero_le h
    simp
  · obtain ⟨n, hn⟩ := Int.eq_ofNat_of_zero_le (Int.neg_nonneg_of_nonpos h)
    obtain rfl : k = -n := by omega
    simp

theorem lt_pow_length (n : ℕ) : n < 10 ^ (Nat.toDigits 10 n).length :=
  (Nat.length_toDigits_le_iff (by decide) Nat.length_toDigits_pos).1 le_rfl

theorem pow_length_le {n : ℕ} (hn : n ≠ 0) : 10 ^ ((Nat.toDigits 10 n).length - 1) ≤ n := by
  by_contra h
  have length := Nat.length_toDigits_pos (b := 10) (n := n)
  obtain one | more :
      (Nat.toDigits 10 n).length = 1 ∨ 0 < (Nat.toDigits 10 n).length - 1 := by omega
  · rw [one] at h
    omega
  · have := (Nat.length_toDigits_le_iff (by decide) more).2 (Nat.not_le.1 h)
    omega

/-! ## Decimals in intervals -/

namespace Interval

/-- The number lies in the interval. -/
structure Contains (i : Interval) (q : ℚ) : Prop where
  low : (i.low / i.denominator : ℚ) < q ∨ i.closed ∧ (i.low / i.denominator : ℚ) = q
  high : q < (i.high / i.denominator : ℚ) ∨ i.closed ∧ (i.high / i.denominator : ℚ) = q

/-- All numbers of the interval are positive, and the double that it belongs to is inside. -/
structure IsProper (i : Interval) : Prop where
  denominator : 0 < i.denominator
  positive : 0 < i.low
  low : i.low < i.value
  high : i.value < i.high

section

variable (i : Interval) (exponent : ℤ)

/-- The factor that makes bounds of the interval comparable with multiples of the power of ten. -/
def up : ℕ := Nat.pow 10 (-exponent).toNat

/-- The power of ten, over the common denominator. -/
def unit : ℕ := i.denominator * Nat.pow 10 exponent.toNat

/-- The greatest multiple that is not above the value. -/
def below : ℕ := i.value * up exponent / i.unit exponent

/-- The multiple below the value is not below the interval. -/
def FitsBelow : Prop :=
  i.low * up exponent < i.below exponent * i.unit exponent ∨
    i.closed ∧ i.low * up exponent = i.below exponent * i.unit exponent

/-- The multiple above the value is not above the interval. -/
def FitsAbove : Prop :=
  (i.below exponent + 1) * i.unit exponent < i.high * up exponent ∨
    i.closed ∧ i.high * up exponent = (i.below exponent + 1) * i.unit exponent

omit i exponent in
theorem choice_cases {τ : Type} (b a upper : Bool) (x y : τ) :
    (if b && !(a && upper) then some x else if a then some y else none) = some x ∧ b ∨
      (if b && !(a && upper) then some x else if a then some y else none) = some y ∧ a ∨
      (if b && !(a && upper) then some x else if a then some y else none) = none ∧ ¬ b ∧ ¬ a := by
  cases b <;> cases a <;> cases upper <;> simp

/-- One of the two multiples next to the value is found if it fits, and none only if none fits. -/
theorem closest?_cases (tie : Tie) :
    i.closest? tie exponent = some (i.below exponent) ∧ i.FitsBelow exponent ∨
      i.closest? tie exponent = some (i.below exponent + 1) ∧ i.FitsAbove exponent ∨
      i.closest? tie exponent = none ∧ ¬ i.FitsBelow exponent ∧ ¬ i.FitsAbove exponent := by
  have fitsBelow : (decide (i.low * up exponent < i.below exponent * i.unit exponent) ||
      i.closed && i.low * up exponent == i.below exponent * i.unit exponent) = true ↔
        i.FitsBelow exponent := by
    simp [FitsBelow]
  have fitsAbove : (decide ((i.below exponent + 1) * i.unit exponent < i.high * up exponent) ||
      i.closed && (i.below exponent + 1) * i.unit exponent == i.high * up exponent) = true ↔
        i.FitsAbove exponent := by
    rw [FitsAbove, eq_comm (a := i.high * up exponent)]
    simp
  rw [← fitsBelow, ← fitsAbove]
  exact choice_cases _ _ _ _ _

end

variable {i : Interval} (hi : i.IsProper) {tie : Tie} {exponent : ℤ} {c : ℕ}

theorem up_pos (exponent : ℤ) : 0 < up exponent := Nat.pow_pos (by decide)

include hi

theorem unit_pos (exponent : ℤ) : 0 < i.unit exponent :=
  Nat.mul_pos hi.denominator (Nat.pow_pos (by decide))

/-- A multiple of a power of ten against a bound of the interval, over the common denominator. -/
theorem div_lt_iff {n : ℕ} :
    (n / i.denominator : ℚ) < c * 10 ^ exponent ↔ n * up exponent < c * i.unit exponent := by
  have hd : (0 : ℚ) < i.denominator := by exact_mod_cast hi.denominator
  rw [zpow_eq_div, mul_div_assoc', div_lt_div_iff₀ hd (by positivity), mul_right_comm, mul_assoc]
  exact_mod_cast Iff.rfl

theorem lt_div_iff {n : ℕ} :
    c * 10 ^ exponent < (n / i.denominator : ℚ) ↔ c * i.unit exponent < n * up exponent := by
  have hd : (0 : ℚ) < i.denominator := by exact_mod_cast hi.denominator
  rw [zpow_eq_div, mul_div_assoc', div_lt_div_iff₀ (by positivity) hd, mul_right_comm, mul_assoc]
  exact_mod_cast Iff.rfl

theorem div_eq_iff {n : ℕ} :
    (n / i.denominator : ℚ) = c * 10 ^ exponent ↔ n * up exponent = c * i.unit exponent := by
  rw [le_antisymm_iff, ← not_lt, ← not_lt, lt_div_iff hi, div_lt_iff hi]
  omega

omit hi in
theorem below_le : i.below exponent * i.unit exponent ≤ i.value * up exponent :=
  Nat.div_mul_le_self _ _

theorem lt_above : i.value * up exponent < (i.below exponent + 1) * i.unit exponent :=
  (Nat.div_lt_iff_lt_mul (unit_pos hi exponent)).1 (Nat.lt_succ_self _)

/-- A decimal that is found lies in the interval. -/
theorem contains_of_closest? (h : i.closest? tie exponent = some c) :
    i.Contains (c * 10 ^ exponent) := by
  have low := (Nat.mul_lt_mul_right (up_pos exponent)).2 hi.low
  have high := (Nat.mul_lt_mul_right (up_pos exponent)).2 hi.high
  obtain ⟨hc, fits⟩ | ⟨hc, fits⟩ | ⟨hc, -⟩ := closest?_cases i exponent tie
  · obtain rfl := Option.some.inj (h.symm.trans hc)
    refine ⟨?_, .inl ((lt_div_iff hi).2 ((below_le).trans_lt high))⟩
    rwa [div_lt_iff hi, div_eq_iff hi]
  · obtain rfl := Option.some.inj (h.symm.trans hc)
    refine ⟨.inl ((div_lt_iff hi).2 (low.trans (lt_above hi))), ?_⟩
    rwa [lt_div_iff hi, div_eq_iff hi]
  · rw [hc] at h
    contradiction

omit hi in
/-- Where the multiples of a power of ten are closer than the interval is wide, one is found. -/
theorem closest?_isSome (narrow : i.unit exponent + i.low * up exponent < i.high * up exponent) :
    (i.closest? tie exponent).isSome := by
  obtain ⟨hc, -⟩ | ⟨hc, -⟩ | ⟨hc, noBelow, noAbove⟩ := closest?_cases i exponent tie
  · rw [hc]; rfl
  · rw [hc]; rfl
  · have : i.below exponent * i.unit exponent ≤ i.low * up exponent :=
      Nat.not_lt.1 fun h => noBelow (.inl h)
    have : i.high * up exponent ≤ (i.below exponent + 1) * i.unit exponent :=
      Nat.not_lt.1 fun h => noAbove (.inl h)
    rw [Nat.succ_mul] at this
    omega

theorem ne_zero_of_contains (h : i.Contains (c * 10 ^ exponent)) : c ≠ 0 := by
  rintro rfl
  have hd := hi.denominator
  have hl := hi.positive
  have : (0 : ℚ) < i.low / i.denominator := by positivity
  rw [← zero_mul ((10 : ℚ) ^ exponent)] at this
  obtain low | ⟨-, low⟩ := h.low
  · exact absurd low (not_lt.2 (by exact_mod_cast this.le))
  · exact this.ne (by exact_mod_cast low.symm)

/-- The magnitude does not overstate the value. -/
theorem magnitude_le : (10 : ℚ) ^ (i.magnitude - 1) ≤ i.value / i.denominator := by
  have hd := hi.denominator
  have hv : 0 < i.value := hi.positive.trans hi.low
  unfold magnitude
  split_ifs with h
  · have large := pow_length_le (Nat.div_pos h hd).ne'
    rw [Nat.le_div_iff_mul_le hd] at large
    have length := Nat.length_toDigits_pos (b := 10) (n := i.value / i.denominator)
    have exponent : ((Nat.toDigits 10 (i.value / i.denominator)).length : ℤ) - 1 =
        ((Nat.toDigits 10 (i.value / i.denominator)).length - 1 : ℕ) := by omega
    rw [exponent, zpow_natCast, le_div_iff₀ (by exact_mod_cast hd)]
    exact_mod_cast large
  · dsimp only
    generalize hw : (i.denominator + i.value - 1) / i.value = inverse
    have ceil : i.denominator ≤ inverse * i.value := by
      have split := Nat.div_add_mod (i.denominator + i.value - 1) i.value
      have rest := Nat.mod_lt (i.denominator + i.value - 1) hv
      rw [hw] at split
      rw [mul_comm]
      omega
    have small := lt_pow_length (inverse - 1)
    generalize (Nat.toDigits 10 (inverse - 1)).length = length at *
    have : i.denominator ≤ 10 ^ length * i.value :=
      ceil.trans (Nat.mul_le_mul_right _ (by omega))
    have exponent : (1 : ℤ) - length - 1 = -length := by omega
    rw [exponent, zpow_neg, zpow_natCast, inv_eq_one_div, div_le_div_iff₀ (by positivity)
      (by exact_mod_cast hd), one_mul, mul_comm]
    exact_mod_cast this

end Interval

/-! ## The interval of a double -/

section

variable {m : ℕ} {e : ℤ} (h : IsDouble m e)

theorem quarters_div (k : ℕ) :
    ((k * Nat.pow 2 (e - 2).toNat : ℕ) / (Nat.pow 2 (2 - e).toNat : ℕ) : ℚ) = k * 2 ^ (e - 2) := by
  rw [zpow_eq_div, neg_sub, mul_div_assoc']
  simp only [Nat.pow_eq, Nat.cast_mul, Nat.cast_pow, Nat.cast_ofNat]

theorem ofBinary_low (m : ℕ) (e : ℤ) :
    (Interval.ofBinary m e (AtBinade m e)).low = lowQuarters m e * Nat.pow 2 (e - 2).toNat := by
  simp [Interval.ofBinary, lowQuarters]

include h

theorem isProper_ofBinary : (Interval.ofBinary m e (AtBinade m e)).IsProper := by
  have up : 0 < Nat.pow 2 (e - 2).toNat := Nat.pow_pos (by decide)
  have pos := h.pos
  have low : 0 < lowQuarters m e ∧ lowQuarters m e < 4 * m := by
    unfold lowQuarters
    split_ifs <;> omega
  refine ⟨Nat.pow_pos (by decide), ?_, ?_, ?_⟩
  · rw [ofBinary_low]
    exact Nat.mul_pos low.1 up
  · rw [ofBinary_low]
    exact (Nat.mul_lt_mul_right up).2 low.2
  · exact (Nat.mul_lt_mul_right up).2 (by omega)

omit h in
/-- The interval of a double holds what rounds to the double. -/
theorem roundsTo_of_contains {q : ℚ} (hq : (Interval.ofBinary m e (AtBinade m e)).Contains q) :
    RoundsTo m e q := by
  obtain ⟨low, high⟩ := hq
  rw [ofBinary_low] at low
  simp only [Interval.ofBinary, quarters_div, decide_eq_true_eq] at low high
  exact ⟨low, high⟩

/-- Seventeen digits tell doubles apart. -/
theorem narrow_ofBinary :
    let i := Interval.ofBinary m e (AtBinade m e)
    i.unit (i.magnitude - 17) + i.low * Interval.up (i.magnitude - 17) <
      i.high * Interval.up (i.magnitude - 17) := by
  intro i
  have proper : i.IsProper := isProper_ofBinary h
  have value : (i.value / i.denominator : ℚ) = (4 * m : ℕ) * 2 ^ (e - 2) := quarters_div _
  have width : ((i.high - i.low : ℕ) / i.denominator : ℚ) =
      (4 * m + 2 - lowQuarters m e : ℕ) * 2 ^ (e - 2) := by
    rw [← quarters_div, Nat.sub_mul, ← ofBinary_low]
    rfl
  have magnitude := i.magnitude_le proper
  have places : (10 : ℚ) ^ (i.magnitude - 17) * 10 ^ 16 = 10 ^ (i.magnitude - 1) := by
    rw [← zpow_natCast, ← zpow_add₀ (by norm_num)]
    congr 1
    norm_num
    omega
  have narrow : 4 * m < (4 * m + 2 - lowQuarters m e) * 10 ^ 16 := by
    have lt := h.lt
    unfold lowQuarters
    split_ifs with hb
    · have := hb.1
      omega
    · omega
  have : (1 : ℕ) * (10 : ℚ) ^ (i.magnitude - 17) < ((i.high - i.low : ℕ) / i.denominator : ℚ) := by
    have scaled := mul_lt_mul_of_pos_right (Nat.cast_lt (α := ℚ).2 narrow) (two_zpow_pos (e - 2))
    rw [width]
    rw [value, ← places] at magnitude
    rw [Nat.cast_mul (4 * m + 2 - lowQuarters m e)] at scaled
    generalize ((4 * m + 2 - lowQuarters m e : ℕ) : ℚ) = w at *
    push_cast at scaled magnitude ⊢
    linarith
  rw [Interval.lt_div_iff proper, one_mul, Nat.sub_mul] at this
  omega

end

/-! ## The shortest decimal -/

/-- Digits that do not begin with a zero. -/
structure IsSignificant (digits : List Char) : Prop where
  nonempty : digits ≠ []
  isDigit : ∀ c ∈ digits, c.isDigit
  head : digits.head? ≠ some '0'

theorem exists_trailing_zeros (digits : List Char) :
    ∃ z, digits = (digits.reverse.dropWhile (· == '0')).reverse ++ List.replicate z '0' := by
  have zeros : digits.reverse.takeWhile (· == '0') =
      List.replicate (digits.reverse.takeWhile (· == '0')).length '0' :=
    List.eq_replicate_iff.2
      ⟨rfl, fun c hc => by simpa using List.all_eq_true.1 List.all_takeWhile c hc⟩
  refine ⟨(digits.reverse.takeWhile (· == '0')).length, ?_⟩
  rw [← List.reverse_replicate, ← zeros, ← List.reverse_append, List.takeWhile_append_dropWhile,
    List.reverse_reverse]

/-- Without its trailing zeros a positive number keeps its leading digit. -/
theorem exists_significant {c : ℕ} (hc : c ≠ 0) :
    ∃ digits z, Nat.toDigits 10 c = digits ++ List.replicate z '0' ∧
      ((Nat.toDigits 10 c).reverse.dropWhile (· == '0')).reverse = digits ∧
      IsSignificant digits := by
  obtain ⟨z, hz⟩ := exists_trailing_zeros (Nat.toDigits 10 c)
  refine ⟨_, z, hz, rfl, ?_⟩
  generalize ((Nat.toDigits 10 c).reverse.dropWhile (· == '0')).reverse = digits at hz
  have head := head?_toDigits hc
  have nonempty := toDigits_ne_nil c
  have all : ∀ d ∈ digits, d.isDigit := fun d hd =>
    isDigit_of_mem_toDigits (n := c) (hz ▸ List.mem_append_left _ hd)
  rw [hz] at head nonempty
  cases digits with
  | nil =>
    cases z with
    | zero => exact absurd rfl nonempty
    | succ z => exact absurd rfl head
  | cons d digits => exact ⟨List.cons_ne_nil d digits, all, head⟩

/-- Some decimal is found for a double, and it rounds to the double. -/
theorem shortest_roundsTo {m : ℕ} {e : ℤ} (h : IsDouble m e) (tie : Tie) :
    ∃ digits k, shortest tie (.ofBinary m e (AtBinade m e)) = (digits, k) ∧ IsSignificant digits ∧
      RoundsTo m e (natOfDigits digits * 10 ^ (k - digits.length)) := by
  have narrow := narrow_ofBinary h
  have proper := isProper_ofBinary h
  have contained {q : ℚ} := roundsTo_of_contains (m := m) (e := e) (q := q)
  dsimp only at narrow
  generalize Interval.ofBinary m e (AtBinade m e) = i at *
  unfold shortest
  dsimp only
  have seventeen : ((List.range 17).findSome? fun (n : ℕ) =>
      (i.closest? tie (i.magnitude - (n + 1 : ℕ))).map fun c =>
        (c, i.magnitude - (n + 1 : ℕ))).isSome := by
    rw [List.findSome?_isSome_iff]
    refine ⟨16, by decide, ?_⟩
    rw [Option.isSome_map]
    exact Interval.closest?_isSome narrow
  obtain ⟨⟨c, exponent⟩, found⟩ := Option.isSome_iff_exists.1 seventeen
  obtain ⟨n, -, hn⟩ := List.exists_of_findSome?_eq_some found
  obtain ⟨c', hc, hp⟩ := Option.map_eq_some_iff.1 hn
  obtain ⟨rfl, rfl⟩ := Prod.mk.inj hp
  have inside := Interval.contains_of_closest? proper hc
  obtain ⟨digits, z, hz, stripped, significant⟩ :=
    exists_significant (Interval.ne_zero_of_contains proper inside)
  rw [found]
  refine ⟨digits, _, Prod.ext stripped rfl, significant, ?_⟩
  -- the zeros that are left out are counted by the exponent
  have number : c' = natOfDigits digits * 10 ^ z := by
    rw [← natOfDigits_toDigits c', hz, natOfDigits_append_zeros]
  have places : i.magnitude - (n + 1 : ℕ) + (Nat.toDigits 10 c').length - digits.length =
      i.magnitude - (n + 1 : ℕ) + z := by
    rw [hz, List.length_append, List.length_replicate]
    omega
  rw [Option.getD_some]
  dsimp only
  rw [places, zpow_add₀ (by norm_num), zpow_natCast]
  have := contained inside
  rw [number, Nat.cast_mul, mul_assoc] at this
  convert this using 2
  push_cast
  ring

end AdaptivePopulation.Decimal
