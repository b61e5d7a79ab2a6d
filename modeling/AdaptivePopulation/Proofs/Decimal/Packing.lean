import AdaptivePopulation.Decimal.Shortest
import AdaptivePopulation.Proofs.Decimal.Rounding

/-!
# Doubles and their bits

A positive double is packed into eleven bits for its exponent and fifty-two for its significand,
whose leading bit is left out.  Every finite double that is not zero is such a double with a sign.
-/

namespace AdaptivePopulation.Decimal

open Float.Model Float.Model.UnpackedFloat

/-! ## Components -/

/-- The sign bit, in its place. -/
def signBit : Sign → ℕ
  | .negative => 2 ^ 63
  | .positive => 0

theorem toNat_append {k l : ℕ} (x : BitVec k) (y : BitVec l) :
    (x ++ y).toNat = x.toNat * 2 ^ l + y.toNat := by
  rw [BitVec.toNat_append, ← Nat.shiftLeft_add_eq_or_of_lt y.isLt, Nat.shiftLeft_eq]

theorem toNat_packComponents (s : Sign) (exponent : BitVec 11) (mantissa : BitVec 52) :
    (packComponents Format.binary64 s exponent mantissa).toNat =
      signBit s + exponent.toNat * 2 ^ 52 + mantissa.toNat := by
  rw [packComponents, toNat_append, toNat_append]
  cases s
  · simp [Sign.toBitVec, signBit]
    omega
  · simp [Sign.toBitVec, signBit]

theorem toNat_unpackExponent (b : BitVec 64) :
    (@unpackExponent Format.binary64 b).toNat = b.toNat / 2 ^ 52 % 2 ^ 11 := by
  simp [unpackExponent, Nat.shiftRight_eq_div_pow]

/-! ## Packing -/

variable {m : ℕ} {e : ℤ}

/-- The bits of a positive double. -/
def bitsOf (m : ℕ) (e : ℤ) : ℕ :=
  if 2 ^ 52 ≤ m then (e + 1075).toNat * 2 ^ 52 + (m - 2 ^ 52) else m

theorem pack_eq (h : IsDouble m e) (s : Sign) :
    UnpackedFloat.pack Format.binary64 (.finite s m e h.pos) =
      packComponents Format.binary64 s
        (if 2 ^ 52 ≤ m then BitVec.ofNat 11 (e + 1075).toNat else 0#11) (BitVec.ofNat 52 m) := by
  have least := h.least
  have greatest := h.greatest
  have bits : m.log2 + 1 = 53 ↔ 2 ^ 52 ≤ m := by
    have upper : m.log2 < 53 := (Nat.log2_lt h.pos.ne').2 h.lt
    rw [← Nat.le_log2 h.pos.ne']
    omega
  have biased : (e + 1023 + 52).toNat = (e + 1075).toNat := by omega
  simp only [UnpackedFloat.pack, Format.exponentBias, Format.mantissaBits]
  norm_num [bits, biased]
  rw [if_neg (by omega)]
  split_ifs <;> rfl

theorem toNat_pack (h : IsDouble m e) (s : Sign) :
    (UnpackedFloat.pack Format.binary64 (.finite s m e h.pos)).toNat = signBit s + bitsOf m e := by
  have least := h.least
  have greatest := h.greatest
  have lt := h.lt
  rw [pack_eq h, toNat_packComponents, bitsOf]
  split_ifs <;> simp <;> omega

theorem unpack_packComponents (s : Sign) {exponent : BitVec 11} {mantissa : BitVec 52}
    (he : exponent.toNat ≠ 2047) (hm : exponent.toNat ≠ 0 ∨ mantissa.toNat ≠ 0) :
    UnpackedFloat.unpack Format.binary64 (packComponents Format.binary64 s exponent mantissa) =
      if h : exponent.toNat = 0 then
        .finite s mantissa.toNat (-1074) (Nat.pos_of_ne_zero (hm.resolve_left (absurd h)))
      else .finite s (2 ^ 52 + mantissa.toNat) (exponent.toNat - 1075)
        (Nat.add_pos_left (Nat.two_pow_pos 52) _) := by
  have notLast : exponent ≠ -1#11 := fun h => he (by rw [h]; rfl)
  simp only [UnpackedFloat.unpack, unpackExponent_packComponents, unpackMantissa_packComponents,
    unpackSign_packComponents, Sign.ofBitVec_toBitVec, notLast, if_false]
  by_cases h : exponent = 0#11
  · subst h
    have : mantissa ≠ 0#52 := fun h => hm.elim (fun h => h rfl) fun hm => hm (by rw [h]; rfl)
    simp [this, Format.exponentBias]
  · have : exponent.toNat ≠ 0 := fun h' => h (BitVec.eq_of_toNat_eq h')
    have whole : (1#1 ++ mantissa).toNat = 2 ^ 52 + mantissa.toNat := by
      rw [toNat_append]
      simp
    simp [h, this, Format.exponentBias]
    exact whole

theorem unpack_pack (h : IsDouble m e) (s : Sign) :
    (Float.Model.pack (.finite s m e h.pos)).unpack = .finite s m e h.pos := by
  have pos := h.pos
  have lt := h.lt
  have least := h.least
  have greatest := h.greatest
  have bits : (Float.Model.pack (.finite s m e h.pos)).toBits.toBitVec =
      UnpackedFloat.pack Format.binary64 (.finite s m e h.pos) := rfl
  rw [Float.Model.unpack, bits, pack_eq h]
  by_cases hm : 2 ^ 52 ≤ m
  · rw [if_pos hm, unpack_packComponents _ (by simp; omega) (.inl (by simp; omega)),
      dif_neg (by simp; omega)]
    simp
    omega
  · have low := h.normal.resolve_right hm
    rw [if_neg hm, unpack_packComponents _ (by simp) (.inr (by simp; omega)), dif_pos (by simp)]
    simp
    omega

/-! ## Finite doubles -/

/-- The double with the given sign. -/
def signed (s : Sign) (m : ℕ) (e : ℤ) (hm : 0 < m) : Float := .ofModel (.pack (.finite s m e hm))

theorem toNat_toBits_signed (h : IsDouble m e) (s : Sign) :
    (signed s m e h.pos).toBits.toNat = signBit s + bitsOf m e :=
  toNat_pack h s

theorem neg_signed (h : IsDouble m e) (s : Sign) :
    -signed s m e h.pos = signed (-s) m e h.pos := by
  show Float.ofModel (-(signed s m e h.pos).toModel) = _
  have unpacked : (signed s m e h.pos).toModel.unpack = .finite s m e h.pos := unpack_pack h s
  show Float.ofModel (Float.Model.pack (signed s m e h.pos).toModel.unpack.neg) = _
  rw [unpacked]
  rfl

theorem isFinite_iff_defined {x : Float} : x.isFinite ↔ x.isNaN = false ∧ x.isInf = false := by
  change x.toModel.unpack.isFinite ↔
    x.toModel.unpack.isNaN = false ∧ x.toModel.unpack.isInf = false
  cases x.toModel.unpack <;> simp [UnpackedFloat.isFinite, UnpackedFloat.isNaN, UnpackedFloat.isInf]

theorem isNaN_of_isFinite {x : Float} (hx : x.isFinite) : x.isNaN = false :=
  (isFinite_iff_defined.1 hx).1

theorem isInf_of_isFinite {x : Float} (hx : x.isFinite) : x.isInf = false :=
  (isFinite_iff_defined.1 hx).2

/-- The exponent of a finite double is not the greatest one. -/
theorem exponent_of_isFinite {x : Float} (hx : x.isFinite) :
    x.toBits.toNat / 2 ^ 52 % 2 ^ 11 ≠ 2047 := by
  intro h
  have last : @unpackExponent Format.binary64 x.toBits.toBitVec = -1#11 := by
    apply BitVec.eq_of_toNat_eq
    rw [toNat_unpackExponent]
    exact h
  have : x.toModel.unpack.isFinite = false := by
    show (UnpackedFloat.unpack Format.binary64 x.toBits.toBitVec).isFinite = false
    simp only [UnpackedFloat.unpack, last, if_true]
    split_ifs <;> rfl
  exact absurd hx (by rw [Float.isFinite, Float.Model.isFinite, this]; decide)

/-- The sign of a double that has the given bits. -/
def signOfBits (bits : ℕ) : Sign := if 2 ^ 63 ≤ bits then .negative else .positive

/-- A finite double other than zero has a significand and an exponent, and its interval is that of
the numbers that round to it. -/
theorem exists_double {x : Float} (hx : x.isFinite) (hz : x.toBits.toNat % 2 ^ 63 ≠ 0) :
    ∃ (m : ℕ) (e : ℤ) (h : IsDouble m e), x = signed (signOfBits x.toBits.toNat) m e h.pos ∧
      Interval.ofBits (x.toBits.toNat % 2 ^ 63) = .ofBinary m e (AtBinade m e) := by
  have finite := exponent_of_isFinite hx
  have bound := x.toBits.toNat_lt
  have sign : signBit (signOfBits x.toBits.toNat) + x.toBits.toNat % 2 ^ 63 = x.toBits.toNat := by
    unfold signOfBits
    split_ifs <;> simp only [signBit] <;> omega
  generalize hB : x.toBits.toNat % 2 ^ 63 = B at *
  have small : B < 2 ^ 63 := by omega
  have interval : Interval.ofBits B = if B / 2 ^ 52 % 2 ^ 11 = 0 then
      .ofBinary (B % 2 ^ 52) (-1074) false
    else .ofBinary (2 ^ 52 + B % 2 ^ 52) (Int.ofNat (B / 2 ^ 52 % 2 ^ 11) - 1075)
      (B % 2 ^ 52 = 0 ∧ 1 < B / 2 ^ 52 % 2 ^ 11) := rfl
  rw [interval]
  by_cases hb : B / 2 ^ 52 % 2 ^ 11 = 0
  · have h : IsDouble (B % 2 ^ 52) (-1074) := ⟨by omega, by omega, by omega, by omega, .inl rfl⟩
    have hm : ¬ 2 ^ 52 ≤ B % 2 ^ 52 := by omega
    have hn : ¬ AtBinade (B % 2 ^ 52) (-1074) := fun hb => hm hb.1.ge
    refine ⟨_, _, h, Float.toBits_inj.1 (UInt64.toNat_inj.1 ?_), ?_⟩
    · rw [toNat_toBits_signed h, bitsOf, if_neg hm]
      omega
    · rw [if_pos hb, decide_eq_false hn]
  · generalize hk : B / 2 ^ 52 % 2 ^ 11 = k at *
    have h : IsDouble (2 ^ 52 + B % 2 ^ 52) (Int.ofNat k - 1075) := by
      refine ⟨by omega, by omega, ?_, ?_, .inr (by omega)⟩ <;> simp only [Int.ofNat_eq_natCast] <;>
        omega
    refine ⟨_, _, h, Float.toBits_inj.1 (UInt64.toNat_inj.1 ?_), ?_⟩
    · rw [toNat_toBits_signed h, bitsOf, if_pos (by omega)]
      simp only [Int.ofNat_eq_natCast]
      omega
    · have binade : AtBinade (2 ^ 52 + B % 2 ^ 52) (Int.ofNat k - 1075) ↔
          B % 2 ^ 52 = 0 ∧ 1 < k := by
        unfold AtBinade
        simp only [Int.ofNat_eq_natCast]
        omega
      rw [if_neg hb, decide_eq_decide.2 binade]

end AdaptivePopulation.Decimal
