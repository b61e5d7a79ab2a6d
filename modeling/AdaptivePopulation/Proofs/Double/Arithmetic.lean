import AdaptivePopulation.Proofs.Double.Order

/-!
# Arithmetic of doubles

The sum, difference, product or quotient of finite doubles is the double nearest to that of the
numbers that they stand for.
-/

namespace AdaptivePopulation.Double

open Float.Model Float.Model.UnpackedFloat Decimal

/-! ## Packing -/

theorem unpack_pack_infinity (s : Sign) :
    (Float.Model.pack (.infinity s)).unpack = .infinity s := by
  cases s <;> rfl

theorem unpack_pack_zero (s : Sign) : (Float.Model.pack (.zero s)).unpack = .zero s := by
  cases s <;> rfl

theorem unpack_pack_large {s : Sign} {m : ℕ} {e : ℤ} {hm : 0 < m} (he : 971 < e) :
    (Float.Model.pack (.finite s m e hm)).unpack = .infinity s := by
  have packed : Float.Model.pack (.finite s m e hm) = Float.Model.pack (.infinity s) := by
    unfold Float.Model.pack UnpackedFloat.pack
    dsimp only
    congr 2
    refine if_pos ?_
    simp only [Format.exponentBias]
    omega
  rw [packed, unpack_pack_infinity]

theorem bound_le_magnitude {m : ℕ} {e : ℤ} (le : 2 ^ 52 ≤ m) (large : 971 < e) :
    bound ≤ m * 2 ^ e :=
  calc bound ≤ 2 ^ ((52 : ℕ) + e) := bound_eq ▸ zpow_le_zpow_right₀ one_le_two (by omega)
    _ = 2 ^ 52 * 2 ^ e := (pow_mul_zpow 52 e).symm
    _ ≤ m * 2 ^ e := mul_le_mul_of_nonneg_right (by exact_mod_cast le) (zpow_pos_two e).le

/-- Packing makes what is too large infinite. -/
theorem extendedOf_unpack_pack {u : UnpackedFloat} (h : Canonical u) (finite : u.isFinite) :
    (Float.Model.pack u).unpack.isNaN = false ∧
      extendedOf (Float.Model.pack u).unpack = overflow (valueOf u) := by
  rcases u with _ | _ | s | ⟨s, m, e, hm⟩
  any_goals contradiction
  · rw [unpack_pack_zero, extendedOf_of_isFinite rfl]
    exact ⟨rfl, (overflow_of_abs_lt (by simpa [valueOf] using bound_pos)).symm⟩
  · obtain ⟨lt, least, normal⟩ := h
    obtain small | large := le_or_gt e 971
    · have double : IsDouble m e := ⟨hm, lt, least, small, normal⟩
      rw [unpack_pack double, extendedOf_of_isFinite rfl, overflow_of_abs_lt]
      · exact ⟨rfl, rfl⟩
      · rw [abs_valueOf]
        exact magnitude_lt_bound lt small
    · have beyond : bound ≤ m * 2 ^ e := bound_le_magnitude (normal.resolve_left (by omega)) large
      rw [unpack_pack_large large]
      refine ⟨rfl, ?_⟩
      cases s with
      | negative =>
        have := bound_pos
        rw [valueOf_negative, overflow, if_neg (by linarith), if_pos (by linarith)]
        rfl
      | positive =>
        rw [valueOf_positive, overflow, if_pos beyond]
        rfl

/-! ## Rounding -/

/-- The result stands for the rounded number. -/
structure Rounds (u : UnpackedFloat) (q : ℝ) : Prop where
  canonical : Canonical u
  finite : u.isFinite
  value : valueOf u = rounded q

theorem log2_of_canonical {m : ℕ} {e : ℤ} (lt : m < 2 ^ 53) (least : -1074 ≤ e)
    (normal : e = -1074 ∨ 2 ^ 52 ≤ m) : max ((m.log2 : ℤ) + e - 52) (-1074) = e := by
  obtain rfl | pos := m.eq_zero_or_pos
  · obtain rfl := normal.resolve_right (by decide)
    rfl
  have upper : m.log2 < 53 := (Nat.log2_lt pos.ne').2 lt
  obtain rfl | full := normal
  · omega
  · have lower : 52 ≤ m.log2 := (Nat.le_log2 pos.ne').2 full
    omega

/-- The last step of rounding only shortens a significand that has become too long. -/
theorem exists_shiftToTargetExponent {N : ℕ} {t : ℤ} (le : N ≤ 2 ^ 53) (least : -1074 ≤ t)
    (normal : t = -1074 ∨ 2 ^ 52 ≤ N) :
    ∃ a e, shiftToTargetExponent Format.binary64 N t .exact = (a, e) ∧ a.mantissa < 2 ^ 53 ∧
      -1074 ≤ e ∧ (e = -1074 ∨ 2 ^ 52 ≤ a.mantissa) ∧
      (a.mantissa * 2 ^ e : ℝ) = N * 2 ^ t := by
  obtain rfl | lt := le.eq_or_lt
  · have next : max (((2 ^ 53 : ℕ).log2 : ℤ) + t - 52) (-1074) = t + 1 := by
      rw [Nat.log2_two_pow]
      omega
    have half : ((2 ^ 53 : ℕ) : ℝ) * 2 ^ t = (2 ^ 52 : ℕ) * 2 ^ (t + 1) := by
      rw [add_comm, zpow_one_add₀ two_ne_zero]
      push_cast
      ring
    have mantissa : (ofFraction (2 ^ 53) 2).mantissa = 2 ^ 52 := by decide
    refine ⟨ofFraction (2 ^ 53) 2, t + 1, ?_, by decide, by omega, .inr mantissa.ge, ?_⟩
    · rw [shiftToTargetExponent_exact next (by omega), show (t + 1 - t).toNat = 1 by omega]
      rfl
    · rw [mantissa, half]
  · refine ⟨ofFraction N 1, t, ?_, ?_, least, ?_, ?_⟩
    · rw [shiftToTargetExponent_exact (log2_of_canonical lt least normal) le_rfl, sub_self]
      rfl
    · simpa only [ofFraction, Nat.div_one] using lt
    · simpa only [ofFraction, Nat.div_one] using normal
    · simp only [ofFraction, Nat.div_one]

section

variable {n d : ℕ} (hn : 0 < n) (hd : 0 < d)

include hd

theorem nearest_nearestEven : Nearest n d (nearestEven (n / d)).toNat := by
  have h := isNearest_nearestEven (n / d)
  have nonneg : 0 ≤ nearestEven (n / d : ℝ) := by
    have := nearestEven_mono (show (0 : ℤ) ≤ (n / d : ℝ) by push_cast; positivity)
    rwa [nearestEven_intCast] at this
  generalize nearestEven (n / d : ℝ) = k at h nonneg
  lift k to ℕ using nonneg
  have pos : (0 : ℝ) < d := by exact_mod_cast hd
  obtain ⟨low, high⟩ := h
  rw [lt_div_iff₀ pos, eq_div_iff pos.ne', Int.cast_natCast] at low
  rw [div_lt_iff₀ pos, div_eq_iff pos.ne', Int.cast_natCast] at high
  refine ⟨low.imp (fun h => ?_) fun h => ⟨by omega, ?_⟩,
    high.imp (fun h => ?_) fun h => ⟨by omega, ?_⟩⟩
  · have : (2 * k * d : ℝ) < 2 * n + d := by linarith
    exact_mod_cast this
  · have : (2 * k * d : ℝ) = 2 * n + d := by linarith [h.2]
    exact_mod_cast this
  · have : (2 * n : ℝ) < 2 * k * d + d := by linarith
    exact_mod_cast this
  · have : (2 * n : ℝ) = 2 * k * d + d := by linarith [h.2]
    exact_mod_cast this

include hn

/-- The place of a fraction of which enough digits are known. -/
theorem place_fraction {e : ℤ} (precise : e ≤ -1074 ∨ 52 ≤ (n / d).log2) :
    place (n / d * 2 ^ e) = max ((n / d).log2 + e - 52) (-1074) := by
  have pos : (0 : ℝ) < n / d * 2 ^ e := by positivity
  have above : (n / d * 2 ^ e : ℝ) < ((2 : ℕ) : ℝ) ^ ((n / d).log2 + 1 + e) := by
    have := (Rat.cast_lt (K := ℝ)).2 (lt_log2_div (n := n) hd e)
    push_cast at this ⊢
    exact this
  have upper := (Int.lt_zpow_iff_log_lt one_lt_two pos).1 above
  rw [place, abs_of_pos pos]
  by_cases small : n / d = 0
  · rw [small] at precise upper ⊢
    simp only [Nat.log2_zero] at precise upper ⊢
    omega
  · have below : ((2 : ℕ) : ℝ) ^ ((n / d).log2 + e) ≤ n / d * 2 ^ e := by
      have := (Rat.cast_le (K := ℝ)).2 (log2_div_le hd small e)
      push_cast at this ⊢
      exact this
    have lower := (Int.zpow_le_iff_le_log one_lt_two pos).1 below
    omega

/-- A fraction is rounded correctly if enough of its digits are known. -/
theorem rounds_roundWithAccuracy {e : ℤ} (s : Sign) (precise : e ≤ -1074 ∨ 52 ≤ (n / d).log2) :
    Rounds (roundWithAccuracy Format.binary64 s (n / d) e (accuracyOfFraction (n % d) d))
      (s.apply 1 * (n / d * 2 ^ e)) := by
  have ht := place_fraction hn hd precise
  have pos : (0 : ℝ) < n / d * 2 ^ e := by positivity
  have least := le_place (n / d * 2 ^ e)
  have value := rounded_eq (n / d * 2 ^ e)
  have small := abs_lt_of_place (n / d * 2 ^ e)
  have full := le_abs_of_place pos.ne'
  rw [abs_of_pos pos] at small full
  generalize place (n / d * 2 ^ e) = t at ht least value small full
  have he : e ≤ t := by omega
  have hd' : 0 < d * 2 ^ (t - e).toNat := by positivity
  -- the number of places is a fraction as well
  have places : (n / d * 2 ^ e / 2 ^ t : ℝ) = n / (d * 2 ^ (t - e).toNat : ℕ) := by
    have shift : (2 : ℝ) ^ t = 2 ^ (t - e).toNat * 2 ^ e := by
      rw [pow_mul_zpow]
      congr 1
      omega
    rw [shift]
    push_cast
    field_simp
  have nearest := nearest_nearestEven (n := n) hd'
  have nonneg : 0 ≤ nearestEven (n / d * 2 ^ e / 2 ^ t) :=
    le_nearestEven_div (by simpa using pos.le)
  have upper : nearestEven (n / d * 2 ^ e / 2 ^ t) ≤ 2 ^ 53 := nearestEven_div_le small.le
  have lower : t = -1074 ∨ 2 ^ 52 ≤ nearestEven (n / d * 2 ^ e / 2 ^ t) :=
    least.eq_or_lt.imp Eq.symm fun h => le_nearestEven_div (full h)
  rw [← places] at nearest
  generalize nearestEven (n / d * 2 ^ e / 2 ^ t : ℝ) = k at nearest nonneg upper lower value
  lift k to ℕ using nonneg
  rw [Int.toNat_natCast] at nearest
  obtain ⟨a, f, shifted, lt, least', normal, same⟩ :=
    exists_shiftToTargetExponent (N := k) (by omega) least (by omega)
  rw [Int.cast_natCast, ← same] at value
  unfold roundWithAccuracy
  rw [shiftToTargetExponent_fraction hd ht.symm he]
  dsimp only
  rw [roundedMantissa_ofFraction hd' nearest, shifted]
  dsimp only
  split_ifs with zero
  · refine ⟨trivial, rfl, ?_⟩
    rw [zero, Nat.cast_zero, zero_mul] at value
    cases s <;> simp [Sign.apply, valueOf, value]
  · refine ⟨⟨lt, least', normal⟩, rfl, ?_⟩
    cases s <;> simp [Sign.apply, value]

end

/-! ## Operations on finite doubles -/

theorem rounds_zero (s : Sign) : Rounds (.zero s) 0 := ⟨trivial, rfl, rounded_zero.symm⟩

theorem Canonical.rounds {u : UnpackedFloat} (h : Canonical u) (finite : u.isFinite) :
    Rounds u (valueOf u) := by
  refine ⟨h, finite, ?_⟩
  rcases u with _ | _ | s | ⟨s, m, e, hm⟩
  any_goals contradiction
  · exact rounded_zero.symm
  · have exact := rounded_eq_self (m := m) (e := e) (by rw [Nat.abs_cast]; exact_mod_cast h.1) h.2.1
    rw [Int.cast_natCast] at exact
    cases s <;> simp [exact]

section

variable {m : ℕ} (hm : 0 < m)

include hm

theorem rounds_roundWithAccuracy_exact {e : ℤ} (s : Sign) (precise : e ≤ -1074 ∨ 52 ≤ m.log2) :
    Rounds (roundWithAccuracy Format.binary64 s m e .exact) (s.apply 1 * (m * 2 ^ e)) := by
  have := rounds_roundWithAccuracy hm one_pos (e := e) s (by simpa using precise)
  simpa [accuracyOfFraction, Nat.mod_one] using this

theorem rounds_round (s : Sign) (e : ℤ) :
    Rounds (UnpackedFloat.round Format.binary64 s m e) (s.apply 1 * (m * 2 ^ e)) := by
  unfold UnpackedFloat.round
  rw [targetExponent_eq]
  generalize ht : max ((m.log2 : ℤ) + e - 52) (-1074) = t
  have value : (m * 2 ^ e : ℝ) = (m * 2 ^ (e - t).toNat : ℕ) * 2 ^ (e - (e - t).toNat) := by
    push_cast
    rw [mul_assoc, pow_mul_zpow]
    congr 2
    omega
  rw [value]
  simp only [decreaseExponent, Nat.shiftLeft_eq]
  refine rounds_roundWithAccuracy_exact (by positivity) s ?_
  have digits : m.log2 + (e - t).toNat ≤ (m * 2 ^ (e - t).toNat).log2 := by
    rw [Nat.le_log2 (by positivity), pow_add]
    exact Nat.mul_le_mul_right _ (Nat.log2_self_le hm.ne')
  omega

end

theorem rounds_normalize (k e : ℤ) :
    Rounds (UnpackedFloat.normalize Format.binary64 k e .positive) (k * 2 ^ e) := by
  unfold UnpackedFloat.normalize
  obtain negative | rfl | positive := lt_trichotomy k 0
  · rw [Int.compare_eq_lt.2 negative]
    obtain ⟨n, rfl⟩ : ∃ n : ℕ, k = -n := ⟨(-k).toNat, by omega⟩
    have := rounds_round (m := n) (by omega) .negative e
    simpa [Sign.apply] using this
  · rw [Int.compare_eq_eq.2 rfl]
    simpa using rounds_zero .positive
  · rw [Int.compare_eq_gt.2 positive]
    lift k to ℕ using positive.le
    have := rounds_round (m := k) (by omega) .positive e
    simpa [Sign.apply] using this

section

variable {a b : UnpackedFloat} (ha : Canonical a) (hb : Canonical b) (fa : a.isFinite)
  (fb : b.isFinite)

include ha hb fa fb

theorem rounds_add : Rounds (UnpackedFloat.add Format.binary64 a b) (valueOf a + valueOf b) := by
  rcases a with _ | _ | s₁ | ⟨s₁, m₁, e₁, h₁⟩ <;> rcases b with _ | _ | s₂ | ⟨s₂, m₂, e₂, h₂⟩
  any_goals contradiction
  · rw [valueOf_zero, valueOf_zero, add_zero]
    cases s₁ <;> cases s₂ <;> exact rounds_zero _
  · rw [valueOf_zero, zero_add]
    exact hb.rounds rfl
  · rw [valueOf_zero, add_zero]
    exact ha.rounds rfl
  · have shift {m : ℕ} {e t : ℤ} (h : t ≤ e) :
        (m * 2 ^ (e - t).toNat * 2 ^ t : ℝ) = m * 2 ^ e := by
      rw [mul_assoc, pow_mul_zpow]
      congr 2
      omega
    have value : (((s₁.apply (m₁ * 2 ^ (e₁ - min e₁ e₂).toNat : ℕ) +
        s₂.apply (m₂ * 2 ^ (e₂ - min e₁ e₂).toNat : ℕ) : ℤ) : ℝ)) * 2 ^ min e₁ e₂ =
        valueOf (.finite s₁ m₁ e₁ h₁) + valueOf (.finite s₂ m₂ e₂ h₂) := by
      rw [Int.cast_add, add_mul]
      congr 1
      · cases s₁ <;> simp [Sign.apply, shift (min_le_left e₁ e₂)]
      · cases s₂ <;> simp [Sign.apply, shift (min_le_right e₁ e₂)]
    rw [← value]
    unfold UnpackedFloat.add
    simp only [decreaseExponent, Nat.shiftLeft_eq]
    exact rounds_normalize _ _

theorem rounds_mul : Rounds (UnpackedFloat.mul Format.binary64 a b) (valueOf a * valueOf b) := by
  rcases a with _ | _ | s₁ | ⟨s₁, m₁, e₁, h₁⟩ <;> rcases b with _ | _ | s₂ | ⟨s₂, m₂, e₂, h₂⟩
  any_goals contradiction
  · rw [valueOf_zero, zero_mul]
    exact rounds_zero _
  · rw [valueOf_zero, zero_mul]
    exact rounds_zero _
  · rw [valueOf_zero, mul_zero]
    exact rounds_zero _
  · have value : ((s₁ * s₂).apply 1 * ((m₁ * m₂ : ℕ) * 2 ^ (e₁ + e₂)) : ℝ) =
        valueOf (.finite s₁ m₁ e₁ h₁) * valueOf (.finite s₂ m₂ e₂ h₂) := by
      rw [zpow_add₀ two_ne_zero, Nat.cast_mul, mul_mul_mul_comm]
      cases s₁ <;> cases s₂ <;> simp [Sign.apply]
    rw [← value]
    refine rounds_roundWithAccuracy_exact (by positivity) (s₁ * s₂) ?_
    obtain ⟨-, least₁, normal₁⟩ := ha
    obtain ⟨-, least₂, normal₂⟩ := hb
    rw [Nat.le_log2 (by positivity)]
    by_contra small
    rw [not_or, not_le, not_le] at small
    obtain full₁ | full₂ : 2 ^ 52 ≤ m₁ ∨ 2 ^ 52 ≤ m₂ := by omega
    · have := Nat.le_mul_of_pos_right m₁ h₂
      omega
    · have := Nat.le_mul_of_pos_left m₂ h₁
      omega

theorem rounds_div (hb : valueOf b ≠ 0) :
    Rounds (UnpackedFloat.div Format.binary64 a b) (valueOf a / valueOf b) := by
  rcases a with _ | _ | s₁ | ⟨s₁, m₁, e₁, h₁⟩ <;> rcases b with _ | _ | s₂ | ⟨s₂, m₂, e₂, h₂⟩
  any_goals contradiction
  · rw [valueOf_zero, zero_div]
    exact rounds_zero _
  · obtain ⟨n, t, quotient, precise, value⟩ := exists_div_eq h₁ h₂ s₁ s₂ e₁ e₂
    replace value : (n / m₂ * 2 ^ t : ℝ) = m₁ * 2 ^ e₁ / (m₂ * 2 ^ e₂) := by
      have := congrArg (Rat.cast : ℚ → ℝ) value
      push_cast at this
      exact this
    have hn : 0 < n := by
      refine Nat.pos_of_ne_zero fun zero => ?_
      rw [zero, Nat.cast_zero, zero_div, zero_mul] at value
      exact (div_pos (magnitude_pos h₁ e₁) (magnitude_pos h₂ e₂)).ne value
    have signs : ((s₁ / s₂).apply 1 * (n / m₂ * 2 ^ t) : ℝ) =
        valueOf (.finite s₁ m₁ e₁ h₁) / valueOf (.finite s₂ m₂ e₂ h₂) := by
      have apply : (s₁ / s₂).apply 1 = s₁.apply 1 * s₂.apply 1 := by
        cases s₁ <;> cases s₂ <;> rfl
      rw [value, apply]
      cases s₁ <;> cases s₂ <;> simp [Sign.apply, neg_div, div_neg]
    rw [quotient, ← signs]
    exact rounds_roundWithAccuracy hn h₂ (s₁ / s₂) precise

end

theorem sub_eq_add (a b : UnpackedFloat) :
    UnpackedFloat.sub Format.binary64 a b = UnpackedFloat.add Format.binary64 a b.neg := by
  rcases a with s₁ | _ | s₁ | ⟨s₁, m₁, e₁, h₁⟩ <;> rcases b with s₂ | _ | s₂ | ⟨s₂, m₂, e₂, h₂⟩
  case finite.finite =>
    have apply (k : ℤ) : (-s₂).apply k = -s₂.apply k := by
      cases s₂
      · exact (neg_neg k).symm
      · rfl
    simp only [UnpackedFloat.sub, UnpackedFloat.add, UnpackedFloat.neg, apply]
    rfl
  all_goals rfl

theorem valueOf_neg (a : UnpackedFloat) : valueOf a.neg = -valueOf a := by
  rcases a with _ | _ | s | ⟨_ | _, m, e, hm⟩
  · exact neg_zero.symm
  · exact neg_zero.symm
  · exact neg_zero.symm
  · rw [valueOf_negative, neg_neg]
    exact valueOf_positive
  · rw [valueOf_positive]
    exact valueOf_negative

theorem rounds_sub {a b : UnpackedFloat} (ha : Canonical a) (hb : Canonical b) (fa : a.isFinite)
    (fb : b.isFinite) :
    Rounds (UnpackedFloat.sub Format.binary64 a b) (valueOf a - valueOf b) := by
  rw [sub_eq_add, sub_eq_add_neg, ← valueOf_neg]
  refine rounds_add ha ?_ fa ?_
  · cases b <;> exact hb
  · cases b <;> exact fb

/-- A double whose calculation rounds a number is the double nearest to it. -/
theorem Rounds.nearest {u : UnpackedFloat} {q : ℝ} (h : Rounds u q) :
    (Float.Model.pack u).unpack.isNaN = false ∧
      extendedOf (Float.Model.pack u).unpack = nearest q := by
  have packed := extendedOf_unpack_pack h.canonical h.finite
  rwa [h.value] at packed

section

variable {x y : Float} (hx : x.isFinite) (hy : y.isFinite)

include hx hy

theorem add_of_isFinite :
    (x + y).isNaN = false ∧ extended (x + y) = nearest (realOf x + realOf y) := by
  rw [realOf_eq, realOf_eq]
  exact (rounds_add (canonical_unpack x) (canonical_unpack y) hx hy).nearest

theorem sub_of_isFinite :
    (x - y).isNaN = false ∧ extended (x - y) = nearest (realOf x - realOf y) := by
  rw [realOf_eq, realOf_eq]
  exact (rounds_sub (canonical_unpack x) (canonical_unpack y) hx hy).nearest

theorem mul_of_isFinite :
    (x * y).isNaN = false ∧ extended (x * y) = nearest (realOf x * realOf y) := by
  rw [realOf_eq, realOf_eq]
  exact (rounds_mul (canonical_unpack x) (canonical_unpack y) hx hy).nearest

theorem div_of_isFinite (h : realOf y ≠ 0) :
    (x / y).isNaN = false ∧ extended (x / y) = nearest (realOf x / realOf y) := by
  rw [realOf_eq] at h
  rw [realOf_eq, realOf_eq]
  exact (rounds_div (canonical_unpack x) (canonical_unpack y) hx hy h).nearest

end

/-- What does not overflow is finite and stands for the rounded number. -/
theorem realOf_of_nearest {z : Float} {q : ℝ} (hz : z.isNaN = false ∧ extended z = nearest q)
    (small : |rounded q| < bound) : z.isFinite ∧ realOf z = rounded q := by
  obtain ⟨defined, value⟩ := hz
  rw [Double.nearest, overflow_of_abs_lt small] at value
  have finite : z.isFinite := by
    rw [isFinite_iff defined, value]
    exact ⟨EReal.coe_ne_top _, EReal.coe_ne_bot _⟩
  rw [extended_of_isFinite finite] at value
  exact ⟨finite, EReal.coe_injective value⟩

theorem rounded_realOf (x : Float) : rounded (realOf x) = realOf x := by
  rw [realOf_eq]
  obtain finite | infinite := Bool.eq_false_or_eq_true x.toModel.unpack.isFinite
  · exact ((canonical_unpack x).rounds finite).value.symm
  · have zero : valueOf x.toModel.unpack = 0 := by
      cases h : x.toModel.unpack <;> rw [h] at infinite <;> first | rfl | contradiction
    rw [zero, rounded_zero]

/-- The difference of two doubles is not rounded to zero. -/
theorem rounded_sub_pos {x y : Float} (h : realOf x < realOf y) :
    0 < rounded (realOf y - realOf x) := by
  obtain ⟨k, hk⟩ := exists_multiple x
  obtain ⟨l, hl⟩ := exists_multiple y
  have step := zpow_pos_two (-1074)
  rw [hk, hl] at h ⊢
  have next : (1 : ℝ) ≤ l - k := by
    have : k < l := by exact_mod_cast lt_of_mul_lt_mul_right h step.le
    have : k + 1 ≤ l := this
    have : (k : ℝ) + 1 ≤ l := by exact_mod_cast this
    linarith
  calc (0 : ℝ) < 2 ^ (-1074 : ℤ) := step
    _ = rounded (2 ^ (-1074 : ℤ)) := (rounded_zpow le_rfl).symm
    _ ≤ rounded (l * 2 ^ (-1074 : ℤ) - k * 2 ^ (-1074 : ℤ)) := rounded_mono (by
        rw [← sub_mul]
        exact le_mul_of_one_le_left step.le next)

/-! ## Infinite and undefined doubles -/

theorem unpack_pack_of_not_isFinite {u : UnpackedFloat} (h : u.isFinite = false) :
    (Float.Model.pack u).unpack = u := by
  cases u with
  | infinity s => exact unpack_pack_infinity s
  | notANumber => rfl
  | zero | finite => cases h

theorem extendedOf_eq_top {u : UnpackedFloat} : extendedOf u = ⊤ ↔ u = .infinity .positive := by
  rcases u with ⟨_ | _⟩ | _ | _ | _ <;> simp [extendedOf]

theorem extendedOf_eq_bot {u : UnpackedFloat} : extendedOf u = ⊥ ↔ u = .infinity .negative := by
  rcases u with ⟨_ | _⟩ | _ | _ | _ <;> simp [extendedOf]

theorem Rounds.isNaN {u : UnpackedFloat} {q : ℝ} (h : Rounds u q) : u.isNaN = false := by
  cases u with
  | notANumber => cases h.finite
  | infinity | zero | finite => rfl

theorem isNaN_unpack_pack {u : UnpackedFloat} (h : Canonical u) :
    (Float.Model.pack u).unpack.isNaN = u.isNaN := by
  by_cases finite : u.isFinite
  · rw [(extendedOf_unpack_pack h finite).1]
    cases u <;> first | rfl | cases finite
  · rw [unpack_pack_of_not_isFinite (Bool.eq_false_iff.2 finite)]

section

variable {a b : UnpackedFloat}

theorem add_of_not_isFinite (h : ¬ (a.isFinite ∧ b.isFinite)) :
    (UnpackedFloat.add Format.binary64 a b).isFinite = false := by
  rcases a with ⟨_ | _⟩ | _ | _ | _ <;> rcases b with ⟨_ | _⟩ | _ | _ | _ <;>
    first | exact absurd ⟨rfl, rfl⟩ h | rfl

theorem canonical_add (ha : Canonical a) (hb : Canonical b) :
    Canonical (UnpackedFloat.add Format.binary64 a b) := by
  by_cases finite : a.isFinite ∧ b.isFinite
  · exact (rounds_add ha hb finite.1 finite.2).canonical
  · have := add_of_not_isFinite finite
    cases h : UnpackedFloat.add Format.binary64 a b with
    | finite => rw [h] at this; cases this
    | infinity | notANumber | zero => trivial

theorem isNaN_add (ha : Canonical a) (hb : Canonical b) :
    (UnpackedFloat.add Format.binary64 a b).isNaN = true ↔ a.isNaN = true ∨ b.isNaN = true ∨
      extendedOf a = ⊤ ∧ extendedOf b = ⊥ ∨ extendedOf a = ⊥ ∧ extendedOf b = ⊤ := by
  by_cases finite : a.isFinite ∧ b.isFinite
  · rw [(rounds_add ha hb finite.1 finite.2).isNaN, extendedOf_of_isFinite finite.1]
    rcases a with _ | _ | _ | _ <;> rcases b with _ | _ | _ | _ <;>
      simp [UnpackedFloat.isNaN, UnpackedFloat.isFinite] at finite ⊢
  · rcases a with ⟨_ | _⟩ | _ | _ | _ <;> rcases b with ⟨_ | _⟩ | _ | _ | _ <;>
      first
      | exact absurd ⟨rfl, rfl⟩ finite
      | simp [UnpackedFloat.add, UnpackedFloat.isNaN, extendedOf_eq_top, extendedOf_eq_bot]

theorem canonical_neg (h : Canonical b) : Canonical b.neg := by cases b <;> exact h

theorem isNaN_neg : b.neg.isNaN = b.isNaN := by cases b <;> rfl

theorem extendedOf_neg_eq_bot : extendedOf b.neg = ⊥ ↔ extendedOf b = ⊤ := by
  rw [extendedOf_eq_bot, extendedOf_eq_top]
  rcases b with ⟨_ | _⟩ | _ | _ | _ <;> simp [UnpackedFloat.neg]
  rfl

theorem extendedOf_neg_eq_top : extendedOf b.neg = ⊤ ↔ extendedOf b = ⊥ := by
  rw [extendedOf_eq_bot, extendedOf_eq_top]
  rcases b with ⟨_ | _⟩ | _ | _ | _ <;> simp [UnpackedFloat.neg]
  rfl

end

section

variable {x y : Float}

/-- A sum is undefined only for opposite infinities and undefined summands. -/
theorem isNaN_add_iff : (x + y).isNaN = true ↔ x.isNaN = true ∨ y.isNaN = true ∨
    extended x = ⊤ ∧ extended y = ⊥ ∨ extended x = ⊥ ∧ extended y = ⊤ := by
  have hx := canonical_unpack x
  have hy := canonical_unpack y
  have packed := isNaN_unpack_pack (canonical_add hx hy)
  exact (Bool.eq_iff_iff.1 packed).trans (isNaN_add hx hy)

/-- A difference is undefined only for equal infinities and undefined operands. -/
theorem isNaN_sub_iff : (x - y).isNaN = true ↔ x.isNaN = true ∨ y.isNaN = true ∨
    extended x = ⊤ ∧ extended y = ⊤ ∨ extended x = ⊥ ∧ extended y = ⊥ := by
  have hx := canonical_unpack x
  have hy := canonical_neg (canonical_unpack y)
  have packed := isNaN_unpack_pack (canonical_add hx hy)
  have operands := isNaN_add hx hy
  rw [isNaN_neg, extendedOf_neg_eq_bot, extendedOf_neg_eq_top] at operands
  rw [← sub_eq_add] at packed operands
  exact (Bool.eq_iff_iff.1 packed).trans operands

theorem unpack_of_isNaN (h : x.isNaN = true) : x.toModel.unpack = .notANumber := by
  change x.toModel.unpack.isNaN = true at h
  cases hx : x.toModel.unpack with
  | notANumber => rfl
  | infinity | zero | finite => rw [hx] at h; cases h

theorem unpack_of_pos (hy : 0 < realOf y) :
    ∃ m e hm, y.toModel.unpack = .finite .positive m e hm := by
  rw [realOf_eq] at hy
  rcases h : y.toModel.unpack with _ | _ | _ | ⟨_ | _, m, e, hm⟩ <;> rw [h] at hy
  any_goals exact absurd hy (lt_irrefl 0)
  · rw [valueOf_negative] at hy
    exact absurd hy (not_lt.2 (neg_nonpos.2 (magnitude_pos hm e).le))
  · exact ⟨m, e, hm, rfl⟩

theorem isNaN_mul_of_isNaN (h : x.isNaN = true) : (x * y).isNaN = true := by
  have undefined : UnpackedFloat.mul Format.binary64 x.toModel.unpack y.toModel.unpack =
      .notANumber := by
    rw [unpack_of_isNaN h]
    cases y.toModel.unpack <;> rfl
  exact congrArg (fun u => (Float.Model.pack u).unpack.isNaN) undefined

/-- An infinite double stays as it is when it is multiplied by a positive one. -/
theorem unpack_mul_of_infinity {s : Sign} (hx : x.toModel.unpack = .infinity s)
    (hy : 0 < realOf y) :
    (x * y).toModel.unpack = .infinity s ∧ (y * x).toModel.unpack = .infinity s := by
  obtain ⟨m, e, hm, hy⟩ := unpack_of_pos hy
  have right : UnpackedFloat.mul Format.binary64 x.toModel.unpack y.toModel.unpack =
      .infinity s := by
    rw [hx, hy]
    cases s <;> rfl
  have left : UnpackedFloat.mul Format.binary64 y.toModel.unpack x.toModel.unpack =
      .infinity s := by
    rw [hx, hy]
    cases s <;> rfl
  rw [← unpack_pack_infinity s]
  exact ⟨congrArg (fun u => (Float.Model.pack u).unpack) right,
    congrArg (fun u => (Float.Model.pack u).unpack) left⟩

end

/-- Sums do not depend on the order of their terms, even where these are not finite. -/
theorem add_commutes (x y : Float) : x + y = y + x := by
  have unpacked (a b : UnpackedFloat) :
      UnpackedFloat.add Format.binary64 a b = UnpackedFloat.add Format.binary64 b a := by
    rcases a with s | _ | s | ⟨s, m, e, hm⟩ <;> rcases b with s' | _ | s' | ⟨s', m', e', hm'⟩
    case finite.finite =>
      rw [UnpackedFloat.add, UnpackedFloat.add, Int.min_comm e' e]
      exact congrArg (UnpackedFloat.normalize Format.binary64 · (min e e') .positive)
        (Int.add_comm _ _)
    case infinity.infinity | zero.zero => cases s <;> cases s' <;> rfl
    all_goals rfl
  exact congrArg (fun u => (⟨pack u⟩ : Float)) (unpacked x.toModel.unpack y.toModel.unpack)

/-! ## Products in order -/

section

variable {t x y : Float} (fx : x.isFinite) (fy : y.isFinite) (pos : 0 < realOf x)
  (order : realOf x ≤ realOf y)

include pos order

theorem mul_infinite {s : Sign} (ht : t.toModel.unpack = .infinity s) :
    t * x ≤ t * y ∧ t * y ≤ t * x := by
  have low := (unpack_mul_of_infinity ht pos).1
  have high := (unpack_mul_of_infinity ht (pos.trans_le order)).1
  have eq : (Float.Model.UnpackedFloat.infinity s).compare (.infinity s) = some .eq := by
    cases s <;> rfl
  constructor
  · rw [le_iff, low, high]
    exact ⟨.eq, eq, rfl⟩
  · rw [le_iff, low, high]
    exact ⟨.eq, eq, rfl⟩

include fx fy

/-- Products with a double that is not negative keep the order of positive doubles. -/
theorem mul_le_mul_of_nonneg (ht : 0.0 ≤ t) : t * x ≤ t * y := by
  obtain finite | ⟨s, infinite⟩ := isFinite_or_eq_infinity (isNaN_of_le ht).2
  · obtain ⟨lowDefined, low⟩ := mul_of_isFinite finite fx
    obtain ⟨highDefined, high⟩ := mul_of_isFinite finite fy
    have nonneg := (le_iff_extended.1 ht).2.2
    rw [extended_of_isFinite (by decide), extended_of_isFinite finite, EReal.coe_le_coe_iff,
      realOf_zero] at nonneg
    rw [le_iff_extended, low, high]
    exact ⟨lowDefined, highDefined, nearest_mono (mul_le_mul_of_nonneg_left order nonneg)⟩
  · exact (mul_infinite pos order infinite).1

/-- Products with a double that is not positive turn the order of positive doubles round. -/
theorem mul_le_mul_of_nonpos (ht : t ≤ 0.0) : t * y ≤ t * x := by
  obtain finite | ⟨s, infinite⟩ := isFinite_or_eq_infinity (isNaN_of_le ht).1
  · obtain ⟨lowDefined, low⟩ := mul_of_isFinite finite fx
    obtain ⟨highDefined, high⟩ := mul_of_isFinite finite fy
    have nonpos := (le_iff_extended.1 ht).2.2
    rw [extended_of_isFinite (by decide : (0.0 : Float).isFinite), extended_of_isFinite finite,
      EReal.coe_le_coe_iff, realOf_zero] at nonpos
    rw [le_iff_extended, low, high]
    exact ⟨highDefined, lowDefined, nearest_mono (mul_le_mul_of_nonpos_left order nonpos)⟩
  · exact (mul_infinite pos order infinite).2

end

end AdaptivePopulation.Double
