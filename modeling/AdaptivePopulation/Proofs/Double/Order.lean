import AdaptivePopulation.Proofs.Double.Rounding
import AdaptivePopulation.Proofs.Unit

/-!
# The order of doubles

A defined double stands for an extended real number, and defined doubles are ordered as these
numbers are.
-/

namespace AdaptivePopulation.Double

open Float.Model Float.Model.UnpackedFloat Decimal

/-! ## What doubles stand for -/

/-- The exponent is the one that the size of the number calls for. -/
def Canonical : UnpackedFloat → Prop
  | .finite _ m e _ => m < 2 ^ 53 ∧ -1074 ≤ e ∧ (e = -1074 ∨ 2 ^ 52 ≤ m)
  | _ => True

/-- The real number that a finite double is; zero for the others. -/
noncomputable def valueOf : UnpackedFloat → ℝ
  | .finite s m e _ => (s.apply m * 2 ^ e : ℚ)
  | _ => 0

/-- The place of a double among the extended reals; zero for one that is not a number. -/
noncomputable def extendedOf : UnpackedFloat → EReal
  | .infinity .positive => ⊤
  | .infinity .negative => ⊥
  | u => valueOf u

/-- The extended real number that a defined double stands for. -/
noncomputable def extended (x : Float) : EReal := extendedOf x.toModel.unpack

theorem realOf_eq (x : Float) : realOf x = valueOf x.toModel.unpack := by
  unfold realOf
  cases x.toModel.unpack <;> simp [valueOf]

/-- The significand and the exponent of a finite double are those of a double. -/
theorem isDouble_of_unpack {x : Float} {s : Sign} {m : ℕ} {e : ℤ} {hm : 0 < m}
    (h : x.toModel.unpack = .finite s m e hm) : IsDouble m e := by
  have lt := significand_lt h
  change UnpackedFloat.unpack Format.binary64 x.toBits.toBitVec = _ at h
  unfold UnpackedFloat.unpack at h
  dsimp only at h
  split_ifs at h with last _ first
  · cases h
    refine ⟨hm, lt, ?_, ?_, .inl ?_⟩ <;> simp [first, Format.exponentBias]
  · cases h
    have notFirst : (@unpackExponent Format.binary64 x.toBits.toBitVec).toNat ≠ 0 := fun h =>
      first (BitVec.eq_of_toNat_eq h)
    have notLast : (@unpackExponent Format.binary64 x.toBits.toBitVec).toNat ≠ 2047 := fun h =>
      last (BitVec.eq_of_toNat_eq h)
    have bits : (@unpackExponent Format.binary64 x.toBits.toBitVec).toNat < 2048 := BitVec.isLt _
    have whole := toNat_append 1#1 (@unpackMantissa Format.binary64 x.toBits.toBitVec)
    refine ⟨hm, lt, ?_, ?_, .inr (by rw [whole]; simp)⟩ <;>
      simp only [Format.exponentBias] <;> omega

theorem canonical_unpack (x : Float) : Canonical x.toModel.unpack := by
  cases h : x.toModel.unpack with
  | finite s m e hm =>
    have double := isDouble_of_unpack h
    exact ⟨double.lt, double.least, double.normal⟩
  | _ => trivial

/-! ## Order -/

theorem magnitude_lt {m₁ m₂ : ℕ} {e₁ e₂ : ℤ} (h₁ : m₁ < 2 ^ 53) (h₂ : 2 ^ 52 ≤ m₂) (h : e₁ < e₂) :
    (m₁ * 2 ^ e₁ : ℝ) < m₂ * 2 ^ e₂ :=
  calc (m₁ * 2 ^ e₁ : ℝ) < 2 ^ 53 * 2 ^ e₁ :=
        mul_lt_mul_of_pos_right (by exact_mod_cast h₁) (zpow_pos_two e₁)
    _ = 2 ^ 52 * 2 ^ (1 + e₁) := by
        rw [zpow_one_add₀ two_ne_zero]
        ring
    _ ≤ 2 ^ 52 * 2 ^ e₂ :=
        mul_le_mul_of_nonneg_left (zpow_le_zpow_right₀ one_le_two (by omega)) (by positivity)
    _ ≤ m₂ * 2 ^ e₂ := mul_le_mul_of_nonneg_right (by exact_mod_cast h₂) (zpow_pos_two e₂).le

theorem compare_magnitudes {s₁ s₂ : Sign} {m₁ m₂ : ℕ} {e₁ e₂ : ℤ} {p₁ : 0 < m₁} {p₂ : 0 < m₂}
    (h₁ : Canonical (.finite s₁ m₁ e₁ p₁)) (h₂ : Canonical (.finite s₂ m₂ e₂ p₂)) :
    (compare e₁ e₂).then (compare m₁ m₂) = compare (m₁ * 2 ^ e₁ : ℝ) (m₂ * 2 ^ e₂) := by
  obtain ⟨lt₁, least₁, normal₁⟩ := h₁
  obtain ⟨lt₂, least₂, normal₂⟩ := h₂
  obtain h | rfl | h := lt_trichotomy e₁ e₂
  · rw [compare_lt_iff_lt.2 h,
      compare_lt_iff_lt.2 (magnitude_lt lt₁ (normal₂.resolve_left (by omega)) h)]
    rfl
  · rw [compare_eq_iff_eq.2 rfl]
    obtain hm | rfl | hm := lt_trichotomy m₁ m₂
    · rw [compare_lt_iff_lt.2 hm, eq_comm]
      exact compare_lt_iff_lt.2 (mul_lt_mul_of_pos_right (by exact_mod_cast hm) (zpow_pos_two e₁))
    · rw [compare_eq_iff_eq.2 rfl, compare_eq_iff_eq.2 rfl]
      rfl
    · rw [compare_gt_iff_gt.2 hm, eq_comm]
      exact compare_gt_iff_gt.2 (mul_lt_mul_of_pos_right (by exact_mod_cast hm) (zpow_pos_two e₁))
  · rw [compare_gt_iff_gt.2 h,
      compare_gt_iff_gt.2 (magnitude_lt lt₂ (normal₁.resolve_left (by omega)) h)]
    rfl

theorem compare_coe (v w : ℝ) : compare (v : EReal) (w : EReal) = compare v w := by
  rw [← cmp_eq_compare, ← cmp_eq_compare]
  exact EReal.coe_strictMono.cmp_map_eq v w

theorem compare_neg (v w : ℝ) : compare (-v) (-w) = (compare v w).swap := by
  obtain h | rfl | h := lt_trichotomy v w
  · rw [compare_lt_iff_lt.2 h, compare_gt_iff_gt.2 (neg_lt_neg h)]
    rfl
  · rw [compare_eq_iff_eq.2 rfl, compare_eq_iff_eq.2 rfl]
    rfl
  · rw [compare_gt_iff_gt.2 h, compare_lt_iff_lt.2 (neg_lt_neg h)]
    rfl

section

variable {s : Sign} {m : ℕ} {e : ℤ} {hm : 0 < m}

@[simp] theorem valueOf_zero : valueOf (.zero s) = 0 := rfl

@[simp] theorem valueOf_positive : valueOf (.finite .positive m e hm) = m * 2 ^ e := by
  simp [valueOf, Sign.apply]

@[simp] theorem valueOf_negative : valueOf (.finite .negative m e hm) = -(m * 2 ^ e) := by
  simp [valueOf, Sign.apply]

theorem magnitude_pos (hm : 0 < m) (e : ℤ) : (0 : ℝ) < m * 2 ^ e :=
  mul_pos (by exact_mod_cast hm) (zpow_pos_two e)

end

theorem compare_of_isFinite {a b : UnpackedFloat} (ha : Canonical a) (hb : Canonical b)
    (fa : a.isFinite) (fb : b.isFinite) : a.compare b = some (compare (valueOf a) (valueOf b)) := by
  have lt {v w : ℝ} (h : v < w) : some Ordering.lt = some (compare v w) :=
    congrArg some (compare_lt_iff_lt.2 h).symm
  have gt {v w : ℝ} (h : w < v) : some Ordering.gt = some (compare v w) :=
    congrArg some (compare_gt_iff_gt.2 h).symm
  rcases a with _ | _ | s | ⟨_ | _, m, e, hm⟩ <;> rcases b with _ | _ | s' | ⟨_ | _, m', e', hm'⟩
  any_goals contradiction
  all_goals try simp only [valueOf_negative, valueOf_positive]
  · exact congrArg some (compare_eq_iff_eq.2 rfl).symm
  · exact gt (neg_neg_of_pos (magnitude_pos hm' e'))
  · exact lt (magnitude_pos hm' e')
  · exact lt (neg_neg_of_pos (magnitude_pos hm e))
  · rw [compare_neg, ← compare_magnitudes ha hb]
    rfl
  · exact lt ((neg_neg_of_pos (magnitude_pos hm e)).trans (magnitude_pos hm' e'))
  · exact gt (magnitude_pos hm e)
  · exact gt ((neg_neg_of_pos (magnitude_pos hm' e')).trans (magnitude_pos hm e))
  · rw [← compare_magnitudes ha hb]
    rfl

theorem extendedOf_of_isFinite {a : UnpackedFloat} (h : a.isFinite) : extendedOf a = valueOf a := by
  cases a with
  | infinity | notANumber => cases h
  | zero | finite => rfl

theorem isFinite_or_eq_infinity {a : UnpackedFloat} (h : a.isNaN = false) :
    a.isFinite ∨ ∃ s, a = .infinity s := by
  cases a with
  | notANumber => cases h
  | infinity s => exact .inr ⟨s, rfl⟩
  | zero | finite => exact .inl rfl

/-- Defined doubles are compared as the numbers that they stand for. -/
theorem compare_eq {a b : UnpackedFloat} (ha : Canonical a) (hb : Canonical b)
    (na : a.isNaN = false) (nb : b.isNaN = false) :
    a.compare b = some (compare (extendedOf a) (extendedOf b)) := by
  have lt {v w : EReal} (h : v < w) : some Ordering.lt = some (compare v w) :=
    congrArg some (compare_lt_iff_lt.2 h).symm
  have gt {v w : EReal} (h : w < v) : some Ordering.gt = some (compare v w) :=
    congrArg some (compare_gt_iff_gt.2 h).symm
  have eq (v : EReal) : some Ordering.eq = some (compare v v) :=
    congrArg some (compare_eq_iff_eq.2 rfl).symm
  obtain fa | ⟨s, rfl⟩ := isFinite_or_eq_infinity na <;>
    obtain fb | ⟨s', rfl⟩ := isFinite_or_eq_infinity nb
  · rw [compare_of_isFinite ha hb fa fb, extendedOf_of_isFinite fa, extendedOf_of_isFinite fb,
      compare_coe]
  · rw [extendedOf_of_isFinite fa]
    cases s'
    · refine Eq.trans ?_ (gt (EReal.bot_lt_coe _))
      rcases a with _ | _ | _ | ⟨_ | _⟩ <;> first | contradiction | rfl
    · refine Eq.trans ?_ (lt (EReal.coe_lt_top _))
      rcases a with _ | _ | _ | ⟨_ | _⟩ <;> first | contradiction | rfl
  · rw [extendedOf_of_isFinite fb]
    cases s
    · refine Eq.trans ?_ (lt (EReal.bot_lt_coe _))
      cases b <;> first | contradiction | rfl
    · refine Eq.trans ?_ (gt (EReal.coe_lt_top _))
      cases b <;> first | contradiction | rfl
  · cases s <;> cases s'
    · exact eq ⊥
    · exact lt bot_lt_top
    · exact gt bot_lt_top
    · exact eq ⊤

theorem extended_compare {x y : Float} (hx : x.isNaN = false) (hy : y.isNaN = false) :
    x.toModel.unpack.compare y.toModel.unpack = some (compare (extended x) (extended y)) :=
  compare_eq (canonical_unpack x) (canonical_unpack y) hx hy

theorem isNaN_of_lt {x y : Float} (h : x < y) : x.isNaN = false ∧ y.isNaN = false :=
  isNaN_of_le (le_iff.2 ⟨.lt, lt_iff.1 h, rfl⟩)

theorem lt_iff_extended {x y : Float} :
    x < y ↔ x.isNaN = false ∧ y.isNaN = false ∧ extended x < extended y := by
  constructor
  · intro h
    obtain ⟨hx, hy⟩ := isNaN_of_lt h
    rw [lt_iff, extended_compare hx hy] at h
    exact ⟨hx, hy, compare_lt_iff_lt.1 (Option.some.inj h)⟩
  · rintro ⟨hx, hy, h⟩
    rw [lt_iff, extended_compare hx hy, compare_lt_iff_lt.2 h]

theorem le_iff_extended {x y : Float} :
    x ≤ y ↔ x.isNaN = false ∧ y.isNaN = false ∧ extended x ≤ extended y := by
  constructor
  · intro h
    obtain ⟨hx, hy⟩ := isNaN_of_le h
    obtain ⟨o, ho, le⟩ := le_iff.1 h
    rw [extended_compare hx hy] at ho
    obtain rfl := Option.some.inj ho
    exact ⟨hx, hy, Ordering.isLE_iff_ne_gt.1 le |> compare_le_iff_le.1⟩
  · rintro ⟨hx, hy, h⟩
    exact le_iff.2 ⟨_, extended_compare hx hy, Ordering.isLE_iff_ne_gt.2 (compare_le_iff_le.2 h)⟩

section

variable {x y z : Float}

theorem lt_trans (hxy : x < y) (hyz : y < z) : x < z := by
  rw [lt_iff_extended] at hxy hyz ⊢
  exact ⟨hxy.1, hyz.2.1, hxy.2.2.trans hyz.2.2⟩

theorem lt_of_lt_of_le (hxy : x < y) (hyz : y ≤ z) : x < z := by
  rw [lt_iff_extended] at hxy ⊢
  rw [le_iff_extended] at hyz
  exact ⟨hxy.1, hyz.2.1, hxy.2.2.trans_le hyz.2.2⟩

theorem lt_of_le_of_lt (hxy : x ≤ y) (hyz : y < z) : x < z := by
  rw [lt_iff_extended] at hyz ⊢
  rw [le_iff_extended] at hxy
  exact ⟨hxy.1, hyz.2.1, hxy.2.2.trans_lt hyz.2.2⟩

theorem le_trans (hxy : x ≤ y) (hyz : y ≤ z) : x ≤ z := by
  rw [le_iff_extended] at hxy hyz ⊢
  exact ⟨hxy.1, hyz.2.1, hxy.2.2.trans hyz.2.2⟩

theorem not_lt_of_le (h : x ≤ y) : ¬ y < x := by
  rw [lt_iff_extended]
  rw [le_iff_extended] at h
  exact fun below => not_lt.2 h.2.2 below.2.2

theorem le_of_lt (h : x < y) : x ≤ y := by
  rw [lt_iff_extended] at h
  exact le_iff_extended.2 ⟨h.1, h.2.1, h.2.2.le⟩

/-- Doubles are in order if both are defined and the second is not below the first. -/
theorem le_iff_not_lt : x ≤ y ↔ x.isNaN = false ∧ y.isNaN = false ∧ ¬ y < x :=
  ⟨fun h => ⟨(isNaN_of_le h).1, (isNaN_of_le h).2, not_lt_of_le h⟩,
    fun h => le_of_not_lt h.2.1 h.1 h.2.2⟩

end

/-! ## Finite doubles -/

theorem extended_of_isFinite {x : Float} (h : x.isFinite) : extended x = realOf x := by
  rw [realOf_eq]
  exact extendedOf_of_isFinite h

theorem isFinite_iff {x : Float} (hx : x.isNaN = false) :
    x.isFinite ↔ extended x ≠ ⊤ ∧ extended x ≠ ⊥ := by
  constructor
  · intro finite
    rw [extended_of_isFinite finite]
    exact ⟨EReal.coe_ne_top _, EReal.coe_ne_bot _⟩
  · rintro ⟨top, bot⟩
    obtain finite | ⟨s, infinite⟩ := isFinite_or_eq_infinity hx
    · exact finite
    · cases s with
      | negative => exact absurd (congrArg extendedOf infinite) bot
      | positive => exact absurd (congrArg extendedOf infinite) top

theorem abs_valueOf {s : Sign} {m : ℕ} {e : ℤ} {hm : 0 < m} :
    |valueOf (.finite s m e hm)| = m * 2 ^ e := by
  have pos := magnitude_pos hm e
  cases s <;> simp [abs_of_pos pos]

theorem magnitude_lt_bound {m : ℕ} {e : ℤ} (lt : m < 2 ^ 53) (small : e ≤ 971) :
    (m * 2 ^ e : ℝ) < bound :=
  calc (m * 2 ^ e : ℝ) < 2 ^ 53 * 2 ^ e :=
        mul_lt_mul_of_pos_right (by exact_mod_cast lt) (zpow_pos_two e)
    _ = 2 ^ ((53 : ℕ) + e) := pow_mul_zpow 53 e
    _ ≤ bound := bound_eq ▸ zpow_le_zpow_right₀ one_le_two (by omega)

theorem abs_realOf_lt (x : Float) : |realOf x| < bound := by
  rw [realOf_eq]
  cases h : x.toModel.unpack with
  | finite s m e hm =>
    have double := isDouble_of_unpack h
    rw [abs_valueOf]
    exact magnitude_lt_bound double.lt double.greatest
  | infinity | notANumber | zero => simpa [valueOf] using bound_pos

/-- The number of a double is a multiple of the least positive one. -/
theorem exists_multiple (x : Float) : ∃ k : ℤ, realOf x = k * 2 ^ (-1074 : ℤ) := by
  rw [realOf_eq]
  cases h : x.toModel.unpack with
  | finite s m e hm =>
    have least := (isDouble_of_unpack h).least
    refine ⟨s.apply m * 2 ^ (e + 1074).toNat, ?_⟩
    have shift : (2 : ℝ) ^ (e + 1074).toNat * 2 ^ (-1074 : ℤ) = 2 ^ e := by
      rw [pow_mul_zpow]
      congr 1
      omega
    push_cast
    rw [mul_assoc, shift]
    simp [valueOf]
  | infinity | notANumber | zero => exact ⟨0, by simp [valueOf]⟩

theorem realOf_zero : realOf 0.0 = 0 := rfl

theorem realOf_one : realOf 1.0 = 1 := by
  have one : (1.0 : Float).toModel.unpack = .finite .positive (2 ^ 52) (-52) (by decide) := rfl
  rw [realOf_eq, one, valueOf_positive]
  norm_num

/-- A double between zero and one is finite. -/
theorem isFinite_of_between {x : Float} (pos : 0.0 < x) (lt : x < 1.0) :
    x.isFinite ∧ 0 < realOf x ∧ realOf x < 1 := by
  obtain ⟨-, defined, pos⟩ := lt_iff_extended.1 pos
  obtain ⟨-, -, lt⟩ := lt_iff_extended.1 lt
  rw [extended_of_isFinite (by decide : (0.0 : Float).isFinite), realOf_zero] at pos
  rw [extended_of_isFinite (by decide : (1.0 : Float).isFinite), realOf_one] at lt
  have finite : x.isFinite :=
    (isFinite_iff defined).2
      ⟨(lt.trans (EReal.coe_lt_top 1)).ne, ((EReal.bot_lt_coe 0).trans pos).ne'⟩
  rw [extended_of_isFinite finite, EReal.coe_lt_coe_iff] at pos lt
  exact ⟨finite, pos, lt⟩

end AdaptivePopulation.Double
