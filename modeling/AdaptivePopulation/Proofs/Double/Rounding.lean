import Mathlib.Data.EReal.Operations
import Mathlib.Data.Int.Log

/-!
# Rounding of real numbers

The double nearest to a real number: the number is scaled to its last place, the nearest whole
number is taken, of two nearest ones the even one, and what is too large becomes infinite.  Rounding
keeps the order, leaves doubles as they are and commutes with the change of sign.
-/

namespace AdaptivePopulation.Double

/-! ## Nearest whole numbers -/

/-- The whole number is nearest to the number, and even if there are two nearest ones. -/
structure IsNearest (q : ℝ) (k : ℤ) : Prop where
  low : k - 1 / 2 < q ∨ k % 2 = 0 ∧ k - 1 / 2 = q
  high : q < k + 1 / 2 ∨ k % 2 = 0 ∧ q = k + 1 / 2

/-- The whole number nearest to a number, the even one of two. -/
noncomputable def nearestEven (q : ℝ) : ℤ :=
  if Int.fract q < 1 - Int.fract q then ⌊q⌋
  else if 1 - Int.fract q < Int.fract q then ⌊q⌋ + 1
  else ⌊q⌋ + ⌊q⌋ % 2

variable {q r : ℝ} {k l : ℤ}

theorem IsNearest.le (h : IsNearest q k) : k - 1 / 2 ≤ q ∧ q ≤ k + 1 / 2 :=
  ⟨h.low.elim le_of_lt fun h => h.2.le, h.high.elim le_of_lt fun h => h.2.le⟩

theorem isNearest_nearestEven (q : ℝ) : IsNearest q (nearestEven q) := by
  have split := Int.floor_add_fract q
  have pos := Int.fract_nonneg q
  have lt := Int.fract_lt_one q
  unfold nearestEven
  split_ifs with below above
  · exact ⟨.inl (by linarith), .inl (by linarith)⟩
  · exact ⟨.inl (by push_cast; linarith), .inl (by push_cast; linarith)⟩
  · obtain even | odd := Int.emod_two_eq_zero_or_one ⌊q⌋
    · rw [even, add_zero]
      exact ⟨.inl (by linarith), .inr ⟨even, by linarith⟩⟩
    · rw [odd]
      exact ⟨.inr ⟨by omega, by push_cast; linarith⟩, .inl (by push_cast; linarith)⟩

/-- Of two whole numbers that are nearest to numbers in order, the first is not the larger one. -/
theorem IsNearest.mono (hk : IsNearest q k) (hl : IsNearest r l) (h : q ≤ r) : k ≤ l := by
  by_contra lt
  have next : (l : ℝ) + 1 ≤ k := by exact_mod_cast not_le.1 lt
  -- the numbers meet halfway between the two, which would then both be even
  obtain low | ⟨even, low⟩ := hk.low
  · linarith [hl.le.2]
  · obtain high | ⟨even', high⟩ := hl.high
    · linarith
    · have : (k : ℝ) = l + 1 := by linarith
      have : k = l + 1 := by exact_mod_cast this
      omega

theorem IsNearest.unique (hk : IsNearest q k) (hl : IsNearest q l) : k = l :=
  le_antisymm (hk.mono hl le_rfl) (hl.mono hk le_rfl)

theorem IsNearest.eq (h : IsNearest q k) : nearestEven q = k :=
  (isNearest_nearestEven q).unique h

theorem isNearest_intCast (k : ℤ) : IsNearest k k := ⟨.inl (by linarith), .inl (by linarith)⟩

@[simp] theorem nearestEven_intCast (k : ℤ) : nearestEven k = k := (isNearest_intCast k).eq

theorem nearestEven_mono (h : q ≤ r) : nearestEven q ≤ nearestEven r :=
  (isNearest_nearestEven q).mono (isNearest_nearestEven r) h

theorem nearestEven_neg (q : ℝ) : nearestEven (-q) = -nearestEven q := by
  have h := isNearest_nearestEven q
  refine IsNearest.eq ⟨?_, ?_⟩
  · push_cast
    exact h.high.imp (fun h => by linarith) fun h => ⟨by omega, by linarith [h.2]⟩
  · push_cast
    exact h.low.imp (fun h => by linarith) fun h => ⟨by omega, by linarith [h.2]⟩

/-- What is at most halfway above an even number is not rounded past it. -/
theorem nearestEven_le_of_even (even : k % 2 = 0) (h : q ≤ k + 1 / 2) : nearestEven q ≤ k := by
  have nearest : IsNearest ((k : ℝ) + 1 / 2) k := ⟨.inl (by linarith), .inr ⟨even, rfl⟩⟩
  exact (isNearest_nearestEven q).mono nearest h

/-! ## Rounding to a place -/

/-- The exponent of the last place of the doubles next to a number. -/
noncomputable def place (q : ℝ) : ℤ := max (Int.log 2 |q| - 52) (-1074)

/-- The number rounded to its last place. -/
noncomputable def rounded (q : ℝ) : ℝ :=
  nearestEven (q / (2 ^ place q : ℚ)) * (2 ^ place q : ℚ)

theorem rounded_eq (q : ℝ) : rounded q = nearestEven (q / 2 ^ place q) * 2 ^ place q := by
  simp [rounded]

theorem zpow_pos_two (k : ℤ) : (0 : ℝ) < 2 ^ k := zpow_pos two_pos k

theorem place_neg (q : ℝ) : place (-q) = place q := by rw [place, place, abs_neg]

@[simp] theorem rounded_neg (q : ℝ) : rounded (-q) = -rounded q := by
  rw [rounded_eq, rounded_eq, place_neg, neg_div, nearestEven_neg, Int.cast_neg, neg_mul]

@[simp] theorem rounded_zero : rounded 0 = 0 := by
  have := nearestEven_intCast 0
  rw [Int.cast_zero] at this
  rw [rounded_eq, zero_div, this, Int.cast_zero, zero_mul]

theorem le_place (q : ℝ) : -1074 ≤ place q := le_max_right _ _

theorem pow_mul_zpow (j : ℕ) (k : ℤ) : (2 : ℝ) ^ j * 2 ^ k = 2 ^ (j + k) := by
  rw [zpow_add₀ two_ne_zero, zpow_natCast]

theorem zpow_add_place (j : ℕ) (k : ℤ) : (2 : ℝ) ^ (j + k) = ((2 ^ j : ℤ) : ℝ) * 2 ^ k := by
  rw [← pow_mul_zpow]
  norm_cast

/-- A number has at most fifty-three digits before its last place. -/
theorem abs_lt_of_place (q : ℝ) : |q| < ((2 ^ 53 : ℤ) : ℝ) * 2 ^ place q := by
  have above : |q| < 2 ^ (Int.log 2 |q| + 1) := Int.lt_zpow_succ_log_self one_lt_two |q|
  rw [← zpow_add_place]
  exact above.trans_le (zpow_le_zpow_right₀ one_le_two (by unfold place; omega))

/-- A number has as many digits, unless its last place is the last one of all. -/
theorem le_abs_of_place (hq : q ≠ 0) (h : -1074 < place q) :
    ((2 ^ 52 : ℤ) : ℝ) * 2 ^ place q ≤ |q| := by
  have below : (2 : ℝ) ^ Int.log 2 |q| ≤ |q| := Int.zpow_log_le_self one_lt_two (abs_pos.2 hq)
  have exponent : ((52 : ℕ) : ℤ) + place q = Int.log 2 |q| := by
    unfold place at h ⊢
    omega
  rwa [← zpow_add_place, exponent]

theorem place_mono (hq : 0 < q) (h : q ≤ r) : place q ≤ place r := by
  unfold place
  rw [abs_of_pos hq, abs_of_pos (hq.trans_le h)]
  have := Int.log_mono_right (b := 2) hq h
  omega

theorem div_zpow_mul (q : ℝ) (k : ℤ) : q / 2 ^ k * 2 ^ k = q :=
  div_mul_cancel₀ q (zpow_pos_two k).ne'

/-- A whole number of units below the number is below the nearest one. -/
theorem le_nearestEven_div {e : ℤ} (h : k * 2 ^ e ≤ q) : k ≤ nearestEven (q / 2 ^ e) := by
  rw [← le_div_iff₀ (zpow_pos_two e)] at h
  simpa using nearestEven_mono h

theorem nearestEven_div_le {e : ℤ} (h : q ≤ k * 2 ^ e) : nearestEven (q / 2 ^ e) ≤ k := by
  rw [← div_le_iff₀ (zpow_pos_two e)] at h
  simpa using nearestEven_mono h

theorem le_rounded_of_le (h : k * 2 ^ place q ≤ q) : k * 2 ^ place q ≤ rounded q := by
  rw [rounded_eq]
  exact mul_le_mul_of_nonneg_right (by exact_mod_cast le_nearestEven_div h) (zpow_pos_two _).le

theorem rounded_le_of_le (h : q ≤ k * 2 ^ place q) : rounded q ≤ k * 2 ^ place q := by
  rw [rounded_eq]
  exact mul_le_mul_of_nonneg_right (by exact_mod_cast nearestEven_div_le h) (zpow_pos_two _).le

theorem rounded_nonneg (h : 0 ≤ q) : 0 ≤ rounded q := by
  simpa using le_rounded_of_le (k := 0) (by simpa using h)

/-- Positive numbers in order are rounded in order: within one binade since the nearest whole number
grows, and across binades since neither leaves its own. -/
theorem rounded_mono_of_pos (hq : 0 < q) (h : q ≤ r) : rounded q ≤ rounded r := by
  obtain same | less := (place_mono hq h).eq_or_lt
  · rw [rounded_eq, rounded_eq, same]
    refine mul_le_mul_of_nonneg_right ?_ (zpow_pos_two _).le
    exact_mod_cast nearestEven_mono (div_le_div_of_nonneg_right h (zpow_pos_two _).le)
  · have hr : 0 < r := hq.trans_le h
    have below := (abs_lt_of_place q).le
    have above := le_abs_of_place hr.ne' ((le_place q).trans_lt less)
    rw [abs_of_pos hq] at below
    rw [abs_of_pos hr] at above
    calc rounded q ≤ ((2 ^ 53 : ℤ) : ℝ) * 2 ^ place q := rounded_le_of_le below
      _ = 2 ^ ((53 : ℕ) + place q) := (zpow_add_place 53 _).symm
      _ ≤ 2 ^ ((52 : ℕ) + place r) := zpow_le_zpow_right₀ one_le_two (by omega)
      _ = ((2 ^ 52 : ℤ) : ℝ) * 2 ^ place r := zpow_add_place 52 _
      _ ≤ rounded r := le_rounded_of_le above

theorem rounded_mono : Monotone rounded := by
  intro q r h
  obtain hq | rfl | hq := lt_trichotomy q 0
  · obtain hr | hr := lt_or_ge r 0
    · have := rounded_mono_of_pos (neg_pos.2 hr) (neg_le_neg h)
      rw [rounded_neg, rounded_neg] at this
      exact neg_le_neg_iff.1 this
    · have := rounded_nonneg (neg_nonneg.2 hq.le)
      rw [rounded_neg] at this
      exact (neg_nonneg.1 this).trans (rounded_nonneg hr)
  · rw [rounded_zero]
    exact rounded_nonneg h
  · exact rounded_mono_of_pos hq h

/-- A multiple of its last place is not changed. -/
theorem rounded_eq_self_of_place_le {m e : ℤ} (h : place (m * 2 ^ e) ≤ e) :
    rounded (m * 2 ^ e) = m * 2 ^ e := by
  have places : (m * 2 ^ e : ℝ) / 2 ^ place (m * 2 ^ e) =
      ((m * 2 ^ (e - place (m * 2 ^ e)).toNat : ℤ) : ℝ) := by
    rw [div_eq_iff (zpow_pos_two _).ne', Int.cast_mul, mul_assoc, ← zpow_add_place]
    congr 2
    omega
  rw [rounded_eq, places, nearestEven_intCast, ← places, div_zpow_mul]

/-- Numbers with few enough digits are not changed. -/
theorem rounded_eq_self {m e : ℤ} (hm : |m| < 2 ^ 53) (he : -1074 ≤ e) :
    rounded (m * 2 ^ e) = m * 2 ^ e := by
  by_cases zero : m = 0
  · simp [zero]
  refine rounded_eq_self_of_place_le (max_le ?_ he)
  have abs : |(m * 2 ^ e : ℝ)| = (|m| : ℤ) * 2 ^ e := by
    rw [abs_mul, abs_of_pos (zpow_pos_two e), Int.cast_abs]
  have pos : 0 < |(m * 2 ^ e : ℝ)| := by
    rw [abs]
    exact mul_pos (by exact_mod_cast abs_pos.2 zero) (zpow_pos_two e)
  have lt : |(m * 2 ^ e : ℝ)| < ((2 : ℕ) : ℝ) ^ ((53 : ℕ) + e) := by
    rw [abs, Nat.cast_ofNat, zpow_add_place]
    exact mul_lt_mul_of_pos_right (by exact_mod_cast hm) (zpow_pos_two e)
  have := (Int.lt_zpow_iff_log_lt one_lt_two pos).1 lt
  omega

theorem rounded_zpow {k : ℤ} (hk : -1074 ≤ k) : rounded (2 ^ k) = 2 ^ k := by
  have := rounded_eq_self (m := 1) (by norm_num) hk
  rwa [Int.cast_one, one_mul] at this

/-- What exceeds a power of two by at most half the place above it is rounded to it. -/
theorem rounded_le_zpow {k : ℤ} (hk : -1074 ≤ k) (h : q ≤ 2 ^ (53 + k) + 2 ^ k) :
    rounded q ≤ 2 ^ (53 + k) := by
  have pos := zpow_pos_two k
  obtain below | above := le_or_gt q (2 ^ (53 + k))
  · calc rounded q ≤ rounded (2 ^ (53 + k)) := rounded_mono below
      _ = 2 ^ (53 + k) := rounded_zpow (by omega)
  have hq : 0 < q := (zpow_pos_two _).trans above
  have next : q < ((2 : ℕ) : ℝ) ^ (54 + k) := by
    have : (2 : ℝ) ^ (54 + k) = 2 ^ (53 + k) + 2 ^ (53 + k) := by
      rw [show 54 + k = 1 + (53 + k) by omega, zpow_add₀ two_ne_zero]
      ring
    have : (2 : ℝ) ^ k < 2 ^ (53 + k) := zpow_lt_zpow_right₀ one_lt_two (by omega)
    push_cast
    linarith
  have log : Int.log 2 q = 53 + k := by
    refine le_antisymm ?_ ?_
    · have := (Int.lt_zpow_iff_log_lt one_lt_two hq).1 next
      omega
    · exact (Int.zpow_le_iff_le_log one_lt_two hq).1 (by exact_mod_cast above.le)
  have last : place q = k + 1 := by
    unfold place
    rw [abs_of_pos hq, log]
    omega
  have half : (2 : ℝ) ^ (k + 1) = 2 * 2 ^ k := by rw [add_comm, zpow_one_add₀ two_ne_zero]
  have top : (2 : ℝ) ^ (53 + k) = ((2 ^ 52 : ℤ) : ℝ) * 2 ^ (k + 1) := by
    rw [show 53 + k = (52 : ℕ) + (k + 1) by omega, zpow_add_place]
  have nearest : nearestEven (q / 2 ^ (k + 1)) ≤ 2 ^ 52 := by
    refine nearestEven_le_of_even (by decide) ?_
    rw [div_le_iff₀ (zpow_pos_two _), add_mul, ← top, half]
    linarith
  rw [rounded_eq, last, top]
  exact mul_le_mul_of_nonneg_right (by exact_mod_cast nearest) (zpow_pos_two _).le

/-! ## Overflow -/

/-- The least power of two that is too large for a finite double. -/
noncomputable def bound : ℝ := (2 ^ (1024 : ℤ) : ℚ)

theorem bound_eq : bound = 2 ^ (1024 : ℤ) := by
  rw [bound, Rat.cast_zpow, Rat.cast_ofNat]

theorem bound_pos : 0 < bound := bound_eq ▸ zpow_pos_two 1024

theorem zpow_lt_bound (h : k < 1024) : (2 : ℝ) ^ k < bound :=
  bound_eq ▸ zpow_lt_zpow_right₀ one_lt_two h

/-- A number that is too large for a finite double becomes infinite. -/
noncomputable def overflow (v : ℝ) : EReal :=
  if bound ≤ v then ⊤ else if v ≤ -bound then ⊥ else v

theorem overflow_mono : Monotone overflow := by
  intro v w h
  have pos := bound_pos
  unfold overflow
  split_ifs
  any_goals exact le_top
  any_goals exact bot_le
  any_goals linarith
  exact EReal.coe_le_coe_iff.2 h

theorem overflow_of_abs_lt {v : ℝ} (h : |v| < bound) : overflow v = v := by
  obtain ⟨low, high⟩ := abs_lt.1 h
  rw [overflow, if_neg (not_le.2 high), if_neg (not_le.2 low)]

/-- The double nearest to a number. -/
noncomputable def nearest (q : ℝ) : EReal := overflow (rounded q)

theorem nearest_mono : Monotone nearest := overflow_mono.comp rounded_mono

end AdaptivePopulation.Double
