import Mathlib.Algebra.Group.Nat.Defs
import Mathlib.Tactic.SplitIfs
import AdaptivePopulation.Decimal.Numeral
import AdaptivePopulation.Decimal.Text

/-!
# Written numbers

Whole numbers are told apart by their texts, with or without leading zeros, and no text of a number
contains a bar, which therefore can stand between numbers.
-/

namespace AdaptivePopulation.Decimal

/-! ## Reading back -/

@[simp] theorem natOfDigits_toDigits (n : Nat) : natOfDigits (Nat.toDigits 10 n) = n :=
  Nat.ofDigitChars_ten_toDigits

theorem toDigits_injective : Function.Injective (Nat.toDigits 10) :=
  Function.LeftInverse.injective natOfDigits_toDigits

theorem natOfDigits_replicate_append (k : Nat) (digits : List Char) :
    natOfDigits (List.replicate k '0' ++ digits) = natOfDigits digits := by
  induction k with
  | zero => rfl
  | succ k ih => exact ih

theorem natOfDigits_append (a b : List Char) :
    natOfDigits (a ++ b) = natOfDigits a * 10 ^ b.length + natOfDigits b := by
  show Nat.ofDigitChars 10 (a ++ b) 0 = _
  rw [Nat.ofDigitChars_append, Nat.ofDigitChars_eq_ofDigitChars_zero, Nat.mul_comm]
  rfl

theorem natOfDigits_append_zeros (digits : List Char) (z : Nat) :
    natOfDigits (digits ++ List.replicate z '0') = natOfDigits digits * 10 ^ z := by
  have zeros : natOfDigits (List.replicate z '0') = 0 := by
    rw [← List.append_nil (List.replicate z '0'), natOfDigits_replicate_append]
    rfl
  rw [natOfDigits_append, zeros, List.length_replicate, Nat.add_zero]

@[simp] theorem natOfDigits_padded (width n : Nat) : natOfDigits (padded width n) = n := by
  rw [padded, natOfDigits_replicate_append, natOfDigits_toDigits]

theorem padded_injective (width : Nat) : Function.Injective (padded width) :=
  Function.LeftInverse.injective (natOfDigits_padded width)

/-! ## What texts of numbers do not contain -/

theorem notMem_toDigits {c : Char} (hc : c.isDigit = false) (n : Nat) : c ∉ Nat.toDigits 10 n := by
  intro h
  have := Nat.isDigit_of_mem_toDigits (by decide) (by decide) h
  rw [hc] at this
  contradiction

theorem writeInt_injective : Function.Injective writeInt := by
  intro m n h
  have minus (k : Nat) (l : List Char) : '-' :: l ≠ Nat.toDigits 10 k := fun e =>
    notMem_toDigits rfl k (e ▸ List.mem_cons_self)
  have abs {k l : Nat} (e : Nat.toDigits 10 k = Nat.toDigits 10 l) : k = l := toDigits_injective e
  unfold writeInt at h
  split_ifs at h with hm hn hn
  · have := abs (List.cons.inj h).2
    omega
  · exact absurd h (minus _ _)
  · exact absurd h.symm (minus _ _)
  · have := abs h
    omega

theorem bar_notMem_writeInt (n : Int) : '|' ∉ writeInt n := by
  unfold writeInt
  split_ifs <;> simp [notMem_toDigits]

theorem bar_notMem_shortest (tie : Tie) (i : Interval) : '|' ∉ (shortest tie i).1 := by
  intro h
  rw [shortest, List.mem_reverse] at h
  have := (List.dropWhile_sublist _).subset h
  exact notMem_toDigits rfl _ (List.mem_reverse.1 this)

theorem bar_notMem_positional {digits : List Char} (h : '|' ∉ digits) (k : Int) :
    '|' ∉ positional digits k := by
  have take : '|' ∉ digits.take k.toNat := fun m => h (List.mem_of_mem_take m)
  have drop : '|' ∉ digits.drop k.toNat := fun m => h (List.mem_of_mem_drop m)
  have fraction : '|' ∉ if (digits.drop k.toNat).isEmpty then ['0'] else digits.drop k.toNat := by
    split_ifs
    · decide
    · exact drop
  unfold positional
  split_ifs <;> simp_all

theorem bar_notMem_exponential {f : NumberFormat} (hf : '|' ∉ f.exponentSign.toList)
    {digits : List Char} (h : '|' ∉ digits) (exponent : Int) :
    '|' ∉ exponential f digits exponent := by
  have take : '|' ∉ digits.take 1 := fun m => h (List.mem_of_mem_take m)
  have drop : '|' ∉ digits.drop 1 := fun m => h (List.mem_of_mem_drop m)
  unfold exponential
  split_ifs <;> simp_all [notMem_toDigits]

theorem bar_notMem_magnitudeText {f : NumberFormat} (hf : '|' ∉ f.exponentSign.toList)
    (bits : Nat) : '|' ∉ magnitudeText f bits := by
  unfold magnitudeText
  dsimp only
  split_ifs
  · decide
  · exact bar_notMem_positional (bar_notMem_shortest _ _) _
  · exact bar_notMem_exponential hf (bar_notMem_shortest _ _) _

/-- The text of a double in reports contains no bar. -/
theorem bar_notMem_report (x : Float) : '|' ∉ NumberFormat.report.write x := by
  have report_sign : '|' ∉ NumberFormat.report.exponentSign.toList := by decide
  unfold NumberFormat.write
  dsimp only
  split_ifs
  any_goals decide
  · have := bar_notMem_magnitudeText report_sign x.toBits.toNat
    simpa using this
  · exact bar_notMem_magnitudeText report_sign _

end AdaptivePopulation.Decimal
