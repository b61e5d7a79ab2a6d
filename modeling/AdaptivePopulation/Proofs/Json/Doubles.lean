import AdaptivePopulation.Proofs.Decimal.Doubles
import AdaptivePopulation.Proofs.Json.Scanning

/-!
# Doubles in JSON texts

The text of a finite double is one number of a JSON text, it is not the text of a whole number, and
it is read as the double.
-/

namespace AdaptivePopulation.Json

open Decimal

/-! ## The form of texts -/

section

variable {digits : List Char} (hs : IsSignificant digits) (negative : Bool)

include hs

theorem isStrict_positional (k : Int) : isStrict (positionalNumeral negative digits k) := by
  obtain ⟨d, rest, rfl⟩ := List.exists_cons_of_ne_nil hs.nonempty
  have head : d ≠ '0' := fun h => hs.head (h ▸ rfl)
  unfold positionalNumeral
  split_ifs with hk
  · simp [isStrict]
  · obtain ⟨j, hj⟩ : ∃ j, k.toNat = j + 1 := ⟨k.toNat - 1, by omega⟩
    have after : digitsAfter (d :: rest) (j + 1) ≠ [] := by
      unfold digitsAfter
      split_ifs with h
      · simp
      · simpa using h
    simp [isStrict, hj, head, after]

theorem isStrict_exponential (k : Int) : isStrict (exponentialNumeral negative digits k) := by
  obtain ⟨d, rest, rfl⟩ := List.exists_cons_of_ne_nil hs.nonempty
  have after : digitsAfterFirst (d :: rest) ≠ some [] := by
    unfold digitsAfterFirst
    split_ifs with h
    · simp
    · simpa using h
  simp [isStrict, exponentialNumeral, after]

end

theorem not_isWhole_positional (digits : List Char) (negative : Bool) (k : Int) :
    ¬ (positionalNumeral negative digits k).IsWhole := by
  unfold positionalNumeral
  split_ifs <;> simp [Numeral.IsWhole]

theorem not_isWhole_exponential (digits : List Char) (negative : Bool) (k : Int) :
    ¬ (exponentialNumeral negative digits k).IsWhole := by
  simp [exponentialNumeral, Numeral.IsWhole]

/-! ## Reading back -/

theorem write_of_isFinite {x : Float} (hx : x.isFinite) :
    numberFormat.write x =
      signOf (2 ^ 63 ≤ x.toBits.toNat) ++ magnitudeText numberFormat x.toBits.toNat := by
  simp only [NumberFormat.write, isNaN_of_isFinite hx, isInf_of_isFinite hx, Bool.false_eq_true,
    if_false, signOf, decide_eq_true_eq]
  rfl

/-- What is not finite is written as null. -/
theorem write_of_not_isFinite {x : Float} (hx : ¬ x.isFinite) :
    numberFormat.write x = "null".toList := by
  unfold NumberFormat.write
  split_ifs with undefined infinite
  · rfl
  · rfl
  · rfl
  · exact absurd (isFinite_iff_defined.2 ⟨by simpa using undefined, by simpa using infinite⟩) hx

/-- The two zeros are read with their signs. -/
theorem exists_numeral_zero {x : Float} (hx : x.isFinite) (hz : x.toBits.toNat % 2 ^ 63 = 0) :
    ∃ n, Spells (numberFormat.write x) n ∧ isStrict n ∧ ¬ n.IsWhole ∧ n.toFloat = x := by
  have digits : AreDigits ['0'] (some ['0']) := ⟨by simp, by simp, by simp⟩
  have spells := spells_of_areDigits (2 ^ 63 ≤ x.toBits.toNat) digits [] rfl
  have text : magnitudeText numberFormat x.toBits.toNat = ['0', '.', '0'] := if_pos hz
  refine ⟨⟨2 ^ 63 ≤ x.toBits.toNat, ['0'], some ['0'], none⟩, ?_, rfl,
    by simp [Numeral.IsWhole], ?_⟩
  · rw [write_of_isFinite hx, text]
    simpa [pointed] using spells
  · have bound := x.toBits.toNat_lt
    refine Float.toBits_inj.1 (UInt64.toNat_inj.1 ?_)
    by_cases hs : 2 ^ 63 ≤ x.toBits.toNat
    · have bits : x.toBits.toNat = 2 ^ 63 := by omega
      rw [bits]
      decide +kernel
    · have bits : x.toBits.toNat = 0 := by omega
      rw [bits]
      decide +kernel

/-- The text of a finite double is the text of a number, not a whole one, that is read as this
double. -/
theorem exists_numeral {x : Float} (hx : x.isFinite) :
    ∃ n, Spells (numberFormat.write x) n ∧ isStrict n ∧ ¬ n.IsWhole ∧ n.toFloat = x := by
  by_cases hz : x.toBits.toNat % 2 ^ 63 = 0
  · exact exists_numeral_zero hx hz
  obtain ⟨m, e, h, double, interval⟩ := exists_double hx hz
  obtain ⟨digits, k, shortest, significant, rounds⟩ := shortest_roundsTo h numberFormat.tie
  have sign : signOfNumeral (2 ^ 63 ≤ x.toBits.toNat) = signOfBits x.toBits.toNat := by
    simp [signOfNumeral, signOfBits]
  have text : magnitudeText numberFormat x.toBits.toNat =
      if numberFormat.leastPositional ≤ k - 1 ∧ k - 1 < numberFormat.leastExponential then
        positional digits k
      else exponential numberFormat digits (k - 1) := by
    simp only [magnitudeText, Nat.pow_eq, if_neg hz, interval, shortest]
  rw [write_of_isFinite hx, text]
  split_ifs
  · refine ⟨_, spells_positional significant.isDigit significant.nonempty _ k,
      isStrict_positional significant _ k, not_isWhole_positional _ _ k, ?_⟩
    rw [← positionalNumeral_value digits (2 ^ 63 ≤ x.toBits.toNat)] at rounds
    rw [toFloat_of_roundsTo h rounds, positionalNumeral_negative, sign, ← double]
  · refine ⟨_, spells_exponential significant.isDigit (.inr rfl) significant.nonempty _ (k - 1),
      isStrict_exponential significant _ (k - 1), not_isWhole_exponential _ _ (k - 1), ?_⟩
    rw [← exponentialNumeral_value digits (2 ^ 63 ≤ x.toBits.toNat) significant.nonempty] at rounds
    rw [toFloat_of_roundsTo h rounds]
    exact (congrArg (fun s => signed s m e h.pos) sign).trans double.symm

end AdaptivePopulation.Json
