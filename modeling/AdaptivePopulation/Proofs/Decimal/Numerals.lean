import Mathlib.Tactic.ByContra
import AdaptivePopulation.Proofs.Decimal.Digits

/-!
# Numerals read back

What the reader makes of the texts that are written: a whole number is read as the numeral of its
digits, and a double in either form as the numeral of the digits on both sides of its point.
-/

namespace AdaptivePopulation.Decimal

open Numeral

theorem isDigit_of_mem_toDigits {n : Nat} {c : Char} (h : c ∈ Nat.toDigits 10 n) : c.isDigit :=
  Nat.isDigit_of_mem_toDigits (by decide) (by decide) h

theorem toDigits_ne_nil (n : Nat) : Nat.toDigits 10 n ≠ [] :=
  fun h => absurd (Nat.length_toDigits_pos (b := 10) (n := n)) (by simp [h])

theorem digitChar_ne_zero {n : Nat} (h : n < 10) (hn : n ≠ 0) : Nat.digitChar n ≠ '0' := by
  decide +revert

/-- Only the number zero begins with the digit zero. -/
theorem head?_toDigits {n : Nat} (hn : n ≠ 0) : (Nat.toDigits 10 n).head? ≠ some '0' := by
  induction n using Nat.strongRecOn with
  | ind n ih =>
    obtain h | h := Nat.lt_or_ge n 10
    · simpa [Nat.toDigits_of_lt_base h] using digitChar_ne_zero h hn
    · obtain ⟨c, rest, hc⟩ := List.exists_cons_of_ne_nil (toDigits_ne_nil (n / 10))
      have := ih (n / 10) (by omega) (by omega)
      rw [Nat.toDigits_of_base_le (by decide) h, hc]
      rwa [hc] at this

/-! ## Signs and exponents -/

theorem splitSign_of_isDigit {c : Char} (hc : c.isDigit) (rest : List Char) :
    splitSign (c :: rest) = (false, c :: rest) := by
  have minus : c ≠ '-' := by rintro rfl; contradiction
  have plus : c ≠ '+' := by rintro rfl; contradiction
  unfold splitSign
  split <;> simp_all

/-- The sign that is written in front of a number. -/
def signOf (negative : Bool) : List Char := if negative then ['-'] else []

theorem splitSign_signOf (negative : Bool) {digits : List Char} (hd : ∀ c ∈ digits, c.isDigit)
    (hne : digits ≠ []) (rest : List Char) :
    splitSign (signOf negative ++ digits ++ rest) = (negative, digits ++ rest) := by
  obtain ⟨c, digits, rfl⟩ := List.exists_cons_of_ne_nil hne
  cases negative with
  | true => rfl
  | false => exact splitSign_of_isDigit (hd c List.mem_cons_self) _

/-- What may follow the digits of a numeral: nothing, or the letter of an exponent. -/
theorem readExponent_head {text : List Char} {exponent : Option Int}
    (h : readExponent text = some exponent) : ∀ c ∈ text.head?, c = 'e' ∨ c = 'E' := by
  cases text with
  | nil => simp
  | cons c rest =>
    intro d hd
    obtain rfl : c = d := by simpa using hd
    by_contra hc
    simp [readExponent, hc] at h

theorem readExponent_written (negative : Bool) {sign : List Char}
    (hs : sign = signOf negative ∨ negative = false ∧ sign = ['+']) (n : Nat) :
    readExponent ('e' :: (sign ++ Nat.toDigits 10 n)) =
      some (some (if negative then -(n : Int) else n)) := by
  have split : splitSign (sign ++ Nat.toDigits 10 n) = (negative, Nat.toDigits 10 n) := by
    obtain rfl | ⟨rfl, rfl⟩ := hs
    · simpa using splitSign_signOf negative (fun c hc => isDigit_of_mem_toDigits hc)
        (toDigits_ne_nil n) []
    · rfl
  have digits : (Nat.toDigits 10 n).all Char.isDigit :=
    List.all_eq_true.2 fun c hc => isDigit_of_mem_toDigits hc
  simp only [readExponent, true_or, if_true, split, List.isEmpty_iff, toDigits_ne_nil, digits,
    not_true_eq_false, or_self, if_false, natOfDigits_toDigits]

/-! ## Numerals -/

/-- Digits before and after the point. -/
structure AreDigits (whole : List Char) (fraction : Option (List Char)) : Prop where
  some_whole : whole ≠ []
  whole : ∀ c ∈ whole, c.isDigit
  fraction : ∀ c ∈ fraction.getD [], c.isDigit

/-- A point and the digits after it, if there is a point. -/
def pointed (fraction : Option (List Char)) : List Char := fraction.elim [] ('.' :: ·)

theorem takeWhile_isDigit_append {digits rest : List Char} (hd : ∀ c ∈ digits, c.isDigit)
    (hr : ∀ c ∈ rest.head?, c.isDigit = false) :
    (digits ++ rest).takeWhile Char.isDigit = digits ∧
      (digits ++ rest).dropWhile Char.isDigit = rest := by
  rw [List.takeWhile_append_of_pos hd, List.dropWhile_append_of_pos hd]
  cases rest with
  | nil => simp
  | cons c rest =>
    have : c.isDigit = false := hr c rfl
    simp [this]

/-- The text is read as the numeral, and begins with a digit or a minus sign. -/
structure Spells (text : List Char) (n : Numeral) : Prop where
  reads : read? text = some n
  starts : ∃ c ∈ text.head?, c.isDigit ∨ c = '-'

theorem starts_signOf (negative : Bool) {whole : List Char} {fraction : Option (List Char)}
    (hd : AreDigits whole fraction) (rest : List Char) :
    ∃ c ∈ (signOf negative ++ whole ++ rest).head?, c.isDigit ∨ c = '-' := by
  obtain ⟨d, whole, rfl⟩ := List.exists_cons_of_ne_nil hd.some_whole
  cases negative with
  | true => exact ⟨'-', rfl, .inr rfl⟩
  | false => exact ⟨d, rfl, .inl (hd.whole d List.mem_cons_self)⟩

/-- A sign, digits with or without a point among them and an exponent are read as what they are. -/
theorem spells_of_areDigits (negative : Bool) {whole : List Char} {fraction : Option (List Char)}
    (hd : AreDigits whole fraction) (tail : List Char) {exponent : Option Int}
    (ht : readExponent tail = some exponent) :
    Spells (signOf negative ++ whole ++ (pointed fraction ++ tail))
      ⟨negative, whole, fraction, exponent⟩ := by
  refine ⟨?_, starts_signOf negative hd _⟩
  have letter {c : Char} (hc : c ∈ tail.head?) : c.isDigit = false ∧ c ≠ '.' := by
    obtain rfl | rfl := readExponent_head ht c hc <;> decide
  have rest : ∀ c ∈ (pointed fraction ++ tail).head?, c.isDigit = false := by
    cases fraction with
    | none => exact fun c hc => (letter hc).1
    | some digits =>
      rintro c hc
      obtain rfl : '.' = c := by simpa [pointed] using hc
      rfl
  obtain ⟨before, after⟩ := takeWhile_isDigit_append hd.whole rest
  have notEmpty : whole.isEmpty = false := List.isEmpty_eq_false_iff.2 hd.some_whole
  rw [read?, splitSign_signOf negative hd.whole hd.some_whole]
  simp only [before, after, notEmpty]
  cases fraction with
  | none =>
    simp only [pointed, Option.elim_none, List.nil_append]
    split
    · exact absurd rfl (letter (c := '.') (by simp [*])).2
    · simp [ht]
  | some digits =>
    obtain ⟨before, after⟩ := takeWhile_isDigit_append hd.fraction fun c hc => (letter hc).1
    simp only [Option.getD_some] at before after
    simp [pointed, before, after, ht]

/-! ## Whole numbers -/

/-- The numeral of a whole number. -/
def Numeral.ofInt (n : Int) : Numeral := ⟨n < 0, Nat.toDigits 10 n.natAbs, none, none⟩

theorem spells_writeInt (n : Int) : Spells (writeInt n) (Numeral.ofInt n) := by
  have digits : AreDigits (Nat.toDigits 10 n.natAbs) none :=
    ⟨toDigits_ne_nil _, fun _ hc => isDigit_of_mem_toDigits hc, by simp⟩
  have text : writeInt n = signOf (n < 0) ++ Nat.toDigits 10 n.natAbs ++ (pointed none ++ []) := by
    by_cases h : n < 0 <;> simp [writeInt, signOf, pointed, h]
  rw [text]
  exact spells_of_areDigits _ digits [] rfl

/-! ## Doubles -/

section

variable {digits : List Char} (hd : ∀ c ∈ digits, c.isDigit)

/-- The digits after the point of a positional text whose point stands after `k` digits. -/
def digitsAfter (digits : List Char) (k : Nat) : List Char :=
  if (digits.drop k).isEmpty then ['0'] else digits.drop k

/-- The numeral of a positional text. -/
def positionalNumeral (negative : Bool) (digits : List Char) (k : Int) : Numeral :=
  if k ≤ 0 then ⟨negative, ['0'], some (List.replicate (-k).toNat '0' ++ digits), none⟩
  else
    ⟨negative, digits.take k.toNat ++ List.replicate (k.toNat - digits.length) '0',
      some (digitsAfter digits k.toNat), none⟩

theorem isDigit_of_mem_replicate {n : Nat} {c : Char} (h : c ∈ List.replicate n '0') : c.isDigit :=
  List.eq_of_mem_replicate h ▸ rfl

include hd in
theorem isDigit_of_mem_digitsAfter {k : Nat} {c : Char} (h : c ∈ digitsAfter digits k) :
    c.isDigit := by
  unfold digitsAfter at h
  split_ifs at h
  · exact isDigit_of_mem_replicate (n := 1) h
  · exact hd c (List.mem_of_mem_drop h)

include hd in
theorem spells_positional (hne : digits ≠ []) (negative : Bool) (k : Int) :
    Spells (signOf negative ++ positional digits k) (positionalNumeral negative digits k) := by
  by_cases hk : k ≤ 0
  · have areDigits : AreDigits ['0'] (some (List.replicate (-k).toNat '0' ++ digits)) := by
      refine ⟨by simp, by simp, fun c hc => ?_⟩
      exact (List.mem_append.1 hc).elim isDigit_of_mem_replicate (hd c)
    rw [positional, if_pos hk, positionalNumeral, if_pos hk]
    simpa [pointed] using spells_of_areDigits negative areDigits [] rfl
  · have areDigits : AreDigits (digits.take k.toNat ++ List.replicate (k.toNat - digits.length) '0')
        (some (digitsAfter digits k.toNat)) := by
      refine ⟨?_, fun c hc => ?_, fun c hc => isDigit_of_mem_digitsAfter hd hc⟩
      · have : k.toNat ≠ 0 := by omega
        simp [hne, this]
      · exact (List.mem_append.1 hc).elim (fun h => hd c (List.mem_of_mem_take h))
          isDigit_of_mem_replicate
    rw [positional, if_neg hk, positionalNumeral, if_neg hk]
    simpa [pointed, digitsAfter] using spells_of_areDigits negative areDigits [] rfl

/-- The digits after the first one, if there are more. -/
def digitsAfterFirst (digits : List Char) : Option (List Char) :=
  if (digits.drop 1).isEmpty then none else some (digits.drop 1)

/-- The numeral of a text with an exponent. -/
def exponentialNumeral (negative : Bool) (digits : List Char) (exponent : Int) : Numeral :=
  ⟨negative, digits.take 1, digitsAfterFirst digits, some exponent⟩

include hd in
theorem spells_exponential {f : NumberFormat} (hf : f.exponentSign = "" ∨ f.exponentSign = "+")
    (hne : digits ≠ []) (negative : Bool) (exponent : Int) :
    Spells (signOf negative ++ exponential f digits exponent)
      (exponentialNumeral negative digits exponent) := by
  have areDigits : AreDigits (digits.take 1) (digitsAfterFirst digits) := by
    refine ⟨by simpa using hne, fun c hc => hd c (List.mem_of_mem_take hc), fun c hc => ?_⟩
    unfold digitsAfterFirst at hc
    split_ifs at hc
    · simp at hc
    · exact hd c (List.mem_of_mem_drop hc)
  have tail : readExponent ('e' :: ((if exponent < 0 then ['-'] else f.exponentSign.toList) ++
      Nat.toDigits 10 exponent.natAbs)) = some (some exponent) := by
    rw [readExponent_written (exponent < 0)]
    · congr 2
      split_ifs with h <;> simp at h <;> omega
    · by_cases h : exponent < 0
      · simp [h, signOf]
      · obtain hf | hf := hf <;> simp [h, hf, signOf]
  have point : (if (digits.drop 1).isEmpty then [] else '.' :: digits.drop 1) =
      pointed (digitsAfterFirst digits) := by
    unfold digitsAfterFirst
    split_ifs <;> rfl
  have text : signOf negative ++ exponential f digits exponent =
      signOf negative ++ digits.take 1 ++ (pointed (digitsAfterFirst digits) ++
        'e' :: ((if exponent < 0 then ['-'] else f.exponentSign.toList) ++
          Nat.toDigits 10 exponent.natAbs)) := by
    simp only [exponential, point, List.append_assoc, List.cons_append]
  rw [text]
  exact spells_of_areDigits negative areDigits _ tail

end

end AdaptivePopulation.Decimal
