import Mathlib.Tactic.SplitIfs
import AdaptivePopulation.Calendar.Text
import AdaptivePopulation.Proofs.Calendar.Date
import AdaptivePopulation.Proofs.Decimal.Numerals

/-!
# Timestamps read back

The timestamp of a moment of the years from 0 to 9999 is read as this moment, to the nanosecond and
within leap seconds.  Each part of it has a fixed width or ends before a mark, so that each reader
takes what the writer of its part wrote.
-/

namespace AdaptivePopulation

open Calendar Decimal Text

/-! ## Padded numbers -/

namespace Decimal

theorem isDigit_of_mem_padded {width n : Nat} {c : Char} (h : c ∈ padded width n) : c.isDigit := by
  obtain h | h := List.mem_append.1 h
  · exact isDigit_of_mem_replicate h
  · exact isDigit_of_mem_toDigits h

theorem padded_ne_nil (width n : Nat) : padded width n ≠ [] := by
  simp [padded]

theorem takeWhile_padded (width n : Nat) (rest : List Char)
    (hr : ∀ c ∈ rest.head?, c.isDigit = false) :
    (padded width n ++ rest).takeWhile Char.isDigit = padded width n ∧
      (padded width n ++ rest).dropWhile Char.isDigit = rest :=
  takeWhile_isDigit_append (fun _ => isDigit_of_mem_padded) hr

theorem length_padded {width n : Nat} (pos : 0 < width) (h : n < 10 ^ width) :
    (padded width n).length = width := by
  have := (Nat.length_toDigits_le_iff (b := 10) (by decide) pos).2 h
  rw [padded, List.length_append, List.length_replicate]
  omega

end Decimal

namespace Instant

/-! ## Readers of the parts -/

theorem dropBlanks_of_isDigit {digits : List Char} (hne : digits ≠ [])
    (hd : ∀ c ∈ digits, c.isDigit) (rest : List Char) :
    dropBlanks (digits ++ rest) = digits ++ rest := by
  obtain ⟨c, digits, rfl⟩ := List.exists_cons_of_ne_nil hne
  have : isBlank c = false := by
    have apart : blanks.all (fun b => !b.isDigit) = true := by decide
    by_contra blank
    have := List.all_eq_true.1 apart c (by simpa [isBlank] using blank)
    simp [hd c List.mem_cons_self] at this
  simp [dropBlanks, this]

theorem dropBlanks_padded (width n : Nat) (rest : List Char) :
    dropBlanks (padded width n ++ rest) = padded width n ++ rest :=
  dropBlanks_of_isDigit (padded_ne_nil width n) (fun _ => isDigit_of_mem_padded) rest

theorem readDigits_padded {width n : Nat} (pos : 0 < width) (h : n < 10 ^ width)
    (rest : List Char) : readDigits width (padded width n ++ rest) = some (n, rest) := by
  have taken : (padded width n ++ rest).take width = padded width n :=
    List.take_left' (length_padded pos h)
  have digits : (padded width n).takeWhile Char.isDigit = padded width n := by
    simpa using (takeWhile_padded width n [] (by simp)).1
  simp [readDigits, taken, digits, padded_ne_nil]

theorem readItem_padded {least greatest n : Nat} (hl : least ≤ n) (hg : n ≤ greatest)
    (h : n < 100) (rest : List Char) :
    readItem least greatest (padded 2 n ++ rest) = some (n, rest) := by
  simp [readItem, dropBlanks_padded, readDigits_padded (by decide : 0 < 2) h, hl, hg]

/-- A padded number begins with a digit. -/
theorem padded_append_ne {c : Char} (h : c.isDigit = false) (width n : Nat)
    (rest text : List Char) : padded width n ++ rest ≠ c :: text := by
  intro same
  obtain ⟨d, digits, hd⟩ := List.exists_cons_of_ne_nil (padded_ne_nil width n)
  have digit : d.isDigit := isDigit_of_mem_padded (hd ▸ List.mem_cons_self)
  rw [hd, List.cons_append] at same
  simp [(List.cons.inj same).1, h] at digit

theorem readYear_writeYear {year : Int} (low : 0 ≤ year) (high : year ≤ 9999)
    (rest : List Char) : readYear (writeYear year ++ rest) = some (year, rest) := by
  obtain ⟨n, rfl⟩ := Int.eq_ofNat_of_zero_le low
  have written : writeYear n = padded 4 n := by simp [writeYear, high]
  have digits := readDigits_padded (by decide : 0 < 4) (show n < 10 ^ 4 by omega) rest
  rw [written, readYear, dropBlanks_padded]
  split
  · exact absurd ‹_› (padded_append_ne rfl _ _ _ _)
  · exact absurd ‹_› (padded_append_ne rfl _ _ _ _)
  · simp [digits]

theorem readMark_cons {mark : Char} (h : isBlank mark = false) (rest : List Char) :
    readMark mark (mark :: rest) = some rest := by
  simp [readMark, dropBlanks, h]

theorem readFraction_padded {width n : Nat} (pos : 0 < width) (hw : width ≤ 9)
    (h : n < 10 ^ width) (rest : List Char) :
    readFraction ('.' :: (padded width n ++ 'Z' :: rest)) =
      some (n * 10 ^ (9 - width), 'Z' :: rest) := by
  obtain ⟨digits, after⟩ := takeWhile_padded width n ('Z' :: rest) (by simp)
  have long := length_padded pos h
  have kept : (padded width n).take 9 = padded width n :=
    List.take_of_length_le (by omega)
  simp [readFraction, digits, after, padded_ne_nil, kept, long]

theorem readFraction_writeFraction {nanos : Nat} (h : nanos < 1000000000) (rest : List Char) :
    readFraction (writeFraction nanos ++ 'Z' :: rest) = some (nanos, 'Z' :: rest) := by
  unfold writeFraction
  split_ifs with whole millis micros
  · subst whole
    rfl
  · rw [List.cons_append, readFraction_padded (by decide) (by decide) (by omega)]
    have : nanos / 1000000 * 10 ^ (9 - 3) = nanos := by omega
    rw [this]
  · rw [List.cons_append, readFraction_padded (by decide) (by decide) (by omega)]
    have : nanos / 1000 * 10 ^ (9 - 6) = nanos := by omega
    rw [this]
  · rw [List.cons_append, readFraction_padded (by decide) (by decide) (by omega)]
    simp

/-! ## Timestamps -/

/-- A moment of the years from 0 to 9999; within a leap second only after the last second of a
minute. -/
structure FourDigit (t : Instant) : Prop where
  first : 86400 * Date.toDays ⟨0, 1, 1⟩ ≤ t.seconds
  last : t.seconds < 86400 * Date.toDays ⟨10000, 1, 1⟩
  nanos : t.nanos < 1000000000 ∨ t.seconds % 60 = 59 ∧ t.nanos < 2000000000

theorem FourDigit.inCalendar {t : Instant} (h : t.FourDigit) : t.InCalendar := by
  have begins : firstSecond ≤ 86400 * Date.toDays ⟨0, 1, 1⟩ := by decide
  have ends : 86400 * Date.toDays ⟨10000, 1, 1⟩ ≤ lastSecond := by decide
  exact ⟨begins.trans h.first, h.last.le.trans ends⟩

/-- The parts of a moment give the moment. -/
theorem ofLocal?_parts {t : Instant} (h : t.FourDigit) :
    ofLocal? (Date.ofDays (t.seconds / 86400)) ((t.seconds % 86400).toNat / 3600)
      ((t.seconds % 86400).toNat / 60 % 60)
      ((t.seconds % 86400).toNat % 60 + t.nanos / 1000000000) (t.nanos % 1000000000) 0 =
      some t := by
  have ⟨first, last, nanos⟩ := h
  have ⟨low, high⟩ := year_ofDays (n := t.seconds / 86400) (by omega) (by omega)
  have days := toDays_ofDays (t.seconds / 86400)
  have valid := isValid_ofDays (t.seconds / 86400)
  -- the sixtieth second of a minute is a leap second, any other one is not
  have leap : ((t.seconds % 86400).toNat % 60 + t.nanos / 1000000000) / 60 =
      t.nanos / 1000000000 := by omega
  have parts : (⟨86400 * (t.seconds / 86400) +
      (3600 * ((t.seconds % 86400).toNat / 3600) + 60 * ((t.seconds % 86400).toNat / 60 % 60) +
        ((t.seconds % 86400).toNat % 60 + t.nanos / 1000000000 - t.nanos / 1000000000) : Nat) - 0,
      t.nanos % 1000000000 + 1000000000 * (t.nanos / 1000000000)⟩ : Instant) = t := by
    rw [Nat.mod_add_div, Nat.add_sub_cancel]
    congr
    omega
  have inside : -262143 ≤ (Date.ofDays (t.seconds / 86400)).year ∧
      (Date.ofDays (t.seconds / 86400)).year ≤ 262142 := by omega
  simp only [ofLocal?, leap, days, parts]
  exact if_pos ⟨valid, by decide, inside.1, inside.2, h.inCalendar⟩

/-- The moment of what is written as a timestamp. -/
theorem read?_parts {year : Int} {month day hour minute second nanos : Nat}
    (hy : 0 ≤ year ∧ year ≤ 9999) (hm : 1 ≤ month ∧ month ≤ 12) (hd : 1 ≤ day ∧ day ≤ 31)
    (hh : hour ≤ 23) (hmin : minute ≤ 59) (hs : second ≤ 60) (hn : nanos < 1000000000) :
    read? (writeYear year ++ '-' :: (padded 2 month ++ '-' :: (padded 2 day ++
      'T' :: (padded 2 hour ++ ':' :: (padded 2 minute ++ ':' :: (padded 2 second ++
        (writeFraction nanos ++ ['Z']))))))) =
      ofLocal? ⟨year, month, day⟩ hour minute second nanos 0 := by
  have hyphen := readMark_cons (show isBlank '-' = false from rfl)
  have colon := readMark_cons (show isBlank ':' = false from rfl)
  have offset : readOffset (dropBlanks ['Z']) = some (0, []) := by decide
  -- part by part: a rewriter with all parts at once goes through the long rest each time
  rw [read?, readYear_writeYear hy.1 hy.2]
  dsimp only [Option.bind_eq_bind, Option.bind_some]
  rw [hyphen]
  dsimp only [Option.bind_some]
  rw [readItem_padded hm.1 hm.2 (by omega)]
  dsimp only [Option.bind_some]
  rw [hyphen]
  dsimp only [Option.bind_some]
  rw [readItem_padded hd.1 hd.2 (by omega)]
  simp only [Option.bind_some, readItem_padded (Nat.zero_le _) hh (by omega),
    readItem_padded (Nat.zero_le _) hmin (by omega), readItem_padded (Nat.zero_le _) hs (by omega),
    readFraction_writeFraction hn, colon, offset]
  rfl

/-- A timestamp is read as the moment that it was written for. -/
theorem read?_write {t : Instant} (h : t.FourDigit) : read? t.write = some t := by
  have ⟨first, last, nanos⟩ := h
  have years := year_ofDays (n := t.seconds / 86400) (by omega) (by omega)
  have ⟨monthPos, monthLe, dayPos, dayLe⟩ := isValid_ofDays (t.seconds / 86400)
  have read := read?_parts years ⟨monthPos, monthLe⟩ ⟨dayPos, dayLe.trans (daysInMonth_le _ _)⟩
    (show (t.seconds % 86400).toNat / 3600 ≤ 23 by omega)
    (show (t.seconds % 86400).toNat / 60 % 60 ≤ 59 by omega)
    (show (t.seconds % 86400).toNat % 60 + t.nanos / 1000000000 ≤ 60 by omega)
    (show t.nanos % 1000000000 < 1000000000 by omega)
  rw [← ofLocal?_parts h, ← read]
  simp only [write, List.append_assoc, List.cons_append]

end Instant

end AdaptivePopulation
