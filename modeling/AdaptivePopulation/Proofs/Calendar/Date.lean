import AdaptivePopulation.Calendar.Date
import Mathlib.Order.Monotone.Basic
import Mathlib.Tactic.IntervalCases
import Mathlib.Tactic.SplitIfs

/-!
# Dates and their numbers

Every number of a day has a valid date, and this date has that number.  The calendar repeats after
400 years of 146097 days, counted from March; within such an era the years, and within a year the
months, are found by division.
-/

namespace AdaptivePopulation.Calendar

/-! ## Days of an era -/

/-- The days of an era before a year of it. -/
def daysBefore (year : Nat) : Nat := 365 * year + year / 4 - year / 100

/-- The days of an era before a day, without leap days. -/
def commonDays (day : Nat) : Nat := day - day / 1460 + day / 36524 - day / 146096

theorem commonDays_mono : Monotone commonDays :=
  monotone_nat_of_le_succ fun day => by
    unfold commonDays
    omega

/-- Counted without leap days, every year of an era begins after a multiple of 365 days. -/
theorem commonDays_daysBefore : ∀ year < 400, 365 * year ≤ commonDays (daysBefore year) ∧
    (year ≠ 0 → commonDays (daysBefore year - 1) < 365 * year) := by
  decide +kernel

/-- The year of a day of an era. -/
theorem year_spec {day : Nat} (h : day < 146097) :
    commonDays day / 365 < 400 ∧ daysBefore (commonDays day / 365) ≤ day ∧
      day < daysBefore (commonDays day / 365 + 1) + (commonDays day / 365 + 1) / 400 := by
  have small : commonDays day ≤ commonDays 146096 := commonDays_mono (by omega)
  have last : commonDays 146096 = 145999 := by decide
  generalize hy : commonDays day / 365 = year
  have lt : year < 400 := by omega
  refine ⟨lt, ?_, ?_⟩
  · by_contra before
    obtain ⟨-, gap⟩ := commonDays_daysBefore year lt
    have := commonDays_mono (show day ≤ daysBefore year - 1 by omega)
    have := gap (by rintro rfl; exact before (Nat.zero_le day))
    omega
  · by_contra after
    obtain next | rfl : year + 1 < 400 ∨ year = 399 := by omega
    · obtain ⟨start, -⟩ := commonDays_daysBefore (year + 1) next
      have := commonDays_mono (show daysBefore (year + 1) ≤ day by omega)
      omega
    · exact after h

/-! ## Days of a year -/

/-- The days of a year before a month of it, counted from March. -/
def daysBeforeMonth (month : Nat) : Nat := (153 * month + 2) / 5

/-- The month of a day of a year, and the day of the month. -/
theorem month_spec {day : Nat} (h : day < 366) : (5 * day + 2) / 153 < 12 ∧
    daysBeforeMonth ((5 * day + 2) / 153) ≤ day ∧
    day < daysBeforeMonth ((5 * day + 2) / 153 + 1) := by
  unfold daysBeforeMonth
  omega

/-- A date counted from March. -/
def ofMarch (era : Int) (year month day : Nat) : Date where
  year := 400 * era + year + if month < 10 then 0 else 1
  month := if month < 10 then month + 3 else month - 9
  day := day + 1

theorem toDays_ofMarch (era : Int) {year month : Nat} (hy : year < 400) (hm : month < 12)
    (day : Nat) : (ofMarch era year month day).toDays =
      146097 * era + daysBefore year + daysBeforeMonth month + day - 719468 := by
  have march : (if (ofMarch era year month day).month ≤ 2 then (ofMarch era year month day).year - 1
      else (ofMarch era year month day).year) = 400 * era + year := by
    unfold ofMarch
    dsimp only
    split_ifs <;> omega
  have place : ((ofMarch era year month day).month + 9) % 12 = month := by
    unfold ofMarch
    dsimp only
    split_ifs <;> omega
  unfold Date.toDays
  dsimp only
  rw [march, place]
  unfold daysBefore daysBeforeMonth ofMarch
  dsimp only
  omega

/-- Every day is a day of a month of a year of an era, and its date is found from these. -/
theorem exists_ofDays (n : Int) : ∃ (era : Int) (year month day : Nat), year < 400 ∧ month < 12 ∧
    daysBeforeMonth month + day < daysBeforeMonth (month + 1) ∧
    daysBefore year + daysBeforeMonth month + day <
      daysBefore (year + 1) + (year + 1) / 400 ∧
    n = 146097 * era + daysBefore year + daysBeforeMonth month + day - 719468 ∧
    Date.ofDays n = ofMarch era year month day := by
  have split : n = 146097 * ((n + 719468) / 146097) + ((n + 719468) % 146097).toNat - 719468 := by
    omega
  have date : Date.ofDays n = ofMarch ((n + 719468) / 146097)
      (commonDays ((n + 719468) % 146097).toNat / 365)
      ((5 * (((n + 719468) % 146097).toNat -
        daysBefore (commonDays ((n + 719468) % 146097).toNat / 365)) + 2) / 153)
      (((n + 719468) % 146097).toNat - daysBefore (commonDays ((n + 719468) % 146097).toNat / 365) -
        daysBeforeMonth ((5 * (((n + 719468) % 146097).toNat -
          daysBefore (commonDays ((n + 719468) % 146097).toNat / 365)) + 2) / 153)) := rfl
  obtain ⟨lt, start, next⟩ := year_spec (show ((n + 719468) % 146097).toNat < 146097 by omega)
  generalize (n + 719468) / 146097 = era at split date
  generalize ((n + 719468) % 146097).toNat = dayOfEra at split date lt start next
  generalize commonDays dayOfEra / 365 = year at date lt start next
  have short : dayOfEra - daysBefore year < 366 := by
    unfold daysBefore at *
    omega
  obtain ⟨hm, first, last⟩ := month_spec short
  generalize (5 * (dayOfEra - daysBefore year) + 2) / 153 = month at date hm first last
  exact ⟨era, year, month, _, lt, hm, by omega, by omega, by omega, date⟩

/-- The date of a number has this number. -/
theorem toDays_ofDays (n : Int) : (Date.ofDays n).toDays = n := by
  obtain ⟨era, year, month, day, hy, hm, -, -, hn, date⟩ := exists_ofDays n
  rw [date, toDays_ofMarch era hy hm, ← hn]

/-- The last day of February is its 29th only in leap years. -/
theorem isLeapYear_of_late (era : Int) {year : Nat} (hy : year < 400)
    (late : daysBefore year + 365 < daysBefore (year + 1) + (year + 1) / 400) :
    isLeapYear (400 * era + year + 1) = true := by
  unfold daysBefore at late
  unfold isLeapYear
  rw [decide_eq_true_iff]
  omega

theorem daysInMonth_le (year : Int) (month : Nat) : daysInMonth year month ≤ 31 := by
  unfold daysInMonth
  split
  · split_ifs <;> decide
  all_goals decide

/-- The date of a number exists. -/
theorem isValid_ofDays (n : Int) : (Date.ofDays n).IsValid := by
  obtain ⟨era, year, month, day, hy, hm, inMonth, inYear, -, date⟩ := exists_ofDays n
  rw [date]
  refine ⟨?_, ?_, Nat.le_add_left 1 day, ?_⟩
  · unfold ofMarch
    dsimp only
    split_ifs <;> omega
  · unfold ofMarch
    dsimp only
    split_ifs <;> omega
  · unfold daysBeforeMonth at inMonth inYear
    by_cases february : month = 11
    · -- its 29th day is the 366th of the year
      subst february
      have : daysBefore (year + 1) + (year + 1) / 400 ≤ daysBefore year + 366 := by
        unfold daysBefore
        omega
      obtain rfl | early : day = 28 ∨ day < 28 := by omega
      · have leap := isLeapYear_of_late era hy (by omega)
        simp [ofMarch, daysInMonth, leap]
      · simp [ofMarch, daysInMonth]
        split_ifs <;> omega
    · interval_cases month <;> simp [ofMarch, daysInMonth] <;> omega

/-- The dates of the years with four digits. -/
theorem year_ofDays {n : Int} (low : Date.toDays ⟨0, 1, 1⟩ ≤ n)
    (high : n < Date.toDays ⟨10000, 1, 1⟩) :
    0 ≤ (Date.ofDays n).year ∧ (Date.ofDays n).year ≤ 9999 := by
  obtain ⟨era, year, month, day, hy, hm, inMonth, inYear, hn, date⟩ := exists_ofDays n
  have first : Date.toDays ⟨0, 1, 1⟩ = -719528 := by decide
  have last : Date.toDays ⟨10000, 1, 1⟩ = 2932897 := by decide
  rw [first] at low
  rw [last] at high
  rw [date]
  unfold ofMarch
  unfold daysBefore daysBeforeMonth at *
  dsimp only
  have eras : era = -1 ∨ 0 ≤ era ∧ era ≤ 24 ∨ era = 25 := by omega
  rcases eras with rfl | eras | rfl
  · have : year = 399 := by omega
    subst this
    split_ifs <;> omega
  · split_ifs <;> omega
  · have : year = 0 := by omega
    subst this
    split_ifs <;> omega

end AdaptivePopulation.Calendar
