import ConfigMerge.Time.Calendar
import Mathlib.Tactic.Common

/-!
# Proofs/Time/Calendar — every day has its date

The first days of the years cut the days into years (`Date.yearOf_spec`), and the lengths of the
months cut a year (`Date.walkMonths_spec`).  So `Date.ofDay` finds a date that is in the calendar and
that falls on the day it was asked for (`Date.toDay_ofDay`).
-/

namespace ConfigMerge.Date

/-! ## Years -/

/-- The number of days of a year. -/
def yearLength (y : Int) : Nat := if isLeapYear y then 366 else 365

theorem isLeapYear_iff (y : Int) :
    isLeapYear y = true ↔ y % 4 = 0 ∧ (y % 100 ≠ 0 ∨ y % 400 = 0) := by
  simp [isLeapYear]

theorem daysBeforeYear_succ (y : Int) :
    daysBeforeYear (y + 1) = daysBeforeYear y + yearLength y := by
  have hleap := isLeapYear_iff y
  unfold daysBeforeYear yearLength
  split <;> simp_all <;> omega

/-- The mean length of a year leads to the year before, the right one or the one after. -/
theorem daysBeforeYear_estimate (n : Int) :
    daysBeforeYear (400 * n / 146097 + 1 - 1) ≤ n ∧ n < daysBeforeYear (400 * n / 146097 + 1 + 2) := by
  dsimp only [daysBeforeYear]
  omega

/-- **The year of a day has the day.** -/
theorem yearOf_spec (n : Int) :
    daysBeforeYear (yearOf n) ≤ n ∧ n < daysBeforeYear (yearOf n + 1) := by
  have hbefore := daysBeforeYear_estimate n
  unfold yearOf
  generalize 400 * n / 146097 + 1 = y at hbefore
  have hlast : y - 1 + 1 = y := by omega
  have hnext : y + 1 + 1 = y + 2 := by omega
  dsimp only
  split_ifs with hlow hhigh
  · rw [hlast]
    exact ⟨hbefore.1, hlow⟩
  · rw [hnext]
    exact ⟨hhigh, hbefore.2⟩
  · exact ⟨Int.not_lt.mp hlow, Int.not_le.mp hhigh⟩

/-! ## Months -/

theorem daysThroughMonth_year (y : Int) : daysThroughMonth y 12 = yearLength y := by
  unfold yearLength
  cases h : isLeapYear y <;> simp [daysThroughMonth, monthLength, h]

/-- A walk stops at the month that has the day. -/
theorem walkMonths_spec (y : Int) (done rest months : Nat)
    (h : daysThroughMonth y done + rest < daysThroughMonth y (done + months + 1)) :
    ∃ month day, walkMonths y done rest months = (month + 1, day + 1) ∧ done ≤ month ∧
      month ≤ done + months ∧ day < monthLength y (month + 1) ∧
      daysThroughMonth y month + day = daysThroughMonth y done + rest := by
  induction months generalizing done rest with
  | zero =>
    refine ⟨done, rest, rfl, Nat.le_refl _, Nat.le_refl _, ?_, rfl⟩
    rw [daysThroughMonth] at h
    omega
  | succ months ih =>
    rw [walkMonths]
    split_ifs with hfits
    · exact ⟨done, rest, rfl, Nat.le_refl _, Nat.le_add_right _ _, hfits, rfl⟩
    · obtain ⟨month, day, hwalk, hlow, hhigh, hday, hdays⟩ := ih (done + 1)
        (rest - monthLength y (done + 1)) (by
          rw [daysThroughMonth, show done + 1 + months + 1 = done + (months + 1) + 1 by omega]
          omega)
      refine ⟨month, day, hwalk, by omega, by omega, hday, ?_⟩
      rw [hdays, daysThroughMonth]
      omega

/-! ## Dates -/

/-- The date of a day is in the calendar, and falls on the day. -/
theorem ofDay_spec (n : Int) :
    (ofDay n).toDay = n ∧ 1 ≤ (ofDay n).month ∧ (ofDay n).month ≤ 12 ∧ 1 ≤ (ofDay n).day ∧
      (ofDay n).day ≤ monthLength (ofDay n).year (ofDay n).month := by
  obtain ⟨hfirst, hlast⟩ := yearOf_spec n
  rw [daysBeforeYear_succ] at hlast
  obtain ⟨month, day, hwalk, -, hmonth, hday, hdays⟩ :=
    walkMonths_spec (yearOf n) 0 (n - daysBeforeYear (yearOf n)).toNat 11 (by
      rw [show 0 + 11 + 1 = 12 from rfl, daysThroughMonth_year, daysThroughMonth]
      omega)
  have hdate : ofDay n = ⟨yearOf n, month + 1, day + 1⟩ := by
    rw [ofDay, hwalk]
  rw [daysThroughMonth] at hdays
  rw [hdate, toDay, Nat.add_sub_cancel]
  dsimp only
  omega

/-- **Every day has its date.** -/
theorem toDay_ofDay (n : Int) : (ofDay n).toDay = n := (ofDay_spec n).1

/-- **The date of a day is in the calendar.** -/
theorem isValid_ofDay (n : Int) : (ofDay n).isValid = true := by
  obtain ⟨-, hmonth, hmonth', hday, hday'⟩ := ofDay_spec n
  simp [isValid, hmonth, hmonth', hday, hday']

theorem monthLength_le (y : Int) (month : Nat) : monthLength y month ≤ 31 := by
  unfold monthLength
  repeat' split
  all_goals decide

end ConfigMerge.Date
