import Graphy.Core.Inline
import Mathlib.Tactic.IntervalCases

/-!
# The proleptic Gregorian calendar

A day of the 400-year cycle is a day of a year of a leap period of a century, each
of them counted from March, so that a leap day is the last day of its year.  The
division formulas read that decomposition off.
-/

namespace Graphy

/-- Day `t` of year `k` of leap period `q` of century `c` of the cycle. -/
structure CycleDay (doe c q k t : Int) : Prop where
  century : 0 ≤ c ∧ c ≤ 3
  period : 0 ≤ q ∧ q ≤ 24
  year : 0 ≤ k ∧ k ≤ 3
  day : 0 ≤ t ∧ t ≤ 365
  /-- Only a year's last day in a leap period is the 366th, and a century's last period has
  one at the end of the cycle alone. -/
  leap : t = 365 → k = 3 ∧ (q = 24 → c = 3)
  sum : doe = 36524 * c + 1461 * q + 365 * k + t

theorem exists_cycleDay {doe : Int} (low : 0 ≤ doe) (high : doe < 146097) :
    ∃ c q k t, CycleDay doe c q k t := by
  obtain ⟨c, hc⟩ : ∃ c, c = min (doe / 36524) 3 := ⟨_, rfl⟩
  obtain ⟨r, hr⟩ : ∃ r, r = doe - 36524 * c := ⟨_, rfl⟩
  obtain ⟨q, hq⟩ : ∃ q, q = r / 1461 := ⟨_, rfl⟩
  obtain ⟨s, hs⟩ : ∃ s, s = r - 1461 * q := ⟨_, rfl⟩
  obtain ⟨k, hk⟩ : ∃ k, k = min (s / 365) 3 := ⟨_, rfl⟩
  have inCentury : 0 ≤ r ∧ r ≤ 36524 ∧ (r = 36524 → c = 3) ∧ 0 ≤ c ∧ c ≤ 3 := by omega
  have inPeriod : 0 ≤ s ∧ s ≤ 1460 ∧ 0 ≤ q ∧ q ≤ 24 := by omega
  exact ⟨c, q, k, s - 365 * k, by omega, by omega, by omega, by omega, by omega, by omega⟩

variable {doe c q k t : Int} (at_ : CycleDay doe c q k t)

include at_

/-- The year of the cycle. -/
theorem CycleDay.yearOfEra :
    (doe - doe / 1460 + doe / 36524 - doe / 146096) / 365 = 100 * c + 4 * q + k := by
  obtain ⟨century, period, year, day, leap, sum⟩ := at_
  by_cases last : doe = 146096
  · omega
  · have centuries : doe / 36524 = c := by omega
    have cycles : doe / 146096 = 0 := by omega
    -- the periods of 1460 days are the leap periods, but for one that starts early
    have periods : doe / 1460 =
        25 * c + q + if 1460 ≤ 24 * c + q + 365 * k + t then 1 else 0 := by
      split <;> omega
    rw [centuries, cycles, periods]
    split <;> omega

theorem CycleDay.quarters : (100 * c + 4 * q + k) / 4 = 25 * c + q := by
  obtain ⟨century, period, year, -⟩ := at_
  omega

theorem CycleDay.centuries : (100 * c + 4 * q + k) / 100 = c := by
  obtain ⟨century, period, year, -⟩ := at_
  omega

omit at_

/-- The month of a day of the year from March, and the day of that month. -/
def monthOf (mp : Int) : Nat := (if mp < 10 then mp + 3 else mp - 9).toNat

def dayOf (t mp : Int) : Nat := (t - (153 * mp + 2) / 5 + 1).toNat

/-- A day of the year has a month and day of the calendar, for the 366th is a leap day. -/
theorem monthOf_spec {t mp y : Int} (low : 0 ≤ t) (high : t ≤ 365) (month : mp = (5 * t + 2) / 153)
    (leap : t = 365 → isLeapYear y = true) :
    1 ≤ monthOf mp ∧ monthOf mp ≤ 12 ∧ 1 ≤ dayOf t mp ∧ dayOf t mp ≤ daysInMonth y (monthOf mp) ∧
      (if 2 < monthOf mp then (monthOf mp : Int) - 3 else monthOf mp + 9) = mp ∧
      (153 * mp + 2) / 5 + dayOf t mp - 1 = t := by
  obtain ⟨first, last⟩ : 0 ≤ mp ∧ mp ≤ 11 := by omega
  have day : (dayOf t mp : Int) = t - (153 * mp + 2) / 5 + 1 := by
    unfold dayOf
    omega
  have length : dayOf t mp ≤ daysInMonth y (monthOf mp) := by
    -- only February's length depends on the year
    have lengths : daysInMonth y (monthOf mp) =
        if mp = 11 then if isLeapYear y then 29 else 28
        else if mp ∈ [1, 3, 6, 8] then 30 else 31 := by
      interval_cases mp <;> rfl
    rw [lengths]
    by_cases february : mp = 11
    · rw [if_pos february]
      by_cases end_ : t = 365
      · rw [if_pos (leap end_)]
        omega
      · split <;> omega
    · rw [if_neg february]
      split
      · next thirty =>
          simp only [List.mem_cons, List.not_mem_nil, or_false] at thirty
          omega
      · next thirtyOne =>
          simp only [List.mem_cons, List.not_mem_nil, or_false] at thirtyOne
          omega
  have back : (if 2 < monthOf mp then (monthOf mp : Int) - 3 else monthOf mp + 9) = mp := by
    unfold monthOf
    split <;> split <;> omega
  refine ⟨?_, ?_, by omega, length, back, by omega⟩ <;> unfold monthOf <;> split <;> omega

/-- Every day has a month and day of the calendar and is found again from them; the year
stays in the cycle of the day. -/
theorem civilFromDays_spec (z : Int) :
    ∃ y m d, civilFromDays z = (y, m, d) ∧ 1 ≤ m ∧ m ≤ 12 ∧ 1 ≤ d ∧ d ≤ daysInMonth y m ∧
      daysFromCivil y m d = z ∧
      400 * ((z + 719468) / 146097) ≤ y ∧ y ≤ 400 * ((z + 719468) / 146097) + 400 := by
  obtain ⟨era, hera⟩ : ∃ era, era = (z + 719468) / 146097 := ⟨_, rfl⟩
  obtain ⟨doe, hdoe⟩ : ∃ doe, doe = (z + 719468) % 146097 := ⟨_, rfl⟩
  obtain ⟨c, q, k, t, at_⟩ := @exists_cycleDay doe (by omega) (by omega)
  obtain ⟨yoe, hyoe⟩ : ∃ yoe, yoe = 100 * c + 4 * q + k := ⟨_, rfl⟩
  have quarters := at_.quarters
  have centuries := at_.centuries
  have years := at_.yearOfEra
  rw [← hyoe] at quarters centuries years
  have doy : doe - (365 * yoe + yoe / 4 - yoe / 100) = t := by
    have := at_.sum
    omega
  obtain ⟨mp, hmp⟩ : ∃ mp, mp = (5 * t + 2) / 153 := ⟨_, rfl⟩
  have within : 0 ≤ yoe ∧ yoe ≤ 399 := by
    have := at_.century
    have := at_.period
    have := at_.year
    omega
  obtain ⟨y, hy⟩ : ∃ y, y = if monthOf mp ≤ 2 then yoe + era * 400 + 1 else yoe + era * 400 :=
    ⟨_, rfl⟩
  have leap : t = 365 → isLeapYear y = true := by
    intro last
    obtain ⟨third, full⟩ := at_.leap last
    have february : monthOf mp ≤ 2 := by
      rw [hmp, last]
      decide
    rw [if_pos february] at hy
    have := at_.century
    have := at_.period
    unfold isLeapYear
    rw [decide_eq_true_eq]
    omega
  obtain ⟨m1, m12, d1, dn, back, days⟩ := monthOf_spec at_.day.1 at_.day.2 hmp leap
  refine ⟨y, monthOf mp, dayOf t mp, ?_, m1, m12, d1, dn, ?_, ?_, ?_⟩
  · simp only [civilFromDays, ← hera, ← hdoe, years, doy, ← hmp]
    rw [hy]
    rfl
  · have shifted : (if monthOf mp ≤ 2 then y - 1 else y) = yoe + era * 400 := by
      rw [hy]
      split <;> omega
    simp only [daysFromCivil, shifted, back, days]
    rw [show (yoe + era * 400) / 400 = era by omega, show (yoe + era * 400) % 400 = yoe by omega]
    omega
  · rw [hy, ← hera]
    split <;> omega
  · rw [hy, ← hera]
    split <;> omega

end Graphy
