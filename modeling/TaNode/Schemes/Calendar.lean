import Mathlib.Data.Int.ConditionallyCompleteOrder
import Mathlib.Order.ConditionallyCompleteLattice.Basic

/-! The Gregorian calendar, by day numbers.

    Days are numbered from 1970-01-01, months from January of the year 0, so a day is an integer and a
    month is a stretch of integers:

        month      k            k + 1          k + 2
               ├────────────┼─────────────┼────────────
        day    monthStart k   monthStart (k + 1)

    Years are counted from March on, which puts the day that leap years have more at the end of the
    year: `monthStart` is then a sum of quotients, and `monthOf` takes it apart again, from the 400
    years in which the calendar repeats down to the month. -/

namespace TaNode.Calendar

/-- Days before March 1 of a year, from March 1 of the year 0 on. -/
def yearStart (y : Int) : Int := 365 * y + y / 4 - y / 100 + y / 400

/-- Days before a month, counted from March, of its year. -/
def monthOffset (m : Int) : Int := (153 * m + 2) / 5

/-- The first day of a month. -/
def monthStart (k : Int) : Int :=
  yearStart ((k - 2) / 12) + monthOffset ((k - 2) % 12) - 719468

example : monthStart (12 * 1970) = 0 := by decide

/-- The year, from March on, of a day, from March 1 of the year 0 on. -/
def yearOf (d : Int) : Int :=
  let inEra := d % 146097
  let century := min (inEra / 36524) 3
  let inCentury := inEra - 36524 * century
  let cycle := inCentury / 1461
  let inCycle := inCentury - 1461 * cycle
  400 * (d / 146097) + 100 * century + 4 * cycle + min (inCycle / 365) 3

/-- The month of a day. -/
def monthOf (d : Int) : Int :=
  let d := d + 719468
  12 * yearOf d + (5 * (d - yearStart (yearOf d)) + 2) / 153 + 2

example : monthOf 59 = 12 * 1970 + 2 := by decide

/-! ### Years -/

/-- A year by its place in the 400 years. -/
theorem yearStart_eq {era century cycle a : Int} (hcentury : 0 ≤ century ∧ century ≤ 3)
    (hcycle : 0 ≤ cycle ∧ cycle ≤ 24) (ha : 0 ≤ a ∧ a ≤ 3) :
    yearStart (400 * era + 100 * century + 4 * cycle + a) =
      146097 * era + 36524 * century + 1461 * cycle + 365 * a := by
  have hfour : (400 * era + 100 * century + 4 * cycle + a) / 4 = 100 * era + 25 * century + cycle := by
    omega
  have hhundred : (400 * era + 100 * century + 4 * cycle + a) / 100 = 4 * era + century := by omega
  have hera : (400 * era + 100 * century + 4 * cycle + a) / 400 = era := by omega
  rw [yearStart, hfour, hhundred, hera]
  omega

/-- How `yearOf` takes a day apart; only the last century of the 400 years and the last year of four
    have a day more. -/
theorem yearOf_eq (d : Int) : ∃ era century cycle a day : Int,
    yearOf d = 400 * era + 100 * century + 4 * cycle + a ∧
    d = 146097 * era + 36524 * century + 1461 * cycle + 365 * a + day ∧
    (0 ≤ century ∧ century ≤ 3) ∧ (0 ≤ cycle ∧ cycle ≤ 24) ∧ (0 ≤ a ∧ a ≤ 3) ∧ 0 ≤ day ∧
    (a < 3 → day < 365) ∧ (a = 3 → day < 366) ∧
    (cycle = 24 → century < 3 → 365 * a + day < 1460) := by
  have hyear : yearOf d = 400 * (d / 146097) + 100 * min (d % 146097 / 36524) 3 +
      4 * ((d % 146097 - 36524 * min (d % 146097 / 36524) 3) / 1461) +
      min ((d % 146097 - 36524 * min (d % 146097 / 36524) 3 -
        1461 * ((d % 146097 - 36524 * min (d % 146097 / 36524) 3) / 1461)) / 365) 3 := rfl
  generalize hcentury : min (d % 146097 / 36524) 3 = century at hyear
  generalize hcycle : (d % 146097 - 36524 * century) / 1461 = cycle at hyear
  generalize ha : min ((d % 146097 - 36524 * century - 1461 * cycle) / 365) 3 = a at hyear
  refine ⟨d / 146097, century, cycle, a, d % 146097 - 36524 * century - 1461 * cycle - 365 * a, hyear,
    by omega, by omega, by omega, by omega, by omega, by omega, by omega, by omega⟩

/-- The day lies in its year. -/
theorem yearOf_spec (d : Int) : yearStart (yearOf d) ≤ d ∧ d < yearStart (yearOf d + 1) := by
  obtain ⟨era, century, cycle, a, day, hyear, hd, hcentury, hcycle, ha, hday, hshort, hlong, hlast⟩ :=
    yearOf_eq d
  rw [hyear]
  refine ⟨by rw [yearStart_eq hcentury hcycle ha]; omega, ?_⟩
  -- the next year, with the carry it needs
  by_cases hyear : a < 3
  · rw [Int.add_assoc, yearStart_eq hcentury hcycle (by omega)]
    omega
  by_cases hfour : cycle < 24
  · have hnext : 400 * era + 100 * century + 4 * cycle + a + 1 =
        400 * era + 100 * century + 4 * (cycle + 1) + 0 := by omega
    rw [hnext, yearStart_eq hcentury (by omega) (by omega)]
    omega
  by_cases hhundred : century < 3
  · have hnext : 400 * era + 100 * century + 4 * cycle + a + 1 =
        400 * era + 100 * (century + 1) + 4 * 0 + 0 := by omega
    rw [hnext, yearStart_eq (by omega) (by omega) (by omega)]
    omega
  · have hnext : 400 * era + 100 * century + 4 * cycle + a + 1 =
        400 * (era + 1) + 100 * 0 + 4 * 0 + 0 := by omega
    rw [hnext, yearStart_eq (by omega) (by omega) (by omega)]
    omega

/-- A year has 365 or 366 days. -/
theorem yearStart_succ (y : Int) :
    yearStart y + 365 ≤ yearStart (y + 1) ∧ yearStart (y + 1) ≤ yearStart y + 366 := by
  have hhundred : ∀ z : Int, z / 100 = z / 4 / 25 := by omega
  have hera : ∀ z : Int, z / 400 = z / 4 / 25 / 4 := by omega
  rw [yearStart, yearStart, hhundred, hhundred, hera, hera]
  omega

/-! ### Months -/

theorem monthStart_eq (k : Int) {y m : Int} (h : k = 12 * y + m + 2) (hm : 0 ≤ m ∧ m < 12) :
    monthStart k = yearStart y + monthOffset m - 719468 := by
  have hy : (k - 2) / 12 = y := by omega
  have hm : (k - 2) % 12 = m := by omega
  rw [monthStart, hy, hm]

/-- A month has 28 to 31 days. -/
theorem monthStart_succ (k : Int) :
    monthStart k + 28 ≤ monthStart (k + 1) ∧ monthStart (k + 1) ≤ monthStart k + 31 := by
  obtain ⟨y, m, hk, hm⟩ : ∃ y m : Int, k = 12 * y + m + 2 ∧ 0 ≤ m ∧ m < 12 :=
    ⟨(k - 2) / 12, (k - 2) % 12, by omega, by omega⟩
  rw [monthStart_eq k hk hm]
  by_cases hlast : m = 11
  · have hyear := yearStart_succ y
    rw [monthStart_eq (k + 1) (y := y + 1) (m := 0) (by omega) (by omega), monthOffset, monthOffset]
    omega
  · rw [monthStart_eq (k + 1) (y := y) (m := m + 1) (by omega) (by omega), monthOffset, monthOffset]
    omega

theorem monthStart_strictMono : StrictMono monthStart :=
  strictMono_int_of_lt_succ fun k => by have := monthStart_succ k; omega

/-- The day lies in its month. -/
theorem monthOf_spec (d : Int) : monthStart (monthOf d) ≤ d ∧ d < monthStart (monthOf d + 1) := by
  have hmonth : monthOf d = 12 * yearOf (d + 719468) +
      (5 * (d + 719468 - yearStart (yearOf (d + 719468))) + 2) / 153 + 2 := rfl
  obtain ⟨hlo, hhi⟩ := yearOf_spec (d + 719468)
  have hlength := yearStart_succ (yearOf (d + 719468))
  generalize yearOf (d + 719468) = y at hmonth hlo hhi hlength
  generalize hm : (5 * (d + 719468 - yearStart y) + 2) / 153 = m at hmonth
  rw [monthStart_eq _ hmonth (by omega)]
  refine ⟨by rw [monthOffset]; omega, ?_⟩
  by_cases hlast : m = 11
  · rw [monthStart_eq (monthOf d + 1) (y := y + 1) (m := 0) (by omega) (by omega), monthOffset]
    omega
  · rw [monthStart_eq (monthOf d + 1) (y := y) (m := m + 1) (by omega) (by omega), monthOffset]
    omega

/-- A day has one month. -/
theorem monthOf_eq_iff {d k : Int} : monthOf d = k ↔ monthStart k ≤ d ∧ d < monthStart (k + 1) := by
  constructor
  · rintro rfl
    exact monthOf_spec d
  · rintro ⟨hlo, hhi⟩
    obtain ⟨hlo', hhi'⟩ := monthOf_spec d
    have hle : monthOf d < k + 1 := monthStart_strictMono.lt_iff_lt.mp (hlo'.trans_lt hhi)
    have hge : k < monthOf d + 1 := monthStart_strictMono.lt_iff_lt.mp (hlo.trans_lt hhi')
    omega

end TaNode.Calendar
