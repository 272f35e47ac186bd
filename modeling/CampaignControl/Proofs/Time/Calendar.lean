import CampaignControl.Time.Calendar
import Mathlib.Tactic.IntervalCases

/-!
# Days and their numbers

`Date.ofNumber` finds the day with a number: the day exists (`Date.exists_ofNumber`) and its
number is the one it was found by (`Date.number_ofNumber`).

A day of an era of 400 years has exactly one form with a century, a cycle of four years in it, a
year in the cycle and a day in the year (`Date.Parts`). Only the last year of a cycle has a 366th
day, and of the last cycles of the four centuries only the last one has it.
-/

namespace CampaignControl
namespace Date

/-- The day of an era as century, cycle of four years, year of the cycle and day of the year. -/
structure Parts (inEra century cycle year day : Int) : Prop where
  century_nonneg : 0 ≤ century
  century_le : century ≤ 3
  cycle_nonneg : 0 ≤ cycle
  cycle_le : cycle ≤ 24
  year_nonneg : 0 ≤ year
  year_le : year ≤ 3
  day_nonneg : 0 ≤ day
  day_le : day ≤ 365
  leap : day = 365 → year = 3 ∧ (cycle < 24 ∨ century = 3)
  sum : inEra = 36524 * century + 1461 * cycle + 365 * year + day

theorem exists_parts {d : Int} (h0 : 0 ≤ d) (h1 : d < 146097) :
    ∃ century cycle year day, Parts d century cycle year day := by
  have hc : ∃ c, 0 ≤ c ∧ c ≤ 3 ∧ 36524 * c ≤ d ∧ (d < 36524 * c + 36524 ∨ c = 3) := by
    refine ⟨min (d / 36524) 3, ?_⟩
    omega
  obtain ⟨c, hc0, hc1, hc2, hc3⟩ := hc
  have hr : ∃ r, 0 ≤ r ∧ r ≤ 3 ∧ 365 * r ≤ (d - 36524 * c) % 1461 ∧
      ((d - 36524 * c) % 1461 < 365 * r + 365 ∨ r = 3) := by
    refine ⟨min ((d - 36524 * c) % 1461 / 365) 3, ?_⟩
    omega
  obtain ⟨r, hr0, hr1, hr2, hr3⟩ := hr
  refine ⟨c, (d - 36524 * c) / 1461, r, (d - 36524 * c) % 1461 - 365 * r, ?_⟩
  constructor <;> omega

namespace Parts

variable {d c q r s : Int}

/-- The year within the era, as it is computed. -/
theorem yearInEra (h : Parts d c q r s) :
    (d - d / 1460 + d / 36524 - d / 146096) / 365 = 100 * c + 4 * q + r := by
  obtain ⟨hc0, hc1, hq0, hq1, hr0, hr1, hs0, hs1, hl, hd⟩ := h
  have hcent : d / 36524 = c ∨ d = 146096 := by omega
  have hcycle : d / 1460 = 25 * c + q ∨ d / 1460 = 25 * c + q + 1 := by omega
  rcases hcent with hcent | hlast
  · have hera : d / 146096 = 0 := by omega
    rw [hcent, hera]
    rcases hcycle with hcycle | hcycle
    · rw [hcycle]; omega
    · rw [hcycle]; omega
  · omega

/-- The day within the year, as it is computed. -/
theorem dayInYear (h : Parts d c q r s) (hy : y = 100 * c + 4 * q + r) :
    d - (365 * y + y / 4 - y / 100) = s := by
  obtain ⟨hc0, hc1, hq0, hq1, hr0, hr1, hs0, hs1, hl, hd⟩ := h
  have h4 : y / 4 = 25 * c + q := by omega
  have h100 : y / 100 = c := by omega
  rw [h4, h100]
  omega

/-- A year with a 366th day ends in the February of a leap year. -/
theorem isLeapYear (h : Parts d c q r s) (hs : s = 365) (era : Int) :
    Date.isLeapYear (100 * c + 4 * q + r + era * 400 + 1) = true := by
  obtain ⟨hr, hq⟩ := h.leap hs
  obtain ⟨hc0, hc1, hq0, hq1, -, -, -, -, -, -⟩ := h
  simp only [Date.isLeapYear, Bool.and_eq_true, Bool.or_eq_true, decide_eq_true_eq, ne_eq]
  omega

end Parts

/-- What the day with a number is made of: the parts of its era, the months since March and the
day of the month. -/
theorem ofNumber_parts (number : Int) :
    ∃ era c q r s m : Int, ∃ d : Nat, Parts ((number + 719468) % 146097) c q r s ∧
      number + 719468 = era * 146097 + (number + 719468) % 146097 ∧ 0 ≤ m ∧ m ≤ 11 ∧
      (153 * m + 2) / 5 ≤ s ∧ s < (153 * (m + 1) + 2) / 5 ∧
      (d : Int) = s - (153 * m + 2) / 5 + 1 ∧
      ofNumber number =
        { year := 100 * c + 4 * q + r + era * 400 + if m < 10 then 0 else 1
          month := (if m < 10 then m + 3 else m - 9).toNat
          day := d } := by
  obtain ⟨c, q, r, s, hp⟩ := exists_parts (d := (number + 719468) % 146097)
    (Int.emod_nonneg _ (by decide)) (Int.emod_lt_of_pos _ (by decide))
  have hs0 := hp.day_nonneg
  have hs1 := hp.day_le
  refine ⟨(number + 719468) / 146097, c, q, r, s, (5 * s + 2) / 153,
    (s - (153 * ((5 * s + 2) / 153) + 2) / 5 + 1).toNat, hp, by omega, by omega, by omega,
    by omega, by omega, by omega, ?_⟩
  simp only [ofNumber, hp.yearInEra, hp.dayInYear rfl]
  congr 1
  by_cases hm : (5 * s + 2) / 153 < 10
  · rw [if_pos hm, if_pos hm, if_neg (by omega)]
    omega
  · rw [if_neg hm, if_neg hm, if_pos (by omega)]

theorem number_ofNumber (number : Int) : (ofNumber number).number = number := by
  obtain ⟨era, c, q, r, s, m, d, hp, hera, hm0, hm1, hs0, hs1, hd, he⟩ := ofNumber_parts number
  obtain ⟨hc0, hc1, hq0, hq1, hr0, hr1, -, -, -, hsum⟩ := hp
  have hyear : 0 ≤ 100 * c + 4 * q + r ∧ 100 * c + 4 * q + r < 400 := by omega
  have h4 : (100 * c + 4 * q + r) / 4 = 25 * c + q := by omega
  have h100 : (100 * c + 4 * q + r) / 100 = c := by omega
  have hmonth : ((if m < 10 then m + 3 else m - 9).toNat : Int) =
      if m < 10 then m + 3 else m - 9 := by split <;> omega
  have hmarch : ((if m < 10 then m + 3 else m - 9) + 9) % 12 = m := by split <;> omega
  have hstart : (if (if m < 10 then m + 3 else m - 9).toNat ≤ 2 then
      100 * c + 4 * q + r + era * 400 + (if m < 10 then 0 else 1) - 1
      else 100 * c + 4 * q + r + era * 400 + if m < 10 then 0 else 1) =
      100 * c + 4 * q + r + era * 400 := by split <;> split <;> omega
  rw [he]
  simp only [Date.number, hstart, hmonth, hmarch, hd]
  rw [show (100 * c + 4 * q + r + era * 400) % 400 = 100 * c + 4 * q + r by omega,
    show (100 * c + 4 * q + r + era * 400) / 400 = era by omega, h4, h100]
  omega

theorem exists_ofNumber (number : Int) : (ofNumber number).Exists := by
  obtain ⟨era, c, q, r, s, m, d, hp, hera, hm0, hm1, hs0, hs1, hd, he⟩ := ofNumber_parts number
  have hle := hp.day_le
  rw [he]
  refine ⟨show 1 ≤ d by omega, ?_⟩
  -- the months from March on have a fixed length, apart from the last one
  by_cases hfeb : m = 11
  · subst hfeb
    show d ≤ if isLeapYear (100 * c + 4 * q + r + era * 400 + 1) then 29 else 28
    by_cases hs : s = 365
    · rw [if_pos (hp.isLeapYear hs era)]
      omega
    · split <;> omega
  · interval_cases m <;> simp [daysIn] <;> omega

/-- The month of a day that exists is one of twelve. -/
theorem Exists.month_bounds {date : Date} (h : date.Exists) : 1 ≤ date.month ∧ date.month ≤ 12 := by
  obtain ⟨h1, h2⟩ := h
  unfold daysIn at h2
  split at h2 <;> omega

/-- No month has more than 31 days. -/
theorem Exists.day_le {date : Date} (h : date.Exists) : date.day ≤ 31 := by
  refine Nat.le_trans h.2 ?_
  unfold daysIn
  split
  any_goals decide
  split <;> decide

end Date
end CampaignControl
