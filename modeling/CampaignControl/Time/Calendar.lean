/-!
# The calendar

Days of the proleptic Gregorian calendar, counted from the first of January 1970. A year of
the count starts in March, so that the leap day is the last one of its year; 400 such years
have 146097 days.
-/

namespace CampaignControl

/-- A day by year, month and day of the month. -/
structure Date where
  year : Int
  month : Nat
  day : Nat
  deriving DecidableEq, Repr, Inhabited

namespace Date

def isLeapYear (year : Int) : Bool :=
  year % 4 = 0 && (year % 100 ≠ 0 || year % 400 = 0)

/-- The number of days of a month, or zero for a number that names no month. -/
def daysIn (year : Int) (month : Nat) : Nat :=
  match month with
  | 1 | 3 | 5 | 7 | 8 | 10 | 12 => 31
  | 4 | 6 | 9 | 11 => 30
  | 2 => if isLeapYear year then 29 else 28
  | _ => 0

/-- Whether the month and the day exist. -/
def Exists (date : Date) : Prop := 1 ≤ date.day ∧ date.day ≤ daysIn date.year date.month

instance (date : Date) : Decidable date.Exists := by unfold Exists; infer_instance

/-- The number of the day, counted from the first of January 1970. -/
def number (date : Date) : Int :=
  let year := if date.month ≤ 2 then date.year - 1 else date.year
  let inEra := year % 400
  let monthFromMarch : Int := (date.month + 9) % 12
  let inYear := (153 * monthFromMarch + 2) / 5 + (date.day - 1)
  year / 400 * 146097 + (inEra * 365 + inEra / 4 - inEra / 100 + inYear) - 719468

/-- The day with this number. -/
def ofNumber (number : Int) : Date :=
  let days := number + 719468
  let inEra := days % 146097
  let yearInEra := (inEra - inEra / 1460 + inEra / 36524 - inEra / 146096) / 365
  let inYear := inEra - (365 * yearInEra + yearInEra / 4 - yearInEra / 100)
  let monthFromMarch := (5 * inYear + 2) / 153
  let month := if monthFromMarch < 10 then monthFromMarch + 3 else monthFromMarch - 9
  let year := yearInEra + days / 146097 * 400
  { year := if month ≤ 2 then year + 1 else year
    month := month.toNat
    day := (inYear - (153 * monthFromMarch + 2) / 5 + 1).toNat }

example : number ⟨1970, 1, 1⟩ = 0 := by decide
example : ofNumber (-1) = ⟨1969, 12, 31⟩ := by decide
example : ofNumber (number ⟨2000, 2, 29⟩) = ⟨2000, 2, 29⟩ := by decide

end Date
end CampaignControl
