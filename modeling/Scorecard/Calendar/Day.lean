/-! Days and months of the proleptic Gregorian calendar. Days are counted from
Monday, 3 January of the year 0, so that every multiple of seven is a Monday;
months are counted from January of the year 0. -/
namespace Scorecard.Calendar

def isLeap (year : Int) : Bool :=
  year % 4 == 0 && (year % 100 != 0 || year % 400 == 0)

/-- The number of 1 January of a year: two days before the origin in the year 0,
with one more day for every leap year in between. -/
def yearStart (year : Int) : Int :=
  365 * year + (year + 3) / 4 - (year + 99) / 100 + (year + 399) / 400 - 2

/-- The days of a year before its month number `month`, counted from zero. -/
def daysBefore (leap : Bool) (month : Nat) : Nat :=
  let common := match month with
    | 0 => 0 | 1 => 31 | 2 => 59 | 3 => 90 | 4 => 120 | 5 => 151
    | 6 => 181 | 7 => 212 | 8 => 243 | 9 => 273 | 10 => 304 | 11 => 334
    | _ => 365
  if leap && 2 ≤ month then common + 1 else common

/-- The first day of a month; twelve months to a year. -/
def monthStart (month : Int) : Int :=
  let year := month / 12
  yearStart year + daysBefore (isLeap year) (month % 12).toNat

/-- The number of days of a month. -/
def monthLength (month : Int) : Nat :=
  (monthStart (month + 1) - monthStart month).toNat

/-- The year that a day lies in. Four centuries have 146097 days; the even share
of a day is off by a year at most. -/
def yearOf (day : Int) : Int :=
  let year := 400 * (day + 2) / 146097
  if day < yearStart year then year - 1
  else if yearStart (year + 1) ≤ day then year + 1
  else year

/-- The month that a day lies in. -/
def monthOf (day : Int) : Int :=
  let year := yearOf day
  let dayOfYear := (day - yearStart year).toNat
  let later := (List.range 11).countP fun m => daysBefore (isLeap year) (m + 1) ≤ dayOfYear
  12 * year + later

theorem yearStart_succ (year : Int) :
    yearStart (year + 1) = yearStart year + (if isLeap year then 366 else 365) := by
  by_cases h4 : year % 4 = 0 <;> by_cases h100 : year % 100 = 0 <;>
    by_cases h400 : year % 400 = 0 <;> simp [yearStart, isLeap, h4, h100, h400] <;> omega

theorem yearStart_yearOf_le (day : Int) : yearStart (yearOf day) ≤ day := by
  simp only [yearOf]
  split
  · simp only [yearStart] at *; omega
  · split <;> simp only [yearStart] at * <;> omega

theorem lt_yearStart_yearOf (day : Int) : day < yearStart (yearOf day + 1) := by
  simp only [yearOf]
  split
  · rwa [Int.sub_add_cancel]
  · split <;> simp only [yearStart] at * <;> omega

end Scorecard.Calendar
