/-!
# The calendar

Days counted from 1970-01-01 and dates of the Gregorian calendar, which is taken to hold for all
years, before its introduction and before year one too.
-/

set_option autoImplicit false

namespace DocWalk

/-- A date of the calendar. -/
structure CalendarDate where
  year : Int
  /-- From 1 to 12. -/
  month : Nat
  /-- From 1 on. -/
  day : Nat
  deriving DecidableEq, Repr, Inhabited

namespace Calendar

/-- Every fourth year is a leap year, save the full centuries that four hundred does not divide. -/
def isLeap (year : Int) : Bool :=
  year % 4 = 0 && (year % 100 ≠ 0 || year % 400 = 0)

/-- The lengths of the months. -/
def monthLengths (year : Int) : List Nat :=
  [31, if isLeap year then 29 else 28, 31, 30, 31, 30, 31, 31, 30, 31, 30, 31]

/-- Leap years up to the end of a year, counted from the year before year one. -/
def leapsThrough (year : Int) : Int :=
  year / 4 - year / 100 + year / 400

/-- Days from 1970-01-01 to the first day of a year. -/
def daysToYear (year : Int) : Int :=
  365 * (year - 1970) + (leapsThrough (year - 1) - leapsThrough 1969)

/-- The year that a day lies in. An estimate from the mean length of a year is never off by more than
one. -/
def yearOfDay (day : Int) : Int :=
  let guess := 1970 + day * 400 / 146097
  if day < daysToYear guess then guess - 1
  else if daysToYear (guess + 1) ≤ day then guess + 1
  else guess

/-- Passes whole months of the given lengths: the number of the month reached and the day in it, both
counted from zero. -/
def passMonths : List Nat → Nat → Nat × Nat
  | [], day => (0, day)
  | length :: lengths, day =>
    if day < length then (0, day)
    else
      let (month, day) := passMonths lengths (day - length)
      (month + 1, day)

/-- The date of a day. -/
def dateOfDay (day : Int) : CalendarDate :=
  let year := yearOfDay day
  let (month, dayOfMonth) := passMonths (monthLengths year) (day - daysToYear year).toNat
  ⟨year, month + 1, dayOfMonth + 1⟩

/-- The day of a date. -/
def dayOfDate (date : CalendarDate) : Int :=
  let passed : Nat := ((monthLengths date.year).take (date.month - 1)).foldl (· + ·) 0
  daysToYear date.year + passed + (date.day - 1)

/-- The day of the week, counted from zero for Monday. -/
def weekdayOfDay (day : Int) : Nat :=
  ((day + 3) % 7).toNat

/-- The first year of the calendar's range. -/
def firstYear : Int := -262143

/-- The last year of the calendar's range. -/
def lastYear : Int := 262142

/-- Whether the date exists and lies in the calendar's range. -/
def isDate (date : CalendarDate) : Bool :=
  firstYear ≤ date.year && date.year ≤ lastYear
    && 1 ≤ date.month && 1 ≤ date.day
    && match (monthLengths date.year)[date.month - 1]? with
      | some length => date.day ≤ length
      | none => false

/-- Whether the day lies in the calendar's range. -/
def isDay (day : Int) : Bool :=
  daysToYear firstYear ≤ day && day < daysToYear (lastYear + 1)

end Calendar

end DocWalk
