import DocWalk.Date.Calendar
import Mathlib.Algebra.GroupWithZero.Nat

/-!
# Days and dates

A year is as long as its months, so every day lies in one year, in one month of it and on one day of
that month. The estimate of the year is right because the first day of a year lies within two days of
where the mean length of a year puts it.

**The law** (`dayOfDate_dateOfDay`): the date of a day is the date of that day only. On the days of
the calendar's range it exists (`isDate_dateOfDay`).
-/

set_option autoImplicit false

namespace DocWalk.Calendar

/-! ## Years -/

/-- Days of a year. -/
def yearLength (year : Int) : Nat :=
  if isLeap year then 366 else 365

theorem isLeap_iff (year : Int) :
    isLeap year = true ↔ year % 4 = 0 ∧ (year % 100 ≠ 0 ∨ year % 400 = 0) := by
  simp [isLeap]

/-- A year later the first day is the days of the year later. -/
theorem daysToYear_succ (year : Int) :
    daysToYear (year + 1) = daysToYear year + yearLength year := by
  have hleap := isLeap_iff year
  unfold daysToYear leapsThrough yearLength
  rw [Int.add_sub_cancel]
  split
  next h =>
    have := hleap.mp h
    omega
  next h =>
    have := mt hleap.mpr h
    omega

/-- The first day of a year lies within two days of where the mean length of a year puts it. -/
theorem mul_daysToYear_bounds (year : Int) :
    146097 * (year - 1970) - 506 ≤ 400 * daysToYear year ∧
      400 * daysToYear year ≤ 146097 * (year - 1970) + 589 := by
  unfold daysToYear leapsThrough
  omega

theorem lt_of_daysToYear_lt {year later : Int} (h : daysToYear year < daysToYear later) :
    year < later := by
  have hyear := mul_daysToYear_bounds year
  have hlater := mul_daysToYear_bounds later
  rcases Int.lt_trichotomy year later with hlt | rfl | hgt
  · exact hlt
  · exact absurd h (Int.lt_irrefl _)
  · omega

/-- A day lies in its year. -/
theorem yearOfDay_bounds (day : Int) :
    daysToYear (yearOfDay day) ≤ day ∧ day < daysToYear (yearOfDay day + 1) := by
  -- The year that the mean length gives is off by one at most, on either side.
  have hbefore := mul_daysToYear_bounds (1970 + day * 400 / 146097 - 1)
  have hbehind := mul_daysToYear_bounds (1970 + day * 400 / 146097 + 1 + 1)
  unfold yearOfDay
  dsimp only
  split
  next h =>
    rw [Int.sub_add_cancel]
    exact ⟨by omega, h⟩
  next h =>
    split
    next hnext => exact ⟨hnext, by omega⟩
    next hnext => exact ⟨by omega, by omega⟩

/-! ## Months -/

/-- Passing months leads to a month and a day in it. -/
theorem passMonths_spec {lengths : List Nat} {day : Nat} (h : day < lengths.sum) :
    ∃ length, lengths[(passMonths lengths day).1]? = some length ∧
      (passMonths lengths day).2 < length ∧
      (lengths.take (passMonths lengths day).1).sum + (passMonths lengths day).2 = day := by
  induction lengths generalizing day with
  | nil => exact absurd h (Nat.not_lt_zero day)
  | cons length lengths ih =>
    rw [passMonths]
    split
    next hlt => exact ⟨length, rfl, hlt, Nat.zero_add day⟩
    next hle =>
      rw [List.sum_cons] at h
      have hday : day - length < lengths.sum := by omega
      obtain ⟨found, hfound, hlt, hsum⟩ := ih hday
      refine ⟨found, hfound, hlt, ?_⟩
      show (length :: lengths.take (passMonths lengths (day - length)).1).sum +
        (passMonths lengths (day - length)).2 = day
      rw [List.sum_cons]
      omega

/-- The months of a year make up its days. -/
theorem sum_monthLengths (year : Int) : (monthLengths year).sum = yearLength year := by
  unfold monthLengths yearLength
  cases isLeap year with
  | true => rfl
  | false => rfl

/-! ## Days -/

theorem dayOfYear_lt (day : Int) :
    (day - daysToYear (yearOfDay day)).toNat < (monthLengths (yearOfDay day)).sum := by
  obtain ⟨hfirst, hnext⟩ := yearOfDay_bounds day
  rw [daysToYear_succ] at hnext
  rw [sum_monthLengths]
  omega

/-- **The day of a day's date** is that day. -/
theorem dayOfDate_dateOfDay (day : Int) : dayOfDate (dateOfDay day) = day := by
  obtain ⟨hfirst, _⟩ := yearOfDay_bounds day
  obtain ⟨length, _, _, hsum⟩ := passMonths_spec (dayOfYear_lt day)
  rw [dateOfDay, dayOfDate]
  dsimp only
  rw [Nat.add_sub_cancel, ← List.sum_eq_foldl]
  omega

theorem isDate_iff {date : CalendarDate} : isDate date = true ↔
    (firstYear ≤ date.year ∧ date.year ≤ lastYear) ∧ 1 ≤ date.month ∧ 1 ≤ date.day ∧
      ∃ length, (monthLengths date.year)[date.month - 1]? = some length ∧ date.day ≤ length := by
  unfold isDate
  cases (monthLengths date.year)[date.month - 1]? with
  | none => simp
  | some length => simp [and_assoc]

theorem length_monthLengths (year : Int) : (monthLengths year).length = 12 :=
  rfl

theorem le_of_mem_monthLengths {year : Int} {length : Nat} (h : length ∈ monthLengths year) :
    length ≤ 31 := by
  have hall (leap : Bool) : ∀ length ∈ [31, if leap then 29 else 28, 31, 30, 31, 30, 31, 31, 30, 31,
      30, 31], length ≤ 31 := by
    revert leap
    decide
  exact hall (isLeap year) length h

/-- The month and the day of a date have two digits at most. -/
theorem bounds_of_isDate {date : CalendarDate} (h : isDate date = true) :
    date.month ≤ 12 ∧ date.day ≤ 31 := by
  obtain ⟨_, hmonth, _, length, hlength, hday⟩ := isDate_iff.mp h
  obtain ⟨hindex, _⟩ := List.getElem?_eq_some_iff.mp hlength
  rw [length_monthLengths] at hindex
  exact ⟨by omega, Nat.le_trans hday (le_of_mem_monthLengths (List.mem_of_getElem? hlength))⟩

theorem yearOfDay_inRange {day : Int} (h : isDay day = true) :
    firstYear ≤ yearOfDay day ∧ yearOfDay day ≤ lastYear := by
  obtain ⟨hfirst, hlast⟩ : daysToYear firstYear ≤ day ∧ day < daysToYear (lastYear + 1) := by
    simpa [isDay] using h
  obtain ⟨hyear, hnext⟩ := yearOfDay_bounds day
  have hbehind := lt_of_daysToYear_lt (Int.lt_of_le_of_lt hfirst hnext)
  have hbefore := lt_of_daysToYear_lt (Int.lt_of_le_of_lt hyear hlast)
  exact ⟨Int.lt_add_one_iff.mp hbehind, Int.lt_add_one_iff.mp hbefore⟩

/-- On the days of the calendar's range the date exists. -/
theorem isDate_dateOfDay {day : Int} (h : isDay day = true) : isDate (dateOfDay day) = true := by
  obtain ⟨length, hlength, hlt, _⟩ := passMonths_spec (dayOfYear_lt day)
  rw [isDate_iff]
  exact ⟨yearOfDay_inRange h, Nat.succ_pos _, Nat.succ_pos _, length, hlength, hlt⟩

end DocWalk.Calendar
