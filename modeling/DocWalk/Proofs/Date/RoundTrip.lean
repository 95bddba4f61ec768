import DocWalk.Date.Standard
import DocWalk.Proofs.Date.Items

/-!
# Dates written and read again

A format whose items can be told apart reads back what it writes, as far as it writes it: the fields
are those the clock shows, so they make a date that exists, and the instant is made again of them.

**The laws**: ISO 8601 with milliseconds gives every instant back to the millisecond as a clock shows
it, in leap seconds and in years of any length too, and what comes back is written the same
(`parse_write`). Its compressed form gives the second back (`parse_writeCompressed`). There nothing
stands between year and month, so a year has to end by itself, as one of four digits does.

A leap second that does not stand at the end of a minute is the one kind of instant that does not come
back: no clock shows it (`parse_write_offMinute`, `parse_writeCompressed_offMinute`).
-/

set_option autoImplicit false

namespace DocWalk

open DateReading (Separate written NoDigitNext)

/-- Milliseconds are written of whole milliseconds. -/
theorem DateItem.write_truncated (time : CivilTime) (item : DateItem) :
    item.write (time.truncated 1000000) = item.write time := by
  cases item with
  | millis =>
    show Digits.padded 3 (time.nanos / 1000000 * 1000000 / 1000000) = _
    rw [Nat.mul_div_cancel _ (by decide)]
    rfl
  | literal | space | year | month | day | hour | minute | second | weekdayName | monthName => rfl

namespace DateFormat

theorem toList_write (format : DateFormat) (instant : Instant) :
    (format.write instant).toList = written instant.toCivil format.items := by
  rw [write, String.toList_join, List.flatMap_map]
  rfl

/-- A format whose items end where the next begin reads what it has written. -/
theorem read_write {format : DateFormat} {instant : Instant} (h : instant.IsShown)
    (hitems : Separate instant.toCivil format.items) :
    format.read (format.write instant) =
      (DateReading.recordAll {} instant.toCivil format.items).toInstant := by
  have hread := DateReading.readItems_written h.toCivil {} hitems
  rw [read, toList_write, hread]
  rfl

/-- What is cut off below the millisecond is not written. -/
theorem write_truncated (format : DateFormat) (instant : Instant) :
    format.write (instant.truncated 1000000) = format.write instant := by
  rw [write, write, Instant.toCivil_truncated (by decide)]
  simp only [DateItem.write_truncated]

/-- An instant is written as a clock shows it. -/
theorem write_settled (format : DateFormat) {instant : Instant} (h : instant.IsHeld) :
    format.write instant.settled = format.write instant := by
  rw [write, write, h.toCivil_settled]

end DateFormat

/-- The time without its part of a second. -/
def CivilTime.wholeSecond (time : CivilTime) : CivilTime :=
  { time with nanos := 0 }

theorem CivilTime.IsShown.truncated_second {time : CivilTime} (h : time.IsShown) :
    time.truncated Instant.nanosPerSecond = time.wholeSecond := by
  have hnone : time.nanos / Instant.nanosPerSecond = 0 := Nat.div_eq_of_lt h.nanos_lt
  rw [truncated, hnone, Nat.zero_mul]
  rfl

namespace DateReading

/-- Fields that make a date make an instant, if the day of the week is its own where one is named. -/
theorem toInstant_of_weekday {time : CivilTime} (h : Calendar.isDate time.date = true)
    {weekday : Option Nat} (hweekday : ∀ day ∈ weekday, day = time.weekday) :
    (⟨time, weekday⟩ : DateReading).toInstant = .ok time.toInstant := by
  have hsame : weekday.any (· ≠ time.weekday) = false := by
    cases weekday with
    | none => rfl
    | some day =>
      rw [Option.any_some, hweekday day rfl]
      exact decide_eq_false (not_not_intro rfl)
  rw [toInstant]
  dsimp only
  rw [h, hsame]
  rfl

/-- Fields that make a date, with no day of the week named, make an instant. -/
theorem toInstant_of_isDate {time : CivilTime} (h : Calendar.isDate time.date = true) :
    (⟨time, none⟩ : DateReading).toInstant = .ok time.toInstant :=
  toInstant_of_weekday h nofun

/-- The fields of a whole second make the instant again, without its part of a second. -/
theorem toInstant_wholeSecond {instant : Instant} (h : instant.IsShown) {weekday : Option Nat}
    (hweekday : ∀ day ∈ weekday, day = instant.toCivil.weekday) :
    (⟨instant.toCivil.wholeSecond, weekday⟩ : DateReading).toInstant =
      .ok (instant.truncated Instant.nanosPerSecond) := by
  have hmade := Instant.toInstant_truncated h (Nat.dvd_refl Instant.nanosPerSecond)
  rw [h.toCivil.truncated_second] at hmade
  have hdate : Calendar.isDate instant.toCivil.wholeSecond.date = true := h.toCivil.isDate
  rw [← hmade]
  exact @toInstant_of_weekday instant.toCivil.wholeSecond hdate weekday hweekday

end DateReading

/-- The year is written with four digits and no sign. -/
def CivilTime.HasPlainYear (time : CivilTime) : Prop :=
  0 ≤ time.date.year ∧ time.date.year ≤ 9999

namespace Iso8601

/-- In the extended form every field ends at the mark behind it. -/
theorem separate_items (time : CivilTime) : Separate time DateFormat.iso8601.items := by
  have hdash : NoDigitNext (written time (.literal '-' :: DateFormat.iso8601.items.drop 2)) := by
    rw [DateReading.written_literal]
    rintro c ⟨⟩
    rfl
  exact ⟨.inr hdash, trivial, trivial, trivial, trivial, trivial, trivial, trivial, trivial, trivial,
    trivial, trivial, trivial, trivial, trivial⟩

/-- It has all fields of a time, the nanoseconds to the millisecond. -/
theorem record_items (time : CivilTime) :
    DateReading.recordAll {} time DateFormat.iso8601.items = ⟨time.truncated 1000000, none⟩ :=
  rfl

/-- What is read is the settled instant, to the millisecond. -/
theorem parse_write_settled {instant : Instant} (h : instant.IsHeld) :
    parse (write instant) = .ok (instant.settled.truncated 1000000) := by
  have hshown := h.settled
  have hdate : Calendar.isDate (instant.settled.toCivil.truncated 1000000).date = true :=
    hshown.toCivil.isDate
  have hread : DateFormat.iso8601.read (write instant) = .ok (instant.settled.truncated 1000000) := by
    rw [write, ← DateFormat.write_settled _ h, DateFormat.read_write hshown (separate_items _),
      record_items, DateReading.toInstant_of_isDate hdate,
      Instant.toInstant_truncated hshown (by decide)]
  rw [parse, DateFormat.parse, hread]
  rfl

/-- **ISO 8601 gives an instant back** as a clock shows it, to the millisecond, and what comes back is
written as before. It is the instant itself but for a leap second that stands at no end of a minute. A
leap second at the end of one stays one. -/
theorem parse_write {instant : Instant} (h : instant.IsHeld) :
    parse (write instant) = .ok (instant.settled.truncated 1000000) ∧
      write (instant.settled.truncated 1000000) = write instant ∧
      (instant.settled = instant ↔ instant.IsShown) ∧
      (Instant.nanosPerSecond ≤ (instant.settled.truncated 1000000).nanos ↔
        Instant.nanosPerSecond ≤ instant.nanos ∧ instant.seconds % 60 = 59) := by
  refine ⟨parse_write_settled h, ?_, h.settled_eq_iff, ?_⟩
  · exact (DateFormat.write_truncated _ instant.settled).trans (DateFormat.write_settled _ h)
  · rw [Instant.le_nanos_truncated_iff (by decide), h.le_nanos_settled_iff]

/-- A leap second at the end of June in a year of five digits, and a noon in a year before year zero. -/
theorem parse_write_leapSecond :
    parse (write ⟨327419020799, 1123456789⟩) = .ok ⟨327419020799, 1123000000⟩ ∧
      parse (write ⟨-63549316800, 0⟩) = .ok ⟨-63549316800, 0⟩ := by
  have hleap : (⟨327419020799, 1123456789⟩ : Instant).IsHeld := ⟨by decide, by decide⟩
  have hbefore : (⟨-63549316800, 0⟩ : Instant).IsHeld := ⟨by decide, by decide⟩
  exact ⟨(parse_write hleap).1, (parse_write hbefore).1⟩

/-- A leap second behind the fourth second of a minute is written as the fifth one, and comes back as
that. -/
theorem parse_write_offMinute :
    (⟨4, 1333333333⟩ : Instant).IsHeld ∧
      write ⟨4, 1333333333⟩ = "1970-01-01T00:00:05.333Z" ∧
      parse (write ⟨4, 1333333333⟩) = .ok ⟨5, 333000000⟩ ∧
      parse (write ⟨4, 1333333333⟩) ≠ .ok ((⟨4, 1333333333⟩ : Instant).truncated 1000000) := by
  have hheld : (⟨4, 1333333333⟩ : Instant).IsHeld := ⟨by decide, by decide⟩
  have hread : parse (write ⟨4, 1333333333⟩) = .ok ⟨5, 333000000⟩ := parse_write_settled hheld
  refine ⟨hheld, by decide +kernel, hread, ?_⟩
  rw [hread]
  exact fun hsame => absurd (Except.ok.inj hsame) (by decide)

end Iso8601

namespace CompressedIso8601

/-- A year of four digits ends where the month begins, and the other fields have two digits each. -/
theorem separate_items {time : CivilTime} (h : time.HasPlainYear) :
    Separate time DateFormat.compressedIso8601.items :=
  ⟨.inl h, trivial, trivial, trivial, trivial, trivial, trivial, trivial, trivial⟩

/-- It has all fields of a time but the nanoseconds. -/
theorem record_items (time : CivilTime) :
    DateReading.recordAll {} time DateFormat.compressedIso8601.items =
      ⟨time.wholeSecond, none⟩ :=
  rfl

/-- What is read is the settled instant, to the second. -/
theorem parse_write_settled {instant : Instant} (h : instant.IsHeld)
    (hyear : instant.toCivil.HasPlainYear) :
    parse (write instant) = .ok (instant.settled.truncated Instant.nanosPerSecond) := by
  have hread : DateFormat.compressedIso8601.read (write instant) =
      .ok (instant.settled.truncated Instant.nanosPerSecond) := by
    rw [← h.toCivil_settled] at hyear
    rw [write, ← DateFormat.write_settled _ h,
      DateFormat.read_write h.settled (separate_items hyear), record_items]
    exact DateReading.toInstant_wholeSecond h.settled nofun
  rw [parse, DateFormat.parse, hread]
  rfl

/-- **The compressed form gives an instant back** as a clock shows it, to the second, in years of four
digits, although nothing stands between its fields. It is the instant itself but for a leap second that
stands at no end of a minute. A leap second at the end of one stays one. -/
theorem parse_writeCompressed {instant : Instant} (h : instant.IsHeld)
    (hyear : instant.toCivil.HasPlainYear) :
    parse (write instant) = .ok (instant.settled.truncated Instant.nanosPerSecond) ∧
      (instant.settled = instant ↔ instant.IsShown) ∧
      (Instant.nanosPerSecond ≤ (instant.settled.truncated Instant.nanosPerSecond).nanos ↔
        Instant.nanosPerSecond ≤ instant.nanos ∧ instant.seconds % 60 = 59) := by
  refine ⟨parse_write_settled h hyear, h.settled_eq_iff, ?_⟩
  rw [Instant.le_nanos_truncated_iff (Nat.dvd_refl _), h.le_nanos_settled_iff]

/-- The last day of February in the year 8, and a leap second at the end of the year 2016. -/
theorem parse_writeCompressed_leapSecond :
    parse (write ⟨-61909574401, 250000000⟩) = .ok ⟨-61909574401, 0⟩ ∧
      parse (write ⟨1483228799, 1999999999⟩) = .ok ⟨1483228799, 1000000000⟩ := by
  have hearly : (⟨-61909574401, 250000000⟩ : Instant).IsHeld := ⟨by decide, by decide⟩
  have hleap : (⟨1483228799, 1999999999⟩ : Instant).IsHeld := ⟨by decide, by decide⟩
  have hplain : (⟨-61909574401, 250000000⟩ : Instant).toCivil.HasPlainYear :=
    ⟨by decide, by decide⟩
  have hlate : (⟨1483228799, 1999999999⟩ : Instant).toCivil.HasPlainYear := ⟨by decide, by decide⟩
  exact ⟨(parse_writeCompressed hearly hplain).1, (parse_writeCompressed hleap hlate).1⟩

/-- A leap second behind the fourth second of a minute is written as the fifth one, and comes back as
that. -/
theorem parse_writeCompressed_offMinute :
    (⟨4, 1333333333⟩ : Instant).IsHeld ∧ (⟨4, 1333333333⟩ : Instant).toCivil.HasPlainYear ∧
      write ⟨4, 1333333333⟩ = "19700101T000005Z" ∧
      parse (write ⟨4, 1333333333⟩) = .ok ⟨5, 0⟩ ∧
      parse (write ⟨4, 1333333333⟩) ≠
        .ok ((⟨4, 1333333333⟩ : Instant).truncated Instant.nanosPerSecond) := by
  have hheld : (⟨4, 1333333333⟩ : Instant).IsHeld := ⟨by decide, by decide⟩
  have hplain : (⟨4, 1333333333⟩ : Instant).toCivil.HasPlainYear := ⟨by decide, by decide⟩
  have hread : parse (write ⟨4, 1333333333⟩) = .ok ⟨5, 0⟩ := parse_write_settled hheld hplain
  refine ⟨hheld, hplain, by decide +kernel, hread, ?_⟩
  rw [hread]
  exact fun hsame => absurd (Except.ok.inj hsame) (by decide)

end CompressedIso8601

end DocWalk
