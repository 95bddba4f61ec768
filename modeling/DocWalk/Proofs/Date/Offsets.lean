import DocWalk.Proofs.Date.RoundTrip
import Mathlib.Data.List.Basic

/-!
# Dates with an offset

A date of RFC 822 shows the clock of some zone, and the zone stands behind its last space. The clock
of a zone is that of Greenwich at an instant as much later as the zone lies east, so the fields are
read as if they were shown in Greenwich and what is read is put back by the offset. Whole minutes are
put back, which leaves a leap second one.

**The law** (`parse_zoned`): an instant is given back as a clock shows it, to the second, from the clock
of every offset of less than a day and from each name of Greenwich time, and white space at the end
counts for nothing. A leap second that stands at no end of a minute does not come back
(`parse_zoned_offMinute`).
-/

set_option autoImplicit false

namespace DocWalk

open DateReading (Separate)

namespace Blank

/-- White space at the end is dropped. -/
theorem trimEnd_append {blanks : List Char} (h : ∀ c ∈ blanks, isWhite c = true)
    (text : List Char) : trimEnd (text ++ blanks) = trimEnd text := by
  have hblanks : ∀ c ∈ blanks.reverse, isWhite c = true := fun c hc => h c (List.mem_reverse.mp hc)
  rw [trimEnd, List.reverse_append, List.dropWhile_append_of_pos hblanks]
  rfl

theorem trimEnd_of_last {text : List Char} (h : ∀ c ∈ text.getLast?, isWhite c = false) :
    trimEnd text = text := by
  rw [← List.head?_reverse] at h
  have hkept : text.reverse.dropWhile isWhite = text.reverse := trimStart_of_head h
  rw [trimEnd, hkept, List.reverse_reverse]

end Blank

/-! ## The clock of a zone -/

namespace Instant

/-- The instant so many seconds later. -/
def later (seconds : Int) (instant : Instant) : Instant :=
  { instant with seconds := instant.seconds + seconds }

variable {instant : Instant}

/-- The years of four digits lie in the calendar's range. -/
theorem isRepresentable_of_hasPlainYear (h : instant.toCivil.HasPlainYear) :
    instant.isRepresentable = true := by
  obtain ⟨hleast, hgreatest⟩ : 0 ≤ Calendar.yearOfDay (instant.seconds / 86400) ∧
    Calendar.yearOfDay (instant.seconds / 86400) ≤ 9999 := h
  obtain ⟨hfirst, hnext⟩ := Calendar.yearOfDay_bounds (instant.seconds / 86400)
  have hbegin := Calendar.mul_daysToYear_bounds (Calendar.yearOfDay (instant.seconds / 86400))
  have hend := Calendar.mul_daysToYear_bounds (Calendar.yearOfDay (instant.seconds / 86400) + 1)
  rw [isRepresentable_iff]
  omega

/-- A date-time holds the instant later too, if the calendar shows it. -/
theorem IsHeld.later (h : instant.IsHeld) {seconds : Int}
    (hrange : (instant.later seconds).isRepresentable = true) : (instant.later seconds).IsHeld :=
  ⟨hrange, h.nanos_lt⟩

/-- Whole minutes later an instant is settled as it was: a leap second stands where it did in its
minute. -/
theorem settled_later {seconds : Int} (hminutes : 60 ∣ seconds) (instant : Instant) :
    (instant.later seconds).settled = instant.settled.later seconds := by
  have hlast : (instant.seconds + seconds) % 60 = 59 ↔ instant.seconds % 60 = 59 := by omega
  have hnext : instant.seconds + seconds + 1 = instant.seconds + 1 + seconds := by omega
  unfold settled later
  dsimp only
  simp only [hlast, hnext]
  split <;> rfl

end Instant

namespace Rfc822

/-! ## The text of a zone -/

/-- A zone less than a day from Greenwich. -/
structure Zone where
  west : Bool
  hours : Nat
  minutes : Nat
  hours_le : hours ≤ 23
  minutes_le : minutes ≤ 59

namespace Zone

/-- Seconds east of Greenwich. -/
def seconds (zone : Zone) : Int :=
  withSign zone.west (zone.hours * 3600 + zone.minutes * 60)

/-- The sign and four digits of a zone. -/
def text (zone : Zone) : String :=
  (if zone.west then "-" else "+") ++ Digits.padded 2 zone.hours ++ Digits.padded 2 zone.minutes

theorem minutes_dvd_seconds (zone : Zone) : 60 ∣ zone.seconds := by
  unfold seconds withSign
  split <;> omega

/-- The text is a sign, two digits for the hours and two for the minutes. -/
theorem toList_text (zone : Zone) : ∃ h h' m m',
    zone.text.toList = [if zone.west then '-' else '+', h, h', m, m'] ∧
      [h, h', m, m'].all Char.isDigit ∧
      Digits.toNat 0 [h, h'] = zone.hours ∧ Digits.toNat 0 [m, m'] = zone.minutes := by
  have htwo {n : Nat} (hn : n < 100) : ∃ d d', (Digits.padded 2 n).toList = [d, d'] :=
    List.length_eq_two.mp (Digits.length_padded (by decide) hn)
  obtain ⟨h, h', hhours⟩ := htwo (Nat.lt_of_le_of_lt zone.hours_le (by decide))
  obtain ⟨m, m', hminutes⟩ := htwo (Nat.lt_of_le_of_lt zone.minutes_le (by decide))
  have hsign : (if zone.west then "-" else "+").toList = [if zone.west then '-' else '+'] := by
    cases zone.west <;> rfl
  refine ⟨h, h', m, m', ?_, ?_, ?_, ?_⟩
  · rw [text, String.toList_append, String.toList_append, hsign, hhours, hminutes]
    rfl
  · have hall : ([h, h'] ++ [m, m']).all Char.isDigit := by
      rw [← hhours, ← hminutes, List.all_append, Digits.all_isDigit_padded,
        Digits.all_isDigit_padded]
      rfl
    exact hall
  · rw [← hhours, Digits.toNat_padded]
  · rw [← hminutes, Digits.toNat_padded]

end Zone

/-- Names of Greenwich time. -/
def greenwichNames : List String :=
  ["GMT", "UTC", "UT", "Z"]

theorem zoneOffset_greenwich {name : String} (h : name ∈ greenwichNames) :
    zoneOffset name = some 0 :=
  if_pos h

theorem zoneOffset_text (zone : Zone) : zoneOffset zone.text = some zone.seconds := by
  obtain ⟨h, h', m, m', htext, hall, hhours, hminutes⟩ := zone.toList_text
  have hnumeric : zone.text ∉ ["GMT", "UTC", "UT", "Z"] := by
    intro hname
    have hshort : ∀ name ∈ ["GMT", "UTC", "UT", "Z"], name.toList.length ≤ 3 := by decide
    have hle : zone.text.toList.length ≤ 3 := hshort _ hname
    have hlength : zone.text.toList.length = 5 := congrArg List.length htext
    omega
  have hday : (zone.hours : Int) * 3600 + zone.minutes * 60 < Instant.secondsPerDay := by
    have hhour := zone.hours_le
    have hminute := zone.minutes_le
    unfold Instant.secondsPerDay
    omega
  rw [zoneOffset, if_neg hnumeric, htext]
  dsimp only
  rw [if_pos hall, hhours, hminutes, if_pos hday, Zone.seconds]
  cases zone.west <;> rfl

/-- A text that can stand as the zone behind the last space: it is not empty and has no white space. -/
structure IsZoneText (zone : String) : Prop where
  ne_nil : zone.toList ≠ []
  not_white : ∀ c ∈ zone.toList, Blank.isWhite c = false

theorem isZoneText_greenwich {name : String} (h : name ∈ greenwichNames) : IsZoneText name := by
  have hall : ∀ name ∈ greenwichNames,
      name.toList ≠ [] ∧ name.toList.any Blank.isWhite = false := by decide
  obtain ⟨hne, hwhite⟩ := hall name h
  rw [List.any_eq_false] at hwhite
  exact ⟨hne, fun c hc => Bool.not_eq_true _ ▸ hwhite c hc⟩

theorem Zone.isZoneText_text (zone : Zone) : IsZoneText zone.text := by
  obtain ⟨h, h', m, m', htext, hall, -⟩ := zone.toList_text
  refine ⟨?_, ?_⟩
  · rw [htext]
    exact List.cons_ne_nil _ _
  · rw [htext]
    intro c hc
    rcases List.mem_cons.mp hc with rfl | hdigit
    · cases zone.west <;> rfl
    · exact Blank.isWhite_of_isDigit (List.all_eq_true.mp hall c hdigit)

/-! ## The zone parted from the rest -/

theorem ne_space_of_mem_reverse {chars : List Char} (h : ' ' ∉ chars) :
    ∀ c ∈ chars.reverse, decide (c ≠ ' ') = true := by
  intro c hc
  rw [decide_eq_true_eq]
  rintro rfl
  exact h (List.mem_reverse.mp hc)

/-- The zone is what stands behind the last space. -/
theorem splitZone_of_space {text : String} {stamp zone : List Char}
    (htext : Blank.trimEnd text.toList = stamp ++ ' ' :: zone) (hzone : ' ' ∉ zone) :
    splitZone text = (.ofList stamp, .ofList zone) := by
  have hfound :
      ((stamp ++ ' ' :: zone).reverse.takeWhile fun c => decide (c ≠ ' ')).reverse = zone := by
    rw [List.reverse_append, List.reverse_cons, List.append_assoc,
      List.takeWhile_append_of_pos (ne_space_of_mem_reverse hzone)]
    simp
  have hlength : (stamp ++ ' ' :: zone).length = stamp.length + 1 + zone.length := by
    rw [List.length_append, List.length_cons]
    omega
  rw [splitZone, htext, hfound, hlength, if_neg (by omega), Nat.add_sub_cancel, Nat.add_sub_cancel,
    List.take_left]

/-- Without a space there is no zone. -/
theorem splitZone_of_no_space {text : String} (h : ' ' ∉ Blank.trimEnd text.toList) :
    splitZone text = (text, "") := by
  have hfound : (Blank.trimEnd text.toList).reverse.takeWhile (fun c => decide (c ≠ ' ')) =
      (Blank.trimEnd text.toList).reverse :=
    List.takeWhile_eq_self_iff.mpr (ne_space_of_mem_reverse h)
  rw [splitZone, hfound, List.reverse_reverse, if_pos rfl]

theorem exists_last_space {text : List Char} (h : ' ' ∈ text) :
    ∃ stamp zone, text = stamp ++ ' ' :: zone ∧ ' ' ∉ zone := by
  obtain ⟨behind, front, hsplit, hnone⟩ := List.eq_append_cons_of_mem (List.mem_reverse.mpr h)
  refine ⟨front.reverse, behind.reverse, ?_, ?_⟩
  · rw [← List.reverse_reverse text, hsplit]
    simp
  · rwa [List.mem_reverse]

/-- A text is read as the instant that its stamp shows in Greenwich, put back by the offset. -/
theorem parse_eq_ok_iff {text : String} {instant : Instant} :
    parse text = .ok instant ↔ ∃ offset shown, zoneOffset (splitZone text).2 = some offset ∧
      DateFormat.rfc822.read (splitZone text).1 = .ok shown ∧
      (shown.later (-offset)).check = some instant := by
  rw [parse]
  dsimp only
  constructor
  · intro h
    split at h
    next => cases h
    next offset hoffset =>
      split at h
      next => cases h
      next shown hshown =>
        split at h
        next hcheck =>
          cases h
          exact ⟨offset, shown, hoffset, hshown, hcheck⟩
        next => cases h
  · rintro ⟨offset, shown, hoffset, hshown, hcheck⟩
    rw [hoffset]
    dsimp only
    rw [hshown]
    dsimp only
    have hput : ({ shown with seconds := shown.seconds - offset } : Instant).check = some instant :=
      hcheck
    rw [hput]

/-- White space at the end does not change what is read. -/
theorem parse_append_blanks {blanks : List Char} (h : ∀ c ∈ blanks, Blank.isWhite c = true)
    (text : String) (instant : Instant) :
    parse (text ++ .ofList blanks) = .ok instant ↔ parse text = .ok instant := by
  have htrim : Blank.trimEnd (text ++ .ofList blanks).toList = Blank.trimEnd text.toList := by
    rw [String.toList_append, String.toList_ofList, Blank.trimEnd_append h]
  rw [parse_eq_ok_iff, parse_eq_ok_iff]
  by_cases hspace : ' ' ∈ Blank.trimEnd text.toList
  · obtain ⟨stamp, zone, hsplit, hzone⟩ := exists_last_space hspace
    rw [splitZone_of_space (htrim.trans hsplit) hzone, splitZone_of_space hsplit hzone]
  · -- The text in front of the zone differs here, but an empty zone is refused before it is read.
    have hnone : zoneOffset "" = none := rfl
    rw [splitZone_of_no_space (htrim ▸ hspace), splitZone_of_no_space hspace]
    simp only [hnone, reduceCtorEq, false_and, exists_false]

theorem splitZone_append (stamp : String) {zone : String} (h : IsZoneText zone) :
    splitZone (stamp ++ " " ++ zone) = (stamp, zone) := by
  have htext : (stamp ++ " " ++ zone).toList = stamp.toList ++ ' ' :: zone.toList := by
    rw [String.toList_append, String.toList_append, List.append_assoc]
    rfl
  have hlast : ∀ c ∈ (stamp.toList ++ ' ' :: zone.toList).getLast?, Blank.isWhite c = false := by
    intro c hc
    rw [List.getLast?_append_cons, List.getLast?_cons,
      List.getLast?_eq_some_getLast h.ne_nil] at hc
    cases hc
    exact h.not_white _ (List.getLast_mem h.ne_nil)
  have hzone : ' ' ∉ zone.toList := fun hspace => absurd (h.not_white _ hspace) (by decide)
  have htrim := Blank.trimEnd_of_last hlast
  rw [← htext] at htrim
  rw [splitZone_of_space (htrim.trans htext) hzone, String.ofList_toList, String.ofList_toList]

/-! ## The fields read again -/

theorem not_white_of_monthName {place : Nat} (h : place < 12) (rest : List Char) :
    ∀ c ∈ ((DateItem.monthNames.getD place "").toList ++ rest).head?, Blank.isWhite c = false := by
  have hnames : ∀ place < 12, (DateItem.monthNames.getD place "").toList.head?.map Blank.isWhite =
      some false := by decide
  obtain ⟨first, hfirst, hwhite⟩ := Option.map_eq_some_iff.mp (hnames place h)
  intro c hc
  rw [List.head?_append, hfirst] at hc
  cases hc
  exact hwhite

/-- A number or a name stands behind each space, and a space behind the year. -/
theorem separate_items {time : CivilTime} (h : time.IsShown) (hyear : time.HasPlainYear) :
    Separate time DateFormat.rfc822.items := by
  have hnumber (n : Nat) (rest : List Char) :
      ∀ c ∈ ((Digits.padded 2 n).toList ++ rest).head?, Blank.isWhite c = false :=
    DateReading.not_white_of_digits (Digits.padded_ne_nil 2 n) (Digits.all_isDigit_padded 2 n) rest
  have hmonth : time.date.month - 1 < 12 := by
    have hle := (Calendar.bounds_of_isDate h.isDate).1
    omega
  have hplain : ∀ rest, ∀ c ∈ ((DateItem.writeYear time.date.year).toList ++ rest).head?,
      Blank.isWhite c = false := by
    intro rest
    have hfour : 0 ≤ time.date.year ∧ time.date.year ≤ 9999 := hyear
    rw [DateItem.writeYear, if_pos hfour]
    exact DateReading.not_white_of_digits (Digits.padded_ne_nil 4 _)
      (Digits.all_isDigit_padded 4 _) rest
  exact ⟨trivial, trivial, hnumber _ _, trivial, not_white_of_monthName hmonth _, trivial,
    hplain _, .inl hyear, hnumber _ _, trivial, trivial, trivial, trivial, trivial, trivial⟩

/-- It has all fields of a time but the nanoseconds, and the day of the week. -/
theorem record_items (time : CivilTime) :
    DateReading.recordAll {} time DateFormat.rfc822.items = ⟨time.wholeSecond, some time.weekday⟩ :=
  rfl

theorem read_write {instant : Instant} (h : instant.IsHeld)
    (hyear : instant.toCivil.HasPlainYear) :
    DateFormat.rfc822.read (DateFormat.rfc822.write instant) =
      .ok (instant.settled.truncated Instant.nanosPerSecond) := by
  have hshown := h.settled
  have hweekday :
      ∀ day ∈ some instant.settled.toCivil.weekday, day = instant.settled.toCivil.weekday :=
    fun _ hday => (Option.mem_some.mp hday).symm
  rw [← h.toCivil_settled] at hyear
  rw [← DateFormat.write_settled _ h,
    DateFormat.read_write hshown (separate_items hshown.toCivil hyear), record_items]
  exact DateReading.toInstant_wholeSecond hshown hweekday

/-- An instant is given back from the clock of a zone and the zone's text. -/
theorem parse_local {instant : Instant} (h : instant.IsHeld) {zone : String}
    (hzone : IsZoneText zone) {offset : Int} (hoffset : zoneOffset zone = some offset)
    (hminutes : 60 ∣ offset) (hyear : (instant.later offset).toCivil.HasPlainYear) :
    parse (DateFormat.rfc822.write (instant.later offset) ++ " " ++ zone) =
      .ok (instant.settled.truncated Instant.nanosPerSecond) := by
  have hlocal := h.later (Instant.isRepresentable_of_hasPlainYear hyear)
  have hback : ((instant.later offset).settled.truncated Instant.nanosPerSecond).later (-offset) =
      instant.settled.truncated Instant.nanosPerSecond := by
    rw [Instant.settled_later hminutes]
    unfold Instant.later Instant.truncated
    dsimp only
    rw [Int.add_neg_cancel_right]
  have hcheck : (instant.settled.truncated Instant.nanosPerSecond).check =
      some (instant.settled.truncated Instant.nanosPerSecond) := if_pos h.settled.isRepresentable
  rw [parse_eq_ok_iff, splitZone_append _ hzone]
  exact ⟨offset, _, hoffset, read_write hlocal hyear, by rw [hback, hcheck]⟩

/-- What is read of a text with a name of Greenwich time. -/
theorem parse_greenwich {instant : Instant} (h : instant.IsHeld)
    (hyear : instant.toCivil.HasPlainYear) {name : String} (hname : name ∈ greenwichNames) :
    parse (DateFormat.rfc822.write instant ++ " " ++ name) =
      .ok (instant.settled.truncated Instant.nanosPerSecond) := by
  have hlater : instant.later 0 = instant := by
    unfold Instant.later
    rw [Int.add_zero]
  have hzero := parse_local h (isZoneText_greenwich hname) (zoneOffset_greenwich hname)
    (Int.dvd_zero 60)
  rw [hlater] at hzero
  exact hzero hyear

theorem write_eq (instant : Instant) :
    write instant = DateFormat.rfc822.write instant ++ " " ++ "GMT" := by
  rw [write, String.append_assoc]
  rfl

/-- **RFC 822 gives an instant back** as a clock shows it, to the second: from the clock of a zone, if
it shows a year of four digits, and from the clock of Greenwich with any of its names. It is the instant
itself but for a leap second that stands at no end of a minute. A leap second at the end of one stays
one, and white space at the end does not change what is read. -/
theorem parse_zoned {instant : Instant} (h : instant.IsHeld) :
    (∀ zone : Zone, (instant.later zone.seconds).toCivil.HasPlainYear →
      parse (DateFormat.rfc822.write (instant.later zone.seconds) ++ " " ++ zone.text) =
        .ok (instant.settled.truncated Instant.nanosPerSecond)) ∧
    (instant.toCivil.HasPlainYear →
      (∀ name ∈ greenwichNames, parse (DateFormat.rfc822.write instant ++ " " ++ name) =
        .ok (instant.settled.truncated Instant.nanosPerSecond)) ∧
      parse (write instant) = .ok (instant.settled.truncated Instant.nanosPerSecond)) ∧
    (instant.settled = instant ↔ instant.IsShown) ∧
    (Instant.nanosPerSecond ≤ (instant.settled.truncated Instant.nanosPerSecond).nanos ↔
      Instant.nanosPerSecond ≤ instant.nanos ∧ instant.seconds % 60 = 59) ∧
    ∀ (text : String) (blanks : List Char), (∀ c ∈ blanks, Blank.isWhite c = true) →
      ∀ read, parse (text ++ .ofList blanks) = .ok read ↔ parse text = .ok read := by
  refine ⟨fun zone hyear => ?_, fun hyear => ⟨fun name => parse_greenwich h hyear, ?_⟩,
    h.settled_eq_iff, ?_, fun text blanks hblanks => parse_append_blanks hblanks text⟩
  · exact parse_local h zone.isZoneText_text (zoneOffset_text zone) zone.minutes_dvd_seconds hyear
  · rw [write_eq]
    exact parse_greenwich h hyear List.mem_cons_self
  · rw [Instant.le_nanos_truncated_iff (Nat.dvd_refl _), h.le_nanos_settled_iff]

/-- The leap second at the end of the year 2016, on clocks that show the next year, the same day and
Greenwich time, once with blanks at the end. -/
theorem parse_zoned_leapSecond :
    parse "Sun, 01 Jan 2017 05:29:60 +0530" = .ok ⟨1483228799, 1000000000⟩ ∧
      parse "Sat, 31 Dec 2016 13:59:60 -1000" = .ok ⟨1483228799, 1000000000⟩ ∧
      parse "Sat, 31 Dec 2016 23:59:60 UT \n" = .ok ⟨1483228799, 1000000000⟩ ∧
      parse (write ⟨1483228799, 1999999999⟩) = .ok ⟨1483228799, 1000000000⟩ := by
  have hleap : (⟨1483228799, 1999999999⟩ : Instant).IsHeld := ⟨by decide, by decide⟩
  obtain ⟨hzones, hgreenwich, _, _, hblanks⟩ := parse_zoned hleap
  obtain ⟨hnames, hwritten⟩ := hgreenwich ⟨by decide, by decide⟩
  let east : Zone := ⟨false, 5, 30, by decide, by decide⟩
  let west : Zone := ⟨true, 10, 0, by decide, by decide⟩
  have heast : DateFormat.rfc822.write (Instant.later east.seconds ⟨1483228799, 1999999999⟩) ++
      " " ++ east.text = "Sun, 01 Jan 2017 05:29:60 +0530" := by decide +kernel
  have hwest : DateFormat.rfc822.write (Instant.later west.seconds ⟨1483228799, 1999999999⟩) ++
      " " ++ west.text = "Sat, 31 Dec 2016 13:59:60 -1000" := by decide +kernel
  have hname : DateFormat.rfc822.write ⟨1483228799, 1999999999⟩ ++ " " ++ "UT" ++
      .ofList [' ', '\n'] = "Sat, 31 Dec 2016 23:59:60 UT \n" := by decide +kernel
  rw [← heast, ← hwest, ← hname]
  exact ⟨hzones east ⟨by decide, by decide⟩, hzones west ⟨by decide, by decide⟩,
    (hblanks _ [' ', '\n'] (List.all_eq_true.mp rfl) _).mpr (hnames "UT" (by decide)), hwritten⟩

/-- A leap second behind the fourth second of a minute is written as the fifth one, and comes back as
that, in Greenwich time too. -/
theorem parse_zoned_offMinute :
    (⟨4, 1333333333⟩ : Instant).IsHeld ∧ (⟨4, 1333333333⟩ : Instant).toCivil.HasPlainYear ∧
      write ⟨4, 1333333333⟩ = "Thu, 01 Jan 1970 00:00:05 GMT" ∧
      parse (write ⟨4, 1333333333⟩) = .ok ⟨5, 0⟩ ∧
      parse (write ⟨4, 1333333333⟩) ≠
        .ok ((⟨4, 1333333333⟩ : Instant).truncated Instant.nanosPerSecond) := by
  have hheld : (⟨4, 1333333333⟩ : Instant).IsHeld := ⟨by decide, by decide⟩
  have hplain : (⟨4, 1333333333⟩ : Instant).toCivil.HasPlainYear := ⟨by decide, by decide⟩
  have hread : parse (write ⟨4, 1333333333⟩) = .ok ⟨5, 0⟩ := by
    rw [write_eq]
    exact parse_greenwich hheld hplain List.mem_cons_self
  refine ⟨hheld, hplain, by decide +kernel, hread, ?_⟩
  rw [hread]
  exact fun hsame => absurd (Except.ok.inj hsame) (by decide)

end Rfc822

end DocWalk
