import DocWalk.Date.Format
import DocWalk.Proofs.Date.Instant
import DocWalk.Proofs.Number.Bounded
import Mathlib.Data.List.TakeWhile

/-!
# Items read what they write

Each item of a format reads back its part of what a clock shows, whatever has been read before. Most
items know where their part ends. A space would take the blanks behind it as well, and a year with a
sign the digits behind it, so of these two something is asked of what follows (`Ends`).

**The law** (`readItems_written`): a list of items reads back what it writes, if each item ends where
the next one begins.
-/

set_option autoImplicit false

namespace DocWalk

namespace Blank

theorem isWhite_of_isDigit {c : Char} (h : c.isDigit = true) : isWhite c = false := by
  obtain ⟨hleast, hgreatest⟩ : 48 ≤ c.toNat ∧ c.toNat ≤ 57 := Char.isDigit_iff_toNat.mp h
  unfold isWhite
  simp only [Bool.or_eq_false_iff, Bool.and_eq_false_iff, decide_eq_false_iff_not]
  omega

theorem trimStart_of_head {text : List Char} (h : ∀ c ∈ text.head?, isWhite c = false) :
    trimStart text = text := by
  cases text with
  | nil => rfl
  | cons c rest =>
    rw [trimStart, List.dropWhile_cons, h c rfl]
    rfl

end Blank

namespace Utf8

theorem byteLength_cons (c : Char) (rest : List Char) :
    byteLength (c :: rest) = c.utf8Size + byteLength rest := by
  have hfrom (n : Nat) : rest.foldl (fun n c => n + c.utf8Size) n = n + byteLength rest := by
    unfold byteLength
    induction rest generalizing n with
    | nil => rfl
    | cons d more ih =>
      rw [List.foldl_cons, List.foldl_cons, ih, ih (0 + _), Nat.zero_add, Nat.add_assoc]
  show rest.foldl (fun n c => n + c.utf8Size) (0 + c.utf8Size) = _
  rw [Nat.zero_add, hfrom]

theorem length_le_byteLength (chars : List Char) : chars.length ≤ byteLength chars := by
  induction chars with
  | nil => exact Nat.le_refl 0
  | cons c rest ih =>
    have hc := c.utf8Size_pos
    rw [List.length_cons, byteLength_cons]
    omega

/-- Digits have one byte each. -/
theorem byteLength_of_digits {digits : List Char} (h : digits.all Char.isDigit) :
    byteLength digits = digits.length := by
  induction digits with
  | nil => rfl
  | cons c rest ih =>
    rw [List.all_cons, Bool.and_eq_true] at h
    have hle : c.toNat ≤ 127 := Nat.le_trans (Char.isDigit_iff_toNat.mp h.1).2 (by decide)
    have hsize : c.utf8Size = 1 := Char.utf8Size_eq_one_iff.mpr (UInt32.le_iff_toNat_le.mpr hle)
    rw [byteLength_cons, hsize, ih h.2, List.length_cons, Nat.add_comm]

end Utf8

namespace DateReading

/-- Nothing behind goes on as a digit. -/
def NoDigitNext (rest : List Char) : Prop :=
  ∀ c ∈ rest.head?, c.isDigit = false

theorem takeWhile_take_digits {width : Nat} {digits rest : List Char}
    (hall : digits.all Char.isDigit)
    (hends : digits.length = width ∨ digits.length ≤ width ∧ NoDigitNext rest) :
    ((digits ++ rest).take width).takeWhile Char.isDigit = digits := by
  rw [List.all_eq_true] at hall
  rcases hends with rfl | ⟨hle, hnext⟩
  · rw [List.take_left]
    exact List.takeWhile_eq_self_iff.mpr hall
  · rw [List.take_append, List.take_of_length_le hle, List.takeWhile_append_of_pos hall]
    cases rest with
    | nil => simp
    | cons c rest =>
      cases width - digits.length with
      | zero => simp
      | succ n => simp [hnext c rfl]

/-- Digits are read up to the width, or to where no digit comes next. -/
theorem readDigits_append {width : Nat} {digits : List Char} (hne : digits ≠ [])
    (hall : digits.all Char.isDigit) {rest : List Char}
    (hends : digits.length = width ∨ digits.length ≤ width ∧ NoDigitNext rest) :
    readDigits width (digits ++ rest) = .ok (Digits.toNat 0 digits, rest) := by
  have htext : (digits ++ rest).isEmpty = false := by simpa using fun h => absurd h hne
  have hdigits : digits.isEmpty = false := by simpa using hne
  rw [readDigits, takeWhile_take_digits hall hends, htext, hdigits, List.drop_left]
  rfl

/-! ## Numbers -/

theorem not_white_of_digits {digits : List Char} (hne : digits ≠ []) (hall : digits.all Char.isDigit)
    (rest : List Char) : ∀ c ∈ (digits ++ rest).head?, Blank.isWhite c = false := by
  obtain ⟨d, more, rfl⟩ := List.exists_cons_of_ne_nil hne
  rintro c ⟨⟩
  exact Blank.isWhite_of_isDigit (List.all_eq_true.mp hall d List.mem_cons_self)

theorem trimStart_digits {digits : List Char} (hne : digits ≠ []) (hall : digits.all Char.isDigit)
    (rest : List Char) : Blank.trimStart (digits ++ rest) = digits ++ rest :=
  Blank.trimStart_of_head (not_white_of_digits hne hall rest)

theorem readDigits_padded {width n : Nat} (hwidth : 0 < width) (hn : n < 10 ^ width)
    (rest : List Char) :
    readDigits width ((Digits.padded width n).toList ++ rest) = .ok (n, rest) := by
  rw [readDigits_append (Digits.padded_ne_nil width n) (Digits.all_isDigit_padded width n)
    (.inl (Digits.length_padded hwidth hn)), Digits.toNat_padded]

theorem readNumber_padded {least greatest n : Nat} (hleast : least ≤ n) (hgreatest : n ≤ greatest)
    (htwo : greatest < 100) (rest : List Char) :
    readNumber least greatest ((Digits.padded 2 n).toList ++ rest) = .ok (n, rest) := by
  have htrim := trimStart_digits (Digits.padded_ne_nil 2 n) (Digits.all_isDigit_padded 2 n) rest
  have hn : n < 10 ^ 2 := Nat.lt_of_le_of_lt hgreatest htwo
  have hdigits := readDigits_padded (Nat.succ_pos 1) hn rest
  have hrange : ¬ (n < least ∨ greatest < n) := by omega
  rw [readNumber, htrim, hdigits]
  show (if n < least ∨ greatest < n then _ else _) = _
  rw [if_neg hrange]
  rfl

theorem readMillis_append {digits : List Char} (hlength : digits.length = 3)
    (hall : digits.all Char.isDigit) (rest : List Char) :
    readMillis (digits ++ rest) = .ok (Digits.toNat 0 digits, rest) := by
  have hbytes : ¬ Utf8.byteLength (digits ++ rest) < 3 := by
    have hle := Utf8.length_le_byteLength (digits ++ rest)
    rw [List.length_append, hlength] at hle
    omega
  rw [readMillis, if_neg hbytes, List.take_left' hlength, List.drop_left' hlength, if_pos hall]

theorem readMillis_padded {n : Nat} (hn : n < 1000) (rest : List Char) :
    readMillis ((Digits.padded 3 n).toList ++ rest) = .ok (n, rest) := by
  have hlength : (Digits.padded 3 n).toList.length = 3 := Digits.length_padded (by decide) hn
  rw [readMillis_append hlength (Digits.all_isDigit_padded 3 n), Digits.toNat_padded]

/-! ## Years -/

/-- Behind a sign the digits are read to their end. -/
theorem readDigits_all (n : Nat) {rest : List Char} (hrest : NoDigitNext rest) :
    readDigits ((Digits.padded 4 n).toList ++ rest).length ((Digits.padded 4 n).toList ++ rest) =
      .ok (n, rest) := by
  have hle : (Digits.padded 4 n).toList.length ≤
      ((Digits.padded 4 n).toList ++ rest).length := by
    rw [List.length_append]
    exact Nat.le_add_right _ _
  have h := readDigits_append (Digits.padded_ne_nil 4 n) (Digits.all_isDigit_padded 4 n)
    (.inr ⟨hle, hrest⟩)
  rwa [Digits.toNat_padded] at h

/-- The number of a year and what is left, before its size is looked at. -/
def readSigned : List Char → Except DateFault (Int × List Char)
  | '-' :: digits => (readDigits digits.length digits).map fun read => (withSign true read.1, read.2)
  | '+' :: digits => (readDigits digits.length digits).map fun read => (withSign false read.1, read.2)
  | digits => (readDigits 4 digits).map fun read => (withSign false read.1, read.2)

theorem readYear_eq (text : List Char) :
    readYear text = (readSigned (Blank.trimStart text)).bind fun read =>
      if ((Bounds.signed 32).check read.1).isNone then .error .outOfRange else .ok read := by
  unfold readYear
  generalize Blank.trimStart text = trimmed
  split
  next digits =>
    show _ = ((readDigits digits.length digits).map _).bind _
    cases readDigits digits.length digits <;> rfl
  next digits =>
    show _ = ((readDigits digits.length digits).map _).bind _
    cases readDigits digits.length digits <;> rfl
  next hminus hplus =>
    rw [readSigned]
    · cases readDigits 4 trimmed <;> rfl
    · exact hminus
    · exact hplus

theorem readYear_of_readSigned {text rest : List Char} {year : Int}
    (h : readSigned (Blank.trimStart text) = .ok (year, rest))
    (hyear : (Bounds.signed 32).Contains year) : readYear text = .ok (year, rest) := by
  rw [readYear_eq, h]
  show (if ((Bounds.signed 32).check year).isNone = true then _ else _) = _
  rw [Bounds.check_eq_some_iff.mpr ⟨rfl, hyear⟩]
  rfl

theorem readSigned_sign (negative : Bool) (n : Nat) {rest : List Char} (hrest : NoDigitNext rest) :
    readSigned ((if negative then '-' else '+') :: ((Digits.padded 4 n).toList ++ rest)) =
      .ok (withSign negative n, rest) := by
  have hdigits := readDigits_all n hrest
  cases negative with
  | true =>
    show (readDigits _ ((Digits.padded 4 n).toList ++ rest)).map _ = _
    rw [hdigits]
    rfl
  | false =>
    show (readDigits _ ((Digits.padded 4 n).toList ++ rest)).map _ = _
    rw [hdigits]
    rfl

theorem readSigned_plain {n : Nat} (hn : n < 10000) (rest : List Char) :
    readSigned ((Digits.padded 4 n).toList ++ rest) = .ok ((n : Int), rest) := by
  have hfour : n < 10 ^ 4 := hn
  have hdigits := readDigits_padded (Nat.succ_pos 3) hfour rest
  have hall := Digits.all_isDigit_padded 4 n
  obtain ⟨d, more, hmore⟩ := List.exists_cons_of_ne_nil (Digits.padded_ne_nil 4 n)
  rw [hmore] at hall hdigits ⊢
  have hd := List.all_eq_true.mp hall d List.mem_cons_self
  unfold readSigned
  split
  next htext =>
    cases htext
    cases hd
  next htext =>
    cases htext
    cases hd
  next =>
    rw [hdigits]
    rfl

/-- A year from 0 to 9999 ends by itself, any other where its digits do. -/
theorem readYear_writeYear {year : Int} (hyear : (Bounds.signed 32).Contains year)
    {rest : List Char} (hends : 0 ≤ year ∧ year ≤ 9999 ∨ NoDigitNext rest) :
    readYear ((DateItem.writeYear year).toList ++ rest) = .ok (year, rest) := by
  apply readYear_of_readSigned _ hyear
  by_cases hplain : 0 ≤ year ∧ year ≤ 9999
  · have hread := readSigned_plain (n := year.toNat) (by omega) rest
    rw [DateItem.writeYear, if_pos hplain, trimStart_digits (Digits.padded_ne_nil 4 _)
      (Digits.all_isDigit_padded 4 _), hread, Int.toNat_of_nonneg hplain.1]
  · have hrest := hends.resolve_left hplain
    have hread := readSigned_sign (decide (year < 0)) year.natAbs hrest
    rw [DateItem.writeYear, if_neg hplain, String.toList_append]
    by_cases hneg : year < 0
    · have hyear : withSign true year.natAbs = year := by
        show -(year.natAbs : Int) = year
        omega
      rw [decide_eq_true hneg, if_pos rfl, hyear] at hread
      rw [if_pos hneg]
      exact hread
    · have hyear : withSign false year.natAbs = year := by
        show (year.natAbs : Int) = year
        omega
      rw [decide_eq_false hneg, if_neg Bool.false_ne_true, hyear] at hread
      rw [if_neg hneg]
      exact hread

/-! ## Names -/

/-- Names of three letters that are told apart in either case. -/
def Distinct (names : List String) : Prop :=
  ∀ place < names.length, (names.getD place "").toList.length = 3 ∧
    names.findIdx? (fun name =>
      name.toList.map Char.toLower = (names.getD place "").toList.map Char.toLower) = some place

theorem distinct_weekdayNames : Distinct DateItem.weekdayNames := by
  unfold Distinct
  decide

theorem distinct_monthNames : Distinct DateItem.monthNames := by
  unfold Distinct
  decide

theorem readName_getD {names : List String} (hnames : Distinct names) {place : Nat}
    (hplace : place < names.length) (rest : List Char) :
    readName names ((names.getD place "").toList ++ rest) = .ok (place, rest) := by
  obtain ⟨hlength, hfind⟩ := hnames place hplace
  have hbytes : ¬ Utf8.byteLength ((names.getD place "").toList ++ rest) < 3 := by
    have hle := Utf8.length_le_byteLength ((names.getD place "").toList ++ rest)
    rw [List.length_append, hlength] at hle
    omega
  rw [readName, if_neg hbytes, List.take_left' hlength, List.drop_left' hlength]
  dsimp only
  rw [hfind]

/-! ## Items -/

/-- What the item says of a time, behind what has been read before. -/
def record (reading : DateReading) (time : CivilTime) : DateItem → DateReading
  | .literal _ | .space => reading
  | .year => { reading with time.date.year := time.date.year }
  | .month | .monthName => { reading with time.date.month := time.date.month }
  | .day => { reading with time.date.day := time.date.day }
  | .hour => { reading with time.hour := time.hour }
  | .minute => { reading with time.minute := time.minute }
  | .second => { reading with time.second := time.second }
  | .millis => { reading with time.nanos := time.nanos / 1000000 * 1000000 }
  | .weekdayName => { reading with weekday := some time.weekday }

/-- The item's part of a time ends where this follows. -/
def Ends (time : CivilTime) (rest : List Char) : DateItem → Prop
  | .space => ∀ c ∈ rest.head?, Blank.isWhite c = false
  | .year => 0 ≤ time.date.year ∧ time.date.year ≤ 9999 ∨ NoDigitNext rest
  | _ => True

theorem weekday_lt (time : CivilTime) : time.weekday < 7 := by
  unfold CivilTime.weekday Calendar.weekdayOfDay
  omega

/-- The years of the calendar have 32 bits. -/
theorem contains_year {date : CalendarDate} (h : Calendar.isDate date = true) :
    (Bounds.signed 32).Contains date.year := by
  obtain ⟨⟨hfirst, hlast⟩, _⟩ := Calendar.isDate_iff.mp h
  exact ⟨Int.le_trans (by decide) hfirst, Int.le_trans hlast (by decide)⟩

theorem bind_of_ok {α β : Type} {read : Except DateFault α} {a : α}
    {next : α → Except DateFault β} (h : read = .ok a) : (read >>= next) = next a := by
  rw [h]
  rfl

/-- **An item reads what it writes.** -/
theorem readItem_write {time : CivilTime} (htime : time.IsShown) (reading : DateReading)
    {item : DateItem} {rest : List Char} (hends : Ends time rest item) :
    reading.readItem ((item.write time).toList ++ rest) item =
      .ok (reading.record time item, rest) := by
  have hdate := Calendar.bounds_of_isDate htime.isDate
  obtain ⟨_, hmonth, hday, _⟩ := Calendar.isDate_iff.mp htime.isDate
  cases item with
  | literal c =>
    have htext : (DateItem.write time (.literal c)).toList = [c] := String.toList_singleton c
    rw [htext]
    exact if_pos rfl
  | space =>
    have htext : (DateItem.write time .space).toList = [' '] := String.toList_singleton ' '
    have htrim : Blank.trimStart ([' '] ++ rest) = Blank.trimStart rest := rfl
    rw [htext]
    show Except.ok (reading, Blank.trimStart ([' '] ++ rest)) = _
    rw [htrim, Blank.trimStart_of_head hends]
    rfl
  | year => exact bind_of_ok (readYear_writeYear (contains_year htime.isDate) hends)
  | month => exact bind_of_ok (readNumber_padded hmonth hdate.1 (by decide) rest)
  | day => exact bind_of_ok (readNumber_padded hday hdate.2 (by decide) rest)
  | hour =>
    have hhour := Nat.le_of_lt_succ htime.hour_lt
    exact bind_of_ok (readNumber_padded (Nat.zero_le _) hhour (by decide) rest)
  | minute =>
    have hminute := Nat.le_of_lt_succ htime.minute_lt
    exact bind_of_ok (readNumber_padded (Nat.zero_le _) hminute (by decide) rest)
  | second => exact bind_of_ok (readNumber_padded (Nat.zero_le _) htime.second_le (by decide) rest)
  | millis =>
    have hnanos := htime.nanos_lt
    have hlt : time.nanos / 1000000 < 1000 := by omega
    have hread := readMillis_padded hlt rest
    show readMillis ((Digits.padded 3 (time.nanos / 1000000)).toList ++ rest) >>= _ = _
    rw [hread]
    rfl
  | weekdayName =>
    have hread := readName_getD distinct_weekdayNames (weekday_lt time) rest
    show readName DateItem.weekdayNames
      ((DateItem.weekdayNames.getD time.weekday "").toList ++ rest) >>= _ = _
    rw [hread]
    rfl
  | monthName =>
    have hplace : time.date.month - 1 < DateItem.monthNames.length := by
      show time.date.month - 1 < 12
      omega
    have hread := readName_getD distinct_monthNames hplace rest
    show readName DateItem.monthNames
      ((DateItem.monthNames.getD (time.date.month - 1) "").toList ++ rest) >>= _ = _
    rw [hread]
    show Except.ok ({ reading with time.date.month := time.date.month - 1 + 1 }, rest) = _
    rw [Nat.sub_add_cancel hmonth]
    rfl

/-! ## Lists of items -/

/-- What a list of items writes of a time. -/
def written (time : CivilTime) (items : List DateItem) : List Char :=
  items.flatMap fun item => (item.write time).toList

/-- What a list of items says of a time, behind what has been read before. -/
def recordAll (reading : DateReading) (time : CivilTime) (items : List DateItem) : DateReading :=
  items.foldl (fun reading item => reading.record time item) reading

/-- Each item ends where the next one begins. -/
def Separate (time : CivilTime) : List DateItem → Prop
  | [] => True
  | item :: items => Ends time (written time items) item ∧ Separate time items

theorem written_cons (time : CivilTime) (item : DateItem) (items : List DateItem) :
    written time (item :: items) = (item.write time).toList ++ written time items :=
  List.flatMap_cons

theorem written_literal (time : CivilTime) (c : Char) (items : List DateItem) :
    written time (.literal c :: items) = c :: written time items := by
  have htext : (DateItem.write time (.literal c)).toList = [c] := String.toList_singleton c
  rw [written_cons, htext]
  rfl

/-- **Items read back what they write**, and leave nothing over. -/
theorem readItems_written {time : CivilTime} (htime : time.IsShown) (reading : DateReading)
    {items : List DateItem} (hitems : Separate time items) :
    reading.readItems (written time items) items = .ok (reading.recordAll time items) := by
  induction items generalizing reading with
  | nil => rfl
  | cons item items ih =>
    rw [readItems, written_cons, readItem_write htime reading hitems.1]
    exact ih _ hitems.2

end DateReading

end DocWalk
