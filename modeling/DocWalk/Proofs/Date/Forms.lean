import DocWalk.Date.Standard
import DocWalk.Proofs.Date.Items

/-!
# The two extended forms

The forms of ISO 8601 with and without milliseconds begin with the same items, and behind them one has
a point where the other has its last letter. Each of the common items takes what it can and stops: it
reads in front of a point, or of a last letter, what it would read at the end of the text (`StopsAt`).
So the common items leave the same over in both forms, whatever was read.

**The law** (`parse_forms`): no text has both forms, and with a point and three digits in front of its
last letter a text of the one form is one of the other, so many milliseconds later.
-/

set_option autoImplicit false

namespace DocWalk

namespace Blank

/-- White space ends at a character that is none. -/
theorem trimStart_append {c : Char} (hwhite : isWhite c = false) (text more : List Char) :
    trimStart (text ++ c :: more) = trimStart text ++ c :: more := by
  unfold trimStart
  rw [List.dropWhile_append, List.dropWhile_cons, hwhite]
  split
  next hall =>
    rw [List.isEmpty_iff.mp hall]
    rfl
  next => rfl

end Blank

namespace DateReading

/-! ## Reading that stops -/

/-- What is read in front of a tail is what is read without it, and the tail is left over as well. Why
a text is refused may differ. -/
def StopsAt {α : Type} (tail : List Char) (read : List Char → Except DateFault (α × List Char)) :
    Prop :=
  ∀ text, (read (text ++ tail)).toOption = (read text).toOption.map fun p => (p.1, p.2 ++ tail)

theorem toOption_bind {α β : Type} (read : Except DateFault α) (next : α → Except DateFault β) :
    (read >>= next).toOption = read.toOption.bind fun a => (next a).toOption := by
  cases read <;> rfl

theorem toOption_map {α β : Type} (read : Except DateFault α) (f : α → β) :
    (read.map f).toOption = read.toOption.map f := by
  cases read <;> rfl

theorem toOption_eq_some_iff {α : Type} {read : Except DateFault α} {a : α} :
    read.toOption = some a ↔ read = .ok a := by
  cases read <;> simp [Except.toOption]

theorem bind_eq_ok_iff {α β : Type} {read : Except DateFault α} {next : α → Except DateFault β}
    {b : β} : (read >>= next) = .ok b ↔ ∃ a, read = .ok a ∧ next a = .ok b := by
  rw [← toOption_eq_some_iff, toOption_bind, Option.bind_eq_some_iff]
  simp only [toOption_eq_some_iff]

section

variable {α β : Type} {tail : List Char} {read : List Char → Except DateFault (α × List Char)}

/-- Where the first of two readings stops, and the second behind each of its results, both do. -/
theorem StopsAt.bind {next : α × List Char → Except DateFault (β × List Char)}
    (hread : StopsAt tail read) (hnext : ∀ a, StopsAt tail fun text => next (a, text)) :
    StopsAt tail fun text => read text >>= next := by
  intro text
  have hfirst := hread text
  rw [toOption_bind, toOption_bind, hfirst]
  cases (read text).toOption with
  | none => rfl
  | some p => exact hnext p.1 p.2

/-- What is left over in front of the tail ends with it. -/
theorem StopsAt.eq_ok_iff (hread : StopsAt tail read) {text surplus : List Char} {a : α} :
    read (text ++ tail) = .ok (a, surplus) ↔ ∃ rest, read text = .ok (a, rest) ∧ rest ++ tail = surplus := by
  have hboth := hread text
  simp only [← toOption_eq_some_iff]
  rw [hboth, Option.map_eq_some_iff]
  constructor
  · rintro ⟨⟨_, rest⟩, hp, heq⟩
    obtain ⟨rfl, hsurplus⟩ := Prod.mk.inj heq
    exact ⟨rest, hp, hsurplus⟩
  · rintro ⟨rest, hp, rfl⟩
    exact ⟨_, hp, rfl⟩

end

/-! ## Items that stop at a character -/

variable {c : Char} {more : List Char}

theorem takeWhile_take_stops (hdigit : c.isDigit = false) (more : List Char) (width : Nat)
    (text : List Char) : ((text ++ c :: more).take width).takeWhile Char.isDigit =
      (text.take width).takeWhile Char.isDigit := by
  rw [List.take_append]
  cases width - text.length with
  | zero => rw [List.take_zero, List.append_nil]
  | succ n =>
    rw [List.take_succ_cons, List.takeWhile_append, List.takeWhile_cons, hdigit]
    split
    next hall =>
      rw [(List.takeWhile_prefix _).eq_of_length hall]
      simp
    next => rfl

/-- Digits stop at a character that is none; a width that the text does not reach is no matter. -/
theorem toOption_readDigits_append (hdigit : c.isDigit = false) (more : List Char)
    {width width' : Nat} {text : List Char} (hwidth : text.take width' = text.take width) :
    (readDigits width' (text ++ c :: more)).toOption =
      (readDigits width text).toOption.map fun p => (p.1, p.2 ++ c :: more) := by
  have hsame := takeWhile_take_stops hdigit more width' text
  rw [hwidth] at hsame
  have hle : ((text.take width).takeWhile Char.isDigit).length ≤ text.length :=
    Nat.le_trans (List.takeWhile_prefix _).length_le (List.take_prefix _ _).length_le
  unfold readDigits
  dsimp only
  rw [hsame, List.drop_append_of_le_length hle]
  cases text with
  | nil => rw [List.take_nil]; rfl
  | cons d rest =>
    cases ((d :: rest).take width).takeWhile Char.isDigit <;> rfl

/-- A character that no number goes on with and that may not stand in front of one. -/
structure IsMark (c : Char) : Prop where
  not_digit : c.isDigit = false
  not_white : Blank.isWhite c = false
  not_plus : c ≠ '+'
  not_minus : c ≠ '-'

theorem stopsAt_readNumber (hc : IsMark c) (least greatest : Nat) :
    StopsAt (c :: more) (readNumber least greatest) := by
  have hdigits : StopsAt (c :: more) fun text => readDigits 2 (Blank.trimStart text) := by
    intro text
    dsimp only
    rw [Blank.trimStart_append hc.not_white, toOption_readDigits_append hc.not_digit more rfl]
  refine hdigits.bind fun n text => ?_
  dsimp only
  split <;> rfl

/-- A text that begins with no sign is read as a year of four digits at most. -/
theorem readSigned_of_unsigned {text : List Char} (hplus : text.head? ≠ some '+')
    (hminus : text.head? ≠ some '-') :
    readSigned text = (readDigits 4 text).map fun read => (withSign false read.1, read.2) := by
  unfold readSigned
  split
  next => exact absurd rfl hminus
  next => exact absurd rfl hplus
  next => rfl

theorem stopsAt_readSigned (hc : IsMark c) : StopsAt (c :: more) readSigned := by
  have hmap {negative : Bool} {width width' : Nat} {digits : List Char}
      (hwidth : digits.take width' = digits.take width) :
      ((readDigits width' (digits ++ c :: more)).map
        fun read => (withSign negative read.1, read.2)).toOption =
      ((readDigits width digits).map fun read => (withSign negative read.1, read.2)).toOption.map
        fun p => (p.1, p.2 ++ c :: more) := by
    rw [toOption_map, toOption_map, toOption_readDigits_append hc.not_digit more hwidth,
      Option.map_map, Option.map_map]
    rfl
  -- Behind a sign the width is the length of what follows, tail and all, and is never reached.
  have hlong (digits : List Char) :
      digits.take (digits ++ c :: more).length = digits.take digits.length := by
    rw [List.take_length, List.take_of_length_le]
    rw [List.length_append]
    exact Nat.le_add_right _ _
  intro text
  cases text with
  | nil =>
    rw [readSigned_of_unsigned, readSigned_of_unsigned (by simp) (by simp)]
    · exact hmap rfl
    · simpa using hc.not_plus
    · simpa using hc.not_minus
  | cons d digits =>
    by_cases hminus : d = '-'
    · subst hminus
      exact hmap (hlong digits)
    · by_cases hplus : d = '+'
      · subst hplus
        exact hmap (hlong digits)
      · have hunsigned (rest : List Char) :
            readSigned (d :: rest) = (readDigits 4 (d :: rest)).map
              fun read => (withSign false read.1, read.2) :=
          readSigned_of_unsigned (by simpa using hplus) (by simpa using hminus)
        rw [hunsigned, List.cons_append, hunsigned]
        exact @hmap false 4 4 (d :: digits) rfl

theorem stopsAt_readYear (hc : IsMark c) : StopsAt (c :: more) readYear := by
  have hsigned : StopsAt (c :: more) fun text => readSigned (Blank.trimStart text) := by
    intro text
    dsimp only
    rw [Blank.trimStart_append hc.not_white]
    exact stopsAt_readSigned hc _
  have hyear : StopsAt (c :: more) fun text => readSigned (Blank.trimStart text) >>= fun read =>
      if ((Bounds.signed 32).check read.1).isNone then .error .outOfRange else .ok read := by
    refine hsigned.bind fun year text => ?_
    dsimp only
    split <;> rfl
  have heq : readYear = fun text => readSigned (Blank.trimStart text) >>= fun read =>
      if ((Bounds.signed 32).check read.1).isNone then .error .outOfRange else .ok read :=
    funext readYear_eq
  rw [heq]
  exact hyear

/-- The item stops at the character: it is none of the item's own. Names and milliseconds are as long
as they are, and stop at nothing. -/
def Stops (c : Char) : DateItem → Prop
  | .literal d => c ≠ d
  | .space => Blank.isWhite c = false
  | .year | .month | .day | .hour | .minute | .second => IsMark c
  | .millis | .weekdayName | .monthName => False

theorem stopsAt_readItem {item : DateItem} (h : Stops c item) (reading : DateReading) :
    StopsAt (c :: more) fun text => reading.readItem text item := by
  cases item with
  | literal d =>
    intro text
    cases text with
    | nil =>
      show (if c = d then _ else _ : Except DateFault _).toOption = _
      rw [if_neg h]
      rfl
    | cons e rest =>
      show (if e = d then _ else _ : Except DateFault _).toOption =
        (if e = d then _ else _ : Except DateFault _).toOption.map _
      split <;> rfl
  | space =>
    intro text
    show some (reading, Blank.trimStart (text ++ c :: more)) = _
    rw [Blank.trimStart_append h]
    rfl
  | year => exact (stopsAt_readYear h).bind fun _ _ => rfl
  | month | day | hour | minute | second => exact (stopsAt_readNumber h _ _).bind fun _ _ => rfl
  | millis | weekdayName | monthName => exact h.elim

/-! ## The items in front of others -/

/-- Reads the parts of all items, and gives what is left over. -/
def readFront (reading : DateReading) (text : List Char) :
    List DateItem → Except DateFault (DateReading × List Char)
  | [] => .ok (reading, text)
  | item :: items => reading.readItem text item >>= fun p => p.1.readFront p.2 items

/-- Items are read from what the items in front of them leave over. -/
theorem readItems_append (reading : DateReading) (text : List Char) (items more : List DateItem) :
    reading.readItems text (items ++ more) =
      (reading.readFront text items >>= fun p => p.1.readItems p.2 more) := by
  induction items generalizing reading text with
  | nil => rfl
  | cons item items ih =>
    rw [List.cons_append, readItems, readFront]
    cases reading.readItem text item with
    | error fault => rfl
    | ok p => exact ih p.1 p.2

/-- **Items that stop at a character** read in front of it what they read at the end of a text. -/
theorem stopsAt_readFront {items : List DateItem} (h : ∀ item ∈ items, Stops c item)
    (reading : DateReading) : StopsAt (c :: more) fun text => reading.readFront text items := by
  induction items generalizing reading with
  | nil => exact fun text => rfl
  | cons item items ih =>
    obtain ⟨hitem, hitems⟩ := List.forall_mem_cons.mp h
    exact (stopsAt_readItem hitem reading).bind fun next => ih hitems next

/-- No item but the milliseconds says something of the part of a second. -/
theorem nanos_readItem {reading next : DateReading} {text rest : List Char} {item : DateItem}
    (hitem : item ≠ .millis) (h : reading.readItem text item = .ok (next, rest)) :
    next.time.nanos = reading.time.nanos := by
  cases item with
  | literal d =>
    cases text with
    | nil => cases h
    | cons e more =>
      rw [readItem] at h
      split at h <;> cases h
      rfl
  | space =>
    cases h
    rfl
  | millis => exact absurd rfl hitem
  | year | month | day | hour | minute | second | weekdayName | monthName =>
    obtain ⟨p, -, hp⟩ := bind_eq_ok_iff.mp h
    cases hp
    rfl

theorem nanos_readFront {items : List DateItem} (hitems : .millis ∉ items)
    {reading next : DateReading} {text rest : List Char}
    (h : reading.readFront text items = .ok (next, rest)) :
    next.time.nanos = reading.time.nanos := by
  induction items generalizing reading text with
  | nil =>
    cases h
    rfl
  | cons item items ih =>
    obtain ⟨hitem, hrest⟩ := not_or.mp (mt List.mem_cons.mpr hitems)
    obtain ⟨p, hp, hnext⟩ := bind_eq_ok_iff.mp h
    rw [ih hrest hnext, nanos_readItem (Ne.symm hitem) hp]

/-! ## Items read -/

theorem readItems_nil_eq_ok_iff {reading read : DateReading} {text : List Char} :
    reading.readItems text [] = .ok read ↔ text = [] ∧ reading = read := by
  cases text <;> simp [readItems]

theorem readItems_cons_eq_ok_iff {reading read : DateReading} {text : List Char} {item : DateItem}
    {items : List DateItem} : reading.readItems text (item :: items) = .ok read ↔
      ∃ next rest, reading.readItem text item = .ok (next, rest) ∧
        next.readItems rest items = .ok read := by
  rw [readItems]
  constructor
  · intro h
    split at h
    next => cases h
    next next rest hitem => exact ⟨next, rest, hitem, h⟩
  · rintro ⟨next, rest, hitem, h⟩
    rw [hitem]
    exact h

theorem readItem_literal_eq_ok_iff {reading next : DateReading} {text rest : List Char} {c : Char} :
    reading.readItem text (.literal c) = .ok (next, rest) ↔ text = c :: rest ∧ reading = next := by
  cases text with
  | nil => simp [readItem]
  | cons d more =>
    rw [readItem]
    split <;> simp_all [and_comm]

/-- The milliseconds are three digits at the front of a text. -/
theorem readMillis_eq_ok_iff {text rest : List Char} {n : Nat} :
    readMillis text = .ok (n, rest) ↔ ∃ digits, text = digits ++ rest ∧ digits.length = 3 ∧
      digits.all Char.isDigit ∧ Digits.toNat 0 digits = n := by
  constructor
  · intro h
    rw [readMillis] at h
    split at h
    next => cases h
    next hbytes =>
      split at h
      next hall =>
        cases h
        refine ⟨text.take 3, (List.take_append_drop 3 text).symm, ?_, hall, rfl⟩
        -- A shorter text would be digits only, and so have as many bytes as characters.
        rw [List.length_take, Nat.min_eq_left]
        by_contra hshort
        rw [List.take_of_length_le (by omega)] at hall
        rw [Utf8.byteLength_of_digits hall] at hbytes
        omega
      next => cases h
  · rintro ⟨digits, rfl, hlength, hall, rfl⟩
    exact readMillis_append hlength hall rest

/-- The time with a part of a second, if it had none, makes the instant so much later. -/
theorem toInstant_nanos {reading : DateReading} (hnone : reading.time.nanos = 0) (nanos : Nat)
    {later : Instant} :
    ({ reading with time.nanos := nanos } : DateReading).toInstant = .ok later ↔
      ∃ sharp, reading.toInstant = .ok sharp ∧
        later = { sharp with nanos := sharp.nanos + nanos } := by
  have hsame : ({ reading.time with nanos := nanos } : CivilTime).toInstant =
      { reading.time.toInstant with nanos := reading.time.toInstant.nanos + nanos } := by
    unfold CivilTime.toInstant
    dsimp only
    rw [hnone, Nat.zero_add, Nat.add_comm nanos]
  show (if !Calendar.isDate reading.time.date then Except.error DateFault.outOfRange
    else if reading.weekday.any (· ≠ reading.time.weekday) then .error .impossible
    else .ok ({ reading.time with nanos := nanos } : CivilTime).toInstant) = _ ↔ _
  rw [hsame, toInstant]
  split
  next => simp
  next =>
    split
    next => simp
    next => simp [eq_comm]

end DateReading

open DateReading

namespace DateFormat

/-- The common items stop at a point and at the last letter. -/
theorem stops_extendedItems {c : Char} (hc : c = '.' ∨ c = 'Z') :
    ∀ item ∈ extendedItems, Stops c item := by
  have hmark : IsMark c := by
    rcases hc with rfl | rfl
    · exact ⟨rfl, rfl, by decide, by decide⟩
    · exact ⟨rfl, rfl, by decide, by decide⟩
  have hliteral : c ≠ '-' ∧ c ≠ 'T' ∧ c ≠ ':' := by
    rcases hc with rfl | rfl <;> decide
  obtain ⟨hdash, hletter, hcolon⟩ := hliteral
  simp only [extendedItems, List.forall_mem_cons, Stops]
  exact ⟨hmark, hdash, hmark, hdash, hmark, hletter, hmark, hcolon, hmark, hcolon, hmark,
    List.forall_mem_nil _⟩

theorem millis_not_mem_extendedItems : .millis ∉ extendedItems := by
  decide

/-- The common items leave over of a tail only the whole, and so where they take all in front of it. -/
theorem readFront_extendedItems_iff {c : Char} (hc : c = '.' ∨ c = 'Z') {text more surplus : List Char}
    {reading : DateReading} (hlength : surplus.length = more.length) :
    readFront {} (text ++ c :: more) extendedItems = .ok (reading, c :: surplus) ↔
      readFront {} text extendedItems = .ok (reading, []) ∧ more = surplus := by
  rw [(stopsAt_readFront (stops_extendedItems hc) {}).eq_ok_iff]
  constructor
  · rintro ⟨rest, hfront, hsurplus⟩
    have hsame : (c :: more).length = (c :: surplus).length := congrArg (· + 1) hlength.symm
    have hwhole : rest ++ c :: more = [] ++ c :: surplus := hsurplus
    obtain ⟨rfl, htail⟩ := List.append_inj' hwhole hsame
    exact ⟨hfront, (List.cons.inj htail).2⟩
  · rintro ⟨hfront, rfl⟩
    exact ⟨[], hfront, rfl⟩

theorem read_eq_ok_iff {format : DateFormat} {text : String} {instant : Instant} :
    format.read text = .ok instant ↔ ∃ reading, readItems {} text.toList format.items =
      .ok reading ∧ reading.toInstant = .ok instant :=
  bind_eq_ok_iff

/-- The form without milliseconds: the common items, and the last letter behind them. -/
theorem read_noMillis_eq_ok_iff {text : String} {instant : Instant} :
    iso8601NoMillis.read text = .ok instant ↔ ∃ reading,
      readFront {} text.toList extendedItems = .ok (reading, ['Z']) ∧
        reading.toInstant = .ok instant := by
  have hitems {reading : DateReading} : readItems {} text.toList iso8601NoMillis.items =
      .ok reading ↔ readFront {} text.toList extendedItems = .ok (reading, ['Z']) := by
    show readItems {} text.toList (extendedItems ++ [.literal 'Z']) = _ ↔ _
    rw [readItems_append, bind_eq_ok_iff]
    constructor
    · rintro ⟨⟨front, rest⟩, hfront, hrest⟩
      obtain ⟨next, surplus, hletter, hsurplus⟩ := readItems_cons_eq_ok_iff.mp hrest
      obtain ⟨rfl, rfl⟩ := readItem_literal_eq_ok_iff.mp hletter
      obtain ⟨rfl, rfl⟩ := readItems_nil_eq_ok_iff.mp hsurplus
      exact hfront
    · intro h
      exact ⟨_, h, rfl⟩
  simp only [read_eq_ok_iff, hitems]

/-- The form with milliseconds: the common items, and a point, three digits and the last letter. -/
theorem read_iso8601_eq_ok_iff {text : String} {instant : Instant} :
    iso8601.read text = .ok instant ↔ ∃ reading digits,
      readFront {} text.toList extendedItems = .ok (reading, '.' :: (digits ++ ['Z'])) ∧
        digits.length = 3 ∧ digits.all Char.isDigit ∧
        ({ reading with time.nanos := Digits.toNat 0 digits * 1000000 } : DateReading).toInstant =
          .ok instant := by
  have hitems {read : DateReading} : readItems {} text.toList iso8601.items = .ok read ↔
      ∃ reading digits,
        readFront {} text.toList extendedItems = .ok (reading, '.' :: (digits ++ ['Z'])) ∧
          digits.length = 3 ∧ digits.all Char.isDigit ∧
          { reading with time.nanos := Digits.toNat 0 digits * 1000000 } = read := by
    show readItems {} text.toList (extendedItems ++ [.literal '.', .millis, .literal 'Z']) = _ ↔ _
    rw [readItems_append, bind_eq_ok_iff]
    constructor
    · rintro ⟨⟨front, rest⟩, hfront, hrest⟩
      obtain ⟨next, surplus, hpoint, hsurplus⟩ := readItems_cons_eq_ok_iff.mp hrest
      obtain ⟨rfl, rfl⟩ := readItem_literal_eq_ok_iff.mp hpoint
      obtain ⟨later, left, hmillis, hleft⟩ := readItems_cons_eq_ok_iff.mp hsurplus
      obtain ⟨⟨n, behind⟩, hread, heq⟩ := bind_eq_ok_iff.mp hmillis
      cases heq
      obtain ⟨digits, rfl, hlength, hall, rfl⟩ := readMillis_eq_ok_iff.mp hread
      obtain ⟨last, none, hletter, hnone⟩ := readItems_cons_eq_ok_iff.mp hleft
      obtain ⟨rfl, rfl⟩ := readItem_literal_eq_ok_iff.mp hletter
      obtain ⟨rfl, rfl⟩ := readItems_nil_eq_ok_iff.mp hnone
      exact ⟨front, digits, hfront, hlength, hall, rfl⟩
    · rintro ⟨reading, digits, hfront, hlength, hall, rfl⟩
      refine ⟨_, hfront, ?_⟩
      have hmillis := readMillis_append hlength hall ['Z']
      refine readItems_cons_eq_ok_iff.mpr ⟨_, _, readItem_literal_eq_ok_iff.mpr ⟨rfl, rfl⟩, ?_⟩
      exact readItems_cons_eq_ok_iff.mpr
        ⟨_, _, bind_eq_ok_iff.mpr ⟨_, hmillis, rfl⟩, rfl⟩
  simp only [read_eq_ok_iff, hitems]
  constructor
  · rintro ⟨_, ⟨reading, digits, hfront, hlength, hall, rfl⟩, hinstant⟩
    exact ⟨reading, digits, hfront, hlength, hall, hinstant⟩
  · rintro ⟨reading, digits, hfront, hlength, hall, hinstant⟩
    exact ⟨_, ⟨reading, digits, hfront, hlength, hall, rfl⟩, hinstant⟩

theorem parse_eq_ok_iff {format : DateFormat} {text : String} {instant : Instant} :
    format.parse text = .ok instant ↔ format.read text = .ok instant := by
  unfold parse
  cases format.read text <;> simp [Except.mapError]

/-- Reads a text in one format, or else in another. -/
def parseFirst (first second : DateFormat) (text : String) : Except FormatError Instant :=
  match first.parse text with
  | .ok instant => .ok instant
  | .error _ => second.parse text

theorem parseFirst_eq_ok_iff {first second : DateFormat} {text : String}
    (hapart : ∀ instant other, first.parse text = .ok instant → second.parse text ≠ .ok other)
    {instant : Instant} : parseFirst first second text = .ok instant ↔
      first.parse text = .ok instant ∨ second.parse text = .ok instant := by
  unfold parseFirst
  cases hfirst : first.parse text with
  | ok other => simp [hapart other instant hfirst]
  | error fault => simp

/-- No text has both extended forms: what the common items leave over begins with a point in the one
and is a letter in the other. -/
theorem extended_apart {text : String} {instant other : Instant}
    (h : iso8601.parse text = .ok instant) : iso8601NoMillis.parse text ≠ .ok other := by
  intro hother
  obtain ⟨_, _, hpoint, _⟩ := read_iso8601_eq_ok_iff.mp (parse_eq_ok_iff.mp h)
  obtain ⟨_, hletter, _⟩ := read_noMillis_eq_ok_iff.mp (parse_eq_ok_iff.mp hother)
  rw [hpoint] at hletter
  simp at hletter

/-- Milliseconds in front of the last letter make a text of the other form, so much later. -/
theorem parse_millis_iff {front : String} {digits : List Char} (hlength : digits.length = 3)
    (hall : digits.all Char.isDigit) {later : Instant} :
    iso8601.parse (front ++ "." ++ .ofList digits ++ "Z") = .ok later ↔
      ∃ sharp, iso8601NoMillis.parse (front ++ "Z") = .ok sharp ∧
        later = { sharp with nanos := sharp.nanos + Digits.toNat 0 digits * 1000000 } := by
  have hlong : (front ++ "." ++ .ofList digits ++ "Z").toList =
      front.toList ++ '.' :: (digits ++ ['Z']) := by
    simp [String.toList_append]
  have hshort : (front ++ "Z").toList = front.toList ++ 'Z' :: [] := String.toList_append
  have hletter {reading : DateReading} :
      readFront {} (front ++ "Z").toList extendedItems = .ok (reading, ['Z']) ↔
        readFront {} front.toList extendedItems = .ok (reading, []) := by
    rw [hshort, readFront_extendedItems_iff (.inr rfl) rfl, and_iff_left rfl]
  have hpoint {reading : DateReading} {found : List Char} (hfound : found.length = 3) :
      readFront {} (front ++ "." ++ .ofList digits ++ "Z").toList extendedItems =
          .ok (reading, '.' :: (found ++ ['Z'])) ↔
        readFront {} front.toList extendedItems = .ok (reading, []) ∧ digits = found := by
    have hsame : (found ++ ['Z']).length = (digits ++ ['Z']).length := by
      rw [List.length_append, List.length_append, hfound, hlength]
    rw [hlong, readFront_extendedItems_iff (.inl rfl) hsame, List.append_left_inj]
  simp only [parse_eq_ok_iff, read_iso8601_eq_ok_iff, read_noMillis_eq_ok_iff, hletter]
  constructor
  · rintro ⟨reading, found, hfound, hthree, _, hlater⟩
    obtain ⟨hfront, rfl⟩ := (hpoint hthree).mp hfound
    have hnone : reading.time.nanos = 0 := nanos_readFront millis_not_mem_extendedItems hfront
    obtain ⟨sharp, hsharp, hnanos⟩ := (toInstant_nanos hnone _).mp hlater
    exact ⟨sharp, ⟨reading, hfront, hsharp⟩, hnanos⟩
  · rintro ⟨sharp, ⟨reading, hfront, hsharp⟩, hnanos⟩
    have hnone : reading.time.nanos = 0 := nanos_readFront millis_not_mem_extendedItems hfront
    exact ⟨reading, digits, (hpoint hlength).mpr ⟨hfront, rfl⟩, hlength, hall,
      (toInstant_nanos hnone _).mpr ⟨sharp, hsharp, hnanos⟩⟩

end DateFormat

namespace Iso8601

/-- **The two extended forms** have no text in common, so it is no matter which is tried first. With a
point and three digits in front of its last letter a text of the form without milliseconds, and no
other, is one of the form with them, and says so many milliseconds more, in a leap second too. -/
theorem parse_forms :
    (∀ text instant other, DateFormat.iso8601.parse text = .ok instant →
      DateFormat.iso8601NoMillis.parse text ≠ .ok other) ∧
    (∀ text instant, parse text = .ok instant ↔
      DateFormat.parseFirst DateFormat.iso8601NoMillis DateFormat.iso8601 text = .ok instant) ∧
    ∀ (front : String) (digits : List Char), digits.length = 3 → digits.all Char.isDigit →
      ∀ later, DateFormat.iso8601.parse (front ++ "." ++ .ofList digits ++ "Z") = .ok later ↔
        ∃ sharp, DateFormat.iso8601NoMillis.parse (front ++ "Z") = .ok sharp ∧
          later = { sharp with nanos := sharp.nanos + Digits.toNat 0 digits * 1000000 } := by
  refine ⟨fun _ _ _ h => DateFormat.extended_apart h, fun text instant => ?_,
    fun _ _ hlength hall _ => DateFormat.parse_millis_iff hlength hall⟩
  have hfirst : parse text = DateFormat.parseFirst DateFormat.iso8601 DateFormat.iso8601NoMillis text :=
    rfl
  rw [hfirst, DateFormat.parseFirst_eq_ok_iff fun _ _ => DateFormat.extended_apart,
    DateFormat.parseFirst_eq_ok_iff fun _ _ hother h => DateFormat.extended_apart h hother, or_comm]

/-- A leap second with a sign before the year, short fields and blanks before them. -/
theorem parse_forms_leapSecond :
    DateFormat.iso8601NoMillis.parse " +2016-12- 31T23:59:60Z" = .ok ⟨1483228799, 1000000000⟩ ∧
      DateFormat.iso8601.parse " +2016-12- 31T23:59:60.042Z" = .ok ⟨1483228799, 1042000000⟩ ∧
      DateFormat.iso8601NoMillis.parse " +2016-12- 31T23:59:60.042Z" ≠ .ok ⟨1483228799, 0⟩ := by
  have hsharp : DateFormat.iso8601NoMillis.parse " +2016-12- 31T23:59:60Z" =
      .ok ⟨1483228799, 1000000000⟩ := by decide +kernel
  have hmillis : DateFormat.iso8601.parse " +2016-12- 31T23:59:60.042Z" =
      .ok ⟨1483228799, 1042000000⟩ :=
    (parse_forms.2.2 " +2016-12- 31T23:59:60" ['0', '4', '2'] rfl rfl _).mpr ⟨_, hsharp, rfl⟩
  exact ⟨hsharp, hmillis, parse_forms.1 _ _ _ hmillis⟩

end Iso8601

end DocWalk
