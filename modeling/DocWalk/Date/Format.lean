import DocWalk.Date.Instant
import DocWalk.Number.Bounded
import DocWalk.Number.Digits
import DocWalk.Text.Blank
import DocWalk.Text.Utf8

/-!
# Date formats

A format is a list of items, each of which reads a part of a text and writes a part of one. Reading
is more lenient than writing: white space may stand before a number, numbers may have fewer digits,
and a year may have a sign and more digits; letters may be in either case.

A number outside its field's range is refused where it stands. The date made of all fields is looked
at last: it must exist, and must fall on the day of the week that the text names.
-/

set_option autoImplicit false

namespace DocWalk

/-- Why a text does not have a format. -/
inductive DateFault where
  | tooShort
  | invalid
  | outOfRange
  | impossible
  | trailing
  deriving DecidableEq, Repr, Inhabited

/-- The words for a fault. -/
def DateFault.message : DateFault → String
  | tooShort => "premature end of input"
  | invalid => "input contains invalid characters"
  | outOfRange => "input is out of range"
  | impossible => "no possible date and time matching input"
  | trailing => "trailing input"

/-- A part of a date format. -/
inductive DateItem where
  /-- A character that stands for itself. -/
  | literal (c : Char)
  /-- A space, read as any white space or none. -/
  | space
  | year
  | month
  | day
  | hour
  | minute
  | second
  /-- Three digits of a second's fraction. -/
  | millis
  | weekdayName
  | monthName
  deriving DecidableEq, Repr

/-- A date format with the name that messages give it. -/
structure DateFormat where
  name : String
  items : List DateItem
  deriving DecidableEq, Repr

namespace DateItem

/-- How the item is spelled in a pattern. -/
def directive : DateItem → String
  | literal c => c.toString
  | space => " "
  | year => "%Y"
  | month => "%m"
  | day => "%d"
  | hour => "%H"
  | minute => "%M"
  | second => "%S"
  | millis => "%3f"
  | weekdayName => "%a"
  | monthName => "%b"

/-- Names of the days of the week, from Monday. -/
def weekdayNames : List String :=
  ["Mon", "Tue", "Wed", "Thu", "Fri", "Sat", "Sun"]

/-- Names of the months. -/
def monthNames : List String :=
  ["Jan", "Feb", "Mar", "Apr", "May", "Jun", "Jul", "Aug", "Sep", "Oct", "Nov", "Dec"]

/-- A year: four digits from 0 to 9999, else a sign and at least four digits. -/
def writeYear (year : Int) : String :=
  if 0 ≤ year ∧ year ≤ 9999 then Digits.padded 4 year.toNat
  else (if year < 0 then "-" else "+") ++ Digits.padded 4 year.natAbs

/-- Writes the item's part of a time. -/
def write (time : CivilTime) : DateItem → String
  | literal c => c.toString
  | space => " "
  | year => writeYear time.date.year
  | month => Digits.padded 2 time.date.month
  | day => Digits.padded 2 time.date.day
  | hour => Digits.padded 2 time.hour
  | minute => Digits.padded 2 time.minute
  | second => Digits.padded 2 time.second
  | millis => Digits.padded 3 (time.nanos / 1000000)
  | weekdayName => weekdayNames.getD time.weekday ""
  | monthName => monthNames.getD (time.date.month - 1) ""

end DateItem

/-- What the items read so far have said. -/
structure DateReading where
  time : CivilTime := {}
  weekday : Option Nat := none
  deriving DecidableEq, Repr

namespace DateReading

/-- Reads at least one and at most `width` digits. -/
def readDigits (width : Nat) (text : List Char) : Except DateFault (Nat × List Char) :=
  let digits := (text.take width).takeWhile Char.isDigit
  if text.isEmpty then .error .tooShort
  else if digits.isEmpty then .error .invalid
  else .ok (Digits.toNat 0 digits, text.drop digits.length)

/-- Reads a number of at most two digits from `least` to `greatest`, behind any white space. -/
def readNumber (least greatest : Nat) (text : List Char) : Except DateFault (Nat × List Char) := do
  let (n, rest) ← readDigits 2 (Blank.trimStart text)
  if n < least ∨ greatest < n then throw .outOfRange
  return (n, rest)

/-- Reads a year: at most four digits, or a sign and any number of them. -/
def readYear (text : List Char) : Except DateFault (Int × List Char) := do
  let (year, rest) ← match Blank.trimStart text with
    | '-' :: digits => do
      let (n, rest) ← readDigits digits.length digits
      pure (-(n : Int), rest)
    | '+' :: digits => do
      let (n, rest) ← readDigits digits.length digits
      pure ((n : Int), rest)
    | digits => do
      let (n, rest) ← readDigits 4 digits
      pure ((n : Int), rest)
  if ((Bounds.signed 32).check year).isNone then throw .outOfRange
  return (year, rest)

/-- Reads exactly three digits, with no white space before them. -/
def readMillis (text : List Char) : Except DateFault (Nat × List Char) :=
  if Utf8.byteLength text < 3 then .error .tooShort
  else if (text.take 3).all Char.isDigit then .ok (Digits.toNat 0 (text.take 3), text.drop 3)
  else .error .invalid

/-- Reads a name of three letters, in either case, as its place in a list. -/
def readName (names : List String) (text : List Char) : Except DateFault (Nat × List Char) :=
  if Utf8.byteLength text < 3 then .error .tooShort
  else
    let letters := (text.take 3).map Char.toLower
    match names.findIdx? fun name => name.toList.map Char.toLower = letters with
    | some place => .ok (place, text.drop 3)
    | none => .error .invalid

/-- Reads one item's part of a text. -/
def readItem (reading : DateReading) (text : List Char) :
    DateItem → Except DateFault (DateReading × List Char)
  | .literal c =>
    match text with
    | [] => .error .tooShort
    | d :: rest => if d = c then .ok (reading, rest) else .error .invalid
  | .space => .ok (reading, Blank.trimStart text)
  | .year => do
    let (n, rest) ← readYear text
    return ({ reading with time.date.year := n }, rest)
  | .month => do
    let (n, rest) ← readNumber 1 12 text
    return ({ reading with time.date.month := n }, rest)
  | .day => do
    let (n, rest) ← readNumber 1 31 text
    return ({ reading with time.date.day := n }, rest)
  | .hour => do
    let (n, rest) ← readNumber 0 23 text
    return ({ reading with time.hour := n }, rest)
  | .minute => do
    let (n, rest) ← readNumber 0 59 text
    return ({ reading with time.minute := n }, rest)
  | .second => do
    let (n, rest) ← readNumber 0 60 text
    return ({ reading with time.second := n }, rest)
  | .millis => do
    let (n, rest) ← readMillis text
    return ({ reading with time.nanos := n * 1000000 }, rest)
  | .weekdayName => do
    let (place, rest) ← readName DateItem.weekdayNames text
    return ({ reading with weekday := some place }, rest)
  | .monthName => do
    let (place, rest) ← readName DateItem.monthNames text
    return ({ reading with time.date.month := place + 1 }, rest)

/-- Reads the parts of all items, which must leave nothing over. -/
def readItems (reading : DateReading) (text : List Char) :
    List DateItem → Except DateFault DateReading
  | [] => if text.isEmpty then .ok reading else .error .trailing
  | item :: items =>
    match reading.readItem text item with
    | .error fault => .error fault
    | .ok (reading, rest) => readItems reading rest items

/-- The instant that a reading says, if its date exists and falls on the day it names. -/
def toInstant (reading : DateReading) : Except DateFault Instant :=
  if !Calendar.isDate reading.time.date then .error .outOfRange
  else if reading.weekday.any (· ≠ reading.time.weekday) then .error .impossible
  else .ok reading.time.toInstant

end DateReading

namespace DateFormat

/-- The format as a pattern. -/
def pattern (format : DateFormat) : String :=
  .join (format.items.map (·.directive))

/-- Writes an instant. -/
def write (format : DateFormat) (instant : Instant) : String :=
  .join (format.items.map (·.write instant.toCivil))

/-- Reads a text as an instant in UTC. -/
def read (format : DateFormat) (text : String) : Except DateFault Instant := do
  (← DateReading.readItems {} text.toList format.items).toInstant

end DateFormat

end DocWalk
