import DocWalk.Notice
import DocWalk.Primitive.Error

/-!
# The date formats of service documents

Two forms of ISO 8601, with and without milliseconds, its compressed form, and the form of RFC 822,
whose time zone is read apart from the rest.
-/

set_option autoImplicit false

namespace DocWalk.DateFormat

open DateItem

/-- The date and the time of day of the extended forms. -/
def extendedItems : List DateItem :=
  [year, literal '-', month, literal '-', day, literal 'T',
    hour, literal ':', minute, literal ':', second]

/-- For instance `2013-11-29T23:37:45.123Z`. -/
def iso8601 : DateFormat :=
  ⟨"ISO-8601", extendedItems ++ [literal '.', millis, literal 'Z']⟩

/-- For instance `2013-11-29T23:37:45Z`. -/
def iso8601NoMillis : DateFormat :=
  ⟨"ISO-8601 (no milliseconds)", extendedItems ++ [literal 'Z']⟩

/-- For instance `Fri, 29 Nov 2013 23:37:45`, without the zone. -/
def rfc822 : DateFormat :=
  ⟨"RFC-822", [weekdayName, literal ',', space, day, space, monthName, space, year, space,
    hour, literal ':', minute, literal ':', second]⟩

/-- For instance `20131129T233745Z`. -/
def compressedIso8601 : DateFormat :=
  ⟨"compressed ISO-8601", [year, month, day, literal 'T', hour, minute, second, literal 'Z']⟩

/-- Reads a text; the error tells the text and the format. -/
def parse (format : DateFormat) (text : String) : Except FormatError Instant :=
  (format.read text).mapError (.date text format.name)

end DateFormat

namespace Iso8601

/-- Reads a date with milliseconds, or else without; the error is that of the second try. -/
def parse (text : String) : Except FormatError Instant :=
  match DateFormat.iso8601.parse text with
  | .ok instant => .ok instant
  | .error _ => DateFormat.iso8601NoMillis.parse text

/-- The notices of reading a date: the second try is told. -/
def notices (text : String) : List Notice :=
  match DateFormat.iso8601.parse text with
  | .ok _ => []
  | .error _ => [.dateWithoutMillis text]

/-- Writes a date with milliseconds. -/
def write (instant : Instant) : String :=
  DateFormat.iso8601.write instant

end Iso8601

namespace CompressedIso8601

/-- Reads a compressed date. -/
def parse (text : String) : Except FormatError Instant :=
  DateFormat.compressedIso8601.parse text

/-- Writes a compressed date. -/
def write (instant : Instant) : String :=
  DateFormat.compressedIso8601.write instant

end CompressedIso8601

namespace Rfc822

/-- Reads a zone as seconds east of Greenwich: a name of Greenwich time, or a sign, hours and
minutes. The whole must be less than a day; the minutes alone may be any two digits. -/
def zoneOffset (zone : String) : Option Int :=
  if zone ∈ ["GMT", "UTC", "UT", "Z"] then some 0
  else match zone.toList with
    | [sign, h, h', m, m'] =>
      if [h, h', m, m'].all Char.isDigit then
        let seconds : Int := Digits.toNat 0 [h, h'] * 3600 + Digits.toNat 0 [m, m'] * 60
        if seconds < Instant.secondsPerDay then
          if sign = '+' then some seconds
          else if sign = '-' then some (-seconds)
          else none
        else none
      else none
    | _ => none

/-- Parts a text at its last space, after white space at its end is dropped. Without a space the zone
is empty. -/
def splitZone (text : String) : String × String :=
  let trimmed := Blank.trimEnd text.toList
  let zone := (trimmed.reverse.takeWhile (· ≠ ' ')).reverse
  if zone.length = trimmed.length then (text, "")
  else (.ofList (trimmed.take (trimmed.length - zone.length - 1)), .ofList zone)

/-- Reads a date with its zone. -/
def parse (text : String) : Except FormatError Instant :=
  let (stamp, zone) := splitZone text
  match zoneOffset zone with
  | none => .error (.timeZone text zone)
  | some offset =>
    match DateFormat.rfc822.read stamp with
    | .error fault => .error (.date text DateFormat.rfc822.name fault)
    | .ok shown =>
      match Instant.check { shown with seconds := shown.seconds - offset } with
      | some instant => .ok instant
      | none => .error (.outOfRange text)

/-- Writes a date in Greenwich time. -/
def write (instant : Instant) : String :=
  DateFormat.rfc822.write instant ++ " GMT"

end Rfc822

end DocWalk
