import DocWalk.Date.Format
import DocWalk.Number.Bounded
import DocWalk.Number.Binary
import DocWalk.Number.Decimal
import DocWalk.Text.Base64

/-!
# Texts that do not have the wanted form

The error of reading a value from a text: what was wanted, the text, and, where the reader of that
form tells one, the fault it found.
-/

set_option autoImplicit false

namespace DocWalk

/-- A text does not have the wanted form. -/
inductive FormatError where
  | integer (text : String) (fault : IntegerFault)
  | float (text : String) (fault : FloatFault)
  | decimal (text : String) (fault : DecimalFault)
  | bigInteger (text : String) (fault : IntegerFault)
  | base64 (fault : Base64.Fault)
  | date (text format : String) (fault : DateFault)
  | timeZone (text zone : String)
  | epochSeconds (text : String) (fault : IntegerFault)
  | invalidFraction (text : String)
  | outOfRange (text : String)
  deriving DecidableEq, Repr

namespace FormatError

/-- The words for an error. -/
def message : FormatError → String
  | integer text _ => "'" ++ text ++ "' is not a valid integer"
  | float text _ => "'" ++ text ++ "' is not a valid floating point number"
  | decimal text _ => "'" ++ text ++ "' is not a valid decimal"
  | bigInteger text _ => "'" ++ text ++ "' is not a valid big integer"
  | base64 _ => "invalid base64 content"
  | date text format _ => "'" ++ text ++ "' does not match the " ++ format ++ " date format"
  | timeZone text zone => "unrecognized time zone '" ++ zone ++ "' in '" ++ text ++ "'"
  | epochSeconds text _ => "'" ++ text ++ "' is not a valid epoch timestamp"
  | invalidFraction text => "'" ++ text ++ "' has a non-numeric fraction of seconds"
  | outOfRange text => "'" ++ text ++ "' is out of range"

/-- The words for the fault behind an error, where there is one. -/
def cause : FormatError → Option String
  | integer _ fault | bigInteger _ fault | epochSeconds _ fault => some fault.message
  | float _ fault => some fault.message
  | decimal _ fault => some fault.message
  | base64 fault => some fault.message
  | date _ _ fault => some fault.message
  | timeZone .. | invalidFraction _ | outOfRange _ => none

end FormatError

end DocWalk
