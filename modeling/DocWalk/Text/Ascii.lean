/-!
# ASCII bytes

Names for the bytes that the document formats give a meaning to, and the bytes that they count as
blank. Both formats know the same four blanks.
-/

set_option autoImplicit false

namespace DocWalk.Ascii

abbrev tab : UInt8 := 0x09
abbrev lineFeed : UInt8 := 0x0A
abbrev carriageReturn : UInt8 := 0x0D
abbrev space : UInt8 := 0x20
abbrev bang : UInt8 := 0x21
abbrev quote : UInt8 := 0x22
abbrev apostrophe : UInt8 := 0x27
abbrev plus : UInt8 := 0x2B
abbrev comma : UInt8 := 0x2C
abbrev hyphen : UInt8 := 0x2D
abbrev point : UInt8 := 0x2E
abbrev slash : UInt8 := 0x2F
abbrev zero : UInt8 := 0x30
abbrev nine : UInt8 := 0x39
abbrev colon : UInt8 := 0x3A
abbrev less : UInt8 := 0x3C
abbrev equals : UInt8 := 0x3D
abbrev greater : UInt8 := 0x3E
abbrev question : UInt8 := 0x3F
abbrev openBracket : UInt8 := 0x5B
abbrev backslash : UInt8 := 0x5C
abbrev closeBracket : UInt8 := 0x5D
abbrev openBrace : UInt8 := 0x7B
abbrev closeBrace : UInt8 := 0x7D

/-- The byte of an ASCII character. -/
def byte (c : Char) : UInt8 :=
  c.toNat.toUInt8

/-- The bytes of a word made of ASCII characters. -/
def bytes (word : String) : List UInt8 :=
  word.toList.map byte

/-- Space, tab, line feed and carriage return. -/
def isBlank (b : UInt8) : Bool :=
  b = space || b = tab || b = lineFeed || b = carriageReturn

/-- A decimal digit. -/
def isDigit (b : UInt8) : Bool :=
  zero ≤ b && b ≤ nine

end DocWalk.Ascii
