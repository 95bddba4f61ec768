/-!
# Errors of JSON texts
-/

set_option autoImplicit false

namespace DocWalk.Json

/-- Why a text is no JSON. -/
inductive Reason where
  | unexpectedCharacter
  | unexpectedEnd
  | trailingCharacters
  | expectedKey
  | expectedColon
  | expectedCommaOrBrace
  | expectedCommaOrBracket
  | mismatchedBracket
  | invalidLiteral
  | invalidNumber
  | unterminatedString
  | controlCharacter
  | unterminatedEscape
  | invalidEscape
  | truncatedUnicodeEscape
  | invalidUnicodeEscape
  | unpairedSurrogate
  /-- A reason in the words of a source that is no JSON text. -/
  | stated (words : String)
  deriving DecidableEq, Repr, Inhabited

/-- The words for a reason. -/
def Reason.words : Reason → String
  | unexpectedCharacter => "unexpected character"
  | unexpectedEnd => "unexpected end of input"
  | trailingCharacters => "trailing characters"
  | expectedKey => "expected object key"
  | expectedColon => "expected ':' after object key"
  | expectedCommaOrBrace => r"expected ',' or '}'"
  | expectedCommaOrBracket => "expected ',' or ']'"
  | mismatchedBracket => "mismatched bracket"
  | invalidLiteral => "invalid literal"
  | invalidNumber => "invalid number"
  | unterminatedString => "unterminated string"
  | controlCharacter => "control character in string"
  | unterminatedEscape => "unterminated escape"
  | invalidEscape => "invalid escape"
  | truncatedUnicodeEscape => "truncated unicode escape"
  | invalidUnicodeEscape => "invalid unicode escape"
  | unpairedSurrogate => "unpaired surrogate"
  | stated words => words

/-- A reason and the byte at which it was found. -/
structure Fault where
  reason : Reason
  position : Nat
  deriving DecidableEq, Repr, Inhabited

/-- The words for a fault. -/
def Fault.message (fault : Fault) : String :=
  fault.reason.words ++ " at byte " ++ toString fault.position

end DocWalk.Json
