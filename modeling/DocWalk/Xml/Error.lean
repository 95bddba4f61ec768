import DocWalk.Number.Bounded
import DocWalk.Text.Utf8

/-!
# Errors of XML documents

Five families: constructs that do not end, constructs that do not fit together, bad attributes, bytes
that are no text, and bad references. Only the first ends the reading; behind the others the document
goes on.
-/

set_option autoImplicit false

namespace DocWalk.Xml

/-- A construct that does not end or is none. -/
inductive SyntaxFault where
  | invalidBang
  | unclosedInstruction
  | unclosedComment
  | unclosedDoctype
  | unclosedCData
  | unclosedTag
  deriving DecidableEq, Repr, Inhabited

/-- The words for a fault. -/
def SyntaxFault.message : SyntaxFault → String
  | invalidBang => "unknown or missed symbol in markup"
  | unclosedInstruction =>
    "processing instruction or xml declaration not closed: `?>` not found before end of input"
  | unclosedComment => "comment not closed: `-->` not found before end of input"
  | unclosedDoctype => "DOCTYPE not closed: `>` not found before end of input"
  | unclosedCData => "CDATA not closed: `]]>` not found before end of input"
  | unclosedTag => "tag not closed: `>` not found before end of input"

/-- Constructs that do not fit together. -/
inductive IllFormed where
  | missingDoctypeName
  /-- The document ends with an element open. -/
  | missingEndTag (name : String)
  /-- An end tag with no element open. -/
  | unmatchedEndTag (name : String)
  /-- An end tag for another element than the innermost open one. -/
  | mismatchedEndTag (expected found : String)
  deriving DecidableEq, Repr, Inhabited

/-- The words for a fault. -/
def IllFormed.message : IllFormed → String
  | missingDoctypeName =>
    "`<!DOCTYPE>` declaration does not contain a name of a document type"
  | missingEndTag name => "start tag not closed: `</" ++ name ++ ">` not found before end of input"
  | unmatchedEndTag name => "close tag `</" ++ name ++ ">` does not match any open tag"
  | mismatchedEndTag expected found =>
    "expected `</" ++ expected ++ ">`, but `</" ++ found ++ ">` was found"

/-- A bad attribute, at byte offsets in the content of its tag. -/
inductive AttributeFault where
  | expectedEquals (offset : Nat)
  | expectedValue (offset : Nat)
  | unquotedValue (offset : Nat)
  | missingQuote (offset : Nat) (quote : Char)
  | duplicate (offset previous : Nat)
  deriving DecidableEq, Repr, Inhabited

/-- The words for a fault. -/
def AttributeFault.message : AttributeFault → String
  | expectedEquals offset =>
    "position " ++ toString offset ++ ": attribute key must be directly followed by `=` or space"
  | expectedValue offset =>
    "position " ++ toString offset ++ ": `=` must be followed by an attribute value"
  | unquotedValue offset =>
    "position " ++ toString offset ++ ": attribute value must be enclosed in `\"` or `'`"
  | missingQuote offset quote =>
    "position " ++ toString offset ++ ": missing closing quote `" ++ quote.toString
      ++ "` in attribute value"
  | duplicate offset previous =>
    "position " ++ toString offset ++ ": duplicated attribute, previous declaration at position "
      ++ toString previous

/-- A bad character reference. -/
inductive CharacterFault where
  | unexpectedSign
  | number (fault : IntegerFault)
  | forbidden (code : Nat)
  | noCharacter (code : Nat)
  deriving DecidableEq, Repr, Inhabited

/-- The words for a fault. -/
def CharacterFault.message : CharacterFault → String
  | unexpectedSign => "unexpected number sign"
  | number fault => fault.message
  | forbidden code =>
    "0x" ++ .ofList (Nat.toDigits 16 code) ++ " character is not permitted in XML"
  | noCharacter code => "`" ++ toString code ++ "` is not a valid codepoint"

/-- A bad reference, at byte offsets in its text. -/
inductive ReferenceFault where
  | unterminated (start stop : Nat)
  | character (fault : CharacterFault)
  | unrecognized (start stop : Nat) (name : String)
  deriving DecidableEq, Repr, Inhabited

/-- The words for a fault. -/
def ReferenceFault.message : ReferenceFault → String
  | unterminated start stop =>
    "Error while escaping character at range " ++ toString start ++ ".." ++ toString stop
      ++ ": Cannot find ';' after '&'"
  | character fault => "invalid character reference: " ++ fault.message
  | unrecognized start stop name =>
    "at " ++ toString start ++ ".." ++ toString stop ++ ": unrecognized entity `" ++ name ++ "`"

/-- What may be wrong with an XML document. -/
inductive Fault where
  | malformed (fault : SyntaxFault)
  | illFormed (fault : IllFormed)
  | badAttribute (fault : AttributeFault)
  | encoding (fault : Utf8.Fault)
  | reference (fault : ReferenceFault)
  deriving DecidableEq, Repr, Inhabited

/-- The words for a fault. -/
def Fault.message : Fault → String
  | malformed fault => "syntax error: " ++ fault.message
  | illFormed fault => "ill-formed document: " ++ fault.message
  | badAttribute fault => "error while parsing attribute: " ++ fault.message
  | encoding fault => "cannot decode input using UTF-8: " ++ fault.message
  | reference fault => fault.message

end DocWalk.Xml
