import DocWalk.Json.Tokenizer
import DocWalk.Proofs.Source.Requests

/-!
# A tokenizer that checks what it reads

The scanner of a tokenizer holds the bytes that are left, so there is nothing else that it could
read. The scanner here holds a position, and has the whole input before it: it takes the byte at an
index, the bytes from one position to another, or the text of such bytes, and nothing but its own
steps tells it that they are there and that they are a text. So each reading is checked, and so is
each move. What a check finds is a `Breach`, which is no fault of the text and ends the reading.

The rules are those of `Scan` and of `Tokenizer`, one operation for one. A tokenizer that reads in
this way still has a `Scanner` in its state, of which it looks at the position only; the bytes left
count for how far a loop is from its end.
-/

set_option autoImplicit false

namespace DocWalk.Json

/-- The scanner that stands at a position of an input. -/
def scannerAt (input : List UInt8) (pos : Nat) : Scanner :=
  ⟨input.drop pos, pos⟩

namespace Checked

/-- What a check finds. -/
inductive Breach where
  /-- Bytes are taken that do not all stand in the input. -/
  | bounds (start stop : Nat)
  /-- Bytes are taken for a text that are none. -/
  | text (start stop : Nat)
  /-- The scanner is moved behind the end of the input. -/
  | beyond (pos : Nat)
  /-- A position in front of the input is named. -/
  | before
  /-- A loop goes on from where it stood. -/
  | stalled
  deriving DecidableEq, Repr

/-- Why an operation with checks stops. -/
inductive Stop (ε : Type) where
  | fault (e : ε)
  | breach (found : Breach)
  deriving Repr

/-- A fault told in another way. -/
def Stop.map {ε δ : Type} (f : ε → δ) : Stop ε → Stop δ
  | fault e => fault (f e)
  | breach found => breach found

/-- An operation on a position. -/
abbrev CheckedScan := EStateM (Stop Fault) Nat

variable {α : Type} (input : List UInt8)

/-! ## Readings and moves -/

/-- Stops with a breach. -/
def breach (found : Breach) : CheckedScan α := fun pos =>
  .error (.breach found) pos

/-- Stops with a reason, at the position. -/
def fail (reason : Reason) : CheckedScan α := fun pos =>
  .error (.fault ⟨reason, pos⟩) pos

/-- The byte at the position, if there is one. -/
def peek : CheckedScan (Option UInt8) := fun pos =>
  .ok input[pos]? pos

/-- The byte at an index. -/
def byteAt (index : Nat) : CheckedScan UInt8 :=
  match input[index]? with
  | some b => return b
  | none => breach (.bounds index (index + 1))

/-- The bytes from one position to another. -/
def slice (start stop : Nat) : CheckedScan (List UInt8) :=
  if start ≤ stop ∧ stop ≤ input.length then return (input.drop start).take (stop - start)
  else breach (.bounds start stop)

/-- The text of the bytes from one position to another. -/
def textAt (start stop : Nat) : CheckedScan String := do
  match Utf8.decode (← slice input start stop) with
  | .ok text => return text
  | .error _ => breach (.text start stop)

/-- Moves on by so many bytes. -/
def advance (n : Nat) : CheckedScan Unit := fun pos =>
  if pos + n ≤ input.length then .ok () (pos + n) else breach (.beyond (pos + n)) pos

/-- Moves on byte by byte, as long as they have a property. -/
def skipWhile (p : UInt8 → Bool) (pos : Nat) : EStateM.Result (Stop Fault) Nat Unit :=
  match _h : input[pos]? with
  | none => .ok () pos
  | some b => if p b then skipWhile p (pos + 1) else .ok () pos
termination_by input.length - pos
decreasing_by
  have := (List.getElem?_eq_some_iff.mp _h).1
  omega

/-- Passes the next byte if it has a property, and tells whether it did. -/
def accept (p : UInt8 → Bool) : CheckedScan Bool := do
  if (← peek input).any p then
    advance input 1
    return true
  else return false

/-- Passes the given bytes if they come next, and tells whether they did. -/
def acceptBytes (bytes : List UInt8) : CheckedScan Bool := do
  let pos ← get
  if bytes.isPrefixOf (← slice input pos input.length) then
    advance input bytes.length
    return true
  else return false

/-- The next byte that is not blank, behind the blanks. -/
def significant : CheckedScan (Option UInt8) := do
  skipWhile input Ascii.isBlank
  peek input

/-- Passes a byte, which must come next behind blanks. -/
def expect (b : UInt8) (reason : Reason) : CheckedScan Unit := do
  if (← significant input) = some b then advance input 1 else fail reason

/-- Passes a word, which must come next, and takes its text from the input. -/
def literal (word : String) : CheckedScan String := do
  let start ← get
  if ← acceptBytes input (Ascii.bytes word) then textAt input start (← get)
  else fail .invalidLiteral

/-! ## Numbers -/

/-- Passes digits, of which there must be one. -/
def someDigits : CheckedScan Unit := do
  if ← accept input Ascii.isDigit then skipWhile input Ascii.isDigit else fail .invalidNumber

/-- The digits before the point. -/
def wholePart : CheckedScan Unit := do
  if ← accept input (· = Ascii.zero) then return () else someDigits input

/-- A point and digits, or nothing. -/
def fractionPart : CheckedScan Unit := do
  if ← accept input (· = Ascii.point) then someDigits input

/-- The letter e, an optional sign and digits, or nothing. -/
def exponentPart : CheckedScan Unit := do
  if ← accept input fun b => b = Ascii.byte 'e' || b = Ascii.byte 'E' then
    let _ ← accept input fun b => b = Ascii.plus || b = Ascii.hyphen
    someDigits input

/-- A number, as the input writes it. -/
def number : CheckedScan String := do
  let start ← get
  let _ ← accept input (· = Ascii.hyphen)
  wholePart input
  fractionPart input
  exponentPart input
  let stop ← get
  textAt input start stop

/-! ## Strings -/

/-- The number that hexadecimal digits write, if they are all such digits. -/
def hexNumber? (digits : List UInt8) : Option Nat :=
  digits.foldlM (fun n b => (Scan.hexValue? b).map (n * 16 + ·)) 0

/-- Four hexadecimal digits. -/
def hex4 : CheckedScan Nat := do
  let pos ← get
  if pos + 4 ≤ input.length then
    match hexNumber? (← slice input pos (pos + 4)) with
    | some n =>
      advance input 4
      return n
    | none => fail .invalidUnicodeEscape
  else fail .truncatedUnicodeEscape

/-- The character with a number. -/
def charOf (n : Nat) : CheckedScan Char :=
  if n.isValidChar then return .ofNat n else fail .invalidUnicodeEscape

/-- The second half of a surrogate pair. -/
def lowSurrogate (high : Nat) : CheckedScan Char := do
  if ← acceptBytes input [Ascii.backslash, Ascii.byte 'u'] then
    let low ← hex4 input
    if Scan.isLowSurrogate low then charOf (Scan.surrogatePair high low)
    else fail .unpairedSurrogate
  else fail .unpairedSurrogate

/-- The character of an escape by number. -/
def unicodeEscape : CheckedScan Char := do
  let n ← hex4 input
  if Scan.isHighSurrogate n then lowSurrogate input n else charOf n

/-- Stops with a bad escape, at the byte just passed. -/
def failEscape : CheckedScan α := fun pos =>
  if pos = 0 then breach .before pos else .error (.fault ⟨.invalidEscape, pos - 1⟩) pos

/-- The character of an escape, behind its backslash. -/
def escape : CheckedScan Char := do
  match ← peek input with
  | none => fail .unterminatedEscape
  | some b =>
    advance input 1
    if b = Ascii.byte 'u' then unicodeEscape input
    else match Scan.shortEscape? b with
      | some c => return c
      | none => failEscape

/-- The text of a chunk, and the quote or backslash behind it; both are passed. -/
def chunk : CheckedScan (String × UInt8) := do
  let pos ← get
  match (← slice input pos input.length).findIdx? fun b => !Scan.isRaw b with
  | none => fail .unterminatedString
  | some offset =>
    if (← slice input pos (pos + offset)).any (· < Ascii.space) then fail .controlCharacter
    else
      let text ← textAt input pos (pos + offset)
      advance input offset
      let b ← byteAt input (← get)
      advance input 1
      return (text, b)

/-- Reads a string behind its opening quote, up to and with its closing quote. -/
def stringBody (out : String) (pos : Nat) : EStateM.Result (Stop Fault) Nat String :=
  match chunk input pos with
  | .error e after => .error e after
  | .ok (text, b) after =>
    if b = Ascii.quote then .ok (out ++ text) after
    else match escape input after with
      | .error e after => .error e after
      | .ok c after =>
        if pos < after ∧ after ≤ input.length then stringBody ((out ++ text).push c) after
        else breach .stalled after
termination_by input.length - pos

/-- A string from its opening quote on. -/
def string : CheckedScan String := do
  advance input 1
  stringBody input ""

/-- The text of a scalar that starts with a byte; a null has none. -/
def scalar (b : UInt8) : CheckedScan (Option String) :=
  if b = Ascii.quote then return some (← string input)
  else if b = Ascii.byte 't' then return some (← literal input "true")
  else if b = Ascii.byte 'f' then return some (← literal input "false")
  else if b = Ascii.byte 'n' then do
    let _ ← literal input "null"
    return none
  else if b = Ascii.hyphen || Ascii.isDigit b then return some (← number input)
  else fail .unexpectedCharacter

/-! ## Tokens -/

/-- An operation of the tokenizer. Of its scanner it knows the position only. -/
abbrev CheckedTokenize := EStateM (Stop Fault) Tokenizer

/-- Lets the scanner read. -/
def scan (m : CheckedScan α) : CheckedTokenize α := fun t =>
  match m t.position with
  | .ok a pos => .ok a { t with scanner := scannerAt input pos }
  | .error e pos => .error e { t with scanner := scannerAt input pos }

/-- What a tokenizer does without reading. -/
def plain (m : Tokenize α) : CheckedTokenize α :=
  EStateM.adaptExcept .fault m

/-- Passes the closing byte of a container. -/
def passClosing (frame : Frame) : CheckedTokenize Unit := do
  scan input (advance input 1)
  plain (Tokenizer.closeContainer frame)

/-- Reads a scalar that starts with a byte. -/
def readScalar (b : UInt8) : CheckedTokenize Unit := do
  let text ← scan input (scalar input b)
  plain (Tokenizer.queueText text)
  plain Tokenizer.closeMember

/-- Reads a value; of a container only its opening byte. -/
def readValue : CheckedTokenize Unit := do
  plain Tokenizer.openElement
  match ← scan input (significant input) with
  | none => scan input (fail .unexpectedEnd)
  | some b =>
    if b = Ascii.openBrace then
      scan input (advance input 1)
      plain (Tokenizer.openFrame .object .firstKey)
    else if b = Ascii.openBracket then
      scan input (advance input 1)
      plain (Tokenizer.openFrame .array .firstElement)
    else readScalar input b

/-- Reads a key and its colon, and opens the node of the member. -/
def readMember : CheckedTokenize Unit := do
  let key ← scan input (string input)
  scan input (expect input Ascii.colon .expectedColon)
  plain (Tokenizer.queue (.startNode { name := key }))
  plain (Tokenizer.await .value)

/-- Reads a key; in front of the first one the object may end. -/
def readKey (first : Bool) : CheckedTokenize Unit := do
  let b ← scan input (significant input)
  if first ∧ b = some Ascii.closeBrace then passClosing input .object
  else if b = some Ascii.quote then readMember input
  else scan input (fail .expectedKey)

/-- Finds the first element of an array, or its end. -/
def readFirstElement : CheckedTokenize Unit := do
  let b ← scan input (significant input)
  if b = some Ascii.closeBracket then passClosing input .array
  else plain (Tokenizer.await .value)

/-- Reads what stands behind a value in a container. -/
def readSeparator (frame : Frame) (b : Option UInt8) : CheckedTokenize Unit := do
  if b = some Ascii.comma then
    scan input (advance input 1)
    plain (Tokenizer.await frame.afterComma)
  else if b = some frame.closing then passClosing input frame
  else scan input (fail frame.missing)

/-- Ends the document, behind which nothing may stand. -/
def readEnd (b : Option UInt8) : CheckedTokenize Unit := do
  if b.isSome then scan input (fail .trailingCharacters)
  else
    plain (Tokenizer.queue .endDocument)
    plain (Tokenizer.await .finished)

/-- Reads what stands behind a value. -/
def readAfterValue : CheckedTokenize Unit := do
  let b ← scan input (significant input)
  fun t => match t.frames with
    | [] => readEnd input b t
    | frame :: _ => readSeparator input frame b t

/-- Reads one token. -/
def step : CheckedTokenize Unit := fun t =>
  match t.expect with
  | .start => (do plain (Tokenizer.queue .startDocument); plain (Tokenizer.await .value)) t
  | .value => readValue input t
  | .firstKey => readKey input true t
  | .key => readKey input false t
  | .firstElement => readFirstElement input t
  | .afterValue => readAfterValue input t
  | .finished => plain (Tokenizer.queue .endDocument) t

/-! ## Requests -/

/-- Reads tokens until an event is pending. -/
def fill (t : Tokenizer) : EStateM.Result (Stop Fault) Tokenizer Unit :=
  if t.pending = [] then
    match step input t with
    | .error e u => .error e u
    | .ok () u => if u.effort < t.effort then fill u else .error (.breach .stalled) u
  else .ok () t
termination_by t.effort

/-- Serves one request: what is shown or given. -/
def ask (request : Request) : EStateM (Stop SourceError) Tokenizer (Option Event) := fun t =>
  match fill input t with
  | .error e u => .error (e.map .json) u
  | .ok () u => match request with
    | .peek => .ok u.pending.head? u
    | .next => .ok (some (u.pending.head?.getD .endDocument)) { u with pending := u.pending.tail }

/-- The state that requests leave, one after the other, whether they fail or not. -/
def after (requests : List Request) (t : Tokenizer) : Tokenizer :=
  requests.foldl (fun t request => (ask input request t).left) t

end Checked

end DocWalk.Json
