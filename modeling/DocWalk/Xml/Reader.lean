import DocWalk.Outcome
import DocWalk.Xml.Ending
import DocWalk.Xml.Error

/-!
# Reading XML markup

A reader parts the bytes of a document into texts and pieces of markup, and keeps the names of the
elements that are open. It looks at no attribute and no reference.

A text goes up to the next less-than sign; markup starts with one. Markup that does not end, or is no
markup, ends the reading: the rest of the document is dropped. An end tag that fits no start tag is
told, and the reading goes on behind it.

`read_lt` says that everything read but the end of the document takes bytes.
-/

set_option autoImplicit false

namespace DocWalk.Xml

/-- What stands in a start tag or an empty element, without the signs and the final slash. -/
structure Tag where
  content : List UInt8
  deriving DecidableEq, Repr, Inhabited

/-- The name of a tag, up to the first blank. -/
def Tag.name (tag : Tag) : List UInt8 :=
  tag.content.takeWhile fun b => !Ascii.isBlank b

/-- A piece of a document. -/
inductive Token where
  | startTag (tag : Tag)
  | emptyElement (tag : Tag)
  | endTag
  | text (bytes : List UInt8)
  | cdata (bytes : List UInt8)
  /-- A comment, a processing instruction, a declaration or a document type. -/
  | aside
  /-- The end of the document. -/
  | finish
  deriving DecidableEq, Repr, Inhabited

/-- The bytes left of a document, the number of bytes before them, and the names of the open
elements, innermost first. -/
structure Reader where
  rest : List UInt8
  pos : Nat := 0
  openNames : List (List UInt8) := []
  deriving DecidableEq, Repr, Inhabited

/-- How a reading ends. -/
abbrev Reading := EStateM.Result Fault Reader Token

namespace Reader

/-- The mark that may stand before a document in UTF-8. -/
def byteOrderMark : List UInt8 := [0xEF, 0xBB, 0xBF]

/-- A reader at the start of a document. A byte order mark is dropped and not counted. -/
def ofBytes (bytes : List UInt8) : Reader :=
  { rest := if byteOrderMark.isPrefixOf bytes then bytes.drop 3 else bytes }

/-- Drops the rest of the document. -/
def abandon (r : Reader) (pos : Nat) (fault : SyntaxFault) : Reading :=
  .error (.malformed fault) { r with rest := [], pos }

/-- Reads markup up to its end; `inside` is what stands behind the less-than sign. -/
def readUpTo {σ : Type} (r : Reader) (ending : Ending σ) (unclosed : SyntaxFault)
    (inside : List UInt8) (emit : List UInt8 → Reader → Reading) : Reading :=
  match ending.split inside with
  | none => r.abandon (r.pos + 1 + inside.length) unclosed
  | some (content, rest) => emit content { r with rest, pos := r.pos + content.length + 2 }

/-- A name for a message; bytes that are no text have none. -/
def nameText (name : List UInt8) : String :=
  ((Utf8.decode name).toOption).getD ""

/-- Drops blanks from the end of a name, unless it is all blanks. -/
def trimName (name : List UInt8) : List UInt8 :=
  if name.all Ascii.isBlank then name else (name.reverse.dropWhile Ascii.isBlank).reverse

/-- An end tag closes the innermost open element, whether it names it or not. -/
def emitEndTag (content : List UInt8) (r : Reader) : Reading :=
  let name := trimName (content.drop 1)
  match r.openNames with
  | [] => .error (.illFormed (.unmatchedEndTag (nameText name))) r
  | expected :: outer =>
    if name = expected then .ok .endTag { r with openNames := outer }
    else
      .error (.illFormed (.mismatchedEndTag (nameText expected) (nameText name)))
        { r with openNames := outer }

/-- A start tag opens an element, unless it ends with a slash. -/
def emitTag (content : List UInt8) (r : Reader) : Reading :=
  if content.getLast? = some Ascii.slash then .ok (.emptyElement ⟨content.dropLast⟩) r
  else
    let tag : Tag := ⟨content⟩
    .ok (.startTag tag) { r with openNames := tag.name :: r.openNames }

/-- An instruction needs two question marks. -/
def emitInstruction (content : List UInt8) (r : Reader) : Reading :=
  if content.length > 1 then .ok .aside r else r.abandon r.pos .unclosedInstruction

/-- A comment starts with two hyphens. -/
def emitComment (content : List UInt8) (r : Reader) : Reading :=
  if (Ascii.bytes "!--").isPrefixOf content then .ok .aside r
  else r.abandon r.pos .unclosedComment

/-- A CDATA section is what stands between its marks. -/
def emitCData (content : List UInt8) (r : Reader) : Reading :=
  if (Ascii.bytes "![CDATA[").isPrefixOf content then
    .ok (.cdata ((content.drop 8).take (content.length - 10))) r
  else r.abandon r.pos .unclosedCData

/-- The small letter of an ASCII capital. -/
def toLower (b : UInt8) : UInt8 :=
  if 0x41 ≤ b && b ≤ 0x5A then b + 0x20 else b

/-- A document type needs a name. -/
def emitDoctype (content : List UInt8) (r : Reader) : Reading :=
  if (content.take 8).map toLower = Ascii.bytes "!doctype" then
    if (content.drop 8).all Ascii.isBlank then .error (.illFormed .missingDoctypeName) r
    else .ok .aside r
  else r.abandon r.pos .unclosedDoctype

/-- Reads markup that starts with an exclamation mark. -/
def readBang (r : Reader) (inside : List UInt8) : Reading :=
  match inside.drop 1 with
  | [] => r.abandon (r.pos + 1) .invalidBang
  | b :: _ =>
    if b = Ascii.openBracket then r.readUpTo .cdata .unclosedCData inside emitCData
    else if b = Ascii.hyphen then r.readUpTo .comment .unclosedComment inside emitComment
    else if b = Ascii.byte 'D' ∨ b = Ascii.byte 'd' then
      r.readUpTo .doctype .unclosedDoctype inside emitDoctype
    else r.abandon (r.pos + 1) .invalidBang

/-- Reads markup; `inside` is what stands behind the less-than sign. -/
def readMarkup (r : Reader) (inside : List UInt8) : Reading :=
  match inside with
  | [] => r.abandon (r.pos + 1) .unclosedTag
  | b :: _ =>
    if b = Ascii.bang then r.readBang inside
    else if b = Ascii.question then
      r.readUpTo .instruction .unclosedInstruction inside emitInstruction
    else if b = Ascii.slash then r.readUpTo .tag .unclosedTag inside emitEndTag
    else r.readUpTo .tag .unclosedTag inside emitTag

/-- Reads one piece of the document. -/
def read (r : Reader) : Reading :=
  match r.rest with
  | [] => .ok .finish r
  | b :: inside =>
    if b = Ascii.less then r.readMarkup inside
    else
      let text := (b :: inside).takeWhile (· ≠ Ascii.less)
      .ok (.text text) { r with rest := (b :: inside).drop text.length, pos := r.pos + text.length }

/-! ## Reading takes bytes -/

/-- A way to go on behind markup that drops nothing but the rest as a whole. -/
def Keeps (emit : List UInt8 → Reader → Reading) : Prop :=
  ∀ content r token s, emit content r = .ok token s → s.rest = r.rest

theorem keeps_emitEndTag : Keeps emitEndTag := by
  intro content r token s h
  unfold emitEndTag at h
  simp only at h
  split at h
  · cases h
  split at h <;> cases h
  rfl

theorem keeps_emitTag : Keeps emitTag := by
  intro content r token s h
  unfold emitTag at h
  split at h <;> cases h <;> rfl

theorem keeps_emitInstruction : Keeps emitInstruction := by
  intro content r token s h
  unfold emitInstruction at h
  split at h <;> cases h
  rfl

theorem keeps_emitComment : Keeps emitComment := by
  intro content r token s h
  unfold emitComment at h
  split at h <;> cases h
  rfl

theorem keeps_emitCData : Keeps emitCData := by
  intro content r token s h
  unfold emitCData at h
  split at h <;> cases h
  rfl

theorem keeps_emitDoctype : Keeps emitDoctype := by
  intro content r token s h
  unfold emitDoctype at h
  split at h
  · split at h <;> cases h
    rfl
  · cases h

theorem readUpTo_lt {σ : Type} {r s : Reader} {ending : Ending σ} {unclosed : SyntaxFault}
    {inside : List UInt8} {emit : List UInt8 → Reader → Reading} (hk : Keeps emit) {token : Token}
    (h : r.readUpTo ending unclosed inside emit = .ok token s) :
    s.rest.length < inside.length := by
  unfold readUpTo at h
  split at h
  · cases h
  next content rest hs =>
    rw [hk _ _ _ _ h, Ending.splitFrom_eq hs]
    simp
    omega

theorem readBang_lt {r s : Reader} {inside : List UInt8} {token : Token}
    (h : r.readBang inside = .ok token s) : s.rest.length < inside.length := by
  unfold readBang at h
  split at h
  · cases h
  split at h
  · exact readUpTo_lt keeps_emitCData h
  split at h
  · exact readUpTo_lt keeps_emitComment h
  split at h
  · exact readUpTo_lt keeps_emitDoctype h
  · cases h

theorem readMarkup_lt {r s : Reader} {inside : List UInt8} {token : Token}
    (h : r.readMarkup inside = .ok token s) : s.rest.length < inside.length := by
  unfold readMarkup at h
  split at h
  · cases h
  split at h
  · exact readBang_lt h
  split at h
  · exact readUpTo_lt keeps_emitInstruction h
  split at h
  · exact readUpTo_lt keeps_emitEndTag h
  · exact readUpTo_lt keeps_emitTag h

/-- The end of the document changes nothing, and everything else takes bytes. -/
theorem read_ok {r s : Reader} {token : Token} (h : r.read = .ok token s) :
    (token = .finish ∧ s = r) ∨ s.rest.length < r.rest.length := by
  unfold read at h
  split at h
  · cases h
    exact .inl ⟨rfl, rfl⟩
  next b inside hr =>
    rw [hr]
    split at h
    · exact .inr (Nat.lt_succ_of_lt (readMarkup_lt h))
    next hb =>
      cases h
      refine .inr ?_
      have hp : ((b :: inside).takeWhile (· ≠ Ascii.less)).length =
          (inside.takeWhile (· ≠ Ascii.less)).length + 1 := by
        simp only [List.takeWhile_cons, ne_eq, hb, not_false_eq_true, decide_true, if_true,
          List.length_cons]
      rw [List.length_drop, hp, List.length_cons]
      omega

/-- Everything read but the end of the document takes bytes. -/
theorem read_lt {r s : Reader} {token : Token} (h : r.read = .ok token s)
    (ht : token ≠ .finish) : s.rest.length < r.rest.length :=
  (read_ok h).resolve_left fun hf => ht hf.1

end Reader

end DocWalk.Xml
