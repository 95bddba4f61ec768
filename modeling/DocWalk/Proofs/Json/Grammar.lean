import DocWalk.Event

/-!
# The grammar of JSON texts

RFC 8259 as relations between what is meant and the characters that say it. A value is written in
many ways: blanks may stand around every token, and a character of a string stands for itself or is
escaped. Each relation here holds of one meaning and one way to write it.

A number is kept as it is written. An object is the list of its members in order, and a key may come
again. `Value.events` is what a document of events shows of a value: a member is a node named by its
key, an element is a node named `member`, a scalar is one text, and null is nothing.

The grammar knows no scanner. It refuses what the RFC refuses, and of escapes by number it takes
only those that stand for characters, so half of a surrogate pair stands for nothing.
-/

set_option autoImplicit false

namespace DocWalk.Json

/-- A JSON value. -/
inductive Value where
  | null
  | bool (value : Bool)
  /-- A number, in the characters that write it. -/
  | number (literal : String)
  | string (text : String)
  | array (elements : List Value)
  /-- The members in order; a key may come more than once. -/
  | object (members : List (String × Value))
  deriving Repr, Inhabited

mutual

/-- The events that show a value; the value itself opens no node. -/
def Value.events : Value → List Event
  | .null => []
  | .bool value => [.text (if value then "true" else "false")]
  | .number literal => [.text literal]
  | .string text => [.text text]
  | .array elements => elementEvents elements
  | .object members => memberEvents members

/-- The events that show the elements of an array. -/
def elementEvents : List Value → List Event
  | [] => []
  | v :: rest => .startNode { name := "member" } :: v.events ++ .endNode :: elementEvents rest

/-- The events that show the members of an object. -/
def memberEvents : List (String × Value) → List Event
  | [] => []
  | (key, v) :: rest => .startNode { name := key } :: v.events ++ .endNode :: memberEvents rest

end

/-- What a value has shown: a text, a node without attributes, or the end of one. -/
inductive PlainEvent : Event → Prop where
  | text (text : String) : PlainEvent (.text text)
  | startNode (name : String) : PlainEvent (.startNode { name := name })
  | endNode : PlainEvent .endNode

mutual

theorem Value.plain_events : ∀ v : Value, ∀ event ∈ v.events, PlainEvent event
  | .null => List.forall_mem_nil _
  | .bool _ => List.forall_mem_singleton.mpr (.text _)
  | .number _ => List.forall_mem_singleton.mpr (.text _)
  | .string _ => List.forall_mem_singleton.mpr (.text _)
  | .array elements => by
    rw [Value.events]
    exact plain_elementEvents elements
  | .object members => by
    rw [Value.events]
    exact plain_memberEvents members

theorem plain_elementEvents : ∀ elements : List Value,
    ∀ event ∈ elementEvents elements, PlainEvent event
  | [] => List.forall_mem_nil _
  | v :: rest => by
    have hv := v.plain_events
    have hrest := plain_elementEvents rest
    simp only [elementEvents, List.cons_append, List.forall_mem_cons, List.forall_mem_append]
    exact ⟨.startNode _, hv, .endNode, hrest⟩

theorem plain_memberEvents : ∀ members : List (String × Value),
    ∀ event ∈ memberEvents members, PlainEvent event
  | [] => List.forall_mem_nil _
  | (_, v) :: rest => by
    have hv := v.plain_events
    have hrest := plain_memberEvents rest
    simp only [memberEvents, List.cons_append, List.forall_mem_cons, List.forall_mem_append]
    exact ⟨.startNode _, hv, .endNode, hrest⟩

end

/-- The end of the document is no event of a value. -/
theorem Value.endDocument_not_mem (v : Value) : .endDocument ∉ v.events :=
  fun hmem => nomatch v.plain_events _ hmem

namespace Grammar

/-! ## Blanks and numbers -/

/-- The four characters that count as blank. -/
def isBlank (c : Char) : Bool :=
  c = ' ' || c = '\t' || c = '\n' || c = '\r'

/-- A decimal digit. -/
def isDigit (c : Char) : Bool :=
  0x30 ≤ c.toNat && c.toNat ≤ 0x39

/-- Blanks, or nothing. -/
def Blanks (chars : List Char) : Prop :=
  ∀ c ∈ chars, isBlank c = true

instance (chars : List Char) : Decidable (Blanks chars) :=
  decidable_of_iff (chars.all isBlank = true) List.all_eq_true

/-- One digit or more. -/
structure Digits (chars : List Char) : Prop where
  ne_nil : chars ≠ []
  isDigit : ∀ c ∈ chars, isDigit c = true

/-- The digits before the point: a zero alone, or digits of which the first is not zero. -/
inductive Whole : List Char → Prop where
  | zero : Whole ['0']
  | digits {chars : List Char} : Digits chars → chars.head? ≠ some '0' → Whole chars

/-- A point and digits, or nothing. -/
inductive Fraction : List Char → Prop where
  | absent : Fraction []
  | present {digits : List Char} : Digits digits → Fraction ('.' :: digits)

/-- The letter e in either case, an optional sign and digits, or nothing. -/
inductive Exponent : List Char → Prop where
  | absent : Exponent []
  | present {e : Char} {sign digits : List Char} : e ∈ ['e', 'E'] → sign ∈ [[], ['+'], ['-']] →
      Digits digits → Exponent (e :: sign ++ digits)

/-- A number: an optional minus sign and the three parts. -/
inductive Number : List Char → Prop where
  | mk {sign whole fraction exponent : List Char} : sign ∈ [[], ['-']] → Whole whole →
      Fraction fraction → Exponent exponent → Number (sign ++ whole ++ fraction ++ exponent)

/-! ## Strings -/

/-- The value of a hexadecimal digit, letters in either case. -/
def hexDigit? (c : Char) : Option Nat :=
  if 0x30 ≤ c.toNat ∧ c.toNat ≤ 0x39 then some (c.toNat - 0x30)
  else if 0x61 ≤ c.toNat ∧ c.toNat ≤ 0x66 then some (c.toNat - 0x61 + 10)
  else if 0x41 ≤ c.toNat ∧ c.toNat ≤ 0x46 then some (c.toNat - 0x41 + 10)
  else none

/-- Four hexadecimal digits and their number. -/
inductive Hex4 : List Char → Nat → Prop where
  | mk {a b c d : Char} {w x y z : Nat} : hexDigit? a = some w → hexDigit? b = some x →
      hexDigit? c = some y → hexDigit? d = some z →
      Hex4 [a, b, c, d] (((w * 16 + x) * 16 + y) * 16 + z)

/-- The escapes of one letter, each with the character it stands for. -/
def shortEscapes : List (Char × Char) :=
  [('"', '"'), ('\\', '\\'), ('/', '/'), ('b', '\x08'), ('f', '\x0C'), ('n', '\n'), ('r', '\r'),
    ('t', '\t')]

/-- What stands behind a backslash, and the character meant: a short escape, the number of a
character that is no surrogate, or the two surrogates of a character beyond the first plane. -/
inductive Escape : Char → List Char → Prop where
  | short {letter c : Char} : (letter, c) ∈ shortEscapes → Escape c [letter]
  | unit {digits : List Char} {n : Nat} : Hex4 digits n → n < 0xD800 ∨ 0xE000 ≤ n →
      Escape (.ofNat n) ('u' :: digits)
  | pair {first second : List Char} {high low : Nat} : Hex4 first high → Hex4 second low →
      0xD800 ≤ high → high < 0xDC00 → 0xDC00 ≤ low → low < 0xE000 →
      Escape (.ofNat (0x10000 + (high - 0xD800) * 0x400 + (low - 0xDC00)))
        ('u' :: first ++ '\\' :: 'u' :: second)

/-- A character that stands for itself in a string: no quote, no backslash, no control character. -/
def isUnescaped (c : Char) : Bool :=
  c ≠ '"' && c ≠ '\\' && 0x20 ≤ c.toNat

/-- A text and the characters that write it between quotes. -/
inductive Content : List Char → List Char → Prop where
  | nil : Content [] []
  | raw {c : Char} {text written : List Char} : isUnescaped c = true → Content text written →
      Content (c :: text) (c :: written)
  | escape {c : Char} {escape text written : List Char} : Escape c escape → Content text written →
      Content (c :: text) ('\\' :: escape ++ written)

/-- A text in quotes. -/
inductive Quoted : String → List Char → Prop where
  | mk {text : String} {written : List Char} : Content text.toList written →
      Quoted text ('"' :: written ++ ['"'])

/-! ## Values -/

/-- A value that holds no others. -/
inductive Scalar : Value → List Char → Prop where
  | null : Scalar .null ['n', 'u', 'l', 'l']
  | true : Scalar (.bool true) ['t', 'r', 'u', 'e']
  | false : Scalar (.bool false) ['f', 'a', 'l', 's', 'e']
  | number {chars : List Char} : Number chars → Scalar (.number (.ofList chars)) chars
  | string {text : String} {chars : List Char} : Quoted text chars → Scalar (.string text) chars

mutual

/-- A value from its first character to its last. -/
inductive Written : Value → List Char → Prop where
  | scalar {v : Value} {chars : List Char} : Scalar v chars → Written v chars
  | emptyArray {blanks : List Char} : Blanks blanks → Written (.array []) ('[' :: blanks ++ [']'])
  | array {elements : List Value} {chars : List Char} : Elements elements chars →
      Written (.array elements) ('[' :: chars ++ [']'])
  | emptyObject {blanks : List Char} : Blanks blanks →
      Written (.object []) ('{' :: blanks ++ ['}'])
  | object {members : List (String × Value)} {chars : List Char} : Members members chars →
      Written (.object members) ('{' :: chars ++ ['}'])

/-- A value with the blanks around it. -/
inductive Spaced : Value → List Char → Prop where
  | mk {v : Value} {before chars after : List Char} : Blanks before → Written v chars →
      Blanks after → Spaced v (before ++ chars ++ after)

/-- Elements of an array, one or more, with commas between them. -/
inductive Elements : List Value → List Char → Prop where
  | one {v : Value} {chars : List Char} : Spaced v chars → Elements [v] chars
  | more {v : Value} {rest : List Value} {chars others : List Char} : Spaced v chars →
      Elements rest others → Elements (v :: rest) (chars ++ ',' :: others)

/-- A member of an object: a key, a colon and a value. -/
inductive Member : String × Value → List Char → Prop where
  | mk {key : String} {v : Value} {before quoted after chars : List Char} : Blanks before →
      Quoted key quoted → Blanks after → Spaced v chars →
      Member (key, v) (before ++ quoted ++ after ++ ':' :: chars)

/-- Members of an object, one or more, with commas between them. -/
inductive Members : List (String × Value) → List Char → Prop where
  | one {m : String × Value} {chars : List Char} : Member m chars → Members [m] chars
  | more {m : String × Value} {rest : List (String × Value)} {chars others : List Char} :
      Member m chars → Members rest others → Members (m :: rest) (chars ++ ',' :: others)

end

/-- A JSON text: one value, with blanks around it or not, and nothing else. -/
def IsText (v : Value) (text : String) : Prop :=
  Spaced v text.toList

end Grammar

end DocWalk.Json
