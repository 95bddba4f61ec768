import DocWalk.Number.Bounded
import DocWalk.Text.Ascii
import DocWalk.Xml.Error

/-!
# References in XML texts

In a text and in the value of an attribute an ampersand opens a reference, which a semicolon closes.
Five names are known; a number sign refers to a character by its number. Everything else stands for
itself.
-/

set_option autoImplicit false

namespace DocWalk.Xml

namespace Reference

/-- The character of a known name. -/
def named? (name : List Char) : Option Char :=
  match String.ofList name with
  | "lt" => some '<'
  | "gt" => some '>'
  | "amp" => some '&'
  | "apos" => some '\x27'
  | "quot" => some '\x22'
  | _ => none

/-- The number of a character; it has no sign. -/
def readCode (base : Nat) (digits : List Char) : Except CharacterFault Nat :=
  if digits.head? = some '+' ∨ digits.head? = some '-' then .error .unexpectedSign
  else
    match (Bounds.unsigned 32).readUnsigned base digits with
    | .error fault => .error (.number fault)
    | .ok code => .ok code.toNat

/-- The character of a number, which is decimal, or hexadecimal behind the letter x. -/
def numbered (number : List Char) : Except CharacterFault Char := do
  let code ← match number with
    | 'x' :: digits => readCode 16 digits
    | digits => readCode 10 digits
  if code = 0 then throw (.forbidden code)
  if code.isValidChar then return .ofNat code else throw (.noCharacter code)

/-- The character that a reference stands for. Its name starts at a byte offset. -/
def resolve (start : Nat) (name : List Char) : Except ReferenceFault Char :=
  match name with
  | '#' :: number => (numbered number).mapError .character
  | _ =>
    match named? name with
    | some c => .ok c
    | none => .error (.unrecognized start (start + Utf8.byteLength name) (.ofList name))

/-- Puts characters in the place of references. The characters start at a byte offset in a text of
`total` bytes. -/
def resolveAll (total offset : Nat) : List Char → Except ReferenceFault (List Char)
  | [] => .ok []
  | c :: rest =>
    if c = '&' then
      let name := rest.takeWhile fun c => c ≠ '&' && c ≠ ';'
      match rest.drop name.length with
      | ';' :: _ =>
        match resolve (offset + 1) name with
        | .error fault => .error fault
        | .ok resolved =>
          (resolveAll total (offset + 2 + Utf8.byteLength name)
            (rest.drop (name.length + 1))).map (resolved :: ·)
      | _ => .error (.unterminated offset total)
    else (resolveAll total (offset + c.utf8Size) rest).map (c :: ·)
termination_by chars => chars.length
decreasing_by
  · simp only [List.length_drop, List.length_cons]
    omega
  · simp

end Reference

/-- The text that bytes stand for, with its references resolved. -/
def readText (bytes : List UInt8) : Except Fault String := do
  let text ← (Utf8.decode bytes).mapError .encoding
  let chars ← (Reference.resolveAll bytes.length 0 text.toList).mapError .reference
  return .ofList chars

end DocWalk.Xml
