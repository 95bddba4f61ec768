import DocWalk.Text.Ascii

/-!
# Base64

The standard alphabet in groups of four symbols, the last group filled up with equals signs. A text
is accepted only in the one form that an encoder writes: padding is required, and the bits that the
last symbol has to spare are zero.

A text with several faults is reported by the first in this order: a lone last byte outside the
alphabet, the groups before the last from the left, the last group from the left, its number of
symbols, its padding, its spare bits.
-/

set_option autoImplicit false

namespace DocWalk.Base64

/-- Why a text is no base64. -/
inductive Fault where
  | invalidSymbol (byte : UInt8) (offset : Nat)
  | invalidLength (length : Nat)
  | invalidPadding
  | invalidLastSymbol (byte : UInt8) (offset : Nat)
  deriving DecidableEq, Repr

/-- The words for a fault. -/
def Fault.message : Fault → String
  | invalidSymbol byte offset =>
    "Invalid symbol " ++ toString byte.toNat ++ ", offset " ++ toString offset ++ "."
  | invalidLength length => "Invalid input length: " ++ toString length
  | invalidPadding => "Invalid padding"
  | invalidLastSymbol byte offset =>
    "Invalid last symbol " ++ toString byte.toNat ++ ", offset " ++ toString offset ++ "."

/-- The six bits that a symbol stands for. -/
def value? (b : UInt8) : Option Nat :=
  if 0x41 ≤ b && b ≤ 0x5A then some (b.toNat - 0x41)
  else if 0x61 ≤ b && b ≤ 0x7A then some (b.toNat - 0x61 + 26)
  else if 0x30 ≤ b && b ≤ 0x39 then some (b.toNat - 0x30 + 52)
  else if b = 0x2B then some 62
  else if b = 0x2F then some 63
  else none

/-- The symbol for six bits. -/
def symbol (v : Nat) : UInt8 :=
  if v < 26 then (v + 0x41).toUInt8
  else if v < 52 then (v - 26 + 0x61).toUInt8
  else if v < 62 then (v - 52 + 0x30).toUInt8
  else if v = 62 then 0x2B
  else 0x2F

/-- The bytes of a text's encoding. -/
def encode : List UInt8 → List UInt8
  | [] => []
  | [a] => [symbol (a.toNat / 4), symbol (a.toNat % 4 * 16), Ascii.equals, Ascii.equals]
  | [a, b] =>
    [symbol (a.toNat / 4), symbol (a.toNat % 4 * 16 + b.toNat / 16), symbol (b.toNat % 16 * 4),
      Ascii.equals]
  | a :: b :: c :: rest =>
    symbol (a.toNat / 4) :: symbol (a.toNat % 4 * 16 + b.toNat / 16)
      :: symbol (b.toNat % 16 * 4 + c.toNat / 64) :: symbol (c.toNat % 64) :: encode rest

/-- The value of the symbol at an offset. -/
def valueAt (offset : Nat) (b : UInt8) : Except Fault Nat :=
  match value? b with
  | some v => .ok v
  | none => .error (.invalidSymbol b offset)

/-- The symbols of the last group up to its padding, with the number of equals signs. An equals sign
is padding from the third place on, and only equals signs follow it. -/
def readLast (start : Nat) (group : List UInt8) : Except Fault (List Nat × Nat) :=
  let symbols := group.takeWhile (· ≠ Ascii.equals)
  let padding := group.drop symbols.length
  let read := (symbols.zipIdx start).mapM fun (b, offset) => valueAt offset b
  match read with
  | .error fault => .error fault
  | .ok values =>
    if padding.isEmpty then .ok (values, 0)
    else if symbols.length < 2 || padding.any (· ≠ Ascii.equals) then
      .error (.invalidSymbol Ascii.equals (start + symbols.length))
    else .ok (values, padding.length)

/-- The bytes of the symbols of a last group; the last symbol's spare bits must be zero. -/
def finish (start : Nat) (group : List UInt8) (values : List Nat) : Except Fault (List UInt8) :=
  let spare (place : Nat) (ok : Bool) (bytes : List UInt8) : Except Fault (List UInt8) :=
    if ok then .ok bytes else .error (.invalidLastSymbol (group.getD place 0) (start + place))
  match values with
  | [a, b] => spare 1 (b % 16 = 0) [(a * 4 + b / 16).toUInt8]
  | [a, b, c] => spare 2 (c % 4 = 0) [(a * 4 + b / 16).toUInt8, (b % 16 * 16 + c / 4).toUInt8]
  | [a, b, c, d] =>
    .ok [(a * 4 + b / 16).toUInt8, (b % 16 * 16 + c / 4).toUInt8, (c % 4 * 64 + d).toUInt8]
  | _ => .ok []

/-- Decodes the last group, of one to four bytes. -/
def decodeLast (start : Nat) (group : List UInt8) : Except Fault (List UInt8) :=
  match readLast start group with
  | .error fault => .error fault
  | .ok (values, padding) =>
    if values.length < 2 then .error (.invalidLength (start + values.length))
    else if (values.length + padding) % 4 ≠ 0 then .error .invalidPadding
    else finish start group values

/-- Decodes groups of four from an offset on; the last group may be shorter. -/
def decodeGroups (start : Nat) : List UInt8 → Except Fault (List UInt8)
  | [] => .ok []
  | a :: b :: c :: d :: e :: rest =>
    match valueAt start a, valueAt (start + 1) b, valueAt (start + 2) c, valueAt (start + 3) d with
    | .error fault, _, _, _ => .error fault
    | _, .error fault, _, _ => .error fault
    | _, _, .error fault, _ => .error fault
    | _, _, _, .error fault => .error fault
    | .ok a, .ok b, .ok c, .ok d =>
      (decodeGroups (start + 4) (e :: rest)).map fun bytes =>
        (a * 4 + b / 16).toUInt8 :: (b % 16 * 16 + c / 4).toUInt8 :: (c % 4 * 64 + d).toUInt8
          :: bytes
  | group => decodeLast start group

/-- Decodes a text, given as bytes. -/
def decode (text : List UInt8) : Except Fault (List UInt8) :=
  match text.getLast? with
  | none => .ok []
  | some last =>
    if text.length % 4 = 1 && last ≠ Ascii.equals && (value? last).isNone then
      .error (.invalidSymbol last (text.length - 1))
    else decodeGroups 0 text

end DocWalk.Base64
