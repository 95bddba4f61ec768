import DocWalk.Number.Big

/-!
# Decimals that keep every digit

A decimal is an integer and the number of its digits that stand behind the point. The scale of a text
is its number of fraction digits less its exponent, so no digit is lost and none is added.
-/

set_option autoImplicit false

namespace DocWalk

/-- The number `unscaled * 10 ^ (-scale)`. -/
structure Decimal where
  unscaled : Int
  scale : Int
  deriving DecidableEq, Repr, Inhabited

/-- Why a text is no decimal. -/
inductive DecimalFault where
  /-- Nothing stands before the exponent. -/
  | empty
  /-- The exponent or the digits are no integer. -/
  | integer (fault : IntegerFault)
  /-- The scale does not fit in 64 bits. -/
  | scaleOverflow (text : String)
  deriving DecidableEq, Repr

/-- The words for a fault. -/
def DecimalFault.message : DecimalFault → String
  | empty => "Failed to parse empty string"
  | integer fault => fault.message
  | scaleOverflow text => "Exponent overflow when parsing '" ++ text ++ "'"

namespace Decimal

/-- Parts a text at its first letter e, in either case. -/
def splitExponent (text : List Char) : List Char × Option (List Char) :=
  let base := text.takeWhile fun c => c ≠ 'e' && c ≠ 'E'
  match text.drop base.length with
  | [] => (base, none)
  | _ :: exponent => (base, some exponent)

/-- Drops the first point of a text, and counts the characters behind it that are no underscore. -/
def dropPoint (base : List Char) : List Char × Nat :=
  let whole := base.takeWhile (· ≠ '.')
  let fraction := (base.drop whole.length).drop 1
  (whole ++ fraction, (fraction.filter (· ≠ '_')).length)

/-- Reads a decimal. The exponent is read first, and the digits last. -/
def read (text : String) : Except DecimalFault Decimal := do
  let (base, exponent) := splitExponent text.toList
  let exponent ← match exponent with
    | none => pure 0
    | some e => ((Bounds.signed 128).read e).mapError .integer
  if base.isEmpty then
    throw .empty
  let (digits, places) := dropPoint base
  match (Bounds.signed 64).check (places - exponent) with
  | none => throw (.scaleOverflow text)
  | some scale =>
    let unscaled ← (BigInteger.read digits).mapError .integer
    return ⟨unscaled, scale⟩

end Decimal

end DocWalk
