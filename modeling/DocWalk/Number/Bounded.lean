import DocWalk.Number.Digits

/-!
# Integers within bounds

An optional sign and digits, read from the left. At each character the number so far either goes on
within the bounds or the reading stops: at a character that is no digit, or at the digit that leads
out of the bounds. The first of the two to come decides the fault, so a text may be too large before
its bad character is seen.
-/

set_option autoImplicit false

namespace DocWalk

/-- Why a text is no integer of the wanted kind. -/
inductive IntegerFault where
  | empty
  | invalidDigit
  | tooLarge
  | tooSmall
  deriving DecidableEq, Repr, Inhabited

/-- The words for a fault. -/
def IntegerFault.message : IntegerFault → String
  | empty => "cannot parse integer from empty string"
  | invalidDigit => "invalid digit found in string"
  | tooLarge => "number too large to fit in target type"
  | tooSmall => "number too small to fit in target type"

/-- The least and the greatest integer of a kind. -/
structure Bounds where
  least : Int
  greatest : Int
  deriving DecidableEq, Repr

namespace Bounds

/-- Two's complement integers of that many bits. -/
def signed (bits : Nat) : Bounds :=
  let half : Int := Nat.pow 2 (bits - 1)
  ⟨-half, half - 1⟩

/-- Natural numbers of that many bits. -/
def unsigned (bits : Nat) : Bounds :=
  ⟨0, Nat.pow 2 bits - 1⟩

/-- The integer, if it lies within the bounds. -/
def check (bounds : Bounds) (value : Int) : Option Int :=
  if bounds.least ≤ value ∧ value ≤ bounds.greatest then some value else none

/-- Reads digits behind the number `acc`, away from zero in the direction of the sign. -/
def readDigits (bounds : Bounds) (base : Nat) (negative : Bool) :
    Int → List Char → Except IntegerFault Int
  | acc, [] => .ok acc
  | acc, c :: rest =>
    match Digits.value? base c with
    | none => .error .invalidDigit
    | some d =>
      let next := if negative then acc * base - d else acc * base + d
      if next < bounds.least then .error .tooSmall
      else if bounds.greatest < next then .error .tooLarge
      else readDigits bounds base negative next rest

/-- Reads digits without a sign; there must be one. -/
def readUnsigned (bounds : Bounds) (base : Nat) : List Char → Except IntegerFault Int
  | [] => .error .empty
  | digits => bounds.readDigits base false 0 digits

/-- Reads a decimal integer with an optional sign. A sign alone is a bad digit, not an empty text. -/
def read (bounds : Bounds) : List Char → Except IntegerFault Int
  | [] => .error .empty
  | ['+'] | ['-'] => .error .invalidDigit
  | '+' :: digits => bounds.readDigits 10 false 0 digits
  | '-' :: digits => bounds.readDigits 10 true 0 digits
  | digits => bounds.readDigits 10 false 0 digits

end Bounds

end DocWalk
