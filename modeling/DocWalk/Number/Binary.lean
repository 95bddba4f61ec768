import DocWalk.Number.Digits

/-!
# Binary floating point

A decimal numeral is rounded once, straight to the wanted width: to the nearest value, and from the
middle to the one with an even significand. The rounding is done on exact quotients of natural
numbers.

A numeral far beyond either end of the range is decided by the place of its first digit, so that no
number of unreasonable size is ever built.
-/

set_option autoImplicit false

namespace DocWalk

/-- An interchange format with a sign bit, `exponentBits` and `fractionBits`. -/
structure BinaryFormat where
  exponentBits : Nat
  fractionBits : Nat
  deriving DecidableEq, Repr

namespace BinaryFormat

/-- The format of 32 bits. -/
def single : BinaryFormat := ⟨8, 23⟩

/-- The format of 64 bits. -/
def double : BinaryFormat := ⟨11, 52⟩

variable (format : BinaryFormat)

/-- The exponent, a power of two, of the last place of the least values. -/
def leastExponent : Int :=
  2 - Nat.pow 2 (format.exponentBits - 1) - format.fractionBits

/-- The bits of positive infinity. -/
def infinity : Nat :=
  (Nat.pow 2 format.exponentBits - 1) * Nat.pow 2 format.fractionBits

/-- The bits of the quiet value that is no number. -/
def notANumber : Nat :=
  format.infinity + Nat.pow 2 (format.fractionBits - 1)

/-- The bit that makes a value negative. -/
def signBit : Nat :=
  Nat.pow 2 (format.exponentBits + format.fractionBits)

/-- The natural number nearest to a quotient; from the middle, the even one. -/
def roundQuotient (num den : Nat) : Nat :=
  let q := num / den
  let twice := 2 * (num % den)
  if twice < den then q
  else if den < twice then q + 1
  else q + q % 2

/-- A quotient times a power of two, as a numerator and a denominator. -/
def scaleBy (num den : Nat) (exponent : Int) : Nat × Nat :=
  if 0 ≤ exponent then (num * Nat.pow 2 exponent.toNat, den)
  else (num, den * Nat.pow 2 (-exponent).toNat)

/-- The exponent of the last place when the positive quotient has all its significant bits. -/
def lastPlace (num den : Nat) : Int :=
  let guess : Int := (num.log2 : Int) - den.log2 - format.fractionBits
  let (n, d) := scaleBy num den (-guess)
  if n < d * Nat.pow 2 format.fractionBits then guess - 1 else guess

/-- The bits of the value nearest to a positive quotient. -/
def roundPositive (num den : Nat) : Nat :=
  let place := max (format.lastPlace num den) format.leastExponent
  let (n, d) := scaleBy num den (-place)
  let steps := (place - format.leastExponent).toNat * Nat.pow 2 format.fractionBits
  let bits := steps + roundQuotient n d
  min bits format.infinity

/-- The bits nearest to `digits * 10 ^ exponent`. The digits have no zero in front. -/
def roundDecimal (digits : List Char) (exponent : Int) : Nat :=
  let top : Int := digits.length + exponent
  let limit : Int := Nat.pow 2 format.exponentBits
  if digits.isEmpty then 0
  else if limit < top then format.infinity
  else if top < -limit then 0
  else
    let n := Digits.toNat 0 digits
    if 0 ≤ exponent then format.roundPositive (n * Nat.pow 10 exponent.toNat) 1
    else format.roundPositive n (Nat.pow 10 (-exponent).toNat)

end BinaryFormat

/-- Why a text is no floating point number. -/
inductive FloatFault where
  | empty
  | invalid
  deriving DecidableEq, Repr

/-- The words for a fault. -/
def FloatFault.message : FloatFault → String
  | empty => "cannot parse float from empty string"
  | invalid => "invalid float literal"

namespace BinaryFormat

/-- Whether two texts are equal but for the case of their letters. -/
def sameLetters (text : List Char) (word : String) : Bool :=
  text.map Char.toLower = word.toList

/-- Reads an exponent behind its letter: an optional sign and at least one digit. -/
def readExponent (text : List Char) : Option Int :=
  let (negative, digits) := match text with
    | '-' :: rest => (true, rest)
    | '+' :: rest => (false, rest)
    | _ => (false, text)
  if digits.isEmpty || !digits.all Char.isDigit then none
  else
    let n : Int := Digits.toNat 0 digits
    some (if negative then -n else n)

/-- Reads a numeral without a sign, as its digits and the exponent of the last one. -/
def readNumeral (text : List Char) : Option (List Char × Int) := do
  let whole := text.takeWhile Char.isDigit
  let rest := text.drop whole.length
  let (fraction, rest) := match rest with
    | '.' :: rest =>
      let fraction := rest.takeWhile Char.isDigit
      (fraction, rest.drop fraction.length)
    | _ => ([], rest)
  guard (whole.length + fraction.length > 0)
  let exponent ← match rest with
    | [] => some 0
    | c :: rest => if c = 'e' ∨ c = 'E' then readExponent rest else none
  return ((whole ++ fraction).dropWhile (· = '0'), exponent - fraction.length)

/-- Reads a text as the bits of the nearest value. -/
def read (format : BinaryFormat) (text : String) : Except FloatFault Nat :=
  let (sign, rest) := match text.toList with
    | '-' :: rest => (format.signBit, rest)
    | '+' :: rest => (0, rest)
    | chars => (0, chars)
  if text.isEmpty then .error .empty
  else if sameLetters rest "nan" then .ok (sign + format.notANumber)
  else if sameLetters rest "inf" || sameLetters rest "infinity" then .ok (sign + format.infinity)
  else match readNumeral rest with
    | none => .error .invalid
    | some (digits, exponent) => .ok (sign + format.roundDecimal digits exponent)

/-- Whether the bits are those of a value that is no number. -/
def isNotANumber (format : BinaryFormat) (bits : Nat) : Bool :=
  bits % format.signBit > format.infinity

end BinaryFormat

end DocWalk
