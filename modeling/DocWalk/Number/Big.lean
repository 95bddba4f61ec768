import DocWalk.Number.Bounded

/-!
# Integers of any size

A sign, then digits, among which underscores may stand anywhere but first. A plus sign is taken as
one only where no other sign came before it and none follows it.
-/

set_option autoImplicit false

namespace DocWalk.BigInteger

/-- The digits left when the underscores are dropped; every other character must be a digit. -/
def digits? (text : List Char) : Option (List Char) :=
  let digits := text.filter (· ≠ '_')
  if digits.all fun c => (Digits.value? 10 c).isSome then some digits else none

/-- Drops a plus sign, unless a second one follows it. -/
def dropPlus : List Char → List Char
  | '+' :: '+' :: rest => '+' :: '+' :: rest
  | '+' :: rest => rest
  | text => text

/-- Reads a natural number; it does not start with an underscore. -/
def readNat (text : List Char) : Except IntegerFault Nat :=
  match dropPlus text with
  | [] => .error .empty
  | '_' :: _ => .error .invalidDigit
  | text =>
    match digits? text with
    | none => .error .invalidDigit
    | some digits => .ok (Digits.toNat 0 digits)

/-- Reads an integer. -/
def read : List Char → Except IntegerFault Int
  | '-' :: '+' :: rest => (readNat ('-' :: '+' :: rest)).map Int.ofNat
  | '-' :: rest => (readNat rest).map fun n => -(n : Int)
  | text => (readNat text).map Int.ofNat

end DocWalk.BigInteger
