import DocWalk.Primitive.Error

/-!
# Seconds since the epoch

Whole seconds, and a fraction behind a point of which the first three digits count. The fraction goes
in the direction of the sign that the text shows, so `-0.5` is half a second before the epoch.
-/

set_option autoImplicit false

namespace DocWalk.EpochSeconds

/-- Parts a text at its first point; without one the fraction is empty. -/
def splitPoint (text : List Char) : List Char × List Char :=
  let whole := text.takeWhile (· ≠ '.')
  (whole, (text.drop whole.length).drop 1)

/-- The milliseconds of a fraction's digits: its first three, with zeros behind. -/
def fractionMillis (fraction : List Char) : Nat :=
  let digits := fraction.take 3
  Digits.toNat 0 digits * Nat.pow 10 (3 - digits.length)

/-- Milliseconds of whole seconds and a part of a second, if neither step leaves 64 bits. -/
def totalMillis (seconds millis : Int) : Option Int := do
  let whole ← (Bounds.signed 64).check (seconds * 1000)
  (Bounds.signed 64).check (whole + millis)

/-- Reads seconds since the epoch, truncated to milliseconds. -/
def parse (text : String) : Except FormatError Instant :=
  let (whole, fraction) := splitPoint text.toList
  match (Bounds.signed 64).read whole with
  | .error fault => .error (.epochSeconds text fault)
  | .ok seconds =>
    if !fraction.all Char.isDigit then .error (.invalidFraction text)
    else
      let part : Int := fractionMillis fraction
      let millis := if whole.head? = some '-' then -part else part
      match (totalMillis seconds millis).bind Instant.ofMillis? with
      | some instant => .ok instant
      | none => .error (.outOfRange text)

end DocWalk.EpochSeconds
