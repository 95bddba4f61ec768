/-!
# Decimal digits

Reading and writing runs of decimal digits, shared by every format that has them.
-/

set_option autoImplicit false

namespace DocWalk.Digits

/-- The value of a digit in some base up to sixteen, letters in either case. -/
def value? (base : Nat) (c : Char) : Option Nat :=
  let v :=
    if '0' ≤ c ∧ c ≤ '9' then some (c.toNat - '0'.toNat)
    else if 'a' ≤ c ∧ c ≤ 'f' then some (c.toNat - 'a'.toNat + 10)
    else if 'A' ≤ c ∧ c ≤ 'F' then some (c.toNat - 'A'.toNat + 10)
    else none
  v.filter (· < base)

/-- The number a run of decimal digits stands for, read behind `acc`; other characters count as
zero, so a caller reads digits only. -/
def toNat (acc : Nat) (digits : List Char) : Nat :=
  digits.foldl (fun n c => n * 10 + (value? 10 c).getD 0) acc

/-- The decimal digits of a number, with zeros in front up to `width` characters. -/
def padded (width n : Nat) : String :=
  let digits := Nat.toDigits 10 n
  .ofList (List.replicate (width - digits.length) '0' ++ digits)

end DocWalk.Digits
