import DocWalk.Number.Digits
import Mathlib.Algebra.Group.Nat.Defs

/-!
# Runs of digits

What a run of digits stands for, read from the left: behind a number it is that number moved up by
as many places, and by itself it is less than the power of ten of its length. The digits that are
written of a number, with zeros in front or without, stand for that number.
-/

set_option autoImplicit false

namespace DocWalk.Digits

/-- The decimal digits are those from `0` to `9`. -/
theorem value?_ten (c : Char) :
    value? 10 c = if c.isDigit then some (c.toNat - '0'.toNat) else none := by
  have hdigit : c.isDigit = true ↔ '0' ≤ c ∧ c ≤ '9' := by
    simp [Char.isDigit, Char.le_def, ge_iff_le]
  unfold value?
  by_cases h : '0' ≤ c ∧ c ≤ '9'
  · have hle : c.toNat ≤ 57 := h.2
    rw [if_pos h, if_pos (hdigit.mpr h), Option.filter_some, if_pos]
    show decide (c.toNat - 48 < 10) = true
    rw [decide_eq_true_eq]
    omega
  · rw [if_neg h, if_neg (mt hdigit.mp h)]
    split
    next => rw [Option.filter_some, if_neg (by simp)]
    next => split <;> simp

theorem toNat_cons (n : Nat) (c : Char) (digits : List Char) :
    toNat n (c :: digits) = toNat (n * 10 + (value? 10 c).getD 0) digits :=
  rfl

theorem toNat_append (n : Nat) (digits more : List Char) :
    toNat n (digits ++ more) = toNat (toNat n digits) more :=
  List.foldl_append

theorem getD_value?_lt (c : Char) : (value? 10 c).getD 0 < 10 := by
  cases h : value? 10 c with
  | none => exact Nat.succ_pos 9
  | some d =>
    have hd := (Option.filter_eq_some_iff.mp h).2
    simpa using hd

/-- Digits behind a number move it up by as many places. -/
theorem toNat_eq (n : Nat) (digits : List Char) :
    toNat n digits = n * 10 ^ digits.length + toNat 0 digits := by
  induction digits generalizing n with
  | nil => simp [toNat]
  | cons c rest ih =>
    rw [toNat_cons, toNat_cons, ih, ih (0 * 10 + _), List.length_cons, Nat.pow_succ,
      Nat.zero_mul, Nat.zero_add, Nat.add_mul, Nat.mul_assoc, Nat.mul_comm 10, Nat.add_assoc]

theorem toNat_lt (digits : List Char) : toNat 0 digits < 10 ^ digits.length := by
  induction digits with
  | nil => exact Nat.one_pos
  | cons c rest ih =>
    have hc := getD_value?_lt c
    rw [toNat_cons, toNat_eq, List.length_cons, Nat.pow_succ]
    have hle : (0 * 10 + (value? 10 c).getD 0) * 10 ^ rest.length ≤ 9 * 10 ^ rest.length :=
      Nat.mul_le_mul_right _ (by omega)
    omega

theorem le_toNat (n : Nat) (digits : List Char) : n ≤ toNat n digits := by
  rw [toNat_eq]
  exact Nat.le_add_right_of_le (Nat.le_mul_of_pos_right n (Nat.pow_pos (Nat.succ_pos 9)))

/-- To divide by a power of ten is to drop as many digits. -/
theorem toNat_append_div (digits more : List Char) :
    toNat 0 (digits ++ more) / 10 ^ more.length = toNat 0 digits := by
  rw [toNat_append, toNat_eq, Nat.mul_comm, Nat.mul_add_div (Nat.pow_pos (Nat.succ_pos 9)),
    Nat.div_eq_of_lt (toNat_lt more), Nat.add_zero]

/-! ## Digits that are written -/

theorem toNat_eq_ofDigitChars {digits : List Char} (h : digits.all Char.isDigit) (n : Nat) :
    toNat n digits = Nat.ofDigitChars 10 digits n := by
  induction digits generalizing n with
  | nil => rfl
  | cons c rest ih =>
    rw [List.all_cons, Bool.and_eq_true] at h
    rw [toNat_cons, value?_ten, if_pos h.1, Option.getD_some, ih h.2, Nat.ofDigitChars_cons,
      Nat.mul_comm]

theorem toList_padded (width n : Nat) : (padded width n).toList =
    List.replicate (width - (Nat.toDigits 10 n).length) '0' ++ Nat.toDigits 10 n :=
  String.toList_ofList

theorem all_isDigit_padded (width n : Nat) : (padded width n).toList.all Char.isDigit := by
  rw [toList_padded, List.all_append, Bool.and_eq_true, List.all_eq_true, List.all_eq_true]
  constructor
  · intro c hc
    rw [List.eq_of_mem_replicate hc]
    rfl
  · intro c hc
    exact Nat.isDigit_of_mem_toDigits (by decide) (by decide) hc

/-- What is written of a number stands for it. -/
theorem toNat_padded (width n : Nat) : toNat 0 (padded width n).toList = n := by
  rw [toNat_eq_ofDigitChars (all_isDigit_padded width n), toList_padded, Nat.ofDigitChars_append,
    Nat.ofDigitChars_replicate_zero, Nat.mul_zero, Nat.ofDigitChars_ten_toDigits]

theorem padded_ne_nil (width n : Nat) : (padded width n).toList ≠ [] := by
  rw [toList_padded]
  exact List.append_ne_nil_of_right_ne_nil _ Nat.toDigits_ne_nil

/-- A number that fits is written as wide as wanted. -/
theorem length_padded {width n : Nat} (hwidth : 0 < width) (h : n < 10 ^ width) :
    (padded width n).toList.length = width := by
  have hle : (Nat.toDigits 10 n).length ≤ width :=
    (Nat.length_toDigits_le_iff (by decide) hwidth).mpr h
  rw [toList_padded, List.length_append, List.length_replicate, Nat.sub_add_cancel hle]

end DocWalk.Digits
