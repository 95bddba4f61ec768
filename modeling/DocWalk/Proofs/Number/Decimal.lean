import DocWalk.Number.Decimal
import DocWalk.Proofs.Number.Bounded
import Mathlib.Data.List.TakeWhile
import Mathlib.Data.Rat.Floor
import Mathlib.Tactic.FieldSimp

/-!
# Decimals are read exactly

A numeral denotes a rational number by its sign, the digits in front of the point and behind it, and
its exponent. The reader never divides: it puts the digits together to one integer and counts the
places behind the point, less the exponent, as the scale. It finds the exponent by its letter and the
point by looking for one, so it has to be seen that neither stands among the digits.

**The law** (`read_of_written`): a numeral is read as the number that it denotes, with all its digits,
if its exponent has 128 bits and its scale has 64.
-/

set_option autoImplicit false

namespace DocWalk

namespace Digits

theorem ne_of_isDigit {c d : Char} (hc : c.isDigit = true) (hd : d.isDigit = false) : c ≠ d := by
  rintro rfl
  cases hc.symm.trans hd

end Digits

/-! ## Integers -/

namespace BigInteger

variable {negative : Bool} {digits text : List Char}

/-- Digits are kept, since none of them is an underscore. -/
theorem digits?_of_digits (hall : digits.all Char.isDigit) : digits? digits = some digits := by
  have hkept : digits.filter (· ≠ '_') = digits := by
    rw [List.filter_eq_self]
    intro c hc
    exact decide_eq_true (Digits.ne_of_isDigit (List.all_eq_true.mp hall c hc) rfl)
  have hvalues : (digits.all fun c => (Digits.value? 10 c).isSome) = true := by
    rw [List.all_eq_true]
    intro c hc
    rw [Digits.value?_ten, if_pos (List.all_eq_true.mp hall c hc)]
    rfl
  rw [digits?, hkept, hvalues]
  rfl

theorem readNat_of_dropPlus (hdrop : dropPlus text = digits) (hne : digits ≠ [])
    (hall : digits.all Char.isDigit) : readNat text = .ok (Digits.toNat 0 digits) := by
  rw [readNat, hdrop]
  split
  next => exact absurd rfl hne
  next => cases hall
  next => rw [digits?_of_digits hall]

theorem dropPlus_digits (hall : digits.all Char.isDigit) :
    dropPlus digits = digits ∧ dropPlus ('+' :: digits) = digits := by
  cases digits with
  | nil => exact ⟨rfl, rfl⟩
  | cons d rest =>
    have hd : d ≠ '+' := Digits.ne_of_isDigit (List.all_eq_true.mp hall d List.mem_cons_self) rfl
    constructor
    · unfold dropPlus
      split
      next h => exact absurd (List.cons.inj h).1 hd
      next h => exact absurd (List.cons.inj h).1 hd
      next => rfl
    · unfold dropPlus
      split
      next h => exact absurd (List.cons.inj (List.cons.inj h).2).1 hd
      next h => exact (List.cons.inj h).2.symm
      next h => exact absurd rfl (h (d :: rest))

/-- A numeral of any size is read as what it denotes. -/
theorem read_of_isNumeral (h : IsNumeral negative digits text) :
    read text = .ok (withSign negative (Digits.toNat 0 digits)) := by
  cases h with
  | plain hne hall =>
    have hnat := readNat_of_dropPlus (dropPlus_digits hall).1 hne hall
    unfold read
    split
    next => cases hall
    next => cases hall
    next =>
      rw [hnat]
      rfl
  | plus hne hall =>
    have hnat := readNat_of_dropPlus (dropPlus_digits hall).2 hne hall
    show (readNat ('+' :: digits)).map Int.ofNat = _
    rw [hnat]
    rfl
  | minus hne hall =>
    have hnat := readNat_of_dropPlus (dropPlus_digits hall).1 hne hall
    unfold read
    split
    next heq =>
      cases heq
      cases hall
    next heq =>
      cases heq
      rw [hnat]
      rfl
    next hminus => exact absurd rfl (hminus digits)

end BigInteger

namespace IsNumeral

variable {negative : Bool} {digits text : List Char}

theorem ne_nil (h : IsNumeral negative digits text) : text ≠ [] := by
  cases h with
  | plain hne => exact hne
  | plus | minus => exact List.cons_ne_nil _ _

/-- Digits behind a numeral are digits of it. -/
theorem append (h : IsNumeral negative digits text) {more : List Char} (hmore : more.all Char.isDigit) :
    IsNumeral negative (digits ++ more) (text ++ more) := by
  have hboth {digits : List Char} (hall : digits.all Char.isDigit) :
      (digits ++ more).all Char.isDigit := by
    rw [List.all_append, hall, hmore]
    rfl
  cases h with
  | plain hne hall => exact .plain (List.append_ne_nil_of_left_ne_nil hne more) (hboth hall)
  | plus hne hall => exact .plus (List.append_ne_nil_of_left_ne_nil hne more) (hboth hall)
  | minus hne hall => exact .minus (List.append_ne_nil_of_left_ne_nil hne more) (hboth hall)

end IsNumeral

namespace Decimal

/-! ## Numerals -/

/-- A decimal numeral in its parts. -/
structure Numeral where
  negative : Bool
  /-- The digits in front of the point. -/
  whole : List Char
  /-- The digits behind the point. -/
  fraction : List Char
  exponent : Int

namespace Numeral

/-- The number that the numeral denotes. -/
def value (n : Numeral) : ℚ :=
  (if n.negative then -1 else 1) *
    (Digits.toNat 0 n.whole + Digits.toNat 0 n.fraction / 10 ^ n.fraction.length) * 10 ^ n.exponent

/-- Its digits behind the point, less its exponent. -/
def scale (n : Numeral) : Int :=
  n.fraction.length - n.exponent

/-- All its digits, as one integer. -/
def unscaled (n : Numeral) : Int :=
  withSign n.negative (Digits.toNat 0 (n.whole ++ n.fraction))

end Numeral

/-- The digits behind the point, and the text of the point and them; both may be absent. -/
inductive FractionText : List Char → List Char → Prop where
  | absent : FractionText [] []
  | present {digits : List Char} : digits.all Char.isDigit → FractionText digits ('.' :: digits)

/-- An exponent, and the text of the letter e and it; without one the exponent is zero. -/
inductive ExponentText : Int → List Char → Prop where
  | absent : ExponentText 0 []
  | present {letter : Char} {negative : Bool} {digits text : List Char} :
      letter = 'e' ∨ letter = 'E' → IsNumeral negative digits text →
      ExponentText (withSign negative (Digits.toNat 0 digits)) (letter :: text)

/-- A numeral and its text. -/
inductive Numeral.Written : Numeral → List Char → Prop where
  | mk {negative : Bool} {whole fraction front middle back : List Char} {exponent : Int} :
      IsNumeral negative whole front → FractionText fraction middle → ExponentText exponent back →
      Written ⟨negative, whole, fraction, exponent⟩ (front ++ middle ++ back)

/-- The number that a decimal stands for. -/
def value (d : Decimal) : ℚ :=
  d.unscaled * 10 ^ (-d.scale)

/-- The digits as one integer, with the scale, stand for the number that the numeral denotes. -/
theorem value_numeral (n : Numeral) : (⟨n.unscaled, n.scale⟩ : Decimal).value = n.value := by
  obtain ⟨negative, whole, fraction, exponent⟩ := n
  have hten : (10 : ℚ) ≠ 0 := by norm_num
  have hpow : (10 : ℚ) ^ fraction.length ≠ 0 := pow_ne_zero _ hten
  have hscale : -((fraction.length : ℤ) - exponent) = exponent - fraction.length := by omega
  have hdigits : (Digits.toNat 0 (whole ++ fraction) : ℚ) =
      (Digits.toNat 0 whole + Digits.toNat 0 fraction / 10 ^ fraction.length) *
        10 ^ fraction.length := by
    rw [Digits.toNat_append, Digits.toNat_eq, Nat.cast_add, Nat.cast_mul, Nat.cast_pow, add_mul,
      div_mul_cancel₀ _ hpow]
    rfl
  have hsign : ((withSign negative (Digits.toNat 0 (whole ++ fraction)) : ℤ) : ℚ) =
      (if negative then -1 else 1) * Digits.toNat 0 (whole ++ fraction) := by
    cases negative <;> simp [withSign]
  unfold value Numeral.value Numeral.unscaled Numeral.scale
  dsimp only
  rw [hscale, zpow_sub₀ hten, zpow_natCast, hsign, hdigits]
  field_simp

/-! ## Reading -/

/-- A character of a numeral in front of its point. -/
def IsFront (c : Char) : Prop :=
  c.isDigit = true ∨ c = '+' ∨ c = '-'

theorem isFront_of_isNumeral {negative : Bool} {digits text : List Char}
    (h : IsNumeral negative digits text) : ∀ c ∈ text, IsFront c := by
  have hdigits {digits : List Char} (hall : digits.all Char.isDigit) : ∀ c ∈ digits, IsFront c :=
    fun c hc => .inl (List.all_eq_true.mp hall c hc)
  cases h with
  | plain _ hall => exact hdigits hall
  | plus _ hall => exact List.forall_mem_cons.mpr ⟨.inr (.inl rfl), hdigits hall⟩
  | minus _ hall => exact List.forall_mem_cons.mpr ⟨.inr (.inr rfl), hdigits hall⟩

theorem IsFront.ne_point {c : Char} (h : IsFront c) : c ≠ '.' := by
  rcases h with h | rfl | rfl
  · exact Digits.ne_of_isDigit h rfl
  · decide
  · decide

theorem IsFront.ne_letter {c : Char} (h : IsFront c) : c ≠ 'e' ∧ c ≠ 'E' := by
  rcases h with h | rfl | rfl
  · exact ⟨Digits.ne_of_isDigit h rfl, Digits.ne_of_isDigit h rfl⟩
  · decide
  · decide

/-- No letter e stands in front of the exponent. -/
theorem ne_letter_of_base {negative : Bool} {whole fraction front middle : List Char}
    (hfront : IsNumeral negative whole front) (hmiddle : FractionText fraction middle) :
    ∀ c ∈ front ++ middle, (c ≠ 'e' && c ≠ 'E') = true := by
  have hletter {c : Char} (hc : IsFront c) : (c ≠ 'e' && c ≠ 'E') = true := by
    simp [hc.ne_letter]
  rw [List.forall_mem_append]
  refine ⟨fun c hc => hletter (isFront_of_isNumeral hfront c hc), ?_⟩
  cases hmiddle with
  | absent => exact nofun
  | present hall =>
    exact List.forall_mem_cons.mpr ⟨rfl, fun c hc => hletter (.inl (List.all_eq_true.mp hall c hc))⟩

/-- Reads the exponent that was parted from a text. -/
def readExponent : Option (List Char) → Except DecimalFault Int
  | none => .ok 0
  | some text => ((Bounds.signed 128).read text).mapError .integer

/-- The exponent is found by its letter and read. -/
theorem splitExponent_append {base text : List Char} {exponent : Int}
    (hbase : ∀ c ∈ base, (c ≠ 'e' && c ≠ 'E') = true) (h : ExponentText exponent text)
    (hbits : (Bounds.signed 128).Contains exponent) :
    ∃ found, splitExponent (base ++ text) = (base, found) ∧ readExponent found = .ok exponent := by
  cases h with
  | absent =>
    have htake := List.takeWhile_eq_self_iff.mpr hbase
    refine ⟨none, ?_, rfl⟩
    rw [List.append_nil, splitExponent, htake, List.drop_length]
  | @present letter negative digits text hletter hnumeral =>
    have hstop : (letter ≠ 'e' && letter ≠ 'E') = false := by
      rcases hletter with rfl | rfl <;> rfl
    have htake : (base ++ letter :: text).takeWhile (fun c => c ≠ 'e' && c ≠ 'E') = base := by
      rw [List.takeWhile_append_of_pos hbase, List.takeWhile_cons_of_neg (by rw [hstop]; decide),
        List.append_nil]
    have hread : (Bounds.signed 128).read text = .ok (withSign negative (Digits.toNat 0 digits)) :=
      (Bounds.read_eq_ok_iff (by decide)).mpr ⟨negative, digits, hnumeral, rfl, hbits⟩
    refine ⟨some text, ?_, ?_⟩
    · rw [splitExponent, htake, List.drop_left]
    · rw [readExponent, hread]
      rfl

/-- The point is dropped, and the digits behind it are counted. -/
theorem dropPoint_append {negative : Bool} {whole fraction front middle : List Char}
    (hfront : IsNumeral negative whole front) (hmiddle : FractionText fraction middle) :
    dropPoint (front ++ middle) = (front ++ fraction, fraction.length) := by
  have hpoint : ∀ c ∈ front, decide (c ≠ '.') = true :=
    fun c hc => decide_eq_true (isFront_of_isNumeral hfront c hc).ne_point
  cases hmiddle with
  | absent =>
    have htake := List.takeWhile_eq_self_iff.mpr hpoint
    rw [List.append_nil, dropPoint, htake, List.drop_length]
    exact congrArg (·, 0) (List.append_nil front)
  | present hall =>
    have htake : (front ++ '.' :: fraction).takeWhile (fun c => decide (c ≠ '.')) = front := by
      rw [List.takeWhile_append_of_pos hpoint, List.takeWhile_cons_of_neg (by decide),
        List.append_nil]
    have hkept : fraction.filter (fun c => decide (c ≠ '_')) = fraction := by
      rw [List.filter_eq_self]
      exact fun c hc =>
        decide_eq_true (Digits.ne_of_isDigit (List.all_eq_true.mp hall c hc) rfl)
    rw [dropPoint, htake, List.drop_left, List.drop_one, List.tail_cons, hkept]

/-- Reads the rest of a text behind its exponent: the scale, and then the digits. -/
def readBase (text : String) (base : List Char) (exponent : Int) : Except DecimalFault Decimal :=
  if base.isEmpty then .error .empty
  else match (Bounds.signed 64).check ((dropPoint base).2 - exponent) with
    | none => .error (.scaleOverflow text)
    | some scale =>
      ((BigInteger.read (dropPoint base).1).mapError .integer).map fun unscaled => ⟨unscaled, scale⟩

theorem readBase_eq (text : String) (base : List Char) (exponent : Int) :
    readBase text base exponent = (do
      if base.isEmpty then
        throw .empty
      let (digits, places) := dropPoint base
      match (Bounds.signed 64).check (places - exponent) with
      | none => throw (.scaleOverflow text)
      | some scale =>
        let unscaled ← (BigInteger.read digits).mapError .integer
        return ⟨unscaled, scale⟩) := by
  rw [readBase]
  cases base.isEmpty with
  | true => rfl
  | false =>
    dsimp only
    cases (Bounds.signed 64).check ((dropPoint base).2 - exponent) with
    | none => rfl
    | some scale => rfl

/-- A text is read by its exponent first. -/
theorem read_eq (text : String) :
    read text = (readExponent (splitExponent text.toList).2).bind
      (readBase text (splitExponent text.toList).1) := by
  rw [read]
  generalize splitExponent text.toList = split
  obtain ⟨base, found⟩ := split
  cases found with
  | none => exact (readBase_eq text base 0).symm
  | some e =>
    show (((Bounds.signed 128).read e).mapError .integer >>= _ : Except DecimalFault Decimal) = _
    exact congrArg _ (funext fun exponent => (readBase_eq text base exponent).symm)

/-- **A numeral is read exactly**: all its digits as one integer, with its scale. -/
theorem read_of_written {n : Numeral} {chars : List Char} (h : n.Written chars)
    (hexponent : (Bounds.signed 128).Contains n.exponent)
    (hscale : (Bounds.signed 64).Contains n.scale) :
    read (.ofList chars) = .ok ⟨n.unscaled, n.scale⟩ := by
  cases h with
  | @mk negative whole fraction front middle back exponent hfront hmiddle hback =>
    obtain ⟨found, hsplit, hfound⟩ :=
      splitExponent_append (ne_letter_of_base hfront hmiddle) hback hexponent
    have hpoint := dropPoint_append hfront hmiddle
    have hall : fraction.all Char.isDigit := by
      cases hmiddle with
      | absent => rfl
      | present hall => exact hall
    have hdigits := BigInteger.read_of_isNumeral (hfront.append hall)
    have hcheck : (Bounds.signed 64).check (fraction.length - exponent) =
        some (fraction.length - exponent) := Bounds.check_eq_some_iff.mpr ⟨rfl, hscale⟩
    have hempty : (front ++ middle).isEmpty = false := by
      rw [List.isEmpty_eq_false_iff]
      exact List.append_ne_nil_of_left_ne_nil hfront.ne_nil middle
    rw [read_eq, String.toList_ofList, hsplit, hfound]
    show readBase _ (front ++ middle) exponent = _
    rw [readBase, hempty, hpoint]
    dsimp only
    rw [hcheck, hdigits]
    rfl

end Decimal

end DocWalk
