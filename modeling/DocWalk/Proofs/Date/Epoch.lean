import DocWalk.Date.Epoch
import DocWalk.Proofs.Date.Instant
import DocWalk.Proofs.Number.Bounded
import Mathlib.Data.List.TakeWhile
import Mathlib.Data.Rat.Floor

/-!
# Seconds since the epoch, exactly

Whole seconds and a fraction denote a rational number (`exactSeconds`), of which the milliseconds are
kept and the rest is cut off, toward the epoch. The reader sees three digits of the fraction, and the
sign twice: once in the integer and once in the text, where `-0` still shows it. The two checks of
the 64 bits refuse nothing that the calendar would not.

**The law** (`parse_truncates`) says for every text what comes of it: the instant so many milliseconds
from the epoch, or the first of three errors.
-/

set_option autoImplicit false

namespace DocWalk.EpochSeconds

/-! ## The two parts of a text -/

/-- A text with the part before its first point, and the rest behind it, which is empty without a
point. -/
inductive Parts : List Char → List Char → List Char → Prop where
  | point {whole fraction : List Char} : '.' ∉ whole →
      Parts (whole ++ '.' :: fraction) whole fraction
  | whole {whole : List Char} : '.' ∉ whole → Parts whole whole []

theorem Parts.cons {c : Char} (hc : c ≠ '.') {text whole fraction : List Char}
    (h : Parts text whole fraction) : Parts (c :: text) (c :: whole) fraction := by
  have hmem {rest : List Char} (hrest : '.' ∉ rest) : '.' ∉ c :: rest :=
    List.not_mem_cons_of_ne_of_not_mem hc.symm hrest
  cases h with
  | point hwhole => exact .point (hmem hwhole)
  | whole hwhole => exact .whole (hmem hwhole)

theorem parts_splitPoint (text : List Char) :
    Parts text (splitPoint text).1 (splitPoint text).2 := by
  induction text with
  | nil => exact .whole List.not_mem_nil
  | cons c rest ih =>
    by_cases hc : c = '.'
    · subst hc
      exact .point List.not_mem_nil
    · have hsplit : splitPoint (c :: rest) = (c :: (splitPoint rest).1, (splitPoint rest).2) := by
        simp [splitPoint, hc]
      rw [hsplit]
      exact ih.cons hc

/-- There is one way only to part a text so. -/
theorem Parts.eq_splitPoint {text whole fraction : List Char} (h : Parts text whole fraction) :
    splitPoint text = (whole, fraction) := by
  have hall {rest : List Char} (hrest : '.' ∉ rest) :
      ∀ c ∈ rest, decide (c ≠ '.') = true := by
    intro c hc
    rw [decide_eq_true_eq]
    rintro rfl
    exact hrest hc
  cases h with
  | point hwhole =>
    have htake : (whole ++ '.' :: fraction).takeWhile (· ≠ '.') = whole := by
      rw [List.takeWhile_append_of_pos (hall hwhole), List.takeWhile_cons_of_neg (by decide),
        List.append_nil]
    rw [splitPoint, htake, List.drop_left]
    rfl
  | whole hwhole =>
    have htake : text.takeWhile (· ≠ '.') = text := List.takeWhile_eq_self_iff.mpr (hall hwhole)
    rw [splitPoint, htake, List.drop_length]
    rfl

/-! ## The number a text denotes -/

/-- The seconds that a sign, whole digits and the digits of a fraction denote, exactly. -/
def exactSeconds (negative : Bool) (digits fraction : List Char) : ℚ :=
  let magnitude : ℚ := Digits.toNat 0 digits + Digits.toNat 0 fraction / 10 ^ fraction.length
  if negative then -magnitude else magnitude

/-- The integer next to a number on the side of zero. -/
def towardZero (q : ℚ) : ℤ :=
  if q < 0 then ⌈q⌉ else ⌊q⌋

/-- The milliseconds of the exact seconds, cut off toward zero. -/
def exactMillis (negative : Bool) (digits fraction : List Char) : ℤ :=
  towardZero (exactSeconds negative digits fraction * 1000)

theorem towardZero_of_nonneg {q : ℚ} (h : 0 ≤ q) : towardZero q = ⌊q⌋ :=
  if_neg (not_lt.mpr h)

theorem towardZero_neg {q : ℚ} (h : 0 ≤ q) : towardZero (-q) = -⌊q⌋ := by
  rcases h.eq_or_lt with rfl | hpos
  · rw [neg_zero, towardZero_of_nonneg le_rfl, Int.floor_zero, neg_zero]
  · rw [towardZero, if_pos (neg_lt_zero.mpr hpos), Int.ceil_neg]

/-- Of a fraction the first three digits count, and they count as milliseconds. -/
theorem fractionMillis_eq (fraction : List Char) :
    fractionMillis fraction = Digits.toNat 0 fraction * 1000 / 10 ^ fraction.length := by
  show Digits.toNat 0 (fraction.take 3) * 10 ^ (3 - (fraction.take 3).length) = _
  rcases Nat.le_total fraction.length 3 with hle | hle
  · have hthousand : 1000 = 10 ^ (3 - fraction.length) * 10 ^ fraction.length := by
      rw [← Nat.pow_add, Nat.sub_add_cancel hle]
    rw [List.take_of_length_le hle, hthousand, ← Nat.mul_assoc,
      Nat.mul_div_cancel _ (Nat.pow_pos (Nat.succ_pos 9))]
  · have hlength : fraction.length = (fraction.drop 3).length + 3 := by
      rw [List.length_drop, Nat.sub_add_cancel hle]
    have hdropped := Digits.toNat_append_div (fraction.take 3) (fraction.drop 3)
    rw [List.take_append_drop] at hdropped
    rw [hlength, Nat.pow_add, Nat.mul_div_mul_right _ _ (by decide), hdropped,
      List.length_take_of_le hle, Nat.sub_self, Nat.pow_zero, Nat.mul_one]

/-- Whole seconds and the milliseconds of the fraction, in the direction of the sign, are the exact
milliseconds. -/
theorem exactMillis_eq (negative : Bool) (digits fraction : List Char) :
    exactMillis negative digits fraction =
      withSign negative (Digits.toNat 0 digits * 1000 + fractionMillis fraction) := by
  have hpower : (10 : ℚ) ^ fraction.length ≠ 0 := pow_ne_zero _ (by norm_num)
  have hfraction :
      ((Digits.toNat 0 digits : ℚ) + Digits.toNat 0 fraction / 10 ^ fraction.length) * 1000 =
        ((Digits.toNat 0 digits * 1000 : ℕ) : ℤ) +
          ((Digits.toNat 0 fraction * 1000 : ℕ) : ℤ) / ((10 ^ fraction.length : ℕ) : ℚ) := by
    push_cast
    ring
  have hfloor :
      ⌊((Digits.toNat 0 digits : ℚ) + Digits.toNat 0 fraction / 10 ^ fraction.length) * 1000⌋ =
        (Digits.toNat 0 digits * 1000 + fractionMillis fraction : ℕ) := by
    rw [hfraction, Int.floor_intCast_add, Rat.floor_intCast_div_natCast, fractionMillis_eq]
    push_cast
    rfl
  have hnonneg :
      0 ≤ ((Digits.toNat 0 digits : ℚ) + Digits.toNat 0 fraction / 10 ^ fraction.length) * 1000 := by
    positivity
  unfold exactMillis exactSeconds withSign
  cases negative with
  | true =>
    simp only [if_true]
    rw [neg_mul, towardZero_neg hnonneg, hfloor]
  | false =>
    simp only [Bool.false_eq_true, if_false]
    rw [towardZero_of_nonneg hnonneg, hfloor]

/-! ## What is read -/

/-- The whole part of a text is an optional sign and digits, which denote an integer of 64 bits. -/
structure IsSeconds (negative : Bool) (digits whole : List Char) : Prop where
  numeral : IsNumeral negative digits whole
  fits : (Bounds.signed 64).Contains (withSign negative (Digits.toNat 0 digits))

theorem contains_zero : (Bounds.signed 64).Contains 0 := by
  decide

/-- Every count of milliseconds in the calendar's range has 64 bits. -/
theorem contains_of_inRange {millis : Int} (h : Instant.MillisInRange millis) :
    (Bounds.signed 64).Contains millis := by
  obtain ⟨hleast, hgreatest⟩ := h
  exact ⟨Int.le_trans (by decide) hleast, Int.le_trans hgreatest (by decide)⟩

theorem read_eq_ok_iff {whole : List Char} {seconds : Int} :
    (Bounds.signed 64).read whole = .ok seconds ↔ ∃ negative digits,
      IsSeconds negative digits whole ∧ seconds = withSign negative (Digits.toNat 0 digits) := by
  rw [Bounds.read_eq_ok_iff contains_zero]
  constructor
  · rintro ⟨negative, digits, hnumeral, rfl, hfits⟩
    exact ⟨negative, digits, ⟨hnumeral, hfits⟩, rfl⟩
  · rintro ⟨negative, digits, ⟨hnumeral, hfits⟩, rfl⟩
    exact ⟨negative, digits, hnumeral, rfl, hfits⟩

/-- The checks of the 64 bits let every instant of the calendar pass. -/
theorem bind_totalMillis (negative : Bool) (n : Nat) (part : Nat) :
    (totalMillis (withSign negative n) (withSign negative part)).bind Instant.ofMillis? =
      Instant.ofMillis? (withSign negative (n * 1000 + part)) := by
  have hwhole : withSign negative n * 1000 = withSign negative (n * 1000) :=
    withSign_mul negative n 1000
  have htotal (millis : Int) : totalMillis (withSign negative n) (withSign negative part) =
      some millis ↔ (Bounds.signed 64).Contains (withSign negative (n * 1000)) ∧
        withSign negative (n * 1000 + part) = millis ∧ (Bounds.signed 64).Contains millis := by
    rw [totalMillis, Option.bind_eq_bind, Option.bind_eq_some_iff, hwhole, ← withSign_add]
    simp only [Bounds.check_eq_some_iff]
    constructor
    · rintro ⟨_, ⟨rfl, hfits⟩, htotal⟩
      exact ⟨hfits, htotal⟩
    · rintro ⟨hfits, htotal⟩
      exact ⟨_, ⟨rfl, hfits⟩, htotal⟩
  ext instant
  rw [Option.bind_eq_some_iff]
  constructor
  · rintro ⟨millis, hmillis, hinstant⟩
    obtain ⟨_, rfl, _⟩ := (htotal millis).mp hmillis
    exact hinstant
  · -- The whole seconds lie nearer to zero than the total, which the calendar bounds.
    intro hinstant
    have hfits := contains_of_inRange (Instant.ofMillis?_eq_some_iff.mp hinstant).1
    have hnearer := hfits.nearer contains_zero (Nat.le_add_right (n * 1000) part)
    exact ⟨_, (htotal _).mpr ⟨hnearer, rfl, hfits⟩, hinstant⟩

/-- Without seconds in front of the point nothing else is looked at. -/
theorem parse_of_not_isSeconds {text : String}
    (h : ∀ negative digits, ¬ IsSeconds negative digits (splitPoint text.toList).1) :
    ∃ fault, parse text = .error (.epochSeconds text fault) := by
  cases hread : (Bounds.signed 64).read (splitPoint text.toList).1 with
  | ok seconds =>
    obtain ⟨negative, digits, hseconds, _⟩ := read_eq_ok_iff.mp hread
    exact absurd hseconds (h negative digits)
  | error fault =>
    refine ⟨fault, ?_⟩
    unfold parse
    dsimp only
    rw [hread]

/-- Behind seconds the fraction is looked at, and then the calendar. -/
theorem parse_of_isSeconds {text : String} {negative : Bool} {digits : List Char}
    (h : IsSeconds negative digits (splitPoint text.toList).1) :
    parse text =
      if (splitPoint text.toList).2.all Char.isDigit then
        match Instant.ofMillis? (exactMillis negative digits (splitPoint text.toList).2) with
        | some instant => .ok instant
        | none => .error (.outOfRange text)
      else .error (.invalidFraction text) := by
  have hread := read_eq_ok_iff.mpr ⟨negative, digits, h, rfl⟩
  -- The fraction takes its sign from the text, where zero shows one too.
  have hsign (part : Nat) :
      (if (splitPoint text.toList).1.head? = some '-' then -(part : Int) else part) =
        withSign negative part := by
    simp only [h.numeral.head?_eq_minus_iff, withSign]
  rw [exactMillis_eq, ← bind_totalMillis]
  unfold parse
  dsimp only
  rw [hread]
  dsimp only
  rw [hsign]
  cases (splitPoint text.toList).2.all Char.isDigit with
  | true => rfl
  | false => rfl

theorem parse_eq_ok_iff {text : String} {instant : Instant} :
    parse text = .ok instant ↔ ∃ negative digits,
      IsSeconds negative digits (splitPoint text.toList).1 ∧
        (splitPoint text.toList).2.all Char.isDigit ∧
        Instant.MillisInRange (exactMillis negative digits (splitPoint text.toList).2) ∧
        instant.AtMillis (exactMillis negative digits (splitPoint text.toList).2) := by
  constructor
  · intro hparse
    by_cases hseconds : ∃ negative digits, IsSeconds negative digits (splitPoint text.toList).1
    · obtain ⟨negative, digits, hseconds⟩ := hseconds
      rw [parse_of_isSeconds hseconds] at hparse
      split at hparse
      next hfraction =>
        split at hparse <;> cases hparse
        next hmillis =>
          exact ⟨negative, digits, hseconds, hfraction, Instant.ofMillis?_eq_some_iff.mp hmillis⟩
      next => cases hparse
    · obtain ⟨fault, herror⟩ := parse_of_not_isSeconds fun negative digits h =>
        hseconds ⟨negative, digits, h⟩
      cases herror.symm.trans hparse
  · rintro ⟨negative, digits, hseconds, hfraction, hmillis⟩
    rw [parse_of_isSeconds hseconds, if_pos hfraction, Instant.ofMillis?_eq_some_iff.mpr hmillis]

/-- **Seconds since the epoch are truncated exactly.** A text is read where the part before its first
point is an integer of 64 bits, the rest is digits or nothing, and the exact number it denotes, in
milliseconds and cut off toward zero, lies in the calendar's range; it is then the instant so many
milliseconds from the epoch. Otherwise the first of the three that fails is the error. -/
theorem parse_truncates (text : String) :
    ∃ whole fraction, Parts text.toList whole fraction ∧
      (∀ instant, parse text = .ok instant ↔ ∃ negative digits,
        IsSeconds negative digits whole ∧ fraction.all Char.isDigit ∧
          Instant.MillisInRange (exactMillis negative digits fraction) ∧
          instant.AtMillis (exactMillis negative digits fraction)) ∧
      ((∀ negative digits, ¬ IsSeconds negative digits whole) →
        ∃ fault, parse text = .error (.epochSeconds text fault)) ∧
      ∀ negative digits, IsSeconds negative digits whole →
        (¬ fraction.all Char.isDigit → parse text = .error (.invalidFraction text)) ∧
        (fraction.all Char.isDigit →
          ¬ Instant.MillisInRange (exactMillis negative digits fraction) →
            parse text = .error (.outOfRange text)) ∧
        (fraction.all Char.isDigit →
          Instant.MillisInRange (exactMillis negative digits fraction) →
            ∃ instant, parse text = .ok instant) := by
  refine ⟨_, _, parts_splitPoint text.toList, fun _ => parse_eq_ok_iff, parse_of_not_isSeconds, ?_⟩
  intro negative digits hseconds
  rw [parse_of_isSeconds hseconds]
  refine ⟨?_, ?_, ?_⟩
  · intro hfraction
    rw [if_neg hfraction]
  · intro hfraction hrange
    rw [if_pos hfraction]
    split
    next hmillis => exact absurd (Instant.ofMillis?_eq_some_iff.mp hmillis).1 hrange
    next => rfl
  · intro hfraction hrange
    obtain ⟨instant, hmillis⟩ := Instant.exists_ofMillis? hrange
    rw [if_pos hfraction, hmillis]
    exact ⟨instant, rfl⟩

/-- Half a second before the epoch, behind a zero that shows its sign, and a digit that does not
count. -/
theorem parse_truncates_half :
    IsSeconds true ['0'] ['-', '0'] ∧ parse "-0.5009" = .ok ⟨-1, 500000000⟩ := by
  have hseconds : IsSeconds true ['0'] ['-', '0'] := ⟨.minus (by decide) (by decide), by decide⟩
  obtain ⟨whole, fraction, hparts, hok, _⟩ := parse_truncates "-0.5009"
  obtain ⟨rfl, rfl⟩ : ['-', '0'] = whole ∧ ['5', '0', '0', '9'] = fraction :=
    Prod.mk.inj hparts.eq_splitPoint
  have hmillis : exactMillis true ['0'] ['5', '0', '0', '9'] = -500 := by
    rw [exactMillis_eq]
    rfl
  refine ⟨hseconds, (hok _).mpr ⟨true, ['0'], hseconds, by decide, ?_, ?_⟩⟩
  · rw [hmillis]
    exact ⟨by decide, by decide⟩
  · rw [hmillis]
    exact ⟨by decide, by decide⟩

end DocWalk.EpochSeconds