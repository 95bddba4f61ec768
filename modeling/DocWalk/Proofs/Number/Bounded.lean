import DocWalk.Number.Bounded
import DocWalk.Proofs.Number.Digits

/-!
# Integers within bounds are read exactly

Reading looks at the bounds after every digit, on the way out from zero. A number that ends within
the bounds was within them all the way, since it only grows, so the check at each digit refuses what
a check at the end would, and nothing else.

**The law** (`read_eq_ok_iff`): for bounds around zero, what is read is the integer that a sign and
digits denote, and it is read where it lies within the bounds.
-/

set_option autoImplicit false

namespace DocWalk

/-- The integer of a sign and a magnitude. -/
def withSign (negative : Bool) (n : Nat) : Int :=
  if negative then -n else n

theorem withSign_add (negative : Bool) (m n : Nat) :
    withSign negative m + withSign negative n = withSign negative (m + n) := by
  unfold withSign
  split <;> omega

theorem withSign_mul (negative : Bool) (m n : Nat) :
    withSign negative m * n = withSign negative (m * n) := by
  unfold withSign
  split
  · rw [Int.neg_mul, Int.natCast_mul]
  · rw [Int.natCast_mul]

/-- A text that is an optional sign and one or more digits. -/
inductive IsNumeral : Bool → List Char → List Char → Prop where
  | plain {digits : List Char} : digits ≠ [] → digits.all Char.isDigit →
      IsNumeral false digits digits
  | plus {digits : List Char} : digits ≠ [] → digits.all Char.isDigit →
      IsNumeral false digits ('+' :: digits)
  | minus {digits : List Char} : digits ≠ [] → digits.all Char.isDigit →
      IsNumeral true digits ('-' :: digits)

namespace IsNumeral

variable {negative : Bool} {digits text : List Char}

theorem plus_iff : IsNumeral negative digits ('+' :: text) ↔
    negative = false ∧ digits = text ∧ text ≠ [] ∧ text.all Char.isDigit := by
  constructor
  · intro h
    cases h with
    | plain _ hall => simp at hall
    | plus hne hall => exact ⟨rfl, rfl, hne, hall⟩
  · rintro ⟨rfl, rfl, hne, hall⟩
    exact .plus hne hall

theorem minus_iff : IsNumeral negative digits ('-' :: text) ↔
    negative = true ∧ digits = text ∧ text ≠ [] ∧ text.all Char.isDigit := by
  constructor
  · intro h
    cases h with
    | plain _ hall => simp at hall
    | minus hne hall => exact ⟨rfl, rfl, hne, hall⟩
  · rintro ⟨rfl, rfl, hne, hall⟩
    exact .minus hne hall

theorem unsigned_iff (hplus : text.head? ≠ some '+') (hminus : text.head? ≠ some '-') :
    IsNumeral negative digits text ↔
      negative = false ∧ digits = text ∧ text ≠ [] ∧ text.all Char.isDigit := by
  constructor
  · intro h
    cases h with
    | plain hne hall => exact ⟨rfl, rfl, hne, hall⟩
    | plus => exact absurd rfl hplus
    | minus => exact absurd rfl hminus
  · rintro ⟨rfl, rfl, hne, hall⟩
    exact .plain hne hall

/-- The sign is minus where the text shows one. -/
theorem head?_eq_minus_iff (h : IsNumeral negative digits text) :
    text.head? = some '-' ↔ negative = true := by
  cases h with
  | plain _ hall =>
    cases digits with
    | nil => simp
    | cons c rest =>
      simp only [List.head?_cons, Option.some.injEq, Bool.false_eq_true, iff_false]
      rintro rfl
      simp at hall
  | plus | minus => simp

end IsNumeral

namespace Bounds

/-- The integer lies within the bounds. -/
def Contains (bounds : Bounds) (value : Int) : Prop :=
  bounds.least ≤ value ∧ value ≤ bounds.greatest

instance (bounds : Bounds) (value : Int) : Decidable (bounds.Contains value) :=
  inferInstanceAs (Decidable (_ ∧ _))

theorem check_eq_some_iff {bounds : Bounds} {value v : Int} :
    bounds.check value = some v ↔ value = v ∧ bounds.Contains v := by
  unfold check Contains
  split
  next h =>
    rw [Option.some.injEq]
    constructor
    · rintro rfl
      exact ⟨rfl, h⟩
    · exact And.left
  next h =>
    constructor
    · exact nofun
    · rintro ⟨rfl, hv⟩
      exact absurd hv h

variable {bounds : Bounds} {negative : Bool}

/-- What lies nearer to zero lies within the bounds as well. -/
theorem Contains.nearer {m n : Nat} (hn : bounds.Contains (withSign negative n))
    (hzero : bounds.Contains 0) (hmn : m ≤ n) : bounds.Contains (withSign negative m) := by
  unfold Contains withSign at *
  cases negative with
  | true =>
    simp only [if_true] at hn ⊢
    omega
  | false =>
    simp only [Bool.false_eq_true, if_false] at hn ⊢
    omega

/-- One more digit, on the way out from zero. -/
theorem withSign_digit (negative : Bool) (n d : Nat) :
    (if negative then withSign negative n * (10 : Nat) - d
      else withSign negative n * (10 : Nat) + d) = withSign negative (n * 10 + d) := by
  rw [withSign_mul, ← withSign_add]
  cases negative with
  | true => exact Int.sub_eq_add_neg
  | false => rfl

/-- Digits are read to their end where the number they lead to lies within the bounds. -/
theorem readDigits_eq_ok_iff (hzero : bounds.Contains 0) {n : Nat}
    (hn : bounds.Contains (withSign negative n)) {digits : List Char} {v : Int} :
    bounds.readDigits 10 negative (withSign negative n) digits = .ok v ↔
      digits.all Char.isDigit ∧ v = withSign negative (Digits.toNat n digits) ∧
        bounds.Contains v := by
  -- On the digits. What has left the bounds does not come back, so a digit that leaves them decides.
  induction digits generalizing n with
  | nil =>
    rw [readDigits, Except.ok.injEq]
    constructor
    · rintro rfl
      exact ⟨rfl, rfl, hn⟩
    · rintro ⟨_, rfl, _⟩
      rfl
  | cons c rest ih =>
    rw [readDigits, Digits.toNat_cons, Digits.value?_ten, List.all_cons, Bool.and_eq_true]
    by_cases hdigit : c.isDigit
    · rw [if_pos hdigit, Option.getD_some]
      dsimp only
      rw [withSign_digit]
      by_cases hnext : bounds.Contains (withSign negative (n * 10 + (c.toNat - '0'.toNat)))
      · rw [if_neg (Int.not_lt.mpr hnext.1), if_neg (Int.not_lt.mpr hnext.2), ih hnext]
        simp only [hdigit, true_and]
      · constructor
        · intro h
          split at h
          next => cases h
          next hleast =>
            split at h
            next => cases h
            next hgreatest => exact absurd ⟨Int.not_lt.mp hleast, Int.not_lt.mp hgreatest⟩ hnext
        · rintro ⟨_, rfl, hv⟩
          exact absurd (hv.nearer hzero (Digits.le_toNat _ rest)) hnext
    · rw [if_neg hdigit]
      constructor
      · exact nofun
      · rintro ⟨⟨hc, _⟩, _⟩
        exact absurd hc hdigit

/-- **Integers are read exactly.** Within bounds around zero, the value of a text is the integer that
an optional sign and one or more digits denote, if it lies within the bounds. -/
theorem read_eq_ok_iff (hzero : bounds.Contains 0) {text : List Char} {v : Int} :
    bounds.read text = .ok v ↔ ∃ negative digits, IsNumeral negative digits text ∧
      v = withSign negative (Digits.toNat 0 digits) ∧ bounds.Contains v := by
  have hread {negative : Bool} {digits : List Char} :
      bounds.readDigits 10 negative 0 digits = .ok v ↔ digits.all Char.isDigit ∧
        v = withSign negative (Digits.toNat 0 digits) ∧ bounds.Contains v := by
    have hsign : withSign negative 0 = 0 := by cases negative <;> rfl
    have hstart : bounds.Contains (withSign negative 0) := hsign.symm ▸ hzero
    rw [← hsign]
    exact readDigits_eq_ok_iff hzero hstart
  unfold read
  split
  next =>
    constructor
    · exact nofun
    · rintro ⟨_, digits, h, _⟩
      cases h with
      | plain hne => exact absurd rfl hne
  next =>
    constructor
    · exact nofun
    · rintro ⟨_, _, h, _⟩
      exact absurd rfl (IsNumeral.plus_iff.mp h).2.2.1
  next =>
    constructor
    · exact nofun
    · rintro ⟨_, _, h, _⟩
      exact absurd rfl (IsNumeral.minus_iff.mp h).2.2.1
  next digits hne =>
    rw [hread]
    constructor
    · rintro ⟨hall, hv⟩
      refine ⟨false, digits, .plus ?_ hall, hv⟩
      rintro rfl
      exact hne rfl
    · rintro ⟨_, _, h, hv⟩
      obtain ⟨rfl, rfl, _, hall⟩ := IsNumeral.plus_iff.mp h
      exact ⟨hall, hv⟩
  next digits hne =>
    rw [hread]
    constructor
    · rintro ⟨hall, hv⟩
      refine ⟨true, digits, .minus ?_ hall, hv⟩
      rintro rfl
      exact hne rfl
    · rintro ⟨_, _, h, hv⟩
      obtain ⟨rfl, rfl, _, hall⟩ := IsNumeral.minus_iff.mp h
      exact ⟨hall, hv⟩
  next hne _ _ hplus hminus =>
    have hplus : text.head? ≠ some '+' := fun h => (List.head?_eq_some_iff.mp h).elim hplus
    have hminus : text.head? ≠ some '-' := fun h => (List.head?_eq_some_iff.mp h).elim hminus
    rw [hread]
    constructor
    · rintro ⟨hall, hv⟩
      exact ⟨false, text, .plain hne hall, hv⟩
    · rintro ⟨_, _, h, hv⟩
      obtain ⟨rfl, rfl, _, hall⟩ := (IsNumeral.unsigned_iff hplus hminus).mp h
      exact ⟨hall, hv⟩

end Bounds

end DocWalk
