import DocWalk.Outcome
import DocWalk.Primitive
import DocWalk.Proofs.Number.Decimal

/-!
# Integers of several widths

A text may be read as an integer of a fixed width, as an integer of any size, or as a decimal. The
readers differ: at a fixed width every digit is checked against the bounds, at any size underscores
are dropped and the signs have rules of their own, and a decimal is first cut at an exponent and a
point. Where two of them read one text, they read the same number.

**The law** (`decode_widths`): a width reads what a greater width reads within its own range, and
nothing else; what the greatest width reads is read at any size; and what is read at any size is a
decimal without places. The converses of the last two fail: an underscore stops a fixed width only.
-/

set_option autoImplicit false

namespace DocWalk

/-! ## Any size -/

namespace BigInteger

/-- A character of an integer of any size. -/
def IsPart (c : Char) : Prop :=
  c.isDigit = true ∨ c = '_' ∨ c = '+' ∨ c = '-'

theorem IsPart.ne {c d : Char} (h : IsPart c) (hdigit : d.isDigit = false) (hunderscore : d ≠ '_')
    (hplus : d ≠ '+') (hminus : d ≠ '-') : c ≠ d := by
  rcases h with h | rfl | rfl | rfl
  · exact Digits.ne_of_isDigit h hdigit
  · exact hunderscore.symm
  · exact hplus.symm
  · exact hminus.symm

theorem isPart_of_digits? {text digits : List Char} (h : digits? text = some digits) :
    ∀ c ∈ text, IsPart c := by
  intro c hc
  unfold digits? at h
  dsimp only at h
  split at h
  next hall =>
    by_cases hunderscore : c = '_'
    · exact .inr (.inl hunderscore)
    · have hvalue := List.all_eq_true.mp hall c
        (List.mem_filter.mpr ⟨hc, decide_eq_true hunderscore⟩)
      rw [Digits.value?_ten] at hvalue
      split at hvalue
      next hdigit => exact .inl hdigit
      next => cases hvalue
  next => cases h

theorem isPart_of_readNat {text : List Char} {n : Nat} (h : readNat text = .ok n) :
    ∀ c ∈ text, IsPart c := by
  have hdropped : ∀ c ∈ dropPlus text, IsPart c := by
    unfold readNat at h
    split at h
    next => cases h
    next => cases h
    next =>
      split at h
      next => cases h
      next hdigits => exact isPart_of_digits? hdigits
  -- Only a plus sign is dropped.
  unfold dropPlus at hdropped
  split at hdropped
  next => exact hdropped
  next => exact List.forall_mem_cons.mpr ⟨.inr (.inr (.inl rfl)), hdropped⟩
  next => exact hdropped

/-- A text that is read as an integer of any size has digits, underscores and signs only. -/
theorem isPart_of_read {text : List Char} {v : Int} (h : read text = .ok v) :
    ∀ c ∈ text, IsPart c := by
  unfold read at h
  split at h
  next =>
    obtain ⟨n, hn, _⟩ := Except.map_eq_ok.mp h
    exact isPart_of_readNat hn
  next rest _ =>
    cases hn : readNat rest with
    | error fault =>
      rw [hn] at h
      cases h
    | ok n => exact List.forall_mem_cons.mpr ⟨.inr (.inr (.inr rfl)), isPart_of_readNat hn⟩
  next =>
    obtain ⟨n, hn, _⟩ := Except.map_eq_ok.mp h
    exact isPart_of_readNat hn

end BigInteger

/-- An integer of any size is a decimal without places. -/
theorem Decimal.read_of_bigInteger {text : String} {v : Int}
    (h : BigInteger.read text.toList = .ok v) : Decimal.read text = .ok ⟨v, 0⟩ := by
  have hpart := BigInteger.isPart_of_read h
  -- Neither an exponent nor a point is found.
  have hsplit : splitExponent text.toList = (text.toList, none) := by
    have htake : text.toList.takeWhile (fun c => c ≠ 'e' && c ≠ 'E') = text.toList := by
      rw [List.takeWhile_eq_self_iff]
      intro c hc
      rw [Bool.and_eq_true]
      exact ⟨decide_eq_true ((hpart c hc).ne rfl (by decide) (by decide) (by decide)),
        decide_eq_true ((hpart c hc).ne rfl (by decide) (by decide) (by decide))⟩
    rw [splitExponent, htake, List.drop_length]
  have hpoint : dropPoint text.toList = (text.toList, 0) := by
    have htake : text.toList.takeWhile (fun c => decide (c ≠ '.')) = text.toList := by
      rw [List.takeWhile_eq_self_iff]
      intro c hc
      exact decide_eq_true ((hpart c hc).ne rfl (by decide) (by decide) (by decide))
    rw [dropPoint, htake, List.drop_length]
    exact congrArg (·, 0) (List.append_nil _)
  have hempty : text.toList.isEmpty = false := by
    rw [List.isEmpty_eq_false_iff]
    intro hnil
    rw [hnil] at h
    cases h
  have hcheck : (Bounds.signed 64).check ((0 : Nat) - 0) = some 0 :=
    Bounds.check_eq_some_iff.mpr ⟨rfl, by decide⟩
  rw [read_eq, hsplit]
  show readBase text text.toList 0 = _
  rw [readBase, hempty, hpoint]
  dsimp only
  rw [hcheck, h]
  rfl

/-! ## Fixed widths -/

/-- The widths of the integers of a fixed width. -/
inductive Width where
  | byte
  | short
  | integer
  | long
  deriving DecidableEq, Repr

namespace Width

def bits : Width → Nat
  | byte => 8
  | short => 16
  | integer => 32
  | long => 64

/-- The kind of the values of a width. -/
def kind : Width → Kind
  | byte => .byte
  | short => .short
  | integer => .integer
  | long => .long

/-- The value of a width for an integer. -/
def value : Width → Int → Primitive
  | byte, v => .byte (.ofInt v)
  | short, v => .short (.ofInt v)
  | integer, v => .integer (.ofInt v)
  | long, v => .long (.ofInt v)

/-- A value of a width, and the integer that it is. -/
inductive Holds : Width → Primitive → Int → Prop where
  | byte (x : Int8) : Holds .byte (.byte x) x.toInt
  | short (x : Int16) : Holds .short (.short x) x.toInt
  | integer (x : Int32) : Holds .integer (.integer x) x.toInt
  | long (x : Int64) : Holds .long (.long x) x.toInt

/-- The text is read at a width, as a value that is this integer. -/
def Reads (w : Width) (text : String) (v : Int) : Prop :=
  ∃ value, w.kind.decode text = .ok value ∧ w.Holds value v

/-- The integers of a width. -/
def InRange (w : Width) (v : Int) : Prop :=
  -2 ^ (w.bits - 1) ≤ v ∧ v < 2 ^ (w.bits - 1)

instance (w : Width) (v : Int) : Decidable (w.InRange v) :=
  inferInstanceAs (Decidable (_ ∧ _))

theorem contains_iff {w : Width} {v : Int} :
    (Bounds.signed w.bits).Contains v ↔ w.InRange v := by
  unfold Bounds.Contains InRange
  cases w with
  | byte | short | integer | long =>
    simp only [Bounds.signed, bits]
    norm_num
    omega

theorem InRange.widen {narrow wide : Width} {v : Int} (h : narrow.InRange v)
    (hbits : narrow.bits ≤ wide.bits) : wide.InRange v := by
  have hpow : (2 : Int) ^ (narrow.bits - 1) ≤ 2 ^ (wide.bits - 1) :=
    pow_le_pow_right₀ (by decide) (Nat.sub_le_sub_right hbits 1)
  unfold InRange at *
  omega

theorem decode_kind (w : Width) (text : String) :
    w.kind.decode text = (Kind.decodeInteger w.bits text).map w.value := by
  cases w <;> rfl

/-- In its range a width keeps an integer. -/
theorem holds_value {w : Width} {v : Int} (h : w.InRange v) : w.Holds (w.value v) v := by
  obtain ⟨hleast, hgreatest⟩ := h
  cases w with
  | byte =>
    have hx := Holds.byte (.ofInt v)
    rwa [Int8.toInt_ofInt_of_le hleast hgreatest] at hx
  | short =>
    have hx := Holds.short (.ofInt v)
    rwa [Int16.toInt_ofInt_of_le hleast hgreatest] at hx
  | integer =>
    have hx := Holds.integer (.ofInt v)
    rwa [Int32.toInt_ofInt_of_le hleast hgreatest] at hx
  | long =>
    have hx := Holds.long (.ofInt v)
    rwa [Int64.toInt_ofInt_of_le hleast hgreatest] at hx

theorem Holds.eq {w : Width} {value : Primitive} {m n : Int} (hm : w.Holds value m)
    (hn : w.Holds value n) : m = n := by
  cases hm <;> cases hn <;> rfl

/-- At a width the numerals of its range are read, each as the integer that it denotes. -/
theorem reads_iff {w : Width} {text : String} {v : Int} :
    w.Reads text v ↔ ∃ negative digits, IsNumeral negative digits text.toList ∧
      v = withSign negative (Digits.toNat 0 digits) ∧ w.InRange v := by
  have hzero : (Bounds.signed w.bits).Contains 0 := by cases w <;> decide
  have hread : w.Reads text v ↔ (Bounds.signed w.bits).read text.toList = .ok v := by
    unfold Reads
    rw [decode_kind, Kind.decodeInteger]
    cases hbounds : (Bounds.signed w.bits).read text.toList with
    | error fault => exact ⟨nofun, nofun⟩
    | ok n =>
      obtain ⟨_, _, _, _, hn⟩ := (Bounds.read_eq_ok_iff hzero).mp hbounds
      have hholds := holds_value (contains_iff.mp hn)
      constructor
      · rintro ⟨value, hvalue, hv⟩
        cases hvalue
        rw [hholds.eq hv]
      · intro hv
        cases hv
        exact ⟨_, rfl, hholds⟩
  rw [hread, Bounds.read_eq_ok_iff hzero]
  simp only [contains_iff]

end Width

/-- **One number at every width.** A width reads what a greater width reads within its own range; what
the greatest width reads is read at any size; and what is read at any size is a decimal without
places. -/
theorem decode_widths (text : String) (v : Int) :
    (∀ narrow wide : Width, narrow.bits < wide.bits →
        (narrow.Reads text v ↔ wide.Reads text v ∧ narrow.InRange v)) ∧
      (Width.long.Reads text v → Kind.bigInteger.decode text = .ok (.bigInteger v)) ∧
      (Kind.bigInteger.decode text = .ok (.bigInteger v) →
        Kind.bigDecimal.decode text = .ok (.bigDecimal ⟨v, 0⟩)) := by
  refine ⟨fun narrow wide hbits => ?_, fun hlong => ?_, fun hbig => ?_⟩
  · rw [Width.reads_iff, Width.reads_iff]
    constructor
    · rintro ⟨negative, digits, hnumeral, hv, hrange⟩
      exact ⟨⟨negative, digits, hnumeral, hv, hrange.widen (Nat.le_of_lt hbits)⟩, hrange⟩
    · rintro ⟨⟨negative, digits, hnumeral, hv, _⟩, hrange⟩
      exact ⟨negative, digits, hnumeral, hv, hrange⟩
  · obtain ⟨negative, digits, hnumeral, rfl, _⟩ := Width.reads_iff.mp hlong
    rw [Kind.decode, BigInteger.read_of_isNumeral hnumeral]
    rfl
  · have hread : BigInteger.read text.toList = .ok v := by
      rw [Kind.decode] at hbig
      cases h : BigInteger.read text.toList with
      | error fault =>
        rw [h] at hbig
        cases hbig
      | ok n =>
        rw [h] at hbig
        cases hbig
        rfl
    rw [Kind.decode, Decimal.read_of_bigInteger hread]
    rfl

/-- The least byte, with zeros in front, is read at every width, at any size and as a decimal; the
integer below it only from the next width on. An underscore leaves the last step. -/
theorem decode_widths_least :
    (Width.byte.bits < Width.short.bits ∧ Width.byte.Reads "-00128" (-128) ∧
        Width.short.Reads "-00128" (-128)) ∧
      (Width.short.Reads "-00129" (-129) ∧ ¬ Width.byte.Reads "-00129" (-129)) ∧
      (Width.long.Reads "-00128" (-128) ∧
        Kind.bigInteger.decode "-00128" = .ok (.bigInteger (-128))) ∧
      Kind.bigInteger.decode "+1_000_" = .ok (.bigInteger 1000) ∧
        Kind.bigDecimal.decode "+1_000_" = .ok (.bigDecimal ⟨1000, 0⟩) := by
  have hbits : Width.byte.bits < Width.short.bits := by decide
  have hbyte : Width.byte.Reads "-00128" (-128) :=
    Width.reads_iff.mpr ⟨true, "00128".toList, .minus (by decide) (by decide), by decide, by decide⟩
  have hshort : Width.short.Reads "-00129" (-129) :=
    Width.reads_iff.mpr ⟨true, "00129".toList, .minus (by decide) (by decide), by decide, by decide⟩
  have hlong : Width.long.Reads "-00128" (-128) :=
    Width.reads_iff.mpr ⟨true, "00128".toList, .minus (by decide) (by decide), by decide, by decide⟩
  have hbig : Kind.bigInteger.decode "+1_000_" = .ok (.bigInteger 1000) := by cbv
  refine ⟨⟨hbits, hbyte, ?_⟩, ⟨hshort, ?_⟩, ⟨hlong, ?_⟩, hbig, ?_⟩
  · exact (((decode_widths "-00128" (-128)).1 .byte .short hbits).mp hbyte).1
  · intro h
    have hrange := (((decode_widths "-00129" (-129)).1 .byte .short hbits).mp h).2
    exact absurd hrange.1 (by decide)
  · exact (decode_widths "-00128" (-128)).2.1 hlong
  · exact (decode_widths "+1_000_" 1000).2.2 hbig

end DocWalk
