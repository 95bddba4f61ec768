import DocWalk.Text.Ascii
import DocWalk.Text.Utf8

/-!
# The characters behind bytes

A scanner reads bytes, and the rules of a format speak of characters. This module carries the one to
the other: an ASCII character is one byte, every byte of another character is at least 128, so a
byte below 128 is a character of its own wherever it stands in a text.

**The laws**: `encodeChars_eq_cons` finds the character in front of bytes that start with an ASCII
byte, `takeWhile_encodeChars` takes bytes as long as characters pass, and `encodeChars_injective`
says that a text has one sequence of bytes.
-/

set_option autoImplicit false

namespace DocWalk.Utf8

theorem encodeChars_cons (c : Char) (chars : List Char) :
    encodeChars (c :: chars) = String.utf8EncodeChar c ++ encodeChars chars := rfl

@[simp] theorem encodeChars_append (xs ys : List Char) :
    encodeChars (xs ++ ys) = encodeChars xs ++ encodeChars ys :=
  List.flatMap_append

theorem length_encode (text : String) : (encode text).length = text.utf8ByteSize := by
  rw [← String.size_toByteArray, ← String.utf8Encode_toList, List.utf8Encode, List.size_toByteArray]
  rfl

theorem encode_append (s t : String) : encode (s ++ t) = encode s ++ encode t := by
  rw [encode, String.toList_append, encodeChars_append]
  rfl

/-- A text has one sequence of bytes. -/
theorem encodeChars_injective {xs ys : List Char} (h : encodeChars xs = encodeChars ys) :
    xs = ys := by
  have hx := decodeChars_encodeChars xs 0
  rw [h, decodeChars_encodeChars ys 0] at hx
  exact (Except.ok.inj hx).symm

theorem encode_injective {s t : String} (h : encode s = encode t) : s = t :=
  String.toList_injective (encodeChars_injective h)

/-- Bytes in front of which a text is written are bytes of characters that start with it. -/
theorem eq_append_of_encodeChars {xs chars : List Char} {rest : List UInt8}
    (h : encodeChars chars = encodeChars xs ++ rest) :
    ∃ ys, chars = xs ++ ys ∧ rest = encodeChars ys := by
  induction xs generalizing chars with
  | nil => exact ⟨chars, rfl, h.symm⟩
  | cons x xs ih =>
    rw [encodeChars_cons, List.append_assoc] at h
    match chars with
    | [] => exact absurd (List.append_eq_nil_iff.mp h.symm).1 (utf8EncodeChar_ne_nil x)
    | c :: more =>
      rw [encodeChars_cons] at h
      have hx := head?_encode_append x (encodeChars xs ++ rest)
      rw [← h, head?_encode_append] at hx
      cases hx
      obtain ⟨ys, rfl, hrest⟩ := ih (List.append_cancel_left h)
      exact ⟨ys, rfl, hrest⟩

/-- The bytes of a text stand for that text, without a flaw. -/
theorem decodeLossyChars_encodeChars (chars : List Char) :
    decodeLossyChars (encodeChars chars) = chars := by
  induction chars with
  | nil => rw [encodeChars, List.flatMap_nil, decodeLossyChars]
  | cons c chars ih =>
    have hhead := head?_encode_append c (encodeChars chars)
    have hlen := String.length_utf8EncodeChar c
    rw [encodeChars_cons]
    match hb : String.utf8EncodeChar c with
    | [] => exact absurd hb (utf8EncodeChar_ne_nil c)
    | b :: more =>
      rw [hb] at hhead hlen
      have hdrop : (more ++ encodeChars chars).drop (c.utf8Size - 1) = encodeChars chars := by
        rw [show c.utf8Size - 1 = more.length by simp at hlen; omega, List.drop_left]
      rw [List.cons_append] at hhead ⊢
      rw [decodeLossyChars, hhead]
      simp only [hdrop, ih]

theorem decodeLossy_encode (text : String) : decodeLossy (encode text) = text := by
  rw [decodeLossy, encode, decodeLossyChars_encodeChars, String.ofList_toList]

/-! ## ASCII characters and the others -/

/-- An ASCII character is one byte. -/
theorem utf8EncodeChar_ascii {c : Char} (h : c.toNat < 128) :
    String.utf8EncodeChar c = [Ascii.byte c] := by
  have hle : c.val.toNat ≤ 0x7f := Nat.le_of_lt_succ h
  unfold String.utf8EncodeChar
  simp only [hle, if_true]
  rfl

/-- Every byte of a character that is not ASCII is at least 128. -/
theorem le_of_mem_utf8EncodeChar {c : Char} (h : 128 ≤ c.toNat) {b : UInt8}
    (hb : b ∈ String.utf8EncodeChar c) : 128 ≤ b.toNat := by
  have hlt : ¬ c.val.toNat ≤ 0x7f := Nat.not_le.mpr h
  have hvalid : c.val.toNat < 0x110000 := by
    have := c.valid
    simp only [UInt32.isValidChar, Nat.isValidChar] at this
    omega
  unfold String.utf8EncodeChar at hb
  simp only [hlt, if_false] at hb
  split at hb
  · simp only [List.mem_cons, List.not_mem_nil, or_false] at hb
    rcases hb with rfl | rfl <;> rw [UInt8.toNat_ofNat'] <;> omega
  split at hb
  · simp only [List.mem_cons, List.not_mem_nil, or_false] at hb
    rcases hb with rfl | rfl | rfl <;> rw [UInt8.toNat_ofNat'] <;> omega
  · simp only [List.mem_cons, List.not_mem_nil, or_false] at hb
    rcases hb with rfl | rfl | rfl | rfl <;> rw [UInt8.toNat_ofNat'] <;> omega

theorem toNat_byte {c : Char} (h : c.toNat < 128) : (Ascii.byte c).toNat = c.toNat := by
  change (UInt8.ofNat c.toNat).toNat = c.toNat
  rw [UInt8.toNat_ofNat']
  omega

/-- An ASCII character is known by its byte. -/
theorem byte_inj {c d : Char} (hc : c.toNat < 128) (hd : d.toNat < 128)
    (h : Ascii.byte c = Ascii.byte d) : c = d := by
  have hn : c.toNat = d.toNat := by rw [← toNat_byte hc, ← toNat_byte hd, h]
  exact Char.toNat_inj.mp hn

/-- An ASCII byte stands in its own character only. -/
theorem eq_of_byte_mem {a c : Char} (ha : a.toNat < 128)
    (h : Ascii.byte a ∈ String.utf8EncodeChar c) : a = c := by
  by_cases hc : c.toNat < 128
  · rw [utf8EncodeChar_ascii hc, List.mem_singleton] at h
    exact byte_inj ha hc h
  · have hle := le_of_mem_utf8EncodeChar (Nat.not_lt.mp hc) h
    rw [toNat_byte ha] at hle
    omega

/-- What holds of the first 128 characters holds of every ASCII character. -/
theorem forall_ascii {P : Char → Prop} (h : ∀ n < 128, P (Char.ofNat n)) (c : Char)
    (hc : c.toNat < 128) : P c := by
  have := h c.toNat hc
  rwa [Char.ofNat_toNat] at this

theorem encodeChars_cons_ascii {c : Char} (h : c.toNat < 128) (chars : List Char) :
    encodeChars (c :: chars) = Ascii.byte c :: encodeChars chars := by
  rw [encodeChars_cons, utf8EncodeChar_ascii h]
  rfl

/-- Bytes that start with one below 128 start with an ASCII character. -/
theorem encodeChars_eq_cons {chars : List Char} {b : UInt8} {rest : List UInt8}
    (hb : b.toNat < 128) (h : encodeChars chars = b :: rest) :
    ∃ c more, chars = c :: more ∧ c.toNat < 128 ∧ Ascii.byte c = b ∧ rest = encodeChars more := by
  match chars with
  | [] => cases h
  | c :: more =>
    by_cases hc : c.toNat < 128
    · rw [encodeChars_cons_ascii hc] at h
      obtain ⟨hcb, hrest⟩ := List.cons.inj h
      exact ⟨c, more, rfl, hc, hcb, hrest.symm⟩
    · exfalso
      rw [encodeChars_cons] at h
      match he : String.utf8EncodeChar c with
      | [] => exact utf8EncodeChar_ne_nil c he
      | first :: others =>
        rw [he] at h
        obtain ⟨rfl, _⟩ := List.cons.inj h
        have hle := le_of_mem_utf8EncodeChar (Nat.not_lt.mp hc) (he ▸ List.mem_cons_self)
        omega

/-- A byte below 128 stands between two characters, wherever it is found. -/
theorem exists_drop_encodeChars {chars : List Char} {n : Nat} {b : UInt8} {rest : List UInt8}
    (hb : b.toNat < 128) (h : (encodeChars chars).drop n = b :: rest) :
    ∃ back, (encodeChars chars).drop n = encodeChars back := by
  induction chars generalizing n with
  | nil =>
    rw [encodeChars, List.flatMap_nil, List.drop_nil] at h
    cases h
  | cons c chars ih =>
    by_cases hn : n = 0
    · subst hn
      exact ⟨c :: chars, rfl⟩
    rw [encodeChars_cons] at h ⊢
    by_cases hlt : n < (String.utf8EncodeChar c).length
    · -- Inside a character of several bytes there is none below 128.
      exfalso
      have hmem : b ∈ String.utf8EncodeChar c := by
        rw [List.drop_append_of_le_length (Nat.le_of_lt hlt)] at h
        cases hd : (String.utf8EncodeChar c).drop n with
        | nil => exact absurd (List.drop_eq_nil_iff.mp hd) (Nat.not_le.mpr hlt)
        | cons first more =>
          rw [hd] at h
          obtain ⟨rfl, _⟩ := List.cons.inj h
          exact List.mem_of_mem_drop (hd ▸ List.mem_cons_self)
      by_cases hc : c.toNat < 128
      · rw [utf8EncodeChar_ascii hc, List.length_singleton] at hlt
        omega
      · have hle := le_of_mem_utf8EncodeChar (Nat.not_lt.mp hc) hmem
        omega
    · obtain ⟨k, rfl⟩ := Nat.exists_eq_add_of_le (Nat.not_lt.mp hlt)
      rw [List.drop_length_add_append] at h ⊢
      exact ih h

/-- Bytes start with the byte of an ASCII character when the characters start with it. -/
theorem head?_encodeChars {a : Char} (ha : a.toNat < 128) (chars : List Char) :
    (encodeChars chars).head? = some (Ascii.byte a) ↔ ∃ more, chars = a :: more := by
  constructor
  · intro h
    obtain ⟨rest, hrest⟩ := List.head?_eq_some_iff.mp h
    obtain ⟨c, more, rfl, hc, hbyte, _⟩ :=
      encodeChars_eq_cons (by rw [toNat_byte ha]; exact ha) hrest
    exact ⟨more, by rw [byte_inj hc ha hbyte]⟩
  · rintro ⟨more, rfl⟩
    rw [encodeChars_cons_ascii ha]
    rfl

theorem encodeChars_eq_nil {chars : List Char} (h : encodeChars chars = []) : chars = [] := by
  match chars with
  | [] => rfl
  | c :: more =>
    rw [encodeChars_cons, List.append_eq_nil_iff] at h
    exact absurd h.1 (utf8EncodeChar_ne_nil c)

/-! ## Tests of bytes and of characters -/

/-- A test of bytes that tells the same as a test of characters: it gives one answer for all bytes
of a character that passes, and refuses the first byte of one that does not. -/
structure Agree (p : UInt8 → Bool) (q : Char → Bool) : Prop where
  pass : ∀ c, q c = true → ∀ b ∈ String.utf8EncodeChar c, p b = true
  stop : ∀ c, q c = false → ∀ b, (String.utf8EncodeChar c).head? = some b → p b = false

/-- Tests agree when they agree on ASCII characters and give one answer for all that is not ASCII.
-/
theorem Agree.of_ascii {p : UInt8 → Bool} {q : Char → Bool} (others : Bool)
    (ascii : ∀ n < 128, q (Char.ofNat n) = p (Ascii.byte (Char.ofNat n)))
    (bytes : ∀ b : UInt8, 128 ≤ b.toNat → p b = others)
    (chars : ∀ c : Char, 128 ≤ c.toNat → q c = others) : Agree p q := by
  have low : ∀ c : Char, c.toNat < 128 → q c = p (Ascii.byte c) := forall_ascii ascii
  constructor
  · intro c hq b hb
    by_cases hc : c.toNat < 128
    · rw [utf8EncodeChar_ascii hc, List.mem_singleton] at hb
      rw [hb, ← low c hc, hq]
    · have hc := Nat.not_lt.mp hc
      rw [bytes b (le_of_mem_utf8EncodeChar hc hb), ← chars c hc, hq]
  · intro c hq b hb
    by_cases hc : c.toNat < 128
    · rw [utf8EncodeChar_ascii hc, List.head?_cons, Option.some.injEq] at hb
      rw [← hb, ← low c hc, hq]
    · have hc := Nat.not_lt.mp hc
      rw [bytes b (le_of_mem_utf8EncodeChar hc (List.mem_of_head? hb)), ← chars c hc, hq]

/-- On an ASCII character and its byte the tests give one answer. -/
theorem Agree.eq_of_ascii {p : UInt8 → Bool} {q : Char → Bool} (agree : Agree p q) {c : Char}
    (hc : c.toNat < 128) : p (Ascii.byte c) = q c := by
  have he := utf8EncodeChar_ascii hc
  cases hq : q c with
  | true => exact agree.pass c hq _ (by rw [he]; exact List.mem_singleton_self _)
  | false => exact agree.stop c hq _ (by rw [he]; rfl)

/-- The blanks of the formats are one test. -/
theorem agree_blank :
    Agree Ascii.isBlank fun c => c = ' ' || c = '\t' || c = '\n' || c = '\r' := by
  refine .of_ascii false (by decide) (fun b hb => ?_) (fun c hc => ?_)
  · simp only [Ascii.isBlank, Bool.or_eq_false_iff, decide_eq_false_iff_not]
    refine ⟨⟨⟨?_, ?_⟩, ?_⟩, ?_⟩ <;> rintro rfl <;> exact absurd hb (by decide)
  · simp only [Bool.or_eq_false_iff, decide_eq_false_iff_not]
    refine ⟨⟨⟨?_, ?_⟩, ?_⟩, ?_⟩ <;> rintro rfl <;> exact absurd hc (by decide)

/-- All bytes pass exactly when all characters do. -/
theorem all_encodeChars {p : UInt8 → Bool} {q : Char → Bool} (agree : Agree p q)
    (chars : List Char) : (encodeChars chars).all p = chars.all q := by
  induction chars with
  | nil => rfl
  | cons c chars ih =>
    rw [encodeChars_cons, List.all_append, ih, List.all_cons]
    cases hq : q c with
    | true => rw [List.all_eq_true.mpr (agree.pass c hq)]
    | false =>
      match he : String.utf8EncodeChar c with
      | [] => exact absurd he (utf8EncodeChar_ne_nil c)
      | b :: others =>
        have hb : p b = false := agree.stop c hq b (by rw [he]; rfl)
        rw [List.all_cons, hb]
        rfl

/-- Bytes are taken exactly as long as characters pass. -/
theorem takeWhile_encodeChars {p : UInt8 → Bool} {q : Char → Bool} (agree : Agree p q)
    (chars : List Char) :
    (encodeChars chars).takeWhile p = encodeChars (chars.takeWhile q) := by
  induction chars with
  | nil => rfl
  | cons c chars ih =>
    rw [encodeChars_cons]
    cases hq : q c with
    | true =>
      rw [List.takeWhile_append_of_pos (agree.pass c hq), ih, List.takeWhile_cons, hq, if_pos rfl,
        encodeChars_cons]
    | false =>
      match he : String.utf8EncodeChar c with
      | [] => exact absurd he (utf8EncodeChar_ne_nil c)
      | b :: others =>
        have hb : p b = false := agree.stop c hq b (by rw [he]; rfl)
        rw [List.cons_append, List.takeWhile_cons, hb, List.takeWhile_cons, hq]
        rfl

/-- The first byte passes exactly when the first character does. -/
theorem any_head?_encodeChars {p : UInt8 → Bool} {q : Char → Bool} (agree : Agree p q)
    (chars : List Char) : (encodeChars chars).head?.any p = chars.head?.any q := by
  match chars with
  | [] => rfl
  | c :: more =>
    match he : String.utf8EncodeChar c with
    | [] => exact absurd he (utf8EncodeChar_ne_nil c)
    | b :: others =>
      rw [encodeChars_cons, he]
      change p b = q c
      cases hq : q c with
      | true => exact agree.pass c hq b (by rw [he]; exact List.mem_cons_self)
      | false => exact agree.stop c hq b (by rw [he]; rfl)

end DocWalk.Utf8
