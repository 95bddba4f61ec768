import DocWalk.Proofs.Json.Scanning

/-!
# Strings

What the scanner reads as a string is a text in quotes, and every way to write a text in quotes is
read as that text.

The scanner goes by chunks, each up to the next quote or backslash, and the grammar goes by
characters. `stringBody_raw` brings the two together for reading: in front of a character that
stands for itself, the scanner reads on as if the character had been read already. For what was read
the chunk is the natural piece, and `stringBody_ok` follows the scanner's own recursion.

**The laws**: `string_ok` and `string_pass`, each the other's converse.
-/

set_option autoImplicit false

namespace DocWalk.Json.Scan

open Grammar Scanner

/-! ## Escapes by number -/

theorem hexValue?_byte {c : Char} (hc : c.toNat < 128) :
    hexValue? (Ascii.byte c) = hexDigit? c :=
  Utf8.forall_ascii (P := fun c => hexValue? (Ascii.byte c) = hexDigit? c) (by decide) c hc

/-- Hexadecimal digits are ASCII characters. -/
theorem lt_of_hexDigit? {c : Char} {n : Nat} (h : hexDigit? c = some n) :
    c.toNat < 128 ∧ n < 16 := by
  unfold hexDigit? at h
  split at h
  · cases h
    omega
  split at h
  · cases h
    omega
  split at h
  · cases h
    omega
  · cases h

/-- Hexadecimal digits are ASCII bytes. -/
theorem toNat_lt_of_hexValue? {b : UInt8} {n : Nat} (h : hexValue? b = some n) :
    b.toNat < 128 := by
  have bound : ∀ {x : UInt8}, x.toNat < 128 → (b ≤ x) → b.toNat < 128 := fun hx hb =>
    Nat.lt_of_le_of_lt (UInt8.le_iff_toNat_le.mp hb) hx
  unfold hexValue? at h
  simp only [Bool.and_eq_true, decide_eq_true_eq] at h
  split at h
  next h' => exact bound (by decide) h'.2
  split at h
  next h' => exact bound (by decide) h'.2
  split at h
  next h' => exact bound (by decide) h'.2
  next => cases h

/-- Bytes whose first is a hexadecimal digit start with that digit as a character. -/
theorem passes_hexDigit {s : Scanner} (hs : s.OnText) {b : UInt8} {rest : List UInt8} {n : Nat}
    (hb : s.rest = b :: rest) (hn : hexValue? b = some n) :
    ∃ c, hexDigit? c = some n ∧ s.Passes [c] (s.drop 1) := by
  obtain ⟨chars, hrest⟩ := hs
  obtain ⟨c, more, rfl, hc, rfl, _⟩ :=
    Utf8.encodeChars_eq_cons (toNat_lt_of_hexValue? hn) (hrest.symm.trans hb)
  rw [hexValue?_byte hc] at hn
  exact ⟨c, hn, OnText.passes_head ⟨_, hrest⟩ hc (by rw [hb]; rfl)⟩

theorem hex4_ok {s t : Scanner} {n : Nat} (hs : s.OnText) (h : hex4 s = .ok n t) :
    ∃ digits, Hex4 digits n ∧ s.Passes digits t := by
  unfold hex4 at h
  split at h
  next b₁ b₂ b₃ b₄ rest hrest =>
    split at h
    next n₁ n₂ n₃ n₄ h₁ h₂ h₃ h₄ =>
      simp only [EStateM.Result.ok.injEq] at h
      obtain ⟨rfl, rfl⟩ := h
      obtain ⟨a, ha, pa⟩ := passes_hexDigit hs hrest h₁
      obtain ⟨b, hb, pb⟩ := passes_hexDigit pa.onText'
        (by rw [drop, hrest]; rfl : (s.drop 1).rest = b₂ :: b₃ :: b₄ :: rest) h₂
      obtain ⟨c, hc, pc⟩ := passes_hexDigit pb.onText'
        (by rw [drop, drop, hrest]; rfl : ((s.drop 1).drop 1).rest = b₃ :: b₄ :: rest) h₃
      obtain ⟨d, hd, pd⟩ := passes_hexDigit pc.onText'
        (by rw [drop, drop, drop, hrest]; rfl : (((s.drop 1).drop 1).drop 1).rest = b₄ :: rest) h₄
      have hpass := ((pa.trans pb).trans pc).trans pd
      rw [drop_drop, drop_drop, drop_drop] at hpass
      exact ⟨[a, b, c, d], .mk ha hb hc hd, hpass⟩
    next => cases h
  next => cases h

theorem hex4_pass {s t : Scanner} {digits : List Char} {n : Nat} (h : s.Passes digits t)
    (hd : Hex4 digits n) : hex4 s = .ok n t := by
  cases hd with
  | @mk a b c d w x y z ha hb hc hd =>
    have la := (lt_of_hexDigit? ha).1
    have lb := (lt_of_hexDigit? hb).1
    have lc := (lt_of_hexDigit? hc).1
    have ld := (lt_of_hexDigit? hd).1
    have hbytes : Utf8.encodeChars [a, b, c, d] =
        [Ascii.byte a, Ascii.byte b, Ascii.byte c, Ascii.byte d] := by
      rw [Utf8.encodeChars_cons_ascii la, Utf8.encodeChars_cons_ascii lb,
        Utf8.encodeChars_cons_ascii lc, Utf8.encodeChars_cons_ascii ld]
      rfl
    have hrest := h.rest_eq
    have ht := h.eq_drop
    rw [hbytes] at hrest ht
    simp only [hex4, hrest, List.cons_append, hexValue?_byte la, hexValue?_byte lb,
      hexValue?_byte lc, hexValue?_byte ld, ha, hb, hc, hd]
    rw [ht]
    rfl

theorem hex4_lt {digits : List Char} {n : Nat} (h : Hex4 digits n) : n < 0x10000 := by
  cases h with
  | mk ha hb hc hd =>
    have := (lt_of_hexDigit? ha).2
    have := (lt_of_hexDigit? hb).2
    have := (lt_of_hexDigit? hc).2
    have := (lt_of_hexDigit? hd).2
    omega

theorem charOf_ok {n : Nat} {s t : Scanner} {c : Char} (h : charOf n s = .ok c t) :
    n.isValidChar ∧ c = .ofNat n ∧ t = s := by
  unfold charOf at h
  split at h
  next hn =>
    obtain ⟨rfl, rfl⟩ := EStateM.pure_eq_ok.mp h
    exact ⟨hn, rfl, rfl⟩
  next => cases h

theorem charOf_valid {n : Nat} (h : n.isValidChar) (s : Scanner) :
    charOf n s = .ok (.ofNat n) s := by
  rw [charOf, if_pos h]
  rfl

/-- A pair of surrogates stands for a character beyond the first plane. -/
theorem surrogatePair_valid {high low : Nat} (h : high < 0xDC00) (hl : low < 0xE000) :
    (surrogatePair high low).isValidChar := by
  refine .inr ⟨?_, ?_⟩ <;> unfold surrogatePair <;> omega

theorem lowSurrogate_ok {high : Nat} {s t : Scanner} {c : Char} (hs : s.OnText)
    (h : lowSurrogate high s = .ok c t) :
    ∃ digits low, Hex4 digits low ∧ 0xDC00 ≤ low ∧ low < 0xE000 ∧
      c = .ofNat (surrogatePair high low) ∧ s.Passes ('\\' :: 'u' :: digits) t := by
  obtain ⟨taken, u, h₁, h₂⟩ := EStateM.bind_eq_ok.mp h
  cases taken with
  | false => cases h₂
  | true =>
    have hu : s.Passes ['\\', 'u'] u := acceptBytes_ok hs h₁
    obtain ⟨low, v, h₃, h₄⟩ := EStateM.bind_eq_ok.mp h₂
    obtain ⟨digits, hdigits, hv⟩ := hex4_ok hu.onText' h₃
    split at h₄
    next hlow =>
      obtain ⟨_, hc, rfl⟩ := charOf_ok h₄
      simp only [isLowSurrogate, Bool.and_eq_true, decide_eq_true_eq] at hlow
      exact ⟨digits, low, hdigits, hlow.1, hlow.2, hc, hu.trans hv⟩
    next => cases h₄

theorem unicodeEscape_ok {s t : Scanner} {c : Char} (hs : s.OnText)
    (h : unicodeEscape s = .ok c t) :
    ∃ digits, Escape c ('u' :: digits) ∧ s.Passes digits t := by
  obtain ⟨n, u, h₁, h₂⟩ := EStateM.bind_eq_ok.mp h
  obtain ⟨digits, hdigits, hu⟩ := hex4_ok hs h₁
  split at h₂
  next hhigh =>
    simp only [isHighSurrogate, Bool.and_eq_true, decide_eq_true_eq] at hhigh
    obtain ⟨others, low, hothers, hle, hlt, hc, hv⟩ := lowSurrogate_ok hu.onText' h₂
    refine ⟨digits ++ '\\' :: 'u' :: others, ?_, hu.trans hv⟩
    rw [hc]
    exact .pair hdigits hothers hhigh.1 hhigh.2 hle hlt
  next =>
    obtain ⟨hvalid, rfl, rfl⟩ := charOf_ok h₂
    refine ⟨digits, .unit hdigits ?_, hu⟩
    simp only [Nat.isValidChar] at hvalid
    omega

theorem unicodeEscape_pass {s t : Scanner} {c : Char} {digits : List Char}
    (h : s.Passes digits t) (he : Escape c ('u' :: digits)) : unicodeEscape s = .ok c t := by
  generalize hw : 'u' :: digits = written at he
  cases he with
  | short hmem =>
    obtain ⟨rfl, _⟩ := List.cons.inj hw
    revert hmem
    simp [shortEscapes]
  | @unit digits' n hdigits hn =>
    obtain ⟨_, rfl⟩ := List.cons.inj hw
    refine EStateM.bind_eq_ok.mpr ⟨n, t, hex4_pass h hdigits, ?_⟩
    have hlt := hex4_lt hdigits
    rw [if_neg, charOf_valid]
    · simp only [Nat.isValidChar]
      omega
    · simp only [isHighSurrogate, Bool.and_eq_true, decide_eq_true_eq]
      omega
  | @pair first second high low hfirst hsecond h₁ h₂ h₃ h₄ =>
    obtain ⟨_, rfl⟩ := List.cons.inj hw
    obtain ⟨u, pu, hu⟩ := h.split
    have hu : u.Passes (['\\', 'u'] ++ second) t := hu
    obtain ⟨v, pv, hv⟩ := hu.split
    refine EStateM.bind_eq_ok.mpr ⟨high, u, hex4_pass pu hfirst, ?_⟩
    rw [if_pos]
    · refine EStateM.bind_eq_ok.mpr ⟨true, v, acceptBytes_pass pv, ?_⟩
      refine EStateM.bind_eq_ok.mpr ⟨low, t, hex4_pass hv hsecond, ?_⟩
      rw [if_pos, charOf_valid (surrogatePair_valid h₂ h₄)]
      · rfl
      · simp only [isLowSurrogate, Bool.and_eq_true, decide_eq_true_eq]
        exact ⟨h₃, h₄⟩
    · simp only [isHighSurrogate, Bool.and_eq_true, decide_eq_true_eq]
      exact ⟨h₁, h₂⟩

/-! ## Escapes -/

/-- A short escape that the scanner knows is in the table. -/
theorem shortEscape?_mem {b : UInt8} {c : Char} (h : shortEscape? b = some c) :
    ∃ letter, (letter, c) ∈ shortEscapes ∧ letter.toNat < 128 ∧ b = Ascii.byte letter := by
  unfold shortEscape? at h
  split at h
  next hb => cases h; exact ⟨'"', by decide, by decide, hb⟩
  split at h
  next hb => cases h; exact ⟨'\\', by decide, by decide, hb⟩
  split at h
  next hb => cases h; exact ⟨'/', by decide, by decide, hb⟩
  split at h
  next hb => cases h; exact ⟨'b', by decide, by decide, hb⟩
  split at h
  next hb => cases h; exact ⟨'f', by decide, by decide, hb⟩
  split at h
  next hb => cases h; exact ⟨'n', by decide, by decide, hb⟩
  split at h
  next hb => cases h; exact ⟨'r', by decide, by decide, hb⟩
  split at h
  next hb => cases h; exact ⟨'t', by decide, by decide, hb⟩
  next => cases h

/-- The scanner knows every short escape of the table, and takes none for an escape by number. -/
theorem shortEscape?_byte {entry : Char × Char} (h : entry ∈ shortEscapes) :
    shortEscape? (Ascii.byte entry.1) = some entry.2 ∧ entry.1.toNat < 128 ∧
      Ascii.byte entry.1 ≠ Ascii.byte 'u' := by
  revert entry
  decide

theorem escape_ok {s t : Scanner} {c : Char} (hs : s.OnText) (h : escape s = .ok c t) :
    ∃ written, Escape c written ∧ s.Passes written t := by
  obtain ⟨shown, u, h₁, h₂⟩ := EStateM.bind_eq_ok.mp h
  simp only [peek, EStateM.Result.ok.injEq] at h₁
  obtain ⟨hshown, rfl⟩ := h₁
  cases shown with
  | none => cases h₂
  | some b =>
    obtain ⟨_, v, h₃, h₄⟩ := EStateM.bind_eq_ok.mp h₂
    cases h₃
    split at h₄
    next hu =>
      have hfirst := hs.passes_head (c := 'u') (by decide) (hu ▸ hshown)
      obtain ⟨digits, he, hdigits⟩ := unicodeEscape_ok hfirst.onText' h₄
      exact ⟨'u' :: digits, he, hfirst.trans hdigits⟩
    next =>
      cases hshort : shortEscape? b with
      | none =>
        rw [hshort] at h₄
        cases h₄
      | some d =>
        rw [hshort] at h₄
        obtain ⟨rfl, rfl⟩ := EStateM.pure_eq_ok.mp h₄
        obtain ⟨letter, hmem, hlt, rfl⟩ := shortEscape?_mem hshort
        exact ⟨[letter], .short hmem, hs.passes_head hlt hshown⟩

theorem escape_pass {s t : Scanner} {c : Char} {written : List Char} (h : s.Passes written t)
    (he : Escape c written) : escape s = .ok c t := by
  have number : ∀ digits, written = 'u' :: digits → escape s = .ok c t := by
    rintro digits rfl
    obtain ⟨u, hfirst, hdigits⟩ := h.split_cons
    refine EStateM.bind_eq_ok.mpr ⟨some (Ascii.byte 'u'), s, ?_, ?_⟩
    · rw [peek, hfirst.head? (by decide)]
    · refine EStateM.bind_eq_ok.mpr ⟨(), u, ?_, ?_⟩
      · rw [skip, hfirst.eq_drop, Utf8.encodeChars_cons_ascii (by decide)]
        rfl
      · rw [if_pos rfl]
        exact unicodeEscape_pass hdigits he
  cases he with
  | @short letter _ hmem =>
    obtain ⟨hshort, hlt, hne⟩ := shortEscape?_byte hmem
    refine EStateM.bind_eq_ok.mpr ⟨some (Ascii.byte letter), s, ?_, ?_⟩
    · rw [peek, h.head? hlt]
    · refine EStateM.bind_eq_ok.mpr ⟨(), t, ?_, ?_⟩
      · rw [skip, h.eq_drop, Utf8.encodeChars_cons_ascii hlt]
        rfl
      · rw [if_neg hne, hshort]
        rfl
  | unit => exact number _ rfl
  | pair => exact number _ rfl

/-! ## Raw characters -/

/-- A character that ends a chunk: a quote or a backslash. -/
def endsChunk (c : Char) : Bool :=
  c = '"' || c = '\\'

theorem agree_isRaw : Utf8.Agree isRaw fun c => !endsChunk c := by
  refine .of_ascii true (by decide) (fun b hb => ?_) (fun c hc => ?_)
  · rw [isRaw, Bool.and_eq_true, decide_eq_true_eq, decide_eq_true_eq]
    constructor <;> rintro rfl <;> exact absurd hb (by decide)
  · rw [endsChunk, Bool.not_eq_true', Bool.or_eq_false_iff, decide_eq_false_iff_not,
      decide_eq_false_iff_not]
    constructor <;> rintro rfl <;> exact absurd hc (by decide)

theorem isUnescaped_eq (c : Char) : isUnescaped c = (!endsChunk c && decide (0x20 ≤ c.toNat)) := by
  simp only [isUnescaped, endsChunk, Bool.not_or, ne_eq, decide_not]

/-- No byte of a text is a control character when no character is. -/
theorem any_lt_space (chars : List Char) :
    (Utf8.encodeChars chars).any (· < Ascii.space) = chars.any (·.toNat < 0x20) := by
  have iff : ∀ c : Char, (∃ b ∈ String.utf8EncodeChar c, b < Ascii.space) ↔ c.toNat < 0x20 := by
    intro c
    by_cases hc : c.toNat < 128
    · rw [Utf8.utf8EncodeChar_ascii hc]
      simp only [List.mem_singleton, exists_eq_left, UInt8.lt_iff_toNat_lt, Utf8.toNat_byte hc]
      rfl
    · have hc := Nat.not_lt.mp hc
      refine iff_of_false ?_ (by omega)
      rintro ⟨b, hb, hlt⟩
      have hle := Utf8.le_of_mem_utf8EncodeChar hc hb
      have hlt : b.toNat < 0x20 := UInt8.lt_iff_toNat_lt.mp hlt
      omega
  rw [Bool.eq_iff_iff, List.any_eq_true, List.any_eq_true]
  simp only [Utf8.encodeChars, List.mem_flatMap, decide_eq_true_eq]
  constructor
  · rintro ⟨b, ⟨c, hc, hb⟩, hlt⟩
    exact ⟨c, hc, (iff c).mp ⟨b, hb, hlt⟩⟩
  · rintro ⟨c, hc, hlt⟩
    obtain ⟨b, hb, hlt⟩ := (iff c).mpr hlt
    exact ⟨b, ⟨c, hc, hb⟩, hlt⟩

/-! ## Strings -/

/-- Characters that stand for themselves write the text that they are. -/
theorem content_raw {raw text written : List Char} (h : ∀ c ∈ raw, isUnescaped c = true)
    (hc : Content text written) : Content (raw ++ text) (raw ++ written) := by
  induction raw with
  | nil => exact hc
  | cons c raw ih =>
    exact .raw (h c List.mem_cons_self) (ih fun d hd => h d (List.mem_cons_of_mem _ hd))

/-- A chunk without control characters is made of characters that stand for themselves. -/
theorem unescaped_of_chunk {chars : List Char} (hraw : ∀ c ∈ chars, (!endsChunk c) = true)
    (hany : ¬ (Utf8.encodeChars chars).any (· < Ascii.space) = true) :
    ∀ c ∈ chars, isUnescaped c = true := by
  intro c hc
  rw [any_lt_space, List.any_eq_true] at hany
  rw [isUnescaped_eq, Bool.and_eq_true]
  refine ⟨hraw c hc, decide_eq_true (Nat.not_lt.mp fun hlt => hany ⟨c, hc, ?_⟩)⟩
  exact decide_eq_true hlt

/-- Where a chunk stops in front of a byte, the byte is that of a quote or of a backslash. -/
theorem head?_of_stops_isRaw {s : Scanner} {b : UInt8} {rest : List UInt8} (hb : s.rest = b :: rest)
    (h : s.Stops isRaw) : b = Ascii.byte '"' ∨ b = Ascii.byte '\\' := by
  rw [Stops, hb, List.head?_cons, Option.any_some, isRaw, Bool.and_eq_false_iff,
    decide_eq_false_iff_not, decide_eq_false_iff_not, Decidable.not_not, Decidable.not_not] at h
  exact h

theorem stringBody_ok {out text : String} {s t : Scanner} (hs : s.OnText)
    (h : stringBody out s = .ok text t) :
    ∃ content written, Content content written ∧ s.Passes (written ++ ['"']) t ∧
      text = out ++ .ofList content := by
  fun_induction stringBody out s with
  | case1 => cases h
  | case2 => cases h
  | case3 out s raw more hany out' hrest =>
    simp only [EStateM.Result.ok.injEq] at h
    obtain ⟨rfl, rfl⟩ := h
    obtain ⟨chars, hchars, hraw, hpass, hstop⟩ := passes_takeWhile agree_isRaw hs
    have hun := unescaped_of_chunk hraw (hchars ▸ hany)
    have hquote : (s.drop raw.length).Passes ['"'] ((s.drop raw.length).drop 1) :=
      hpass.onText'.passes_head (by decide) (by rw [hrest]; rfl)
    refine ⟨chars, chars, ?_, hpass.trans hquote, ?_⟩
    · simpa using content_raw hun .nil
    · rw [← chunkText_encodeChars, ← hchars]
  | case4 out s raw b more hrest hany out' hne c after he ih =>
    obtain ⟨chars, hchars, hraw, hpass, hstop⟩ := passes_takeWhile agree_isRaw hs
    have hun := unescaped_of_chunk hraw (hchars ▸ hany)
    have hb : b = Ascii.byte '\\' :=
      (head?_of_stops_isRaw hrest hstop).resolve_left fun hb => hne hb
    have hslash : (s.drop raw.length).Passes ['\\'] ((s.drop raw.length).drop 1) :=
      hpass.onText'.passes_head (by decide) (by rw [hrest, hb]; rfl)
    obtain ⟨written, hescape, hwritten⟩ := escape_ok hslash.onText' he
    obtain ⟨content, others, hcontent, hothers, rfl⟩ := ih hwritten.onText' h
    refine ⟨chars ++ c :: content, chars ++ ('\\' :: written ++ others),
      content_raw hun (.escape hescape hcontent), ?_, ?_⟩
    · have hall := hpass.trans ((hslash.trans hwritten).trans hothers)
      simpa using hall
    · rw [show out' = out ++ .ofList chars by
        rw [← chunkText_encodeChars, ← hchars]]
      apply String.ext
      simp
  | case5 => cases h

/-- What reading a string does behind a chunk, told of the chunk's characters. -/
theorem stringBody_chunk (out : String) {s t : Scanner} {chars : List Char}
    (h : s.Passes chars t) (hraw : ∀ c ∈ chars, (!endsChunk c) = true) (ht : t.Stops isRaw) :
    stringBody out s = match t.rest.head? with
      | none => fail .unterminatedString s
      | some b =>
        if chars.any (·.toNat < 0x20) then fail .controlCharacter s
        else if b = Ascii.quote then .ok (out ++ .ofList chars) (t.drop 1)
        else match escape (t.drop 1) with
          | .ok c after => stringBody ((out ++ .ofList chars).push c) after
          | .error fault after => .error fault after := by
  have htake := takeWhile_pass agree_isRaw h hraw ht
  rw [stringBody]
  simp only [htake, ← h.eq_drop, any_lt_space, chunkText_encodeChars]
  split
  next hnil =>
    rw [htake, ← h.eq_drop] at hnil
    rw [hnil]
    rfl
  next b more hcons =>
    rw [htake, ← h.eq_drop] at hcons
    rw [hcons]
    simp only [List.head?_cons]
    split
    next => rfl
    split
    next => rfl
    next =>
      rw [htake, ← h.eq_drop]
      split
      next c after he => rw [he]
      next fault after he => rw [he]

/-- A closing quote ends a string. -/
theorem stringBody_quote (out : String) {s t : Scanner} (h : s.Passes ['"'] t) :
    stringBody out s = .ok out t := by
  rw [stringBody_chunk out (passes_nil h.onText) (by simp) (h.stops (by decide) (by decide)),
    h.head? (by decide), h.eq_drop, Utf8.encodeChars_cons_ascii (by decide)]
  change EStateM.Result.ok (out ++ "") _ = _
  rw [String.append_empty]
  rfl

/-- Behind an escape a string goes on with the character it stands for. -/
theorem stringBody_escape (out : String) {s t u : Scanner} {c : Char} (h : s.Passes ['\\'] t)
    (he : escape t = .ok c u) : stringBody out s = stringBody (out.push c) u := by
  have ht : s.drop 1 = t := by
    rw [h.eq_drop, Utf8.encodeChars_cons_ascii (by decide)]
    rfl
  rw [stringBody_chunk out (passes_nil h.onText) (by simp) (h.stops (by decide) (by decide)),
    h.head? (by decide), ht]
  change (match escape t with
    | .ok c after => stringBody ((out ++ "").push c) after
    | .error fault after => .error fault after) = _
  rw [he, String.append_empty]

/-- In front of a character that stands for itself, a string is read as if it had been read. -/
theorem stringBody_raw {out text : String} {s t u : Scanner} {c : Char} (h : s.Passes [c] t)
    (hc : isUnescaped c = true) (ht : stringBody (out.push c) t = .ok text u) :
    stringBody out s = .ok text u := by
  rw [isUnescaped_eq, Bool.and_eq_true] at hc
  obtain ⟨chars, _, hraw, hpass, hstop⟩ := passes_takeWhile agree_isRaw h.onText'
  have hraw' : ∀ d ∈ c :: chars, (!endsChunk d) = true := by
    intro d hd
    rcases List.mem_cons.mp hd with rfl | hd
    · exact hc.1
    · exact hraw d hd
  have hcontrol : (c :: chars).any (·.toNat < 0x20) = chars.any (·.toNat < 0x20) := by
    rw [List.any_cons, decide_eq_false (Nat.not_lt.mpr (of_decide_eq_true hc.2)), Bool.false_or]
  have hout : out ++ String.ofList (c :: chars) = out.push c ++ String.ofList chars := by
    apply String.ext
    simp
  rw [stringBody_chunk _ hpass hraw hstop] at ht
  rw [stringBody_chunk _ (h.trans hpass) hraw' hstop, List.singleton_append, hcontrol, hout]
  -- At the end of the text and at a control character the two fail at different positions.
  split at ht
  next => cases ht
  next b hb =>
    split at ht
    next => cases ht
    next hany => exact (if_neg hany).trans ht

/-- **Every way to write a text is read as that text.** -/
theorem stringBody_pass {content written : List Char} (hc : Content content written) :
    ∀ (out : String) {s t : Scanner}, s.Passes (written ++ ['"']) t →
      stringBody out s = .ok (out ++ .ofList content) t := by
  induction hc with
  | nil =>
    intro out s t h
    rw [stringBody_quote out h, String.ofList_nil, String.append_empty]
  | @raw c text written hraw _ ih =>
    intro out s t h
    obtain ⟨u, hfirst, hrest⟩ := h.split_cons
    refine stringBody_raw hfirst hraw ?_
    rw [ih (out.push c) hrest]
    congr 1
    apply String.ext
    simp
  | @escape c escape text written he _ ih =>
    intro out s t h
    rw [List.cons_append, List.cons_append, List.append_assoc] at h
    obtain ⟨u, hslash, hrest⟩ := h.split_cons
    obtain ⟨v, hescape, hrest⟩ := hrest.split
    rw [stringBody_escape out hslash (escape_pass hescape he), ih (out.push c) hrest]
    congr 1
    apply String.ext
    simp

/-- **A string that was read is a text in quotes**, and what was read is that text. -/
theorem string_ok {s t : Scanner} {text : String} (hs : s.OnText)
    (hq : s.rest.head? = some Ascii.quote) (h : string s = .ok text t) :
    ∃ written, Quoted text written ∧ s.Passes written t := by
  have hquote := hs.passes_head (c := '"') (by decide) hq
  obtain ⟨content, written, hcontent, hpass, rfl⟩ := stringBody_ok hquote.onText' h
  refine ⟨'"' :: written ++ ['"'], .mk ?_, hquote.trans hpass⟩
  rwa [String.empty_append, String.toList_ofList]

/-- **A text in quotes is read as that text**, whatever stands behind it. -/
theorem string_pass {s t : Scanner} {text : String} {written : List Char}
    (h : s.Passes written t) (hq : Quoted text written) : string s = .ok text t := by
  cases hq with
  | mk hcontent =>
    obtain ⟨u, hquote, hrest⟩ := h.split_cons
    have hu : s.drop 1 = u := by
      rw [hquote.eq_drop, Utf8.encodeChars_cons_ascii (by decide)]
      rfl
    rw [string, hu, stringBody_pass hcontent "" hrest, String.ofList_toList, String.empty_append]

end DocWalk.Json.Scan
