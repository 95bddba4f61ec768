import DocWalk.Proofs.Json.Scanning

/-!
# Numbers

What the scanner reads as a number is a number of the grammar, and it reads as much as it can.

**The laws**: `number_ok` says that a number that was read is one, in the characters that were
passed; `number_pass` says that a number is read when what stands behind it cannot belong to it. The
two are not the converse of each other: the scanner reads `1` in front of a second sign, and leaves
it to the caller to find that nothing goes on from there.
-/

set_option autoImplicit false

namespace DocWalk.Json.Scan

open Grammar Scanner

/-- A byte that can go on with a number. -/
def isNumberByte (b : UInt8) : Bool :=
  Ascii.isDigit b || b = Ascii.point || b = Ascii.byte 'e' || b = Ascii.byte 'E'

theorem isNumberByte_of_isDigit {b : UInt8} (h : Ascii.isDigit b = true) :
    isNumberByte b = true := by
  rw [isNumberByte, h]
  rfl

/-- Digits are ASCII bytes. -/
theorem toNat_lt_of_isDigit {b : UInt8} (h : Ascii.isDigit b = true) : b.toNat < 128 := by
  simp only [Ascii.isDigit, Bool.and_eq_true, decide_eq_true_eq] at h
  have hle := UInt8.le_iff_toNat_le.mp h.2
  exact Nat.lt_of_le_of_lt hle (by decide)

/-- A test for one ASCII character takes ASCII bytes. -/
theorem toNat_lt_of_eq {b : UInt8} {c : Char} (hc : c.toNat < 128)
    (h : decide (b = Ascii.byte c) = true) : b.toNat < 128 := by
  rw [of_decide_eq_true h, Utf8.toNat_byte hc]
  exact hc

/-! ## What was read -/

theorem someDigits_ok {s t : Scanner} (hs : s.OnText) (h : someDigits s = .ok () t) :
    ∃ chars, Digits chars ∧ s.Passes chars t := by
  obtain ⟨taken, u, h₁, h₂⟩ := EStateM.bind_eq_ok.mp h
  cases taken with
  | false => cases h₂
  | true =>
    obtain ⟨c, hc, hp, hpass⟩ := accept_ok (fun _ => toNat_lt_of_isDigit) hs h₁
    obtain ⟨chars, v, hv, hpass', hdigits, _⟩ := skipWhile_ok agree_isDigit hpass.onText'
    have h₂ : skipWhile Ascii.isDigit u = .ok () t := h₂
    rw [hv] at h₂
    cases h₂
    rw [agree_isDigit.eq_of_ascii hc] at hp
    refine ⟨[c] ++ chars, ⟨List.cons_ne_nil _ _, ?_⟩, hpass.trans hpass'⟩
    intro d hd
    rcases List.mem_append.mp hd with hd | hd
    · rw [List.mem_singleton.mp hd]
      exact hp
    · exact hdigits d hd

theorem wholePart_ok {s t : Scanner} (hs : s.OnText) (h : wholePart s = .ok () t) :
    ∃ chars, Whole chars ∧ s.Passes chars t := by
  obtain ⟨taken, u, h₁, h₂⟩ := EStateM.bind_eq_ok.mp h
  cases taken with
  | true =>
    obtain ⟨_, rfl⟩ := EStateM.pure_eq_ok.mp h₂
    obtain ⟨c, hc, hp, hpass⟩ := accept_ok (fun _ => toNat_lt_of_eq (c := '0') (by decide)) hs h₁
    cases Utf8.byte_inj hc (by decide) (of_decide_eq_true hp)
    exact ⟨['0'], .zero, hpass⟩
  | false =>
    obtain ⟨rfl, hstop⟩ := accept_false h₁
    obtain ⟨chars, hdigits, hpass⟩ := someDigits_ok hs h₂
    refine ⟨chars, .digits hdigits fun hzero => ?_, hpass⟩
    obtain ⟨more, rfl⟩ := List.head?_eq_some_iff.mp hzero
    rw [Stops, hpass.head? (by decide)] at hstop
    exact absurd hstop (by decide)

theorem fractionPart_ok {s t : Scanner} (hs : s.OnText) (h : fractionPart s = .ok () t) :
    ∃ chars, Fraction chars ∧ s.Passes chars t := by
  obtain ⟨taken, u, h₁, h₂⟩ := EStateM.bind_eq_ok.mp h
  cases taken with
  | true =>
    obtain ⟨c, hc, hp, hpass⟩ := accept_ok (fun _ => toNat_lt_of_eq (c := '.') (by decide)) hs h₁
    cases Utf8.byte_inj hc (by decide) (of_decide_eq_true hp)
    obtain ⟨digits, hdigits, hpass'⟩ := someDigits_ok hpass.onText' h₂
    exact ⟨'.' :: digits, .present hdigits, hpass.trans hpass'⟩
  | false =>
    obtain ⟨rfl, _⟩ := accept_false h₁
    obtain ⟨_, rfl⟩ := EStateM.pure_eq_ok.mp h₂
    exact ⟨[], .absent, passes_nil hs⟩

/-- A byte taken by a test for one of two ASCII characters is one of them. -/
theorem accept_either_ok {a b : Char} (ha : a.toNat < 128) (hb : b.toNat < 128) {s t : Scanner}
    (hs : s.OnText)
    (h : accept (fun x => x = Ascii.byte a || x = Ascii.byte b) s = .ok true t) :
    ∃ c, c ∈ [a, b] ∧ s.Passes [c] t := by
  obtain ⟨c, hc, hp, hpass⟩ := accept_ok (fun x hx => by
    rcases Bool.or_eq_true _ _ ▸ hx with hx | hx
    · exact toNat_lt_of_eq ha hx
    · exact toNat_lt_of_eq hb hx) hs h
  refine ⟨c, ?_, hpass⟩
  simp only [Bool.or_eq_true, decide_eq_true_eq] at hp
  rcases hp with hp | hp
  · rw [Utf8.byte_inj hc ha hp]
    exact List.mem_cons_self
  · rw [Utf8.byte_inj hc hb hp]
    exact List.mem_cons_of_mem _ List.mem_cons_self

theorem exponentPart_ok {s t : Scanner} (hs : s.OnText) (h : exponentPart s = .ok () t) :
    ∃ chars, Exponent chars ∧ s.Passes chars t := by
  obtain ⟨taken, u, h₁, h₂⟩ := EStateM.bind_eq_ok.mp h
  cases taken with
  | false =>
    obtain ⟨rfl, _⟩ := accept_false h₁
    obtain ⟨_, rfl⟩ := EStateM.pure_eq_ok.mp h₂
    exact ⟨[], .absent, passes_nil hs⟩
  | true =>
    obtain ⟨e, he, hpass⟩ := accept_either_ok (by decide) (by decide) hs h₁
    obtain ⟨signed, v, h₃, h₄⟩ := EStateM.bind_eq_ok.mp h₂
    cases signed with
    | false =>
      obtain ⟨rfl, _⟩ := accept_false h₃
      obtain ⟨digits, hdigits, hpass'⟩ := someDigits_ok hpass.onText' h₄
      exact ⟨e :: [] ++ digits, .present he (by simp) hdigits, hpass.trans hpass'⟩
    | true =>
      obtain ⟨c, hc, hsign⟩ :=
        accept_either_ok (a := '+') (b := '-') (by decide) (by decide) hpass.onText' h₃
      obtain ⟨digits, hdigits, hpass'⟩ := someDigits_ok hsign.onText' h₄
      refine ⟨e :: [c] ++ digits, .present he ?_ hdigits, ?_⟩
      · simp only [List.mem_cons, List.not_mem_nil, or_false] at hc
        rcases hc with rfl | rfl <;> simp
      · exact (hpass.trans hsign).trans hpass'

/-- A sign is taken, or none is there. -/
theorem sign_ok {s t : Scanner} {signed : Bool} (hs : s.OnText)
    (h : accept (· = Ascii.hyphen) s = .ok signed t) :
    ∃ sign, sign ∈ [[], ['-']] ∧ s.Passes sign t := by
  cases signed with
  | false =>
    obtain ⟨rfl, _⟩ := accept_false h
    exact ⟨[], by simp, passes_nil hs⟩
  | true =>
    obtain ⟨c, hc, hp, hpass⟩ := accept_ok (fun _ => toNat_lt_of_eq (c := '-') (by decide)) hs h
    cases Utf8.byte_inj hc (by decide) (of_decide_eq_true hp)
    exact ⟨['-'], by simp, hpass⟩

/-- The bytes between two scanners are those of the characters passed. -/
theorem chunkText_of_passes {s t : Scanner} {chars : List Char} (h : s.Passes chars t) :
    chunkText (s.rest.take (t.pos - s.pos)) = .ofList chars := by
  rw [h.pos_eq, Nat.add_sub_cancel_left, h.rest_eq, List.take_left, chunkText_encodeChars]

/-- **A number that was read is a number**, told in the characters that were passed. -/
theorem number_ok {s t : Scanner} {text : String} (hs : s.OnText) (h : number s = .ok text t) :
    ∃ chars, Number chars ∧ s.Passes chars t ∧ text = .ofList chars := by
  obtain ⟨start, s₁, hget, h⟩ := EStateM.bind_eq_ok.mp h
  obtain ⟨rfl, rfl⟩ := EStateM.get_eq_ok.mp hget
  obtain ⟨signed, s₂, hsign, h⟩ := EStateM.bind_eq_ok.mp h
  obtain ⟨_, s₃, hwhole, h⟩ := EStateM.bind_eq_ok.mp h
  obtain ⟨_, s₄, hfraction, h⟩ := EStateM.bind_eq_ok.mp h
  obtain ⟨_, s₅, hexponent, h⟩ := EStateM.bind_eq_ok.mp h
  obtain ⟨stop, s₆, hget, h⟩ := EStateM.bind_eq_ok.mp h
  obtain ⟨rfl, rfl⟩ := EStateM.get_eq_ok.mp hget
  obtain ⟨rfl, rfl⟩ := EStateM.pure_eq_ok.mp h
  obtain ⟨sign, hsigns, p₁⟩ := sign_ok hs hsign
  obtain ⟨whole, hw, p₂⟩ := wholePart_ok p₁.onText' hwhole
  obtain ⟨fraction, hf, p₃⟩ := fractionPart_ok p₂.onText' hfraction
  obtain ⟨exponent, he, p₄⟩ := exponentPart_ok p₃.onText' hexponent
  have hpass := ((p₁.trans p₂).trans p₃).trans p₄
  exact ⟨_, .mk hsigns hw hf he, hpass, chunkText_of_passes hpass⟩

/-! ## What is read

Each part is read when it stands there and what follows cannot belong to it. A part that is absent
leaves the scanner where it is, so what stops the later part has to stop the earlier one. -/

theorem someDigits_pass {s t : Scanner} {chars : List Char} (h : s.Passes chars t)
    (hd : Digits chars) (ht : t.Stops Ascii.isDigit) : someDigits s = .ok () t := by
  match chars, hd with
  | [], hd => exact absurd rfl hd.ne_nil
  | c :: more, hd =>
    obtain ⟨u, hc, hmore⟩ := h.split_cons
    have hdigit := hd.isDigit c List.mem_cons_self
    have hlt := lt_of_isDigit hdigit
    refine EStateM.bind_eq_ok.mpr ⟨true, u, ?_, ?_⟩
    · exact accept_pass hlt (by rw [agree_isDigit.eq_of_ascii hlt, hdigit]) hc
    · exact skipWhile_pass agree_isDigit hmore
        (fun d hmem => hd.isDigit d (List.mem_cons_of_mem _ hmem)) ht

/-- Digits begin with a byte that is a digit. -/
theorem digits_head {chars : List Char} (hd : Digits chars) {s t : Scanner}
    (h : s.Passes chars t) :
    ∃ c, chars.head? = some c ∧ Grammar.isDigit c = true ∧ s.rest.head? = some (Ascii.byte c) := by
  match chars, hd with
  | [], hd => exact absurd rfl hd.ne_nil
  | c :: more, hd =>
    have hdigit := hd.isDigit c List.mem_cons_self
    exact ⟨c, rfl, hdigit, h.head? (lt_of_isDigit hdigit)⟩

/-- A test for an ASCII character that is no digit stops in front of digits. -/
theorem digits_stops {chars : List Char} (hd : Digits chars) {s t : Scanner}
    (h : s.Passes chars t) {p : UInt8 → Bool}
    (hp : ∀ c, Grammar.isDigit c = true → some c = chars.head? → p (Ascii.byte c) = false) :
    s.Stops p := by
  obtain ⟨c, hhead, hdigit, hbyte⟩ := digits_head hd h
  rw [Stops, hbyte, Option.any_some]
  exact hp c hdigit hhead.symm

theorem wholePart_pass {s t : Scanner} {chars : List Char} (h : s.Passes chars t)
    (hw : Whole chars) (ht : t.Stops Ascii.isDigit) : wholePart s = .ok () t := by
  cases hw with
  | zero => exact EStateM.bind_eq_ok.mpr ⟨true, t, accept_pass (by decide) (by decide) h, rfl⟩
  | digits hd hzero =>
    refine EStateM.bind_eq_ok.mpr ⟨false, s, accept_stop ?_, someDigits_pass h hd ht⟩
    refine digits_stops hd h fun c hdigit hc => decide_eq_false fun hbyte => hzero ?_
    rw [← hc, Utf8.byte_inj (lt_of_isDigit hdigit) (d := '0') (by decide) hbyte]

/-- What goes on with a fraction: a digit, or the point itself. -/
def isFractionByte (b : UInt8) : Bool :=
  Ascii.isDigit b || b = Ascii.point

theorem exponent_stops {s t : Scanner} {chars : List Char} (h : s.Passes chars t)
    (he : Exponent chars) (ht : t.Stops isNumberByte) : s.Stops isFractionByte := by
  cases he with
  | absent =>
    cases h.eq_of_nil
    refine ht.mono fun b hb => ?_
    rw [isNumberByte, Bool.or_eq_true, Bool.or_eq_true]
    exact .inl (.inl hb)
  | present he =>
    simp only [List.mem_cons, List.not_mem_nil, or_false] at he
    rcases he with rfl | rfl
    · exact h.stops (by decide) (by decide)
    · exact h.stops (by decide) (by decide)

theorem fraction_stops {s t : Scanner} {chars : List Char} (h : s.Passes chars t)
    (hf : Fraction chars) (ht : t.Stops isFractionByte) : s.Stops Ascii.isDigit := by
  cases hf with
  | absent =>
    cases h.eq_of_nil
    refine ht.mono fun b hb => ?_
    rw [isFractionByte, hb]
    rfl
  | present => exact h.stops (by decide) (by decide)

theorem fractionPart_pass {s t : Scanner} {chars : List Char} (h : s.Passes chars t)
    (hf : Fraction chars) (ht : t.Stops isFractionByte) : fractionPart s = .ok () t := by
  cases hf with
  | absent =>
    cases h.eq_of_nil
    refine EStateM.bind_eq_ok.mpr ⟨false, s, accept_stop (ht.mono fun b hb => ?_), rfl⟩
    rw [isFractionByte, Bool.or_eq_true]
    exact .inr hb
  | present hd =>
    obtain ⟨u, hpoint, hdigits⟩ := h.split_cons
    refine EStateM.bind_eq_ok.mpr ⟨true, u, accept_pass (by decide) (by decide) hpoint, ?_⟩
    refine someDigits_pass hdigits hd (ht.mono fun b hb => ?_)
    rw [isFractionByte, hb]
    rfl

theorem exponentPart_pass {s t : Scanner} {chars : List Char} (h : s.Passes chars t)
    (he : Exponent chars) (ht : t.Stops isNumberByte) : exponentPart s = .ok () t := by
  cases he with
  | absent =>
    cases h.eq_of_nil
    refine EStateM.bind_eq_ok.mpr ⟨false, s, accept_stop (ht.mono fun b hb => ?_), rfl⟩
    rw [isNumberByte, Bool.or_assoc, Bool.or_eq_true]
    exact .inr hb
  | @present e sign digits he hsign hd =>
    obtain ⟨u, hletter, hrest⟩ := h.split_cons
    obtain ⟨v, hs, hdigits⟩ := hrest.split
    have hlast := someDigits_pass hdigits hd (ht.mono fun b => isNumberByte_of_isDigit)
    refine EStateM.bind_eq_ok.mpr ⟨true, u, ?_, ?_⟩
    · simp only [List.mem_cons, List.not_mem_nil, or_false] at he
      rcases he with rfl | rfl
      · exact accept_pass (by decide) (by decide) hletter
      · exact accept_pass (by decide) (by decide) hletter
    · simp only [List.mem_cons, List.not_mem_nil, or_false] at hsign
      rcases hsign with rfl | rfl | rfl
      · cases hs.eq_of_nil
        refine EStateM.bind_eq_ok.mpr ⟨false, u, accept_stop ?_, hlast⟩
        refine digits_stops hd hdigits fun c hdigit _ => ?_
        have hlt := lt_of_isDigit hdigit
        refine Bool.or_eq_false_iff.mpr ⟨decide_eq_false fun hb => ?_, decide_eq_false fun hb => ?_⟩
        · cases Utf8.byte_inj hlt (d := '+') (by decide) hb
          cases hdigit
        · cases Utf8.byte_inj hlt (d := '-') (by decide) hb
          cases hdigit
      · exact EStateM.bind_eq_ok.mpr ⟨true, v, accept_pass (by decide) (by decide) hs, hlast⟩
      · exact EStateM.bind_eq_ok.mpr ⟨true, v, accept_pass (by decide) (by decide) hs, hlast⟩

/-- A number does not begin with a sign where its whole part begins. -/
theorem whole_stops {s t : Scanner} {chars : List Char} (h : s.Passes chars t) (hw : Whole chars) :
    s.Stops fun b => b = Ascii.hyphen := by
  cases hw with
  | zero => exact h.stops (by decide) (by decide)
  | digits hd =>
    refine digits_stops hd h fun c hdigit _ => decide_eq_false fun hb => ?_
    cases Utf8.byte_inj (lt_of_isDigit hdigit) (d := '-') (by decide) hb
    cases hdigit

/-- **A number is read as far as it goes**: all of it, when no byte behind it could belong to it. -/
theorem number_pass {s t : Scanner} {chars : List Char} (h : s.Passes chars t)
    (hn : Number chars) (ht : t.Stops isNumberByte) : number s = .ok (.ofList chars) t := by
  cases hn with
  | @mk sign whole fraction exponent hsign hw hf he =>
    obtain ⟨s₃, h₃, p₄⟩ := h.split
    obtain ⟨s₂, h₂, p₃⟩ := h₃.split
    obtain ⟨s₁, p₁, p₂⟩ := h₂.split
    have stop₃ := exponent_stops p₄ he ht
    have stop₂ := fraction_stops p₃ hf stop₃
    have hread : ∃ signed, accept (fun b => b = Ascii.hyphen) s = .ok signed s₁ := by
      simp only [List.mem_cons, List.not_mem_nil, or_false] at hsign
      rcases hsign with rfl | rfl
      · cases p₁.eq_of_nil
        exact ⟨false, accept_stop (whole_stops p₂ hw)⟩
      · exact ⟨true, accept_pass (by decide) (by decide) p₁⟩
    obtain ⟨signed, hread⟩ := hread
    refine EStateM.bind_eq_ok.mpr ⟨s, s, rfl, ?_⟩
    refine EStateM.bind_eq_ok.mpr ⟨signed, s₁, hread, ?_⟩
    refine EStateM.bind_eq_ok.mpr ⟨(), s₂, wholePart_pass p₂ hw stop₂, ?_⟩
    refine EStateM.bind_eq_ok.mpr ⟨(), s₃, fractionPart_pass p₃ hf stop₃, ?_⟩
    refine EStateM.bind_eq_ok.mpr ⟨(), t, exponentPart_pass p₄ he ht, ?_⟩
    refine EStateM.bind_eq_ok.mpr ⟨t, t, rfl, ?_⟩
    exact EStateM.pure_eq_ok.mpr ⟨chunkText_of_passes h, rfl⟩

end DocWalk.Json.Scan
