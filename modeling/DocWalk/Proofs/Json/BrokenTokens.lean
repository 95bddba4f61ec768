import DocWalk.Proofs.Json.Turns

/-!
# Tokens that break off

A token that fails to be read was fine up to where the fault is told: the characters in front of that
place begin some token of the kind. For most faults this is so because the scanner tells the fault
where it stands, for others because it tells it at the start of what it was reading, of a word, a chunk
of a string or the digits of an escape, and that start is a good beginning too.

An escape by number is the exception. Its digits are read as a whole and looked at afterwards, and half
of a surrogate pair can be told behind digits that nothing goes on from (`Spoiled`). The place of such
a fault is between characters as well.

`Breaks token s fault` says this of any kind of token. A token inside another is lifted to the other by
what stands around it (`Breaks.behind`), so each kind is told by the kinds it is made of.
-/

set_option autoImplicit false

namespace DocWalk.Json

open Grammar Scanner

/-- A reason that is found in the digits of an escape by number, or behind them. -/
def Spoiled (reason : Reason) : Prop :=
  reason = .invalidUnicodeEscape ∨ reason = .unpairedSurrogate

/-- Reading a token breaks off with a fault: the fault is told behind characters that were passed, and
they begin a token, unless the fault is that of an escape by number. -/
inductive Breaks (token : List Char → Prop) (s : Scanner) (fault : Fault) : Prop where
  | mk {passed : List Char} {t : Scanner} : s.Passes passed t → fault.position = t.pos →
      (¬Spoiled fault.reason → ∃ more, token (passed ++ more)) → Breaks token s fault

namespace Breaks

variable {token other : List Char → Prop} {s t : Scanner} {fault : Fault}

/-- A fault told where the scanner stands, in front of a token. -/
theorem here (hs : s.OnText) (hpos : fault.position = s.pos) {chars : List Char}
    (h : token chars) : Breaks token s fault :=
  .mk (passes_nil hs) hpos fun _ => ⟨chars, h⟩

/-- A fault of an escape by number, told behind what was passed. -/
theorem spoiled {front : List Char} (hpass : s.Passes front t) (hpos : fault.position = t.pos)
    (h : Spoiled fault.reason) : Breaks token s fault :=
  .mk hpass hpos fun hnot => absurd h hnot

/-- A token inside another breaks the other, when it goes on to one behind what was passed before. -/
theorem behind (h : Breaks token t fault) {front : List Char} (hpass : s.Passes front t)
    (hother : ∀ chars, token chars → ∃ more, other (front ++ chars ++ more)) :
    Breaks other s fault := by
  obtain ⟨ht, hpos, htoken⟩ := h
  refine .mk (hpass.trans ht) hpos fun hsound => ?_
  obtain ⟨more, hmore⟩ := htoken hsound
  obtain ⟨rest, hrest⟩ := hother _ hmore
  refine ⟨more ++ rest, ?_⟩
  rwa [List.append_assoc, ← List.append_assoc _ more rest, ← List.append_assoc front]

/-- A token at the end of another breaks the other. -/
theorem inside (h : Breaks token t fault) {front : List Char} (hpass : s.Passes front t)
    (hother : ∀ chars, token chars → other (front ++ chars)) : Breaks other s fault :=
  h.behind hpass fun chars hchars => ⟨[], (front ++ chars).append_nil.symm ▸ hother chars hchars⟩

/-- A token of a narrower kind breaks one of a wider kind. -/
theorem mono (h : Breaks token s fault) (hother : ∀ chars, token chars → other chars) :
    Breaks other s fault := by
  obtain ⟨hpass, hpos, htoken⟩ := h
  exact .mk hpass hpos fun hsound => (htoken hsound).imp fun _ hmore => hother _ hmore

end Breaks

namespace Scan

/-- What is only returned does not fail. -/
theorem error_of_return {α β : Type} {m : Scan α} {f : α → β} {s t : Scanner} {fault : Fault}
    (h : (do return f (← m) : Scan β) s = .error fault t) : m s = .error fault t :=
  (EStateM.bind_eq_error.mp h).resolve_right fun ⟨_, _, _, hreturn⟩ => nomatch hreturn

/-! ## Numbers -/

theorem digits_zero : Digits ['0'] :=
  ⟨List.cons_ne_nil _ _, List.forall_mem_singleton.mpr rfl⟩

/-- A test for a byte does not fail. -/
theorem accept_ne_error {p : UInt8 → Bool} {s t : Scanner} {fault : Fault} :
    accept p s ≠ .error fault t := by
  unfold accept
  split <;> exact nofun

theorem peek_ne_error {s t : Scanner} {fault : Fault} : peek s ≠ .error fault t :=
  nofun

theorem skip_ne_error {n : Nat} {s t : Scanner} {fault : Fault} : skip n s ≠ .error fault t :=
  nofun

theorem position_someDigits {s t : Scanner} {fault : Fault} (h : someDigits s = .error fault t) :
    fault.position = s.pos := by
  obtain ⟨taken, u, htaken, hfail⟩ := (EStateM.bind_eq_error.mp h).resolve_left accept_ne_error
  cases taken with
  | true => cases hfail
  | false =>
    obtain ⟨rfl, -⟩ := accept_false htaken
    cases hfail
    rfl

theorem breaks_wholePart {s t : Scanner} {fault : Fault} (hs : s.OnText)
    (h : wholePart s = .error fault t) : Breaks Whole s fault := by
  obtain ⟨taken, u, htaken, hfail⟩ := (EStateM.bind_eq_error.mp h).resolve_left accept_ne_error
  cases taken with
  | true => cases hfail
  | false =>
    obtain ⟨rfl, -⟩ := accept_false htaken
    exact .here hs (position_someDigits hfail) .zero

theorem breaks_fractionPart {s t : Scanner} {fault : Fault} (hs : s.OnText)
    (h : fractionPart s = .error fault t) : Breaks Fraction s fault := by
  obtain ⟨taken, u, htaken, hfail⟩ := (EStateM.bind_eq_error.mp h).resolve_left accept_ne_error
  cases taken with
  | false => cases hfail
  | true =>
    obtain ⟨c, hc, hp, hpass⟩ := accept_ok (fun _ => toNat_lt_of_eq (c := '.') (by decide)) hs htaken
    cases Utf8.byte_inj hc (by decide) (of_decide_eq_true hp)
    exact .mk hpass (position_someDigits hfail) fun _ => ⟨['0'], .present digits_zero⟩

theorem breaks_exponentPart {s t : Scanner} {fault : Fault} (hs : s.OnText)
    (h : exponentPart s = .error fault t) : Breaks Exponent s fault := by
  obtain ⟨taken, u, htaken, hfail⟩ := (EStateM.bind_eq_error.mp h).resolve_left accept_ne_error
  cases taken with
  | false => cases hfail
  | true =>
    obtain ⟨e, he, hpass⟩ := accept_either_ok (by decide) (by decide) hs htaken
    obtain ⟨signed, v, hsigned, hdigits⟩ :=
      (EStateM.bind_eq_error.mp hfail).resolve_left accept_ne_error
    cases signed with
    | false =>
      obtain ⟨rfl, -⟩ := accept_false hsigned
      exact .mk hpass (position_someDigits hdigits) fun _ =>
        ⟨['0'], @Exponent.present e [] ['0'] he (by simp) digits_zero⟩
    | true =>
      obtain ⟨c, hc, hsign⟩ :=
        accept_either_ok (a := '+') (b := '-') (by decide) (by decide) hpass.onText' hsigned
      refine .mk (hpass.trans hsign) (position_someDigits hdigits) fun _ =>
        ⟨['0'], @Exponent.present e [c] ['0'] he ?_ digits_zero⟩
      simp only [List.mem_cons, List.not_mem_nil, or_false] at hc
      rcases hc with rfl | rfl <;> simp

theorem breaks_number {s t : Scanner} {fault : Fault} (hs : s.OnText)
    (h : number s = .error fault t) : Breaks Number s fault := by
  obtain ⟨start, s₁, hget, h⟩ := (EStateM.bind_eq_error.mp h).resolve_left nofun
  obtain ⟨rfl, rfl⟩ := EStateM.get_eq_ok.mp hget
  obtain ⟨signed, s₂, hsign, h⟩ := (EStateM.bind_eq_error.mp h).resolve_left accept_ne_error
  obtain ⟨sign, hsigns, p₁⟩ := sign_ok hs hsign
  rcases EStateM.bind_eq_error.mp h with h | ⟨_, s₃, hwhole, h⟩
  · refine (breaks_wholePart p₁.onText' h).inside p₁ fun whole hw => ?_
    have hnumber := Number.mk hsigns hw .absent .absent
    rwa [List.append_nil, List.append_nil] at hnumber
  obtain ⟨whole, hw, p₂⟩ := wholePart_ok p₁.onText' hwhole
  rcases EStateM.bind_eq_error.mp h with h | ⟨_, s₄, hfraction, h⟩
  · refine (breaks_fractionPart p₂.onText' h).inside (p₁.trans p₂) fun fraction hf => ?_
    have hnumber := Number.mk hsigns hw hf .absent
    rwa [List.append_nil] at hnumber
  obtain ⟨fraction, hf, p₃⟩ := fractionPart_ok p₂.onText' hfraction
  rcases EStateM.bind_eq_error.mp h with h | ⟨_, s₅, _, h⟩
  · exact (breaks_exponentPart p₃.onText' h).inside ((p₁.trans p₂).trans p₃) fun exponent he =>
      .mk hsigns hw hf he
  · obtain ⟨stop, s₆, _, h⟩ := (EStateM.bind_eq_error.mp h).resolve_left nofun
    cases h

/-! ## Escapes -/

/-- To look for bytes does not fail. -/
theorem acceptBytes_ne_error {bytes : List UInt8} {s t : Scanner} {fault : Fault} :
    acceptBytes bytes s ≠ .error fault t := by
  unfold acceptBytes
  split <;> exact nofun

theorem acceptBytes_false {bytes : List UInt8} {s t : Scanner}
    (h : acceptBytes bytes s = .ok false t) : t = s := by
  unfold acceptBytes at h
  split at h <;> cases h
  rfl

theorem position_hex4 {s t : Scanner} {fault : Fault} (h : hex4 s = .error fault t) :
    fault.position = s.pos := by
  unfold hex4 at h
  repeat' split at h
  all_goals
    cases h
    try rfl

/-- A second surrogate. -/
theorem hex4_low : Hex4 ['D', 'C', '0', '0'] 0xDC00 :=
  @Hex4.mk 'D' 'C' '0' '0' 13 12 0 0 rfl rfl rfl rfl

theorem hex4_zero : Hex4 ['0', '0', '0', '0'] 0 :=
  @Hex4.mk '0' '0' '0' '0' 0 0 0 0 rfl rfl rfl rfl

theorem breaks_lowSurrogate {first : List Char} {high : Nat} (hfirst : Hex4 first high)
    (hle : 0xD800 ≤ high) (hlt : high < 0xDC00) {s t : Scanner} {fault : Fault} (hs : s.OnText)
    (h : lowSurrogate high s = .error fault t) :
    Breaks (fun chars => ∃ c, Escape c ('u' :: (first ++ chars))) s fault := by
  obtain ⟨taken, u, htaken, hrest⟩ := (EStateM.bind_eq_error.mp h).resolve_left acceptBytes_ne_error
  cases taken with
  | false =>
    obtain rfl := acceptBytes_false htaken
    cases hrest
    exact .spoiled (passes_nil hs) rfl (.inr rfl)
  | true =>
    have hu : s.Passes ['\\', 'u'] u := acceptBytes_ok hs htaken
    rcases EStateM.bind_eq_error.mp hrest with hhex | ⟨low, v, hhex, hlow⟩
    · have hpair : ∃ c, Escape c ('u' :: (first ++ '\\' :: 'u' :: ['D', 'C', '0', '0'])) :=
        ⟨_, .pair hfirst hex4_low hle hlt (by decide) (by decide)⟩
      exact .mk hu (position_hex4 hhex) fun _ => ⟨['D', 'C', '0', '0'], hpair⟩
    · obtain ⟨digits, _, hv⟩ := hex4_ok hu.onText' hhex
      split at hlow
      next hclosing =>
        simp only [isLowSurrogate, Bool.and_eq_true, decide_eq_true_eq] at hclosing
        rw [charOf_valid (surrogatePair_valid hlt hclosing.2)] at hlow
        cases hlow
      next =>
        cases hlow
        exact .spoiled (hu.trans hv) rfl (.inr rfl)

theorem breaks_unicodeEscape {s t : Scanner} {fault : Fault} (hs : s.OnText)
    (h : unicodeEscape s = .error fault t) :
    Breaks (fun chars => ∃ c, Escape c ('u' :: chars)) s fault := by
  rcases EStateM.bind_eq_error.mp h with hhex | ⟨n, u, hhex, hrest⟩
  · have hunit : ∃ c, Escape c ('u' :: ['0', '0', '0', '0']) :=
      ⟨_, .unit hex4_zero (.inl (by decide))⟩
    exact .here hs (position_hex4 hhex) hunit
  · obtain ⟨digits, hdigits, hu⟩ := hex4_ok hs hhex
    split at hrest
    next hhigh =>
      simp only [isHighSurrogate, Bool.and_eq_true, decide_eq_true_eq] at hhigh
      exact (breaks_lowSurrogate hdigits hhigh.1 hhigh.2 hu.onText' hrest).inside hu fun _ hc => hc
    next =>
      unfold charOf at hrest
      split at hrest <;> cases hrest
      exact .spoiled hu rfl (.inl rfl)

theorem breaks_escape {s t : Scanner} {fault : Fault} (hs : s.OnText)
    (h : escape s = .error fault t) : Breaks (fun chars => ∃ c, Escape c chars) s fault := by
  have hline : ∃ c, Escape c ['n'] := ⟨'\n', .short (by decide)⟩
  obtain ⟨shown, u, hpeek, hread⟩ := (EStateM.bind_eq_error.mp h).resolve_left peek_ne_error
  simp only [peek, EStateM.Result.ok.injEq] at hpeek
  obtain ⟨hshown, rfl⟩ := hpeek
  cases shown with
  | none =>
    cases hread
    exact .here hs rfl hline
  | some b =>
    obtain ⟨_, v, hskip, hread⟩ := (EStateM.bind_eq_error.mp hread).resolve_left skip_ne_error
    cases hskip
    split at hread
    next hu =>
      have hfirst := hs.passes_head (c := 'u') (by decide) (hu ▸ hshown)
      exact (breaks_unicodeEscape hfirst.onText' hread).inside hfirst fun _ hc => hc
    next =>
      cases hshort : shortEscape? b with
      | some c =>
        rw [hshort] at hread
        cases hread
      | none =>
        rw [hshort] at hread
        cases hread
        refine .here hs ?_ hline
        -- The fault is told in front of the byte that was dropped.
        obtain ⟨rest, hrest⟩ := List.head?_eq_some_iff.mp hshown
        show s.pos + (s.rest.take 1).length - 1 = s.pos
        rw [hrest]
        rfl

/-! ## Strings -/

/-- What ends a text in quotes, with the closing quote. -/
inductive QuotedEnd : List Char → Prop where
  | mk {text written : List Char} : Content text written → QuotedEnd (written ++ ['"'])

theorem QuotedEnd.escape {chunk written chars : List Char} {c : Char}
    (hchunk : ∀ c ∈ chunk, isUnescaped c = true) (hc : Escape c written) (h : QuotedEnd chars) :
    QuotedEnd (chunk ++ ['\\'] ++ written ++ chars) := by
  cases h with
  | mk hcontent =>
    have hall := QuotedEnd.mk (content_raw hchunk (.escape hc hcontent))
    simpa using hall

/-- A chunk in front of a backslash. -/
theorem passes_chunk {s : Scanner} {b : UInt8} {more : List UInt8} (hs : s.OnText)
    (hrest : (s.drop (s.rest.takeWhile isRaw).length).rest = b :: more)
    (hany : ¬ (s.rest.takeWhile isRaw).any (· < Ascii.space) = true) (hne : b ≠ Ascii.quote) :
    ∃ chunk, (∀ c ∈ chunk, isUnescaped c = true) ∧
      s.Passes (chunk ++ ['\\']) ((s.drop (s.rest.takeWhile isRaw).length).drop 1) := by
  obtain ⟨chunk, hchunk, hraw, hpass, hstop⟩ := passes_takeWhile agree_isRaw hs
  have hb : b = Ascii.byte '\\' :=
    (head?_of_stops_isRaw hrest hstop).resolve_left fun hb => hne hb
  refine ⟨chunk, unescaped_of_chunk hraw (hchunk ▸ hany), hpass.trans ?_⟩
  exact hpass.onText'.passes_head (by decide) (by rw [hrest, hb]; rfl)

theorem breaks_stringBody {out : String} {s t : Scanner} {fault : Fault} (hs : s.OnText)
    (h : stringBody out s = .error fault t) : Breaks QuotedEnd s fault := by
  fun_induction stringBody out s with
  | case1 =>
    cases h
    exact .here hs rfl (.mk .nil)
  | case2 =>
    cases h
    exact .here hs rfl (.mk .nil)
  | case3 => cases h
  | case4 out s raw b more hrest hany out' hne c after he ih =>
    obtain ⟨chunk, hchunk, hslash⟩ := passes_chunk hs hrest hany hne
    obtain ⟨written, hescape, hwritten⟩ := escape_ok hslash.onText' he
    exact (ih hwritten.onText' h).inside (hslash.trans hwritten) fun chars hchars =>
      .escape hchunk hescape hchars
  | case5 out s raw b more hrest hany hne fault' after he =>
    cases h
    obtain ⟨chunk, hchunk, hslash⟩ := passes_chunk hs hrest hany hne
    refine (breaks_escape hslash.onText' he).behind hslash ?_
    rintro written ⟨c, hescape⟩
    exact ⟨['"'], .escape hchunk hescape (.mk .nil)⟩

theorem breaks_string {s t : Scanner} {fault : Fault} (hs : s.OnText)
    (hquote : s.rest.head? = some Ascii.quote) (h : string s = .error fault t) :
    Breaks (fun chars => ∃ text, Quoted text chars) s fault := by
  have hfirst : s.Passes ['"'] (s.drop 1) := hs.passes_head (by decide) hquote
  refine (breaks_stringBody hfirst.onText' h).inside hfirst fun chars hend => ?_
  cases hend with
  | @mk text written hcontent => exact ⟨.ofList text, .mk (by rwa [String.toList_ofList])⟩

/-! ## Scalars -/

theorem position_literal {word : String} {s t : Scanner} {fault : Fault}
    (h : literal word s = .error fault t) : fault.position = s.pos := by
  obtain ⟨taken, u, htaken, hfail⟩ := (EStateM.bind_eq_error.mp h).resolve_left acceptBytes_ne_error
  cases taken with
  | true => cases hfail
  | false =>
    obtain rfl := acceptBytes_false htaken
    cases hfail
    rfl

theorem breaks_scalar {b : UInt8} {s t : Scanner} {fault : Fault} (hs : s.OnText)
    (hb : s.rest.head? = some b) (h : scalar b s = .error fault t) :
    Breaks (fun chars => ∃ v, Scalar v chars) s fault := by
  have front : fault.position = s.pos → Breaks (fun chars => ∃ v, Scalar v chars) s fault :=
    fun hpos => .here hs hpos ⟨.null, .null⟩
  unfold scalar at h
  split at h
  next hquote =>
    exact (breaks_string hs (hquote ▸ hb) (error_of_return h)).mono fun _ ⟨_, hq⟩ =>
      ⟨_, .string hq⟩
  split at h
  next => exact front (position_literal (error_of_return h))
  split at h
  next => exact front (position_literal (error_of_return h))
  split at h
  next => exact front (position_literal (error_of_return h))
  split at h
  next => exact (breaks_number hs (error_of_return h)).mono fun _ hn => ⟨_, .number hn⟩
  next =>
    cases h
    exact front rfl

/-! ## Colons -/

/-- A colon that is missing behind blanks could have come. -/
theorem breaks_colon {reason : Reason} {s t : Scanner} {fault : Fault} (hs : s.OnText)
    (h : expect Ascii.colon reason s = .error fault t) :
    Breaks (fun chars => ∃ blanks, Blanks blanks ∧ chars = blanks ++ [':']) s fault := by
  obtain ⟨shown, u, hshown, hfail⟩ := (EStateM.bind_eq_error.mp h).resolve_left nofun
  obtain ⟨blanks, hblanks, hpass, _⟩ := significant_passes hs hshown
  split at hfail <;> cases hfail
  exact .mk hpass rfl fun _ => ⟨[':'], blanks, hblanks, rfl⟩

end Scan

end DocWalk.Json
