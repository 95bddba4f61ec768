import DocWalk.Proofs.Json.Checked
import DocWalk.Proofs.Json.LongestNumbers
import DocWalk.Proofs.Json.StringLiterals

/-!
# Scanning finds no breach

`Mirrors` says that an operation with checks does what another one does, and so finds no breach.
Each operation of the scanner with checks mirrors that of the scanner without (`Safe`), from any
position up to the end of the input.

Of a string this is so at a quote of a text only, for where bytes are taken for a text they must
begin at a character and end at one. A bad escape may leave the scanner in the middle of a
character, but a quote is a character of its own wherever it is found, and so is all that begins a
chunk behind it: the quote, a backslash with its escape. A number and a word are made of ASCII
characters wherever they stand.
-/

set_option autoImplicit false

namespace DocWalk.Json

open Scanner
open Utf8 (encode encodeChars)

section

variable {input : List UInt8} {pos n : Nat}

theorem drop_scannerAt (h : pos + n ≤ input.length) :
    (scannerAt input pos).drop n = scannerAt input (pos + n) := by
  rw [scannerAt, Scanner.drop, scannerAt, List.drop_drop, List.length_take, List.length_drop,
    Nat.min_eq_left (by omega)]

theorem head?_scannerAt (input : List UInt8) (pos : Nat) :
    (scannerAt input pos).rest.head? = input[pos]? :=
  List.head?_drop

/-- Where a byte is left the position is in front of the end. -/
theorem lt_of_head?_scannerAt {b : UInt8} (h : (scannerAt input pos).rest.head? = some b) :
    pos < input.length := by
  rw [head?_scannerAt] at h
  exact (List.getElem?_eq_some_iff.mp h).1

/-- Where a byte shows behind blanks the position is in front of the end. -/
theorem lt_of_significant {s : Scanner} {b : UInt8}
    (h : Scan.significant s = .ok (some b) (scannerAt input pos)) : pos < input.length := by
  obtain ⟨_, t, _, hpeek⟩ := EStateM.bind_eq_ok.mp h
  simp only [Scan.peek, EStateM.Result.ok.injEq] at hpeek
  obtain ⟨hb, rfl⟩ := hpeek
  exact lt_of_head?_scannerAt hb

end

namespace Checked

variable {ε σ σ' α β : Type}

/-- From a state, an operation with checks finds no breach and does what another one does. The
states of the two may differ: `view` tells which of the other's a state stands for. `leads` says
where the operation may lead. -/
inductive Mirrors (view : σ' → σ) (leads : σ' → σ' → Prop) (m' : EStateM (Stop ε) σ' α)
    (m : EStateM ε σ α) (s : σ') : Prop where
  | of_ok {a : α} {t : σ'} : m' s = .ok a t → m (view s) = .ok a (view t) → leads s t →
      Mirrors view leads m' m s
  | of_fault {e : ε} {t : σ'} : m' s = .error (.fault e) t → m (view s) = .error e (view t) →
      leads s t → Mirrors view leads m' m s

namespace Mirrors

variable {view : σ' → σ} {leads : σ' → σ' → Prop} {m' : EStateM (Stop ε) σ' α} {m : EStateM ε σ α}
  {s t : σ'}

/-- Behind a step of both, an operation goes on as another one begins. -/
theorem step {n' : EStateM (Stop ε) σ' α} {n : EStateM ε σ α}
    (trans : ∀ {s t u}, leads s t → leads t u → leads s u) (hm' : m' s = n' t)
    (hm : m (view s) = n (view t)) (hleads : leads s t) (h : Mirrors view leads n' n t) :
    Mirrors view leads m' m s := by
  cases h with
  | of_ok hn' hn hleads' => exact .of_ok (hm'.trans hn') (hm.trans hn) (trans hleads hleads')
  | of_fault hn' hn hleads' => exact .of_fault (hm'.trans hn') (hm.trans hn) (trans hleads hleads')

theorem bind {f' : α → EStateM (Stop ε) σ' β} {f : α → EStateM ε σ β}
    (trans : ∀ {s t u}, leads s t → leads t u → leads s u) (hm : Mirrors view leads m' m s)
    (hf : ∀ a t, m (view s) = .ok a (view t) → leads s t → Mirrors view leads (f' a) (f a) t) :
    Mirrors view leads (m' >>= f') (m >>= f) s := by
  cases hm with
  | @of_ok a t heq' heq hleads =>
    exact step trans (EStateM.bind_of_ok heq') (EStateM.bind_of_ok heq) hleads (hf a t heq hleads)
  | of_fault heq' heq hleads =>
    exact .of_fault (EStateM.bind_eq_error.mpr (.inl heq')) (EStateM.bind_eq_error.mpr (.inl heq))
      hleads

/-- Where the states are the same, what mirrors an operation is that operation with its faults told
as such. -/
theorem eq_adaptExcept {leads : σ → σ → Prop} {m' : EStateM (Stop ε) σ α} {s : σ}
    (h : Mirrors id leads m' m s) : m' s = m.adaptExcept .fault s := by
  cases h with
  | of_ok hm' hm _ => exact hm'.trans (EStateM.adaptExcept_eq_ok.mpr hm).symm
  | of_fault hm' hm _ => exact hm'.trans (EStateM.adaptExcept_eq_error.mpr ⟨_, hm, rfl⟩).symm

theorem leads_left {leads : σ → σ → Prop} {m' : EStateM (Stop ε) σ α} {s : σ}
    (h : Mirrors id leads m' m s) : (m' s).left = (m s).left ∧ leads s (m s).left := by
  cases h with
  | of_ok hm' hm hleads =>
    have hm : m s = _ := hm
    rw [hm', hm]
    exact ⟨rfl, hleads⟩
  | of_fault hm' hm hleads =>
    have hm : m s = _ := hm
    rw [hm', hm]
    exact ⟨rfl, hleads⟩

end Mirrors

/-! ## The scanner -/

variable {input : List UInt8} {pos : Nat}

/-- Forward to a position of the input. -/
def Onward (input : List UInt8) (p q : Nat) : Prop :=
  p ≤ q ∧ q ≤ input.length

theorem Onward.refl (h : pos ≤ input.length) : Onward input pos pos :=
  ⟨Nat.le_refl _, h⟩

theorem Onward.trans {p q r : Nat} (h : Onward input p q) (k : Onward input q r) :
    Onward input p r :=
  ⟨Nat.le_trans h.1 k.1, k.2⟩

/-- From a position, an operation with checks does what one on the bytes left does. -/
abbrev Safe (input : List UInt8) (m' : CheckedScan α) (m : Scan α) (pos : Nat) : Prop :=
  Mirrors (scannerAt input) (Onward input) m' m pos

theorem Safe.bind {m' : CheckedScan α} {m : Scan α} {f' : α → CheckedScan β} {f : α → Scan β}
    (hm : Safe input m' m pos)
    (hf : ∀ a q, m (scannerAt input pos) = .ok a (scannerAt input q) → Onward input pos q →
      Safe input (f' a) (f a) q) : Safe input (m' >>= f') (m >>= f) pos :=
  Mirrors.bind Onward.trans hm hf

/-- What counts is what the operations do from the position. -/
theorem Safe.congr {m' n' : CheckedScan α} {m n : Scan α} (h : Safe input n' n pos)
    (hpos : pos ≤ input.length) (hm' : m' pos = n' pos)
    (hm : m (scannerAt input pos) = n (scannerAt input pos)) : Safe input m' m pos :=
  Mirrors.step Onward.trans hm' hm (.refl hpos) h

theorem safe_pure (h : pos ≤ input.length) (a : α) : Safe input (pure a) (pure a) pos :=
  .of_ok rfl rfl (.refl h)

theorem safe_fail (h : pos ≤ input.length) (reason : Reason) :
    Safe (α := α) input (fail reason) (Scan.fail reason) pos :=
  .of_fault rfl rfl (.refl h)

theorem safe_ite {c : Prop} [Decidable c] {m' n' : CheckedScan α} {m n : Scan α}
    (hm : Safe input m' m pos) (hn : Safe input n' n pos) :
    Safe input (if c then m' else n') (if c then m else n) pos := by
  split
  · exact hm
  · exact hn

theorem advance_eq {n : Nat} (h : pos + n ≤ input.length) :
    advance input n pos = .ok () (pos + n) := by
  rw [advance, if_pos h]

theorem safe_advance {n : Nat} (h : pos + n ≤ input.length) :
    Safe input (advance input n) (Scan.skip n) pos := by
  refine .of_ok (advance_eq h) ?_ ⟨Nat.le_add_right _ _, h⟩
  rw [Scan.skip, drop_scannerAt h]

theorem safe_peek (h : pos ≤ input.length) : Safe input (peek input) Scan.peek pos := by
  refine .of_ok rfl ?_ (.refl h)
  rw [Scan.peek, head?_scannerAt]

/-- Byte by byte the scanner comes behind the bytes that have the property. -/
theorem skipWhile_eq (p : UInt8 → Bool) (pos : Nat) :
    skipWhile input p pos = .ok () (pos + ((input.drop pos).takeWhile p).length) := by
  fun_induction skipWhile input p pos with
  | case1 pos hnone =>
    rw [List.drop_eq_nil_of_le (List.getElem?_eq_none_iff.mp hnone)]
    rfl
  | case2 pos b hb hp ih =>
    obtain ⟨hlt, rfl⟩ := List.getElem?_eq_some_iff.mp hb
    rw [ih, List.drop_eq_getElem_cons hlt, List.takeWhile_cons_of_pos hp, List.length_cons]
    congr 1
    omega
  | case3 pos b hb hp =>
    obtain ⟨hlt, rfl⟩ := List.getElem?_eq_some_iff.mp hb
    rw [List.drop_eq_getElem_cons hlt, List.takeWhile_cons_of_neg hp]
    rfl

theorem length_takeWhile_drop_le (p : UInt8 → Bool) (h : pos ≤ input.length) :
    pos + ((input.drop pos).takeWhile p).length ≤ input.length := by
  have hle := (List.takeWhile_prefix p (l := input.drop pos)).length_le
  rw [List.length_drop] at hle
  omega

theorem safe_skipWhile (p : UInt8 → Bool) (h : pos ≤ input.length) :
    Safe input (skipWhile input p) (Scan.skipWhile p) pos := by
  have hle := length_takeWhile_drop_le p h
  refine .of_ok (skipWhile_eq p pos) ?_ ⟨Nat.le_add_right _ _, hle⟩
  rw [Scan.skipWhile, ← drop_scannerAt hle]
  rfl

theorem safe_accept (p : UInt8 → Bool) (h : pos ≤ input.length) :
    Safe input (accept input p) (Scan.accept p) pos := by
  cases hp : (input[pos]?).any p with
  | true =>
    have hlt : pos + 1 ≤ input.length := by
      cases hb : input[pos]? with
      | none =>
        rw [hb] at hp
        cases hp
      | some b => exact (List.getElem?_eq_some_iff.mp hb).1
    refine .of_ok (a := true) ?_ ?_ ⟨Nat.le_add_right pos 1, hlt⟩
    · refine EStateM.bind_eq_ok.mpr ⟨_, pos, rfl, ?_⟩
      rw [if_pos hp]
      exact EStateM.bind_eq_ok.mpr ⟨(), _, advance_eq hlt, rfl⟩
    · rw [Scan.accept, head?_scannerAt, if_pos hp, drop_scannerAt hlt]
  | false =>
    have hn : ¬(input[pos]?).any p = true := by
      rw [hp]
      exact Bool.false_ne_true
    refine .of_ok (a := false) ?_ ?_ (.refl h)
    · refine EStateM.bind_eq_ok.mpr ⟨_, pos, rfl, ?_⟩
      rw [if_neg hn]
      rfl
    · rw [Scan.accept, head?_scannerAt, if_neg hn]

/-! ## Bytes from one position to another -/

theorem slice_eq {start stop : Nat} (hle : start ≤ stop) (hstop : stop ≤ input.length) :
    slice input start stop pos = .ok ((input.drop start).take (stop - start)) pos := by
  rw [slice, if_pos ⟨hle, hstop⟩]
  rfl

/-- From a position to the end there is what is left. -/
theorem slice_to_end (h : pos ≤ input.length) :
    slice input pos input.length pos = .ok (input.drop pos) pos := by
  rw [slice_eq h (Nat.le_refl _), List.take_of_length_le (Nat.le_of_eq List.length_drop)]

/-- The text of bytes that are characters. -/
theorem textAt_eq {start : Nat} {chars : List Char} {rest : List UInt8}
    (hstart : start ≤ input.length) (h : input.drop start = encodeChars chars ++ rest) (pos : Nat) :
    textAt input start (start + (encodeChars chars).length) pos = .ok (.ofList chars) pos := by
  have hlength := congrArg List.length h
  rw [List.length_drop, List.length_append] at hlength
  refine EStateM.bind_eq_ok.mpr ⟨encodeChars chars, pos, ?_, ?_⟩
  · rw [slice_eq (Nat.le_add_right _ _) (by omega), h, Nat.add_sub_cancel_left, List.take_left]
  · rw [Utf8.decode, Utf8.decodeChars_encodeChars]
    rfl

theorem safe_acceptBytes (bytes : List UInt8) (h : pos ≤ input.length) :
    Safe input (acceptBytes input bytes) (Scan.acceptBytes bytes) pos := by
  cases hp : bytes.isPrefixOf (input.drop pos) with
  | true =>
    have hle := (List.isPrefixOf_iff_prefix.mp hp).length_le
    rw [List.length_drop] at hle
    have hlt : pos + bytes.length ≤ input.length := by omega
    refine .of_ok (a := true) ?_ ?_ ⟨Nat.le_add_right pos _, hlt⟩
    · refine EStateM.bind_eq_ok.mpr ⟨pos, pos, rfl, ?_⟩
      refine EStateM.bind_eq_ok.mpr ⟨_, pos, slice_to_end h, ?_⟩
      rw [if_pos hp]
      exact EStateM.bind_eq_ok.mpr ⟨(), _, advance_eq hlt, rfl⟩
    · rw [Scan.acceptBytes, ← drop_scannerAt hlt]
      exact if_pos hp
  | false =>
    have hn : ¬bytes.isPrefixOf (input.drop pos) = true := by
      rw [hp]
      exact Bool.false_ne_true
    refine .of_ok (a := false) ?_ ?_ (.refl h)
    · refine EStateM.bind_eq_ok.mpr ⟨pos, pos, rfl, ?_⟩
      refine EStateM.bind_eq_ok.mpr ⟨_, pos, slice_to_end h, ?_⟩
      rw [if_neg hn]
      rfl
    · exact if_neg hn

theorem safe_significant (h : pos ≤ input.length) :
    Safe input (significant input) Scan.significant pos :=
  (safe_skipWhile _ h).bind fun _ _ _ hq => safe_peek hq.2

theorem safe_expect (b : UInt8) (reason : Reason) (h : pos ≤ input.length) :
    Safe input (expect input b reason) (Scan.expect b reason) pos := by
  refine (safe_significant h).bind fun shown q hshown hq => ?_
  split
  next hb =>
    subst hb
    exact safe_advance (lt_of_significant hshown)
  next => exact safe_fail hq.2 reason

/-- A word that was passed is the text that stands there. -/
theorem safe_literal {word : String} (hw : Ascii.bytes word = encodeChars word.toList)
    (h : pos ≤ input.length) : Safe input (literal input word) (Scan.literal word) pos := by
  have hfrom : Safe input (do
      if ← acceptBytes input (Ascii.bytes word) then textAt input pos (← get)
      else fail .invalidLiteral) (Scan.literal word) pos := by
    refine (safe_acceptBytes _ h).bind fun taken q htaken hq => ?_
    cases taken with
    | false => exact safe_fail hq.2 _
    | true =>
      unfold Scan.acceptBytes at htaken
      split at htaken
      next hp =>
        obtain ⟨rest, hrest⟩ := List.isPrefixOf_iff_prefix.mp hp
        rw [hw] at hrest htaken
        have hend : pos + (encodeChars word.toList).length = q := by
          have hpos := congrArg Scanner.pos (EStateM.Result.ok.inj htaken).2
          rw [Scanner.drop, ← hrest, List.take_left] at hpos
          exact hpos
        refine .of_ok (a := word) (t := q) ?_ rfl (.refl hq.2)
        refine EStateM.bind_eq_ok.mpr ⟨q, q, rfl, ?_⟩
        have htext := textAt_eq h hrest.symm q
        rwa [hend, String.ofList_toList] at htext
      next => cases htaken
  exact hfrom.congr h rfl rfl

/-! ## Numbers -/

theorem safe_someDigits (h : pos ≤ input.length) :
    Safe input (someDigits input) Scan.someDigits pos :=
  (safe_accept _ h).bind fun _ _ _ hq => safe_ite (safe_skipWhile _ hq.2) (safe_fail hq.2 _)

theorem safe_wholePart (h : pos ≤ input.length) :
    Safe input (wholePart input) Scan.wholePart pos :=
  (safe_accept _ h).bind fun _ _ _ hq => safe_ite (safe_pure hq.2 ()) (safe_someDigits hq.2)

theorem safe_fractionPart (h : pos ≤ input.length) :
    Safe input (fractionPart input) Scan.fractionPart pos :=
  (safe_accept _ h).bind fun _ _ _ hq => safe_ite (safe_someDigits hq.2) (safe_pure hq.2 _)

theorem safe_exponentPart (h : pos ≤ input.length) :
    Safe input (exponentPart input) Scan.exponentPart pos :=
  (safe_accept _ h).bind fun _ _ _ hq =>
    safe_ite ((safe_accept _ hq.2).bind fun _ _ _ hr => safe_someDigits hr.2) (safe_pure hq.2 _)

/-- The bytes that a number passes are characters, whatever stands around them. -/
theorem safe_number (h : pos ≤ input.length) : Safe input (number input) Scan.number pos := by
  have hfrom : Safe input (do
      let _ ← accept input (· = Ascii.hyphen)
      wholePart input
      fractionPart input
      exponentPart input
      let stop ← get
      textAt input pos stop) (do
      let _ ← Scan.accept (· = Ascii.hyphen)
      Scan.wholePart
      Scan.fractionPart
      Scan.exponentPart
      let stop ← get
      return Scan.chunkText ((scannerAt input pos).rest.take (stop.pos - pos))) pos := by
    -- Only behind all its parts is what was passed known to be a number.
    refine (safe_accept _ h).bind fun _ p₁ hsign h₁ => ?_
    refine (safe_wholePart h₁.2).bind fun _ p₂ hwhole h₂ => ?_
    refine (safe_fractionPart h₂.2).bind fun _ p₃ hfraction h₃ => ?_
    refine (safe_exponentPart h₃.2).bind fun _ q hexponent h₄ => ?_
    have hread : Scan.number (scannerAt input pos) =
        .ok (Scan.chunkText ((input.drop pos).take (q - pos))) (scannerAt input q) :=
      EStateM.bind_eq_ok.mpr ⟨_, _, rfl, EStateM.bind_eq_ok.mpr ⟨_, _, hsign,
        EStateM.bind_eq_ok.mpr ⟨_, _, hwhole, EStateM.bind_eq_ok.mpr ⟨_, _, hfraction,
          EStateM.bind_eq_ok.mpr ⟨_, _, hexponent, EStateM.bind_eq_ok.mpr ⟨_, _, rfl, rfl⟩⟩⟩⟩⟩⟩
    obtain ⟨chars, _, htext, hrest, hend⟩ := Scan.number_sound hread
    refine .of_ok (t := q) ?_ (EStateM.bind_eq_ok.mpr ⟨_, _, rfl, rfl⟩) (.refl h₄.2)
    refine EStateM.bind_eq_ok.mpr ⟨q, q, rfl, ?_⟩
    have htextAt := textAt_eq h hrest q
    rw [show pos + (encodeChars chars).length = q from hend.symm, ← htext] at htextAt
    exact htextAt
  exact hfrom.congr h rfl rfl

/-! ## Escapes -/

/-- Four bytes are read as digits one after the other, up to the first that is none. -/
theorem hex4_of_rest {s : Scanner} {a b c d : UInt8} {more : List UInt8}
    (h : s.rest = a :: b :: c :: d :: more) :
    Scan.hex4 s = match hexNumber? [a, b, c, d] with
      | some n => .ok n (s.drop 4)
      | none => Scan.fail .invalidUnicodeEscape s := by
  simp only [Scan.hex4, h, hexNumber?, List.foldlM_cons, List.foldlM_nil]
  cases Scan.hexValue? a with
  | none => rfl
  | some w =>
    cases Scan.hexValue? b with
    | none => rfl
    | some x =>
      cases Scan.hexValue? c with
      | none => rfl
      | some y =>
        cases Scan.hexValue? d with
        | none => rfl
        | some z =>
          simp only [Option.map_some, Option.bind_eq_bind, Option.bind_some, Option.pure_def,
            Nat.zero_mul, Nat.zero_add]

theorem safe_hex4 (h : pos ≤ input.length) : Safe input (hex4 input) Scan.hex4 pos := by
  by_cases h4 : pos + 4 ≤ input.length
  · have hlength : 4 ≤ (input.drop pos).length := by
      rw [List.length_drop]
      omega
    match hrest : input.drop pos, hlength with
    | a :: b :: c :: d :: more, _ =>
      have hslice : slice input pos (pos + 4) pos = .ok [a, b, c, d] pos := by
        rw [slice_eq (Nat.le_add_right _ _) h4, Nat.add_sub_cancel_left, hrest]
        rfl
      have hread := hex4_of_rest (s := scannerAt input pos) hrest
      cases hn : hexNumber? [a, b, c, d] with
      | some n =>
        rw [hn, drop_scannerAt h4] at hread
        refine .of_ok ?_ hread ⟨Nat.le_add_right _ _, h4⟩
        refine EStateM.bind_eq_ok.mpr ⟨pos, pos, rfl, ?_⟩
        rw [if_pos h4]
        refine EStateM.bind_eq_ok.mpr ⟨_, pos, hslice, ?_⟩
        rw [hn]
        exact EStateM.bind_eq_ok.mpr ⟨(), _, advance_eq h4, rfl⟩
      | none =>
        rw [hn] at hread
        refine .of_fault ?_ hread (.refl h)
        refine EStateM.bind_eq_error.mpr (.inr ⟨pos, pos, rfl, ?_⟩)
        rw [if_pos h4]
        refine EStateM.bind_eq_error.mpr (.inr ⟨_, pos, hslice, ?_⟩)
        rw [hn]
        rfl
  · refine .of_fault (e := ⟨.truncatedUnicodeEscape, pos⟩) (t := pos) ?_ ?_ (.refl h)
    · refine EStateM.bind_eq_error.mpr (.inr ⟨pos, pos, rfl, ?_⟩)
      rw [if_neg h4]
      rfl
    · unfold Scan.hex4
      split
      next hrest =>
        have hlength := congrArg List.length hrest
        simp only [scannerAt, List.length_drop, List.length_cons] at hlength
        omega
      next => rfl

theorem safe_charOf (n : Nat) (h : pos ≤ input.length) :
    Safe input (charOf n) (Scan.charOf n) pos :=
  safe_ite (safe_pure h _) (safe_fail h _)

theorem safe_lowSurrogate (high : Nat) (h : pos ≤ input.length) :
    Safe input (lowSurrogate input high) (Scan.lowSurrogate high) pos := by
  refine (safe_acceptBytes _ h).bind fun _ q _ hq => safe_ite ?_ (safe_fail hq.2 _)
  refine (safe_hex4 hq.2).bind fun low r _ hr => safe_ite ?_ (safe_fail hr.2 _)
  exact safe_charOf (Scan.surrogatePair high low) hr.2

theorem safe_unicodeEscape (h : pos ≤ input.length) :
    Safe input (unicodeEscape input) Scan.unicodeEscape pos :=
  (safe_hex4 h).bind fun n _ _ hq => safe_ite (safe_lowSurrogate n hq.2) (safe_charOf n hq.2)

/-- A bad escape is told at the byte in front of the position, where there is one. -/
theorem safe_failEscape (h : pos ≤ input.length) (hpos : 0 < pos) :
    Safe (α := α) input failEscape Scan.failEscape pos := by
  refine .of_fault (e := ⟨.invalidEscape, pos - 1⟩) ?_ rfl (.refl h)
  rw [failEscape, if_neg (Nat.ne_of_gt hpos)]

theorem safe_escape (h : pos ≤ input.length) : Safe input (escape input) Scan.escape pos := by
  refine (safe_peek h).bind fun shown q hshown hq => ?_
  cases shown with
  | none => exact safe_fail hq.2 _
  | some b =>
    simp only [Scan.peek, EStateM.Result.ok.injEq] at hshown
    have hb : (scannerAt input q).rest.head? = some b := hshown.2 ▸ hshown.1
    have hlt := lt_of_head?_scannerAt hb
    refine (safe_advance hlt).bind fun _ r hr hnext => ?_
    have hpos : 0 < r := by
      rw [Scan.skip, drop_scannerAt hlt] at hr
      have heq : q + 1 = r := congrArg Scanner.pos (EStateM.Result.ok.inj hr).2
      omega
    refine safe_ite (safe_unicodeEscape hnext.2) ?_
    cases Scan.shortEscape? b with
    | some c => exact safe_pure hnext.2 c
    | none => exact safe_failEscape hnext.2 hpos

/-! ## Strings -/

/-- The first quote or backslash is found behind characters that are neither. -/
theorem findIdx?_chunk {chars : List Char} {rest : List UInt8}
    (hraw : ∀ c ∈ chars, (!Scan.endsChunk c) = true) (hstops : rest.head?.any Scan.isRaw = false) :
    (encodeChars chars ++ rest).findIdx? (fun b => !Scan.isRaw b) =
      rest.head?.map fun _ => (encodeChars chars).length := by
  have hall : (encodeChars chars).all Scan.isRaw = true := by
    rw [Utf8.all_encodeChars Scan.agree_isRaw]
    exact List.all_eq_true.mpr hraw
  have hnone : (encodeChars chars).findIdx? (fun b => !Scan.isRaw b) = none := by
    rw [List.findIdx?_eq_none_iff]
    intro b hb
    rw [List.all_eq_true.mp hall b hb, Bool.not_true]
  rw [List.findIdx?_append, hnone, Option.none_or]
  match rest with
  | [] => rfl
  | b :: more =>
    have hb : Scan.isRaw b = false := hstops
    rw [List.findIdx?_cons, hb, Bool.not_false, if_pos rfl, Option.map_some, Nat.zero_add]
    rfl

/-- A chunk that begins at a character is a text, up to a quote, a backslash or the end. -/
theorem chunk_eq {chars : List Char} {q : Nat} (hpos : pos ≤ input.length)
    (h : (scannerAt input pos).Passes chars (scannerAt input q))
    (hraw : ∀ c ∈ chars, (!Scan.endsChunk c) = true) (hstops : (scannerAt input q).Stops Scan.isRaw) :
    chunk input pos = match input[q]? with
      | none => .error (.fault ⟨.unterminatedString, pos⟩) pos
      | some b =>
        if chars.any (·.toNat < 0x20) then .error (.fault ⟨.controlCharacter, pos⟩) pos
        else .ok (.ofList chars, b) (q + 1) := by
  have hdrop : input.drop pos = encodeChars chars ++ input.drop q := h.rest_eq
  have hq : pos + (encodeChars chars).length = q := h.pos_eq.symm
  have hindex : (input.drop pos).findIdx? (fun b => !Scan.isRaw b) =
      (input[q]?).map fun _ => (encodeChars chars).length := by
    rw [hdrop, ← head?_scannerAt]
    exact findIdx?_chunk hraw hstops
  cases hb : input[q]? with
  | none =>
    refine EStateM.bind_eq_error.mpr (.inr ⟨pos, pos, rfl, ?_⟩)
    refine EStateM.bind_eq_error.mpr (.inr ⟨_, pos, slice_to_end hpos, ?_⟩)
    rw [hindex, hb]
    rfl
  | some b =>
    have hlt : q + 1 ≤ input.length := (List.getElem?_eq_some_iff.mp hb).1
    have hslice : slice input pos (pos + (encodeChars chars).length) pos =
        .ok (encodeChars chars) pos := by
      rw [slice_eq (Nat.le_add_right _ _) (by omega), Nat.add_sub_cancel_left, hdrop, List.take_left]
    simp only
    split
    next hany =>
      refine EStateM.bind_eq_error.mpr (.inr ⟨pos, pos, rfl, ?_⟩)
      refine EStateM.bind_eq_error.mpr (.inr ⟨_, pos, slice_to_end hpos, ?_⟩)
      rw [hindex, hb]
      refine EStateM.bind_eq_error.mpr (.inr ⟨_, pos, hslice, ?_⟩)
      rw [Scan.any_lt_space, if_pos hany]
      rfl
    next hany =>
      have hbyte : byteAt input q q = .ok b q := by
        rw [byteAt, hb]
        rfl
      refine EStateM.bind_eq_ok.mpr ⟨pos, pos, rfl, ?_⟩
      refine EStateM.bind_eq_ok.mpr ⟨_, pos, slice_to_end hpos, ?_⟩
      rw [hindex, hb]
      refine EStateM.bind_eq_ok.mpr ⟨_, pos, hslice, ?_⟩
      rw [Scan.any_lt_space, if_neg hany]
      refine EStateM.bind_eq_ok.mpr ⟨_, pos, textAt_eq hpos hdrop pos, ?_⟩
      refine EStateM.bind_eq_ok.mpr ⟨(), q, ?_, ?_⟩
      · show advance input (encodeChars chars).length pos = .ok () q
        rw [advance_eq (by omega), hq]
      refine EStateM.bind_eq_ok.mpr ⟨q, q, rfl, ?_⟩
      exact EStateM.bind_eq_ok.mpr ⟨b, q, hbyte, EStateM.bind_eq_ok.mpr ⟨(), _, advance_eq hlt, rfl⟩⟩

/-- From a character on, every chunk of a string begins at a character. -/
theorem safe_stringBody (out : String) (hpos : pos ≤ input.length)
    (hs : (scannerAt input pos).OnText) :
    Safe input (stringBody input out) (Scan.stringBody out) pos := by
  induction hleft : input.length - pos using Nat.strongRecOn generalizing out pos with
  | _ left ih =>
  obtain ⟨chars, _, hraw, hpass, hstops⟩ := Scan.passes_takeWhile Scan.agree_isRaw hs
  have hle := length_takeWhile_drop_le Scan.isRaw hpos
  rw [show (scannerAt input pos).rest = input.drop pos from rfl, drop_scannerAt hle] at hpass hstops
  generalize pos + ((input.drop pos).takeWhile Scan.isRaw).length = q at hle hpass hstops
  have hread := Scan.stringBody_chunk out hpass hraw hstops
  have hchunk := chunk_eq hpos hpass hraw hstops
  rw [head?_scannerAt] at hread
  cases hb : input[q]? with
  | none =>
    rw [hb] at hread hchunk
    refine .of_fault (e := ⟨.unterminatedString, pos⟩) ?_ hread (.refl hpos)
    rw [stringBody, hchunk]
  | some b =>
    rw [hb] at hread hchunk
    have hlt : q + 1 ≤ input.length := (List.getElem?_eq_some_iff.mp hb).1
    have hbehind : (scannerAt input q).drop 1 = scannerAt input (q + 1) := drop_scannerAt hlt
    have hle : pos ≤ q := Nat.le.intro hpass.pos_eq.symm
    have honward : Onward input pos (q + 1) := ⟨Nat.le_succ_of_le hle, hlt⟩
    by_cases hany : chars.any (·.toNat < 0x20) = true
    · simp only [if_pos hany] at hread hchunk
      refine .of_fault (e := ⟨.controlCharacter, pos⟩) ?_ hread (.refl hpos)
      rw [stringBody, hchunk]
    simp only [if_neg hany, hbehind] at hread hchunk
    by_cases hquote : b = Ascii.quote
    · rw [if_pos hquote] at hread
      refine .of_ok ?_ hread honward
      rw [stringBody, hchunk]
      exact if_pos hquote
    rw [if_neg hquote] at hread
    cases safe_escape hlt with
    | @of_ok c after hescape' hescape hafter =>
      have hslash : (scannerAt input q).Passes ['\\'] (scannerAt input (q + 1)) := by
        obtain ⟨more, hmore⟩ := List.head?_eq_some_iff.mp ((head?_scannerAt input q).trans hb)
        have hbackslash := (Scan.head?_of_stops_isRaw hmore hstops).resolve_left hquote
        rw [← hbehind]
        exact hpass.onText'.passes_head (by decide) (by rw [hmore, hbackslash]; rfl)
      obtain ⟨written, _, hwritten⟩ := Scan.escape_ok hslash.onText' hescape
      have hgrown : pos < after ∧ after ≤ input.length :=
        ⟨Nat.lt_of_le_of_lt hle (Nat.lt_of_succ_le hafter.1), hafter.2⟩
      have hrest := ih (input.length - after) (by omega) ((out ++ .ofList chars).push c) hgrown.2
        hwritten.onText' rfl
      refine Mirrors.step Onward.trans ?_ ?_ (honward.trans hafter) hrest
      · rw [stringBody, hchunk]
        simp only [if_neg hquote, hescape', if_pos hgrown]
      · rw [hread, hescape]
    | of_fault hescape' hescape hafter =>
      refine .of_fault ?_ (hread.trans (by rw [hescape])) (honward.trans hafter)
      rw [stringBody, hchunk]
      simp only [if_neg hquote, hescape']

/-- What stands anywhere in a text and begins with an ASCII byte is a text. -/
theorem onText_scannerAt {b : UInt8} (htext : (scannerAt input 0).OnText) (hb : b.toNat < 128)
    (hhead : input[pos]? = some b) : (scannerAt input pos).OnText := by
  have hlt := (List.getElem?_eq_some_iff.mp hhead).1
  have hreach : (scannerAt input 0).Reaches (scannerAt input pos) :=
    ⟨pos, by rw [drop_scannerAt (by omega), Nat.zero_add]⟩
  exact htext.of_reaches hreach hb ((head?_scannerAt input pos).trans hhead)

theorem safe_string (htext : (scannerAt input 0).OnText) (hquote : input[pos]? = some Ascii.quote) :
    Safe input (string input) Scan.string pos := by
  have hlt : pos + 1 ≤ input.length := (List.getElem?_eq_some_iff.mp hquote).1
  have hs := onText_scannerAt htext (by decide) hquote
  have hbehind := drop_scannerAt hlt
  have hpass : (scannerAt input pos).Passes ['"'] (scannerAt input (pos + 1)) := by
    rw [← hbehind]
    exact hs.passes_head (by decide) ((head?_scannerAt input pos).trans hquote)
  have hbody := safe_stringBody "" hlt hpass.onText'
  refine Mirrors.step Onward.trans (EStateM.bind_of_ok (advance_eq hlt)) ?_
    ⟨Nat.le_add_right pos 1, hlt⟩ hbody
  rw [Scan.string, hbehind]

/-- From the middle of a character the rest of a string is no text, and a check finds that. -/
example : stringBody (encode "é\"") "" 1 = .error (.breach (.text 1 2)) 1 := by cbv

/-- A scalar is safe behind the byte that it starts with. -/
theorem safe_scalar {b : UInt8} (htext : (scannerAt input 0).OnText) (hb : input[pos]? = some b) :
    Safe input (scalar input b) (Scan.scalar b) pos := by
  have hpos : pos ≤ input.length := Nat.le_of_lt (List.getElem?_eq_some_iff.mp hb).1
  unfold scalar Scan.scalar
  split
  next hquote => exact (safe_string htext (hquote ▸ hb)).bind fun _ _ _ hq => safe_pure hq.2 _
  refine safe_ite ((safe_literal (by decide) hpos).bind fun _ _ _ hq => safe_pure hq.2 _) ?_
  refine safe_ite ((safe_literal (by decide) hpos).bind fun _ _ _ hq => safe_pure hq.2 _) ?_
  refine safe_ite ((safe_literal (by decide) hpos).bind fun _ _ _ hq => safe_pure hq.2 _) ?_
  exact safe_ite ((safe_number hpos).bind fun _ _ _ hq => safe_pure hq.2 _) (safe_fail hpos _)

end Checked

end DocWalk.Json
