import DocWalk.Json.Scanner
import DocWalk.Proofs.Json.Grammar
import DocWalk.Proofs.Text.Characters

/-!
# What scanning passes

A scanner drops bytes; the grammar speaks of characters. `Passes s chars t` says that a scanner on a
text goes from `s` to `t` by exactly these characters. Each operation of the scanner has two laws in
those words: what it has passed when it did not fail, and that it passes what it should.

An operation that takes as much as it can is pinned down by what stands behind: `Stops p t` says
that the next byte, if there is one, fails a test.
-/

set_option autoImplicit false

namespace DocWalk.Json

open Utf8 (encodeChars Agree)

namespace Scanner

/-- A scanner in front of some characters. -/
def facing (chars : List Char) (pos : Nat) : Scanner :=
  ⟨encodeChars chars, pos⟩

/-- What is left of a text is a text. -/
def OnText (s : Scanner) : Prop :=
  ∃ chars, s.rest = encodeChars chars

/-- From one scanner to another, exactly these characters are passed. -/
inductive Passes : Scanner → List Char → Scanner → Prop where
  | mk (chars rest : List Char) (pos : Nat) :
      Passes (facing (chars ++ rest) pos) chars (facing rest (pos + (encodeChars chars).length))

/-- The next byte, if there is one, fails the test. -/
def Stops (p : UInt8 → Bool) (s : Scanner) : Prop :=
  s.rest.head?.any p = false

theorem onText_facing (chars : List Char) (pos : Nat) : (facing chars pos).OnText :=
  ⟨chars, rfl⟩

theorem facing_injective {xs ys : List Char} {m n : Nat} (h : facing xs m = facing ys n) :
    xs = ys ∧ m = n :=
  ⟨Utf8.encodeChars_injective (Scanner.mk.inj h).1, (Scanner.mk.inj h).2⟩

/-- A scanner on a text stands in front of its characters. -/
theorem OnText.eq_facing {s : Scanner} (h : s.OnText) : ∃ chars pos, s = facing chars pos := by
  obtain ⟨chars, hrest⟩ := h
  exact ⟨chars, s.pos, by rw [facing, ← hrest]⟩

theorem drop_facing (chars rest : List Char) (pos : Nat) :
    (facing (chars ++ rest) pos).drop (encodeChars chars).length =
      facing rest (pos + (encodeChars chars).length) := by
  simp only [drop, facing, Utf8.encodeChars_append, List.drop_left, List.take_left]

theorem Passes.onText {s t : Scanner} {chars : List Char} (h : s.Passes chars t) : s.OnText := by
  cases h
  exact onText_facing _ _

theorem Passes.onText' {s t : Scanner} {chars : List Char} (h : s.Passes chars t) : t.OnText := by
  cases h
  exact onText_facing _ _

theorem Passes.eq_drop {s t : Scanner} {chars : List Char} (h : s.Passes chars t) :
    t = s.drop (encodeChars chars).length := by
  cases h
  exact (drop_facing _ _ _).symm

/-- What is passed and what is left make up what there was. -/
theorem Passes.rest_eq {s t : Scanner} {chars : List Char} (h : s.Passes chars t) :
    s.rest = encodeChars chars ++ t.rest := by
  cases h
  simp only [facing, Utf8.encodeChars_append]

theorem Passes.pos_eq {s t : Scanner} {chars : List Char} (h : s.Passes chars t) :
    t.pos = s.pos + (encodeChars chars).length := by
  cases h
  rfl

theorem passes_nil {s : Scanner} (h : s.OnText) : s.Passes [] s := by
  obtain ⟨chars, pos, rfl⟩ := h.eq_facing
  exact .mk [] chars pos

theorem Passes.eq_of_nil {s t : Scanner} (h : s.Passes [] t) : t = s := by
  rw [h.eq_drop]
  exact s.drop_zero

/-- Passing something and then something else. -/
theorem Passes.trans {s t u : Scanner} {xs ys : List Char} (h : s.Passes xs t)
    (k : t.Passes ys u) : s.Passes (xs ++ ys) u := by
  generalize ht : t = t' at k
  cases h with
  | mk _ rest pos =>
    cases k with
    | mk _ rest' pos' =>
      obtain ⟨rfl, rfl⟩ := facing_injective ht
      have hp := Passes.mk (xs ++ ys) rest' pos
      rw [Utf8.encodeChars_append, List.length_append, ← Nat.add_assoc, List.append_assoc] at hp
      exact hp

/-- On the way past two things there is a scanner between them. -/
theorem Passes.split {s u : Scanner} {xs ys : List Char} (h : s.Passes (xs ++ ys) u) :
    ∃ t, s.Passes xs t ∧ t.Passes ys u := by
  cases h with
  | mk _ rest pos =>
    refine ⟨facing (ys ++ rest) (pos + (encodeChars xs).length), ?_, ?_⟩
    · rw [List.append_assoc]
      exact .mk xs (ys ++ rest) pos
    · have hp := Passes.mk ys rest (pos + (encodeChars xs).length)
      rw [Nat.add_assoc, ← List.length_append, ← Utf8.encodeChars_append] at hp
      exact hp

theorem Passes.split_cons {s u : Scanner} {c : Char} {chars : List Char}
    (h : s.Passes (c :: chars) u) : ∃ t, s.Passes [c] t ∧ t.Passes chars u := by
  have h : s.Passes ([c] ++ chars) u := h
  exact h.split

/-- A scanner that passes an ASCII character first stands in front of its byte. -/
theorem Passes.head? {s t : Scanner} {c : Char} {chars : List Char} (hc : c.toNat < 128)
    (h : s.Passes (c :: chars) t) : s.rest.head? = some (Ascii.byte c) := by
  rw [h.rest_eq, Utf8.encodeChars_cons_ascii hc]
  rfl

theorem Passes.stops {p : UInt8 → Bool} {s t : Scanner} {c : Char} {chars : List Char}
    (hc : c.toNat < 128) (h : s.Passes (c :: chars) t) (hp : p (Ascii.byte c) = false) :
    s.Stops p := by
  rw [Stops, h.head? hc]
  exact hp

/-- A test that takes less stops where another one does. -/
theorem Stops.mono {p q : UInt8 → Bool} {s : Scanner} (h : s.Stops p)
    (hle : ∀ b, q b = true → p b = true) : s.Stops q := by
  unfold Stops at h ⊢
  cases hb : s.rest.head? with
  | none => rfl
  | some b =>
    rw [hb, Option.any_some] at h
    rw [Option.any_some]
    cases hq : q b with
    | false => rfl
    | true =>
      rw [hle b hq] at h
      cases h

/-- A scanner on a text that shows an ASCII byte passes that character. -/
theorem OnText.passes_head {s : Scanner} (hs : s.OnText) {c : Char} (hc : c.toNat < 128)
    (h : s.rest.head? = some (Ascii.byte c)) : s.Passes [c] (s.drop 1) := by
  obtain ⟨chars, pos, rfl⟩ := hs.eq_facing
  obtain ⟨more, rfl⟩ := (Utf8.head?_encodeChars hc chars).mp h
  have hp := Passes.mk [c] more pos
  rwa [hp.eq_drop, Utf8.encodeChars_cons_ascii hc] at hp

/-- Wherever a scanner on a text comes to, in front of an ASCII byte it stands on a text. -/
theorem OnText.of_reaches {s t : Scanner} {b : UInt8} (hs : s.OnText) (h : s.Reaches t)
    (hb : b.toNat < 128) (hhead : t.rest.head? = some b) : t.OnText := by
  obtain ⟨n, rfl⟩ := h
  obtain ⟨chars, hrest⟩ := hs
  obtain ⟨more, hmore⟩ := List.head?_eq_some_iff.mp hhead
  change s.rest.drop n = b :: more at hmore
  rw [hrest] at hmore
  obtain ⟨back, hback⟩ := Utf8.exists_drop_encodeChars hb hmore
  exact ⟨back, by rw [drop, hrest, hback]⟩

end Scanner

namespace Scan

open Scanner

/-! ## Tests of bytes and of characters -/

theorem agree_isBlank : Agree Ascii.isBlank Grammar.isBlank :=
  Utf8.agree_blank

theorem agree_isDigit : Agree Ascii.isDigit Grammar.isDigit := by
  refine .of_ascii false (by decide) (fun b hb => ?_) (fun c hc => ?_)
  · simp only [Ascii.isDigit, Bool.and_eq_false_iff, decide_eq_false_iff_not]
    right
    rw [UInt8.le_iff_toNat_le]
    change ¬ b.toNat ≤ 0x39
    omega
  · simp only [Grammar.isDigit, Bool.and_eq_false_iff, decide_eq_false_iff_not]
    right
    omega

/-- Digits are ASCII characters. -/
theorem lt_of_isDigit {c : Char} (h : Grammar.isDigit c = true) : c.toNat < 128 := by
  simp only [Grammar.isDigit, Bool.and_eq_true, decide_eq_true_eq] at h
  omega

/-- Blanks are ASCII characters. -/
theorem lt_of_isBlank {c : Char} (h : Grammar.isBlank c = true) : c.toNat < 128 := by
  simp only [Grammar.isBlank, Bool.or_eq_true, decide_eq_true_eq] at h
  rcases h with ((rfl | rfl) | rfl) | rfl <;> decide

/-! ## Dropping what passes a test -/

/-- The bytes taken by a test are those of characters that pass, up to a place where it stops. -/
theorem passes_takeWhile {p : UInt8 → Bool} {q : Char → Bool} (agree : Agree p q) {s : Scanner}
    (hs : s.OnText) :
    ∃ chars, s.rest.takeWhile p = encodeChars chars ∧ (∀ c ∈ chars, q c = true) ∧
      s.Passes chars (s.drop (s.rest.takeWhile p).length) ∧
      (s.drop (s.rest.takeWhile p).length).Stops p := by
  obtain ⟨chars, pos, rfl⟩ := hs.eq_facing
  have htake : (facing chars pos).rest.takeWhile p = encodeChars (chars.takeWhile q) :=
    Utf8.takeWhile_encodeChars agree chars
  have hpass := Passes.mk (chars.takeWhile q) (chars.dropWhile q) pos
  rw [List.takeWhile_append_dropWhile] at hpass
  rw [htake, ← hpass.eq_drop]
  refine ⟨chars.takeWhile q, rfl, fun c hc => List.all_eq_true.mp List.all_takeWhile c hc,
    hpass, ?_⟩
  rw [Stops, facing, Utf8.any_head?_encodeChars agree]
  cases hd : (chars.dropWhile q).head? with
  | none => rfl
  | some c =>
    have hnot := List.head?_dropWhile_not q chars
    rw [hd] at hnot
    exact hnot

/-- Dropping as long as a test holds always goes on, past characters that pass, to a place where the
test stops. -/
theorem skipWhile_ok {p : UInt8 → Bool} {q : Char → Bool} (agree : Agree p q) {s : Scanner}
    (hs : s.OnText) :
    ∃ chars t, skipWhile p s = .ok () t ∧ s.Passes chars t ∧ (∀ c ∈ chars, q c = true) ∧
      t.Stops p := by
  obtain ⟨chars, _, hq, hpass, hstop⟩ := passes_takeWhile agree hs
  exact ⟨chars, _, rfl, hpass, hq, hstop⟩

/-- A test takes the bytes of characters that pass, when it stops behind them. -/
theorem takeWhile_pass {p : UInt8 → Bool} {q : Char → Bool} (agree : Agree p q) {s t : Scanner}
    {chars : List Char} (h : s.Passes chars t) (hq : ∀ c ∈ chars, q c = true) (ht : t.Stops p) :
    s.rest.takeWhile p = encodeChars chars := by
  cases h with
  | mk _ rest pos =>
    rw [Stops, facing, Utf8.any_head?_encodeChars agree] at ht
    have hrest : rest.takeWhile q = [] := by
      match rest with
      | [] => rfl
      | c :: more =>
        have hc : q c = false := ht
        rw [List.takeWhile_cons, hc]
        rfl
    rw [facing, Utf8.takeWhile_encodeChars agree, List.takeWhile_append_of_pos hq, hrest,
      List.append_nil]

theorem skipWhile_pass {p : UInt8 → Bool} {q : Char → Bool} (agree : Agree p q) {s t : Scanner}
    {chars : List Char} (h : s.Passes chars t) (hq : ∀ c ∈ chars, q c = true) (ht : t.Stops p) :
    skipWhile p s = .ok () t := by
  rw [skipWhile, takeWhile_pass agree h hq ht, h.eq_drop]

/-! ## Blanks -/

/-- Looking behind blanks always goes on: it passes them and shows what is there. -/
theorem significant_ok {s : Scanner} (hs : s.OnText) :
    ∃ blanks t, significant s = .ok t.rest.head? t ∧ s.Passes blanks t ∧ Grammar.Blanks blanks ∧
      t.Stops Ascii.isBlank := by
  obtain ⟨blanks, t, h, hp, hb, ht⟩ := skipWhile_ok agree_isBlank hs
  exact ⟨blanks, t, EStateM.bind_eq_ok.mpr ⟨(), t, h, rfl⟩, hp, hb, ht⟩

/-- Looking behind blanks passes them. -/
theorem significant_passes {s t : Scanner} {b : Option UInt8} (hs : s.OnText)
    (h : significant s = .ok b t) :
    ∃ blanks, Grammar.Blanks blanks ∧ s.Passes blanks t ∧ t.rest.head? = b := by
  obtain ⟨blanks, u, hu, hpass, hblanks, _⟩ := significant_ok hs
  have heq := hu.symm.trans h
  simp only [EStateM.Result.ok.injEq] at heq
  obtain ⟨hhead, rfl⟩ := heq
  exact ⟨blanks, hblanks, hpass, hhead⟩

theorem significant_pass {s t : Scanner} {blanks : List Char} (h : s.Passes blanks t)
    (hb : Grammar.Blanks blanks) (ht : t.Stops Ascii.isBlank) :
    significant s = .ok t.rest.head? t :=
  EStateM.bind_eq_ok.mpr ⟨(), t, skipWhile_pass agree_isBlank h hb ht, rfl⟩

/-- Behind blanks, the byte that shows is that of a character which is not blank. -/
theorem significant_pass_cons {s t u : Scanner} {blanks chars : List Char} {c : Char}
    (h : s.Passes blanks t) (hb : Grammar.Blanks blanks) (hc : c.toNat < 128)
    (hn : Ascii.isBlank (Ascii.byte c) = false) (k : t.Passes (c :: chars) u) :
    significant s = .ok (some (Ascii.byte c)) t := by
  rw [significant_pass h hb (k.stops hc hn), k.head? hc]

/-! ## One character, or a word -/

/-- A byte that is taken by a test of ASCII bytes is a character. -/
theorem accept_ok {p : UInt8 → Bool} (ascii : ∀ b, p b = true → b.toNat < 128) {s t : Scanner}
    (hs : s.OnText) (h : accept p s = .ok true t) :
    ∃ c, c.toNat < 128 ∧ p (Ascii.byte c) = true ∧ s.Passes [c] t := by
  unfold accept at h
  split at h
  next hp =>
    cases h
    obtain ⟨chars, hrest⟩ := hs
    match hb : s.rest with
    | [] => simp only [hb, List.head?_nil, Option.any_none, Bool.false_eq_true] at hp
    | b :: rest =>
      simp only [hb, List.head?_cons, Option.any_some] at hp
      obtain ⟨c, more, rfl, hc, rfl, _⟩ :=
        Utf8.encodeChars_eq_cons (ascii b hp) (hrest.symm.trans hb)
      exact ⟨c, hc, hp, OnText.passes_head ⟨_, hrest⟩ hc (by rw [hb]; rfl)⟩
  next => cases h

/-- A byte that is not taken stays, because the test stops there. -/
theorem accept_false {p : UInt8 → Bool} {s t : Scanner} (h : accept p s = .ok false t) :
    t = s ∧ s.Stops p := by
  unfold accept at h
  split at h
  next => cases h
  next hp =>
    cases h
    exact ⟨rfl, by rwa [Bool.not_eq_true] at hp⟩

theorem accept_pass {p : UInt8 → Bool} {s t : Scanner} {c : Char} (hc : c.toNat < 128)
    (hp : p (Ascii.byte c) = true) (h : s.Passes [c] t) : accept p s = .ok true t := by
  have hany : s.rest.head?.any p = true := by
    rw [h.head? hc]
    exact hp
  rw [accept, hany, if_pos rfl, h.eq_drop, Utf8.encodeChars_cons_ascii hc]
  rfl

theorem accept_stop {p : UInt8 → Bool} {s : Scanner} (h : s.Stops p) :
    accept p s = .ok false s := by
  rw [Stops] at h
  rw [accept, h]
  rfl

/-- Bytes that are taken are the characters they write. -/
theorem acceptBytes_ok {word : List Char} {s t : Scanner} (hs : s.OnText)
    (h : acceptBytes (encodeChars word) s = .ok true t) : s.Passes word t := by
  unfold acceptBytes at h
  split at h
  next hp =>
    cases h
    obtain ⟨chars, pos, rfl⟩ := hs.eq_facing
    obtain ⟨rest, hrest⟩ := List.isPrefixOf_iff_prefix.mp hp
    obtain ⟨ys, rfl, _⟩ := Utf8.eq_append_of_encodeChars hrest.symm
    rw [drop_facing]
    exact .mk word ys pos
  next => cases h

theorem acceptBytes_pass {word : List Char} {s t : Scanner} (h : s.Passes word t) :
    acceptBytes (encodeChars word) s = .ok true t := by
  have hp : (encodeChars word).isPrefixOf s.rest = true :=
    List.isPrefixOf_iff_prefix.mpr ⟨t.rest, h.rest_eq.symm⟩
  rw [acceptBytes, hp, if_pos rfl, h.eq_drop]

/-- A word that was read is the word that stands there. -/
theorem literal_ok {word text : String} (hw : Ascii.bytes word = encodeChars word.toList)
    {s t : Scanner} (hs : s.OnText) (h : literal word s = .ok text t) :
    text = word ∧ s.Passes word.toList t := by
  obtain ⟨taken, u, h₁, h₂⟩ := EStateM.bind_eq_ok.mp h
  rw [hw] at h₁
  cases taken with
  | true =>
    obtain ⟨rfl, rfl⟩ := EStateM.pure_eq_ok.mp h₂
    exact ⟨rfl, acceptBytes_ok hs h₁⟩
  | false => cases h₂

theorem literal_pass {word : String} (hw : Ascii.bytes word = encodeChars word.toList)
    {s t : Scanner} (h : s.Passes word.toList t) : literal word s = .ok word t := by
  refine EStateM.bind_eq_ok.mpr ⟨true, t, ?_, rfl⟩
  rw [hw]
  exact acceptBytes_pass h

/-- The text of a chunk is the text that its characters make. -/
theorem chunkText_encodeChars (chars : List Char) :
    chunkText (encodeChars chars) = String.ofList chars := by
  rw [chunkText, Utf8.decode, Utf8.decodeChars_encodeChars]
  rfl

end Scan

end DocWalk.Json
