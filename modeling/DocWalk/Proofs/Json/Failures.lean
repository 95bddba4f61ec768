import DocWalk.Proofs.Json.Moves

/-!
# What comes behind an error of a JSON text

A step that fails leaves what is awaited and the open containers as they were (`step_error`). It
queues nothing, save for an array's element: the node of an element is queued before the element is
read, and stays when the reading fails (`early`).

Where the next request goes on is where the scanner stands. Most reasons are found in front of a token,
with no byte of it taken; then every later step fails in the same way (`Refusal.again`). A reason found
inside a token leaves the scanner there, and what is left may be read as another text.

**The laws** (`Aftermath`): nothing is given for what failed to be read but the node of an element;
behind a reason found in front of a token nothing is given at all but such nodes, and the error stays,
so that it is fatal just where no such node waits; and whatever has failed before, the document ends
only outside all containers.
-/

set_option autoImplicit false

namespace DocWalk.Json

/-- Whether a reason is found in front of a token, with no byte of it taken. -/
def Reason.inFront : Reason → Bool
  | unexpectedCharacter | unexpectedEnd | trailingCharacters | expectedKey | expectedCommaOrBrace
  | expectedCommaOrBracket | invalidLiteral => true
  | expectedColon | mismatchedBracket | invalidNumber | unterminatedString | controlCharacter
  | unterminatedEscape | invalidEscape | truncatedUnicodeEscape | invalidUnicodeEscape
  | unpairedSurrogate | stated _ => false

/-! ## Reasons inside a token -/

namespace Scan

variable {α β : Type} {reasons : List Reason}

/-- An operation that fails for these reasons only. -/
def FailsFor (reasons : List Reason) (m : Scan α) : Prop :=
  ∀ s fault t, m s = .error fault t → fault.reason ∈ reasons

theorem failsFor_pure (a : α) : FailsFor reasons (pure a) := by
  intro s fault t h
  cases h

theorem failsFor_fail {reason : Reason} (h : reason ∈ reasons) :
    FailsFor reasons (fail reason : Scan α) := by
  intro s fault t hfail
  cases hfail
  exact h

theorem failsFor_bind {m : Scan α} {f : α → Scan β} (hm : FailsFor reasons m)
    (hf : ∀ a, FailsFor reasons (f a)) : FailsFor reasons (m >>= f) := by
  intro s fault t h
  rcases EStateM.bind_eq_error.mp h with h | ⟨a, u, _, h⟩
  · exact hm _ _ _ h
  · exact hf a _ _ _ h

theorem failsFor_ite {c : Prop} [Decidable c] {m n : Scan α} (hm : FailsFor reasons m)
    (hn : FailsFor reasons n) : FailsFor reasons (if c then m else n) := by
  split
  · exact hm
  · exact hn

theorem failsFor_skipWhile (p : UInt8 → Bool) : FailsFor reasons (skipWhile p) := by
  intro s fault t h
  cases h

theorem failsFor_accept (p : UInt8 → Bool) : FailsFor reasons (accept p) := by
  intro s fault t h
  unfold accept at h
  split at h <;> cases h

theorem failsFor_acceptBytes (bytes : List UInt8) : FailsFor reasons (acceptBytes bytes) := by
  intro s fault t h
  unfold acceptBytes at h
  split at h <;> cases h

theorem failsFor_get : FailsFor reasons (get : Scan Scanner) := by
  intro s fault t h
  cases h

theorem failsFor_someDigits : FailsFor [.invalidNumber] someDigits :=
  failsFor_bind (failsFor_accept _) fun _ =>
    failsFor_ite (failsFor_skipWhile _) (failsFor_fail List.mem_cons_self)

theorem failsFor_number : FailsFor [.invalidNumber] number :=
  failsFor_bind failsFor_get fun _ => failsFor_bind (failsFor_accept _) fun _ =>
    failsFor_bind
      (failsFor_bind (failsFor_accept _) fun _ =>
        failsFor_ite (failsFor_pure ()) failsFor_someDigits)
      fun _ => failsFor_bind
        (failsFor_bind (failsFor_accept _) fun _ =>
          failsFor_ite failsFor_someDigits (failsFor_pure _))
        fun _ => failsFor_bind
          (failsFor_bind (failsFor_accept _) fun _ =>
            failsFor_ite (failsFor_bind (failsFor_accept _) fun _ => failsFor_someDigits)
              (failsFor_pure _))
          fun _ => failsFor_bind failsFor_get fun _ => failsFor_pure _

/-- The reasons for which a string is refused. -/
def stringReasons : List Reason :=
  [.unterminatedString, .controlCharacter, .unterminatedEscape, .invalidEscape,
    .truncatedUnicodeEscape, .invalidUnicodeEscape, .unpairedSurrogate]

theorem failsFor_hex4 : FailsFor stringReasons hex4 := by
  intro s fault t h
  unfold hex4 at h
  split at h
  · split at h
    · cases h
    · cases h
      show Reason.invalidUnicodeEscape ∈ stringReasons
      decide
  · cases h
    show Reason.truncatedUnicodeEscape ∈ stringReasons
    decide

theorem failsFor_charOf (n : Nat) : FailsFor stringReasons (charOf n) :=
  failsFor_ite (failsFor_pure _) (failsFor_fail (by decide))

theorem failsFor_lowSurrogate (high : Nat) : FailsFor stringReasons (lowSurrogate high) :=
  failsFor_bind (failsFor_acceptBytes _) fun _ =>
    failsFor_ite
      (failsFor_bind failsFor_hex4 fun _ =>
        failsFor_ite (failsFor_charOf _) (failsFor_fail (by decide)))
      (failsFor_fail (by decide))

theorem failsFor_escape : FailsFor stringReasons escape := by
  intro s fault t h
  obtain ⟨b, u, hpeek, h⟩ := (EStateM.bind_eq_error.mp h).resolve_left nofun
  cases b with
  | none => exact failsFor_fail (by decide) _ _ _ h
  | some b =>
    obtain ⟨_, v, _, h⟩ := (EStateM.bind_eq_error.mp h).resolve_left nofun
    split at h
    · refine failsFor_bind failsFor_hex4 (fun n => ?_) _ _ _ h
      exact failsFor_ite (failsFor_lowSurrogate n) (failsFor_charOf n)
    · cases hshort : shortEscape? b with
      | some c =>
        rw [hshort] at h
        cases h
      | none =>
        rw [hshort] at h
        cases h
        show Reason.invalidEscape ∈ stringReasons
        decide

theorem failsFor_stringBody (out : String) : FailsFor stringReasons (stringBody out) := by
  intro s fault t h
  fun_induction stringBody out s with
  | case1 => exact failsFor_fail (by decide) _ _ _ h
  | case2 => exact failsFor_fail (by decide) _ _ _ h
  | case3 => cases h
  | case4 _ _ _ _ _ _ _ _ _ _ _ _ ih => exact ih h
  | case5 _ _ _ _ _ _ _ _ _ _ hescape =>
    cases h
    exact failsFor_escape _ _ _ hescape

theorem failsFor_string : FailsFor stringReasons string :=
  fun s => failsFor_stringBody "" (s.drop 1)

/-- An operation that fails inside a token only. -/
def FailsInside (m : Scan α) : Prop :=
  ∀ s fault t, m s = .error fault t → fault.reason.inFront = false

theorem FailsFor.inside {m : Scan α} (h : FailsFor reasons m)
    (hreasons : ∀ reason ∈ reasons, reason.inFront = false) : FailsInside m :=
  fun _ _ _ herror => hreasons _ (h _ _ _ herror)

theorem inside_number : FailsInside number :=
  failsFor_number.inside (by decide)

theorem inside_string : FailsInside string :=
  failsFor_string.inside (by decide)

/-- A word that does not come takes nothing. -/
theorem literal_error {word : String} {s t : Scanner} {fault : Fault}
    (h : literal word s = .error fault t) : t = s := by
  rcases EStateM.bind_eq_error.mp h with h | ⟨taken, u, haccept, h⟩
  · unfold acceptBytes at h
    split at h <;> cases h
  · unfold acceptBytes at haccept
    split at haccept
    · cases haccept
      cases h
    · cases haccept
      cases h
      rfl

/-- A scalar that is refused in front takes nothing. -/
theorem scalar_error {b : UInt8} {s t : Scanner} {fault : Fault} (h : scalar b s = .error fault t)
    (hfront : fault.reason.inFront) : t = s := by
  unfold scalar at h
  split at h
  · rcases EStateM.bind_eq_error.mp h with h | ⟨_, _, _, h⟩
    · cases hfront.symm.trans (inside_string _ _ _ h)
    · cases h
  split at h
  · rcases EStateM.bind_eq_error.mp h with h | ⟨_, _, _, h⟩
    · exact literal_error h
    · cases h
  split at h
  · rcases EStateM.bind_eq_error.mp h with h | ⟨_, _, _, h⟩
    · exact literal_error h
    · cases h
  split at h
  · rcases EStateM.bind_eq_error.mp h with h | ⟨_, _, _, h⟩
    · exact literal_error h
    · cases h
  split at h
  · rcases EStateM.bind_eq_error.mp h with h | ⟨_, _, _, h⟩
    · cases hfront.symm.trans (inside_number _ _ _ h)
    · cases h
  · cases h
    rfl

theorem expect_error {b : UInt8} {reason : Reason} {s t : Scanner} {fault : Fault}
    (h : expect b reason s = .error fault t) : fault.reason = reason := by
  obtain ⟨byte, u, _, h⟩ := (EStateM.bind_eq_error.mp h).resolve_left nofun
  split at h <;> cases h
  rfl

/-- Behind the bytes with a property there is none with it. -/
theorem takeWhile_drop_takeWhile (p : UInt8 → Bool) (bytes : List UInt8) :
    (bytes.drop (bytes.takeWhile p).length).takeWhile p = [] := by
  induction bytes with
  | nil => rfl
  | cons b rest ih =>
    by_cases hb : p b
    · rw [List.takeWhile_cons_of_pos hb, List.length_cons, List.drop_succ_cons, ih]
    · rw [List.takeWhile_cons_of_neg hb, List.length_nil, List.drop_zero,
        List.takeWhile_cons_of_neg hb]

theorem significant_again {s t : Scanner} {b : Option UInt8} (h : significant s = .ok b t) :
    significant t = .ok b t := by
  obtain ⟨_, u, hskip, hpeek⟩ := EStateM.bind_eq_ok.mp h
  cases hskip
  cases hpeek
  have hnil : (s.drop (s.rest.takeWhile Ascii.isBlank).length).rest.takeWhile Ascii.isBlank = [] :=
    takeWhile_drop_takeWhile _ _
  refine EStateM.bind_eq_ok.mpr ⟨(), _, ?_, rfl⟩
  rw [skipWhile, hnil, List.length_nil, Scanner.drop_zero]

end Scan

/-! ## Steps that fail -/

/-- What the scanner meets where a step fails, and where it leaves the scanner. -/
inductive Refusal : Expect → List Frame → Scanner → Fault → Scanner → Prop where
  | noValue {frames : List Frame} {s t : Scanner} : Scan.significant s = .ok none t →
      Refusal .value frames s ⟨.unexpectedEnd, t.pos⟩ t
  | scalar {frames : List Frame} {s t u : Scanner} {b : UInt8} {fault : Fault} :
      Scan.significant s = .ok (some b) t → b ≠ Ascii.openBrace → b ≠ Ascii.openBracket →
      Scan.scalar b t = .error fault u → Refusal .value frames s fault u
  | noKey {expect : Expect} {frames : List Frame} {s t : Scanner} {b : Option UInt8} :
      expect = .firstKey ∧ b ≠ some Ascii.closeBrace ∨ expect = .key →
      Scan.significant s = .ok b t → b ≠ some Ascii.quote →
      Refusal expect frames s ⟨.expectedKey, t.pos⟩ t
  | key {expect : Expect} {frames : List Frame} {s t u : Scanner} {fault : Fault} :
      expect = .firstKey ∨ expect = .key → Scan.significant s = .ok (some Ascii.quote) t →
      Scan.string t = .error fault u → Refusal expect frames s fault u
  | colon {expect : Expect} {frames : List Frame} {s t u v : Scanner} {key : String}
      {fault : Fault} : expect = .firstKey ∨ expect = .key →
      Scan.significant s = .ok (some Ascii.quote) t → Scan.string t = .ok key u →
      Scan.expect Ascii.colon .expectedColon u = .error fault v → Refusal expect frames s fault v
  | trailing {s t : Scanner} {b : UInt8} : Scan.significant s = .ok (some b) t →
      Refusal .afterValue [] s ⟨.trailingCharacters, t.pos⟩ t
  | separator {frame : Frame} {outer : List Frame} {s t : Scanner} {b : Option UInt8} :
      Scan.significant s = .ok b t → b ≠ some Ascii.comma → b ≠ some frame.closing →
      Refusal .afterValue (frame :: outer) s ⟨frame.missing, t.pos⟩ t

/-- What is refused in front of a token is refused again in the same way. -/
theorem Refusal.again {expect : Expect} {frames : List Frame} {s t : Scanner} {fault : Fault}
    (h : Refusal expect frames s fault t) (hfront : fault.reason.inFront) :
    Refusal expect frames t fault t := by
  cases h with
  | noValue hs => exact .noValue (Scan.significant_again hs)
  | scalar hs hbrace hbracket hscalar =>
    obtain rfl := Scan.scalar_error hscalar hfront
    exact .scalar (Scan.significant_again hs) hbrace hbracket hscalar
  | noKey hexpect hs hb => exact .noKey hexpect (Scan.significant_again hs) hb
  | key _ _ hstring => cases hfront.symm.trans (Scan.inside_string _ _ _ hstring)
  | colon _ _ _ hcolon =>
    rw [Scan.expect_error hcolon] at hfront
    cases hfront
  | trailing hs => exact .trailing (Scan.significant_again hs)
  | separator hs hcomma hclosing => exact .separator (Scan.significant_again hs) hcomma hclosing

namespace Tokenizer

/-- What a step queues before it reads: the node of an array's element. -/
def early (t : Tokenizer) : List Event :=
  if t.expect = .value then opening t.frames else []

/-- The state that a step leaves when it fails. -/
def failed (t : Tokenizer) (s : Scanner) : Tokenizer :=
  ⟨s, t.frames, t.pending ++ t.early, t.expect⟩

theorem scan_eq_error {α : Type} {m : Scan α} {t u : Tokenizer} {fault : Fault} :
    scan m t = .error fault u ↔
      ∃ s, m t.scanner = .error fault s ∧ u = { t with scanner := s } := by
  unfold scan
  cases m t.scanner <;> simp [and_assoc, eq_comm]

theorem failed_value {t : Tokenizer} (s : Scanner) (h : t.expect = .value) :
    t.failed s = ⟨s, t.frames, t.pending ++ opening t.frames, t.expect⟩ := by
  rw [failed, early, if_pos h]

theorem failed_other {t : Tokenizer} (s : Scanner) (h : t.expect ≠ .value) :
    t.failed s = { t with scanner := s } := by
  rw [failed, early, if_neg h, List.append_nil]

theorem readScalar_error {b : UInt8} {t u : Tokenizer} {fault : Fault}
    (h : readScalar b t = .error fault u) :
    ∃ s, Scan.scalar b t.scanner = .error fault s ∧ u = { t with scanner := s } := by
  rcases EStateM.bind_eq_error.mp h with h | ⟨text, v, _, h⟩
  · exact scan_eq_error.mp h
  · rcases EStateM.bind_eq_error.mp h with h | ⟨_, w, _, h⟩
    · cases text <;> cases h
    · rw [closeMember_eq] at h
      cases h

theorem readValue_error {t u : Tokenizer} {fault : Fault} (h : readValue t = .error fault u)
    (ht : t.expect = .value) :
    ∃ s, u = t.failed s ∧ Refusal t.expect t.frames t.scanner fault s := by
  rw [ht]
  rcases EStateM.bind_eq_error.mp h with h | ⟨_, v, hopen, h⟩
  · rw [openElement_eq] at h
    cases h
  rw [openElement_eq] at hopen
  cases hopen
  rcases EStateM.bind_eq_error.mp h with h | ⟨b, v, hscan, h⟩
  · obtain ⟨s, hs, _⟩ := scan_eq_error.mp h
    cases hs
  obtain ⟨s, hs, rfl⟩ := scan_eq_ok.mp hscan
  cases b with
  | none =>
    cases h
    exact ⟨s, (failed_value s ht).symm, .noValue hs⟩
  | some b =>
    simp only at h
    split at h
    · cases h
    split at h
    · cases h
    next hbrace hbracket =>
      obtain ⟨s', hs', rfl⟩ := readScalar_error h
      exact ⟨s', (failed_value s' ht).symm, .scalar hs hbrace hbracket hs'⟩

/-- In a container of the kind that ends, its closing byte is passed without an error. -/
theorem passClosing_ok {frame : Frame} {t : Tokenizer} {outer : List Frame}
    (h : t.frames = frame :: outer) : ∃ u, passClosing frame t = .ok () u :=
  ⟨_, passClosing_iff.mpr ⟨outer, h, rfl⟩⟩

theorem readKey_error {first : Bool} {t u : Tokenizer} {fault : Fault}
    (h : readKey first t = .error fault u) (ht : t.expect = if first then .firstKey else .key)
    (hframes : t.frames.head? = some .object) :
    ∃ s, u = t.failed s ∧ Refusal t.expect t.frames t.scanner fault s := by
  have hexpect : t.expect = .firstKey ∨ t.expect = .key := by
    cases first with
    | true => exact .inl ht
    | false => exact .inr ht
  have hfailed : ∀ s, t.failed s = { t with scanner := s } := by
    intro s
    apply failed_other
    rcases hexpect with hexpect | hexpect <;> rw [hexpect] <;> exact nofun
  rcases EStateM.bind_eq_error.mp h with h | ⟨b, v, hscan, h⟩
  · obtain ⟨s, hs, _⟩ := scan_eq_error.mp h
    cases hs
  obtain ⟨s, hs, rfl⟩ := scan_eq_ok.mp hscan
  split at h
  next hb =>
    obtain ⟨outer, houter⟩ := List.head?_eq_some_iff.mp hframes
    obtain ⟨w, hw⟩ := passClosing_ok (t := { t with scanner := s }) houter
    cases hw.symm.trans h
  next hclose =>
    split at h
    next hb =>
      subst hb
      rcases EStateM.bind_eq_error.mp h with h | ⟨key, v, hkey, h⟩
      · obtain ⟨s', hs', rfl⟩ := scan_eq_error.mp h
        exact ⟨s', (hfailed s').symm, .key hexpect hs hs'⟩
      obtain ⟨s', hs', rfl⟩ := scan_eq_ok.mp hkey
      rcases EStateM.bind_eq_error.mp h with h | ⟨_, v, _, h⟩
      · obtain ⟨s'', hs'', rfl⟩ := scan_eq_error.mp h
        exact ⟨s'', (hfailed s'').symm, .colon hexpect hs hs' hs''⟩
      · cases h
    next hb =>
      cases h
      refine ⟨s, (hfailed s).symm, .noKey ?_ hs hb⟩
      cases first with
      | true => exact .inl ⟨ht, fun hclosing => hclose ⟨rfl, hclosing⟩⟩
      | false => exact .inr ht

theorem readAfterValue_error {t u : Tokenizer} {fault : Fault}
    (h : readAfterValue t = .error fault u) (ht : t.expect = .afterValue) :
    ∃ s, u = t.failed s ∧ Refusal t.expect t.frames t.scanner fault s := by
  have hfailed : ∀ s, t.failed s = { t with scanner := s } := by
    intro s
    apply failed_other
    rw [ht]
    exact nofun
  rw [ht]
  rcases EStateM.bind_eq_error.mp h with h | ⟨b, v, hscan, h⟩
  · obtain ⟨s, hs, _⟩ := scan_eq_error.mp h
    cases hs
  obtain ⟨s, hs, rfl⟩ := scan_eq_ok.mp hscan
  split at h
  next hframes =>
    unfold readEnd at h
    split at h
    next hb =>
      obtain ⟨byte, rfl⟩ := Option.isSome_iff_exists.mp hb
      cases h
      refine ⟨s, (hfailed s).symm, ?_⟩
      rw [show t.frames = [] from hframes]
      exact .trailing hs
    next => cases h
  next frame outer hframes =>
    unfold readSeparator at h
    split at h
    · cases h
    next hcomma =>
      split at h
      next hb =>
        obtain ⟨w, hw⟩ := passClosing_ok hframes
        cases hw.symm.trans h
      next hclosing =>
        cases h
        refine ⟨s, (hfailed s).symm, ?_⟩
        rw [show t.frames = frame :: outer from hframes]
        exact .separator hs hcomma hclosing

/-- A step fails where the scanner is refused, and changes nothing else but for an early event. -/
theorem step_error {t u : Tokenizer} {fault : Fault} (h : step t = .error fault u)
    (ht : t.Agrees) : ∃ s, u = t.failed s ∧ Refusal t.expect t.frames t.scanner fault s := by
  unfold step at h
  unfold Agrees Fits at ht
  split at h
  next => cases h
  next he => exact readValue_error h he
  next he =>
    rw [he] at ht
    exact readKey_error h he ht
  next he =>
    rw [he] at ht
    exact readKey_error h he ht
  next he =>
    -- An element is only looked for: the array ends, or the element is awaited.
    rw [he] at ht
    obtain ⟨outer, houter⟩ := List.head?_eq_some_iff.mp ht
    rcases EStateM.bind_eq_error.mp h with h | ⟨b, v, hscan, h⟩
    · obtain ⟨s, hs, _⟩ := scan_eq_error.mp h
      cases hs
    obtain ⟨s, hs, rfl⟩ := scan_eq_ok.mp hscan
    split at h
    · obtain ⟨w, hw⟩ := passClosing_ok (t := { t with scanner := s }) houter
      cases hw.symm.trans h
    · cases h
  next he => exact readAfterValue_error h he
  next => cases h

theorem readKey_of_refusal (first : Bool) {t : Tokenizer} {s : Scanner} {fault : Fault}
    (h : Refusal t.expect t.frames t.scanner fault s)
    (ht : t.expect = if first then .firstKey else .key) :
    readKey first t = .error fault { t with scanner := s } := by
  obtain ⟨scanner, frames, pending, expect⟩ := t
  dsimp only at h ht
  have hclose : ¬(first = true ∧ some Ascii.quote = some Ascii.closeBrace) :=
    fun hboth => absurd hboth.2 (by decide)
  cases h with
  | noValue | scalar | trailing | separator => cases first <;> cases ht
  | @noKey _ _ _ _ b hexpect hs hb =>
    refine EStateM.bind_eq_error.mpr (.inr ⟨b, _, scan_eq_ok.mpr ⟨s, hs, rfl⟩, ?_⟩)
    have hopen : ¬(first = true ∧ b = some Ascii.closeBrace) := by
      rintro ⟨rfl, hclosing⟩
      rcases hexpect with ⟨_, hne⟩ | hkey
      · exact hne hclosing
      · cases hkey.symm.trans ht
    rw [if_neg hopen, if_neg hb]
    rfl
  | key _ hs hstring =>
    refine EStateM.bind_eq_error.mpr (.inr ⟨_, _, scan_eq_ok.mpr ⟨_, hs, rfl⟩, ?_⟩)
    rw [if_neg hclose, if_pos rfl]
    exact EStateM.bind_eq_error.mpr (.inl (scan_eq_error.mpr ⟨s, hstring, rfl⟩))
  | colon _ hs hstring hcolon =>
    refine EStateM.bind_eq_error.mpr (.inr ⟨_, _, scan_eq_ok.mpr ⟨_, hs, rfl⟩, ?_⟩)
    rw [if_neg hclose, if_pos rfl]
    refine EStateM.bind_eq_error.mpr (.inr ⟨_, _, scan_eq_ok.mpr ⟨_, hstring, rfl⟩, ?_⟩)
    exact EStateM.bind_eq_error.mpr (.inl (scan_eq_error.mpr ⟨s, hcolon, rfl⟩))

theorem readValue_of_refusal {t : Tokenizer} {s : Scanner} {fault : Fault}
    (h : Refusal t.expect t.frames t.scanner fault s) (ht : t.expect = .value) :
    readValue t = .error fault (t.failed s) := by
  rw [failed_value s ht]
  obtain ⟨scanner, frames, pending, expect⟩ := t
  refine EStateM.bind_eq_error.mpr (.inr ⟨(), _, openElement_eq _, ?_⟩)
  cases h with
  | noValue hs =>
    exact EStateM.bind_eq_error.mpr (.inr ⟨none, _, scan_eq_ok.mpr ⟨s, hs, rfl⟩, rfl⟩)
  | scalar hs hbrace hbracket hscalar =>
    refine EStateM.bind_eq_error.mpr (.inr ⟨_, _, scan_eq_ok.mpr ⟨_, hs, rfl⟩, ?_⟩)
    simp only [if_neg hbrace, if_neg hbracket]
    exact EStateM.bind_eq_error.mpr (.inl (scan_eq_error.mpr ⟨s, hscalar, rfl⟩))
  | noKey hexpect =>
    rcases hexpect with ⟨hexpect, _⟩ | hexpect <;> cases hexpect.symm.trans ht
  | key hexpect | colon hexpect =>
    rcases hexpect with hexpect | hexpect <;> cases hexpect.symm.trans ht
  | trailing | separator => cases ht

theorem readAfterValue_of_refusal {t : Tokenizer} {s : Scanner} {fault : Fault}
    (h : Refusal t.expect t.frames t.scanner fault s) (ht : t.expect = .afterValue) :
    readAfterValue t = .error fault { t with scanner := s } := by
  obtain ⟨scanner, frames, pending, expect⟩ := t
  cases h with
  | trailing hs => exact EStateM.bind_eq_error.mpr (.inr ⟨_, _, scan_eq_ok.mpr ⟨s, hs, rfl⟩, rfl⟩)
  | separator hs hcomma hclosing =>
    refine EStateM.bind_eq_error.mpr (.inr ⟨_, _, scan_eq_ok.mpr ⟨s, hs, rfl⟩, ?_⟩)
    show readSeparator _ _ _ = _
    rw [readSeparator, if_neg hcomma, if_neg hclosing]
    rfl
  | noKey hexpect =>
    rcases hexpect with ⟨hexpect, _⟩ | hexpect <;> cases hexpect.symm.trans ht
  | key hexpect | colon hexpect =>
    rcases hexpect with hexpect | hexpect <;> cases hexpect.symm.trans ht
  | noValue | scalar => cases ht

/-- Where the scanner is refused a step fails, whatever is pending. -/
theorem step_of_refusal {t : Tokenizer} {s : Scanner} {fault : Fault}
    (h : Refusal t.expect t.frames t.scanner fault s) : step t = .error fault (t.failed s) := by
  cases hexpect : t.expect with
  | value =>
    rw [← readValue_of_refusal h hexpect, step, hexpect]
  | firstKey =>
    rw [failed_other s (by rw [hexpect]; exact nofun),
      ← readKey_of_refusal true h hexpect, step, hexpect]
  | key =>
    rw [failed_other s (by rw [hexpect]; exact nofun),
      ← readKey_of_refusal false h hexpect, step, hexpect]
  | afterValue =>
    rw [failed_other s (by rw [hexpect]; exact nofun),
      ← readAfterValue_of_refusal h hexpect, step, hexpect]
  | start | firstElement | finished =>
    rw [hexpect] at h
    cases h with
    | noKey hkey => rcases hkey with ⟨hkey, _⟩ | hkey <;> cases hkey
    | key hkey | colon hkey => rcases hkey with hkey | hkey <;> cases hkey

/-! ## Requests behind an error -/

open Source (Queued ask after)

theorem queued_fill_error {t u : Tokenizer} {e : SourceError} :
    (Queued.fill : EStateM SourceError Tokenizer Unit) t = .error e u ↔
      ∃ fault, fill t = .error fault u ∧ e = .json fault :=
  EStateM.adaptExcept_eq_error

/-- Reading that fails has come to a refusal, with nothing pending but an early event. -/
theorem fill_error {t u : Tokenizer} {fault : Fault} (h : fill t = .error fault u)
    (ht : t.Agrees) : u.Agrees ∧ u.pending = u.early ∧
      ∃ s, Refusal u.expect u.frames s fault u.scanner := by
  fun_induction fill t with
  | case1 t hp v hs ih =>
    obtain ⟨events, hmoves, _⟩ := moves_of_step hs
    exact ih h (hmoves.fits ht)
  | case2 t hp fault' v hs =>
    cases h
    obtain ⟨s, rfl, hrefusal⟩ := step_error hs ht
    refine ⟨ht, ?_, t.scanner, hrefusal⟩
    rw [failed, hp]
    rfl
  | case3 => cases h

/-- A tokenizer that is refused where it stands. -/
structure Stuck (fault : Fault) (t : Tokenizer) : Prop where
  refusal : Refusal t.expect t.frames t.scanner fault t.scanner
  pending_early : ∀ event ∈ t.pending, event ∈ t.early

/-- A tokenizer that is stuck gives its early event or fails, and is stuck in the same place. -/
theorem Stuck.ask {t : Tokenizer} {fault : Fault} (h : t.Stuck fault) (request : Request) :
    ((ask request t).answer = .error (.json fault) ∨
        ∃ event ∈ t.early, (ask request t).answer = .ok (some event)) ∧
      (ask request t).left.Stuck fault ∧ (ask request t).left.early = t.early := by
  cases hp : t.pending with
  | nil =>
    have hfill : fill t = .error fault (t.failed t.scanner) :=
      fill_of_step_error hp (step_of_refusal h.refusal)
    rw [(Queued.ask_error_iff request).mpr (queued_fill_error.mpr ⟨fault, hfill, rfl⟩)]
    refine ⟨.inl rfl, ⟨h.refusal, ?_⟩, rfl⟩
    show ∀ event ∈ t.pending ++ t.early, event ∈ t.early
    rw [hp]
    exact fun _ => id
  | cons event rest =>
    have hfill : fill t = .ok () t := fill_of_pending (by rw [hp]; exact List.cons_ne_nil _ _)
    rw [Queued.ask_of_fill request (queued_fill_ok.mpr hfill) hp]
    refine ⟨.inr ⟨event, h.pending_early event (hp ▸ List.mem_cons_self), rfl⟩, ?_⟩
    cases request with
    | peek => exact ⟨h, rfl⟩
    | next =>
      refine ⟨⟨h.refusal, ?_⟩, rfl⟩
      intro event' hmem
      exact h.pending_early event' (List.mem_of_mem_tail hmem)

theorem Stuck.after {t : Tokenizer} {fault : Fault} (h : t.Stuck fault) (more : List Request) :
    (after more t).Stuck fault ∧ (after more t).early = t.early := by
  refine Source.after_keeps (P := fun u : Tokenizer => u.Stuck fault ∧ u.early = t.early) ?_ more
    ⟨h, rfl⟩
  rintro u request ⟨hu, hearly⟩
  obtain ⟨_, hleft, hsame⟩ := hu.ask request
  exact ⟨hleft, hsame.trans hearly⟩

/-- What is so of a state that may have failed on the way: an end that waits has been read. -/
structure Sound (t : Tokenizer) : Prop where
  agrees : t.Agrees
  finished : .endDocument ∈ t.pending → t.expect = .finished

theorem endDocument_not_mem_early (t : Tokenizer) : .endDocument ∉ t.early := by
  unfold early
  split
  · exact endDocument_not_mem_opening _
  · exact List.not_mem_nil

theorem Sound.fill {t u : Tokenizer} (h : t.Sound) (hfill : Tokenizer.fill t = .ok () u) :
    u.Sound := by
  obtain ⟨hu, added, hadded, htells⟩ := tells_of_fill hfill h.agrees
  refine ⟨hu, fun hmem => expect_of_ended ?_⟩
  rw [hadded] at hmem
  rcases List.mem_append.mp hmem with hmem | hmem
  · have hstage : t.stage = .ended := by
      rw [stage, stageAt.eq_def, h.finished hmem]
    rw [hstage] at htells
    exact htells.of_ended.1
  · exact htells.ended_of_mem hmem

theorem sound_after (requests : List Request) {t : Tokenizer} (ht : t.Sound) :
    (after requests t).Sound := by
  apply Source.after_keeps _ requests ht
  intro t request ht
  rcases Queued.ask_cases request t with ⟨u, event, rest, hfill, _, hask⟩ | ⟨e, u, hfill, hask⟩
  · have hu := ht.fill (queued_fill_ok.mp hfill)
    rw [hask]
    cases request with
    | peek => exact hu
    | next => exact ⟨hu.agrees, fun hmem => hu.finished (List.mem_of_mem_tail hmem)⟩
  · obtain ⟨fault, hread, rfl⟩ := queued_fill_error.mp hfill
    obtain ⟨hu, hpending, _⟩ := fill_error hread ht.agrees
    rw [hask]
    refine ⟨hu, fun hmem => ?_⟩
    have hearly : .endDocument ∈ u.early := hpending ▸ hmem
    exact absurd hearly (endDocument_not_mem_early u)

end Tokenizer

open Source (Queued ask after)

/-- What may come behind the errors of a text, whatever a caller asks on. -/
structure Aftermath (text : String) : Prop where
  /-- Nothing waits that was read of what failed, but the node of an array's element. -/
  nothing_given : ∀ requests request e t,
    ask request (after requests (Tokenizer.ofText text)) = .error e t → t.pending = t.early
  /-- Behind a fault in front of a token comes the same error again, or such a node. -/
  stays : ∀ requests request fault t,
    ask request (after requests (Tokenizer.ofText text)) = .error (.json fault) t →
      fault.reason.inFront → ∀ more again,
        (ask again (after more t)).answer = .error (.json fault) ∨
          ∃ event ∈ t.early, (ask again (after more t)).answer = .ok (some event)
  /-- Such a fault is fatal but for the element of an array. -/
  fatal_iff : ∀ requests request fault t,
    ask request (after requests (Tokenizer.ofText text)) = .error (.json fault) t →
      fault.reason.inFront → (Source.Fatal t ↔ t.early = [])
  /-- The document ends outside all containers only. -/
  closed : ∀ requests request t,
    ask request (after requests (Tokenizer.ofText text)) = .ok (some .endDocument) t →
      t.frames = []

namespace Tokenizer

/-- Behind a fault in front of a token the tokenizer is stuck. -/
theorem Sound.stuck {t u : Tokenizer} {fault : Fault} (h : t.Sound)
    (hfill : Tokenizer.fill t = .error fault u) (hfront : fault.reason.inFront) : u.Stuck fault := by
  obtain ⟨_, hpending, s, hrefusal⟩ := fill_error hfill h.agrees
  exact ⟨hrefusal.again hfront, fun event hmem => hpending ▸ hmem⟩

theorem Stuck.answer {t : Tokenizer} {fault : Fault} (h : t.Stuck fault) (more : List Request)
    (again : Request) :
    (Source.ask again (Source.after more t)).answer = .error (.json fault) ∨
      ∃ event ∈ t.early, (Source.ask again (Source.after more t)).answer = .ok (some event) := by
  obtain ⟨hlater, hearly⟩ := h.after more
  have hanswer := (hlater.ask again).1
  rwa [hearly] at hanswer

/-- A tokenizer that is stuck behind the node of an element gives that node. -/
theorem Stuck.fatal_iff {t : Tokenizer} {fault : Fault} (h : t.Stuck fault)
    (hpending : t.pending = t.early) : Source.Fatal t ↔ t.early = [] := by
  constructor
  · intro hfatal
    cases hearly : t.early with
    | nil => rfl
    | cons event rest =>
      rw [hearly] at hpending
      have hfill : fill t = .ok () t :=
        fill_of_pending (by rw [hpending]; exact List.cons_ne_nil _ _)
      obtain ⟨e, he⟩ := hfatal [] .peek
      change (Source.ask .peek t).answer = _ at he
      rw [Queued.ask_of_fill .peek (queued_fill_ok.mpr hfill) hpending] at he
      cases he
  · intro hnone more request
    rcases h.answer more request with herror | ⟨event, hmem, _⟩
    · exact ⟨_, herror⟩
    · rw [hnone] at hmem
      cases hmem

theorem aftermath (text : String) : Aftermath text := by
  have hsound : ∀ requests, (after requests (ofText text)).Sound :=
    fun requests => sound_after requests ⟨rfl, nofun⟩
  have hfill : ∀ {requests request fault t},
      ask request (after requests (ofText text)) = .error (.json fault) t →
        fill (after requests (ofText text)) = .error fault t := by
    intro requests request fault t h
    obtain ⟨_, hread, hfault⟩ := queued_fill_error.mp ((Queued.ask_error_iff request).mp h)
    cases hfault
    exact hread
  constructor
  · intro requests request e t h
    obtain ⟨fault, hread, _⟩ := queued_fill_error.mp ((Queued.ask_error_iff request).mp h)
    exact (fill_error hread (hsound requests).agrees).2.1
  · intro requests request fault t h hfront
    exact ((hsound requests).stuck (hfill h) hfront).answer
  · intro requests request fault t h hfront
    exact ((hsound requests).stuck (hfill h) hfront).fatal_iff
      (fill_error (hfill h) (hsound requests).agrees).2.1
  · intro requests request t h
    rcases Queued.ask_cases request (after requests (ofText text)) with
      ⟨u, event, rest, hfill, hpending, hask⟩ | ⟨e, u, _, hask⟩
    · cases hask.symm.trans h
      have hu := (hsound requests).fill (queued_fill_ok.mp hfill)
      have hmem : .endDocument ∈ u.pending := List.mem_of_mem_head? (congrArg List.head? hpending)
      have hfinished : u.expect = .finished := hu.finished hmem
      have hframes : u.frames = [] := by
        have hagrees := hu.agrees
        rw [Agrees, hfinished] at hagrees
        exact hagrees
      cases request <;> exact hframes
    · cases hask.symm.trans h

end Tokenizer

end DocWalk.Json
