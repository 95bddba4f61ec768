import DocWalk.Json.Tokenizer
import DocWalk.Proofs.Json.Numbers
import DocWalk.Proofs.Json.Strings

/-!
# Turns of the tokenizer

Each operation of the tokenizer that does not fail leaves one of a few states, and this module says
which: `step_iff` and the equivalences behind it name every turn with its condition, so that nothing
that follows opens an operation again. A turn reads some bytes, queues events behind the pending
ones, and changes what is awaited inside which containers; `turned` is the state it leaves.

A turn does not look at what is pending. The events of an element's node, `opening` and `closing`,
are all that a container adds around a value.
-/

set_option autoImplicit false

namespace DocWalk.Json

/-- The events of a scalar: its text, if it has one. -/
def textEvents (text : Option String) : List Event :=
  (text.map .text).toList

/-! ## Scalars -/

namespace Scan

open Grammar Scanner

/-- A number begins with a sign or a digit, and so with no other token. -/
theorem number_head {chars : List Char} (h : Number chars) :
    ∃ c more, chars = c :: more ∧ (c = '-' ∨ Grammar.isDigit c = true) := by
  cases h with
  | mk hsign hw =>
    simp only [List.mem_cons, List.not_mem_nil, or_false] at hsign
    rcases hsign with rfl | rfl
    · cases hw with
      | zero => exact ⟨'0', _, rfl, .inr rfl⟩
      | digits hd =>
        obtain ⟨c, more, rfl⟩ := List.exists_cons_of_ne_nil hd.ne_nil
        exact ⟨c, _, rfl, .inr (hd.isDigit c List.mem_cons_self)⟩
    · exact ⟨'-', _, rfl, .inl rfl⟩

/-- A byte that begins a scalar: no blank, no bracket and no brace. -/
def startsScalar (b : UInt8) : Bool :=
  b = Ascii.quote || b = Ascii.byte 't' || b = Ascii.byte 'f' || b = Ascii.byte 'n'
    || b = Ascii.hyphen || Ascii.isDigit b

/-- A scalar that was read is one of the grammar, and its text is what it shows. -/
theorem scalar_ok {b : UInt8} {text : Option String} {s t : Scanner} (hs : s.OnText)
    (hb : s.rest.head? = some b) (h : scalar b s = .ok text t) :
    ∃ v chars, Scalar v chars ∧ s.Passes chars t ∧ v.events = textEvents text := by
  unfold scalar at h
  split at h
  next hquote =>
    obtain ⟨text, u, hread, hret⟩ := EStateM.bind_eq_ok.mp h
    obtain ⟨rfl, rfl⟩ := EStateM.pure_eq_ok.mp hret
    obtain ⟨written, hw, hpass⟩ := string_ok hs (hquote ▸ hb) hread
    exact ⟨.string text, written, .string hw, hpass, rfl⟩
  split at h
  next =>
    obtain ⟨text, u, hread, hret⟩ := EStateM.bind_eq_ok.mp h
    obtain ⟨rfl, rfl⟩ := EStateM.pure_eq_ok.mp hret
    obtain ⟨rfl, hpass⟩ := literal_ok (by decide) hs hread
    exact ⟨.bool true, _, .true, hpass, rfl⟩
  split at h
  next =>
    obtain ⟨text, u, hread, hret⟩ := EStateM.bind_eq_ok.mp h
    obtain ⟨rfl, rfl⟩ := EStateM.pure_eq_ok.mp hret
    obtain ⟨rfl, hpass⟩ := literal_ok (by decide) hs hread
    exact ⟨.bool false, _, .false, hpass, rfl⟩
  split at h
  next =>
    obtain ⟨text, u, hread, hret⟩ := EStateM.bind_eq_ok.mp h
    obtain ⟨rfl, rfl⟩ := EStateM.pure_eq_ok.mp hret
    obtain ⟨rfl, hpass⟩ := literal_ok (by decide) hs hread
    exact ⟨.null, _, .null, hpass, rfl⟩
  split at h
  next =>
    obtain ⟨text, u, hread, hret⟩ := EStateM.bind_eq_ok.mp h
    obtain ⟨rfl, rfl⟩ := EStateM.pure_eq_ok.mp hret
    obtain ⟨chars, hn, hpass, rfl⟩ := number_ok hs hread
    exact ⟨.number (.ofList chars), chars, .number hn, hpass, rfl⟩
  next => cases h

/-- A scalar of the grammar is read, when what stands behind it cannot belong to a number. -/
theorem scalar_pass {v : Value} {chars : List Char} {s t : Scanner} (h : s.Passes chars t)
    (hv : Scalar v chars) (ht : t.Stops isNumberByte) :
    ∃ b text, s.rest.head? = some b ∧ startsScalar b = true ∧ scalar b s = .ok text t ∧
      v.events = textEvents text := by
  cases hv with
  | null =>
    refine ⟨Ascii.byte 'n', none, h.head? (by decide), by decide, ?_, rfl⟩
    exact EStateM.bind_eq_ok.mpr ⟨"null", t, @literal_pass "null" (by decide) _ _ h, rfl⟩
  | true =>
    refine ⟨Ascii.byte 't', some "true", h.head? (by decide), by decide, ?_, rfl⟩
    exact EStateM.bind_eq_ok.mpr ⟨"true", t, literal_pass (by decide) h, rfl⟩
  | false =>
    refine ⟨Ascii.byte 'f', some "false", h.head? (by decide), by decide, ?_, rfl⟩
    exact EStateM.bind_eq_ok.mpr ⟨"false", t, literal_pass (by decide) h, rfl⟩
  | @string text chars hq =>
    have hread := string_pass h hq
    cases hq with
    | mk =>
      refine ⟨Ascii.quote, some text, h.head? (by decide), by decide, ?_, rfl⟩
      exact EStateM.bind_eq_ok.mpr ⟨text, t, hread, rfl⟩
  | number hn =>
    have hread := number_pass h hn ht
    obtain ⟨c, more, rfl, hc⟩ := number_head hn
    have hlt : c.toNat < 128 := by
      rcases hc with rfl | hc
      · decide
      · exact lt_of_isDigit hc
    have hbyte : Ascii.byte c ≠ Ascii.quote ∧ Ascii.byte c ≠ Ascii.byte 't' ∧
        Ascii.byte c ≠ Ascii.byte 'f' ∧ Ascii.byte c ≠ Ascii.byte 'n' ∧
        (Ascii.byte c = Ascii.hyphen || Ascii.isDigit (Ascii.byte c)) = true := by
      revert hc
      exact Utf8.forall_ascii (P := fun c => c = '-' ∨ Grammar.isDigit c = true →
        Ascii.byte c ≠ Ascii.quote ∧ Ascii.byte c ≠ Ascii.byte 't' ∧
        Ascii.byte c ≠ Ascii.byte 'f' ∧ Ascii.byte c ≠ Ascii.byte 'n' ∧
        (Ascii.byte c = Ascii.hyphen || Ascii.isDigit (Ascii.byte c)) = true) (by decide) c hlt
    obtain ⟨h₁, h₂, h₃, h₄, h₅⟩ := hbyte
    refine ⟨Ascii.byte c, some (.ofList (c :: more)), h.head? hlt, ?_, ?_, rfl⟩
    · rw [startsScalar, Bool.or_assoc, h₅, Bool.or_true]
    · rw [scalar, if_neg h₁, if_neg h₂, if_neg h₃, if_neg h₄, if_pos h₅]
      exact EStateM.bind_eq_ok.mpr ⟨_, t, hread, rfl⟩

/-- A byte that begins a scalar begins nothing else. -/
theorem startsScalar_ne {b : UInt8} (h : startsScalar b = true) :
    Ascii.isBlank b = false ∧ b ≠ Ascii.openBrace ∧ b ≠ Ascii.openBracket ∧
      b ≠ Ascii.closeBracket := by
  refine ⟨?_, ?_, ?_, ?_⟩
  · rw [Ascii.isBlank]
    simp only [Bool.or_eq_false_iff, decide_eq_false_iff_not]
    refine ⟨⟨⟨?_, ?_⟩, ?_⟩, ?_⟩ <;> rintro rfl <;> exact absurd h (by decide)
  all_goals
    rintro rfl
    exact absurd h (by decide)

end Scan

namespace Frame

/-- The character that closes a container. -/
def closer : Frame → Char
  | object => '}'
  | array => ']'

theorem closing_eq (frame : Frame) : frame.closing = Ascii.byte frame.closer := by
  cases frame <;> rfl

theorem closer_lt (frame : Frame) : frame.closer.toNat < 128 := by
  cases frame <;> decide

theorem isBlank_closer (frame : Frame) : Ascii.isBlank (Ascii.byte frame.closer) = false := by
  cases frame <;> decide

end Frame

namespace Tokenizer

/-- The node that opens in front of a value: that of an array's element. -/
def opening (frames : List Frame) : List Event :=
  if frames.head? = some .array then [.startNode { name := "member" }] else []

/-- The node that closes behind a value, save at the root. -/
def closing (frames : List Frame) : List Event :=
  if frames.isEmpty then [] else [.endNode]

@[simp] theorem opening_array (outer : List Frame) :
    opening (.array :: outer) = [.startNode { name := "member" }] := rfl

@[simp] theorem closing_cons (frame : Frame) (outer : List Frame) :
    closing (frame :: outer) = [.endNode] := rfl

theorem endDocument_not_mem_opening (frames : List Frame) : .endDocument ∉ opening frames := by
  intro hmem
  unfold opening at hmem
  split at hmem <;> simp at hmem

theorem endDocument_not_mem_closing (frames : List Frame) : .endDocument ∉ closing frames := by
  intro hmem
  unfold closing at hmem
  split at hmem <;> simp at hmem

/-- The state that a turn leaves. -/
def turned (t : Tokenizer) (s : Scanner) (events : List Event) (expect : Expect)
    (frames : List Frame) : Tokenizer :=
  ⟨s, frames, t.pending ++ events, expect⟩

theorem openElement_eq (t : Tokenizer) :
    openElement t = .ok () { t with pending := t.pending ++ opening t.frames } := by
  unfold openElement opening
  split
  · rfl
  · rw [List.append_nil]

theorem closeMember_eq (t : Tokenizer) :
    closeMember t = .ok () (t.turned t.scanner (closing t.frames) .afterValue t.frames) := by
  unfold closeMember closing turned
  split
  · rw [List.append_nil]
    rfl
  · rfl

/-- A container is left only when it is the innermost and of the kind given. -/
theorem passClosing_iff {frame : Frame} {t u : Tokenizer} :
    passClosing frame t = .ok () u ↔ ∃ outer, t.frames = frame :: outer ∧
      u = t.turned (t.scanner.drop 1) (closing outer) .afterValue outer := by
  have hpass : passClosing frame t = closeContainer frame { t with scanner := t.scanner.drop 1 } :=
    rfl
  rw [hpass]
  constructor
  · intro h
    unfold closeContainer at h
    split at h
    next => cases h
    next innermost outer hframes =>
      split at h
      next heq =>
        rw [closeMember_eq] at h
        cases h
        exact ⟨outer, by rw [← heq]; exact hframes, rfl⟩
      next => cases h
  · rintro ⟨outer, hframes, rfl⟩
    unfold closeContainer
    simp only [hframes, if_true, closeMember_eq]
    rfl

theorem readScalar_iff {b : UInt8} {t u : Tokenizer} :
    readScalar b t = .ok () u ↔ ∃ text s, Scan.scalar b t.scanner = .ok text s ∧
      u = t.turned s (textEvents text ++ closing t.frames) .afterValue t.frames := by
  have hqueue : ∀ (text : Option String) (v : Tokenizer),
      queueText text v = .ok () { v with pending := v.pending ++ textEvents text } := by
    intro text v
    cases text with
    | none =>
      rw [textEvents, Option.map_none, Option.toList_none, List.append_nil]
      rfl
    | some text => rfl
  constructor
  · intro h
    obtain ⟨text, v, h₁, h⟩ := EStateM.bind_eq_ok.mp h
    obtain ⟨s, hs, rfl⟩ := scan_eq_ok.mp h₁
    obtain ⟨_, w, h₂, h⟩ := EStateM.bind_eq_ok.mp h
    rw [hqueue] at h₂
    cases h₂
    rw [closeMember_eq] at h
    cases h
    refine ⟨text, s, hs, ?_⟩
    simp only [turned, List.append_assoc]
  · rintro ⟨text, s, hs, rfl⟩
    refine EStateM.bind_eq_ok.mpr ⟨text, _, scan_eq_ok.mpr ⟨s, hs, rfl⟩, ?_⟩
    refine EStateM.bind_eq_ok.mpr ⟨(), _, hqueue _ _, ?_⟩
    rw [closeMember_eq]
    simp only [turned, List.append_assoc]

/-- Reading a value enters a container or reads a scalar, behind the node of an element. -/
theorem readValue_iff {t u : Tokenizer} :
    readValue t = .ok () u ↔ ∃ b s, Scan.significant t.scanner = .ok (some b) s ∧
      ((b = Ascii.openBrace ∧
          u = t.turned (s.drop 1) (opening t.frames) .firstKey (.object :: t.frames)) ∨
        (b = Ascii.openBracket ∧
          u = t.turned (s.drop 1) (opening t.frames) .firstElement (.array :: t.frames)) ∨
        (b ≠ Ascii.openBrace ∧ b ≠ Ascii.openBracket ∧
          ∃ text s', Scan.scalar b s = .ok text s' ∧
            u = t.turned s' (opening t.frames ++ textEvents text ++ closing t.frames) .afterValue
              t.frames)) := by
  constructor
  · intro h
    obtain ⟨_, v, h₁, h⟩ := EStateM.bind_eq_ok.mp h
    rw [openElement_eq] at h₁
    cases h₁
    obtain ⟨b, w, h₂, h⟩ := EStateM.bind_eq_ok.mp h
    obtain ⟨s, hs, rfl⟩ := scan_eq_ok.mp h₂
    cases b with
    | none => cases h
    | some b =>
      refine ⟨b, s, hs, ?_⟩
      simp only at h
      split at h
      next hb => cases h; exact .inl ⟨hb, rfl⟩
      split at h
      next hb => cases h; exact .inr (.inl ⟨hb, rfl⟩)
      next hne hne' =>
        obtain ⟨text, s', hs', rfl⟩ := readScalar_iff.mp h
        refine .inr (.inr ⟨hne, hne', text, s', hs', ?_⟩)
        simp only [turned, List.append_assoc]
  · rintro ⟨b, s, hs, h⟩
    refine EStateM.bind_eq_ok.mpr ⟨(), _, openElement_eq t, ?_⟩
    refine EStateM.bind_eq_ok.mpr ⟨some b, _, scan_eq_ok.mpr ⟨s, hs, rfl⟩, ?_⟩
    rcases h with ⟨rfl, rfl⟩ | ⟨rfl, rfl⟩ | ⟨hne, hne', text, s', hs', rfl⟩
    · rfl
    · rfl
    · simp only [if_neg hne, if_neg hne']
      refine readScalar_iff.mpr ⟨text, s', hs', ?_⟩
      simp only [turned, List.append_assoc]

/-- Reading a key ends an object that may end here, or reads a key with its colon. -/
theorem readKey_iff {first : Bool} {t u : Tokenizer} :
    readKey first t = .ok () u ↔ ∃ b s, Scan.significant t.scanner = .ok b s ∧
      ((first = true ∧ b = some Ascii.closeBrace ∧ ∃ outer, t.frames = .object :: outer ∧
          u = t.turned (s.drop 1) (closing outer) .afterValue outer) ∨
        (b = some Ascii.quote ∧ ∃ key s' s'', Scan.string s = .ok key s' ∧
          Scan.expect Ascii.colon .expectedColon s' = .ok () s'' ∧
          u = t.turned s'' [.startNode { name := key }] .value t.frames)) := by
  constructor
  · intro h
    obtain ⟨b, v, h₁, h⟩ := EStateM.bind_eq_ok.mp h
    obtain ⟨s, hs, rfl⟩ := scan_eq_ok.mp h₁
    refine ⟨b, s, hs, ?_⟩
    split at h
    next hb =>
      obtain ⟨outer, hframes, rfl⟩ := passClosing_iff.mp h
      exact .inl ⟨hb.1, hb.2, outer, hframes, rfl⟩
    split at h
    next hb =>
      obtain ⟨key, w, h₂, h⟩ := EStateM.bind_eq_ok.mp h
      obtain ⟨s', hs', rfl⟩ := scan_eq_ok.mp h₂
      obtain ⟨_, w, h₃, h⟩ := EStateM.bind_eq_ok.mp h
      obtain ⟨s'', hs'', rfl⟩ := scan_eq_ok.mp h₃
      cases h
      exact .inr ⟨hb, key, s', s'', hs', hs'', rfl⟩
    next => cases h
  · rintro ⟨b, s, hs, h⟩
    refine EStateM.bind_eq_ok.mpr ⟨b, _, scan_eq_ok.mpr ⟨s, hs, rfl⟩, ?_⟩
    rcases h with ⟨rfl, rfl, outer, hframes, rfl⟩ | ⟨rfl, key, s', s'', hs', hs'', rfl⟩
    · rw [if_pos ⟨rfl, rfl⟩]
      exact passClosing_iff.mpr ⟨outer, hframes, rfl⟩
    · rw [if_neg (fun h => absurd h.2 (by decide)), if_pos rfl]
      refine EStateM.bind_eq_ok.mpr ⟨key, _, scan_eq_ok.mpr ⟨s', hs', rfl⟩, ?_⟩
      exact EStateM.bind_eq_ok.mpr ⟨(), _, scan_eq_ok.mpr ⟨s'', hs'', rfl⟩, rfl⟩

/-- An array ends before its first element, or the element is awaited behind the blanks. -/
theorem readFirstElement_iff {t u : Tokenizer} :
    readFirstElement t = .ok () u ↔ ∃ b s, Scan.significant t.scanner = .ok b s ∧
      ((b = some Ascii.closeBracket ∧ ∃ outer, t.frames = .array :: outer ∧
          u = t.turned (s.drop 1) (closing outer) .afterValue outer) ∨
        (b ≠ some Ascii.closeBracket ∧ u = t.turned s [] .value t.frames)) := by
  constructor
  · intro h
    obtain ⟨b, v, h₁, h⟩ := EStateM.bind_eq_ok.mp h
    obtain ⟨s, hs, rfl⟩ := scan_eq_ok.mp h₁
    refine ⟨b, s, hs, ?_⟩
    split at h
    next hb =>
      obtain ⟨outer, hframes, rfl⟩ := passClosing_iff.mp h
      exact .inl ⟨hb, outer, hframes, rfl⟩
    next hb =>
      cases h
      refine .inr ⟨hb, ?_⟩
      simp only [turned, List.append_nil]
  · rintro ⟨b, s, hs, h⟩
    refine EStateM.bind_eq_ok.mpr ⟨b, _, scan_eq_ok.mpr ⟨s, hs, rfl⟩, ?_⟩
    rcases h with ⟨rfl, outer, hframes, rfl⟩ | ⟨hne, rfl⟩
    · rw [if_pos rfl]
      exact passClosing_iff.mpr ⟨outer, hframes, rfl⟩
    · rw [if_neg hne]
      simp only [turned, List.append_nil]
      rfl

/-- Behind a value a container goes on or ends; at the root the text ends. -/
theorem readAfterValue_iff {t u : Tokenizer} :
    readAfterValue t = .ok () u ↔ ∃ b s, Scan.significant t.scanner = .ok b s ∧
      ((t.frames = [] ∧ b = none ∧ u = t.turned s [.endDocument] .finished []) ∨
        ∃ frame outer, t.frames = frame :: outer ∧
          ((b = some Ascii.comma ∧
              u = t.turned (s.drop 1) [] frame.afterComma (frame :: outer)) ∨
            (b = some frame.closing ∧
              u = t.turned (s.drop 1) (closing outer) .afterValue outer))) := by
  constructor
  · intro h
    obtain ⟨b, v, h₁, h⟩ := EStateM.bind_eq_ok.mp h
    obtain ⟨s, hs, rfl⟩ := scan_eq_ok.mp h₁
    refine ⟨b, s, hs, ?_⟩
    split at h
    next hframes =>
      unfold readEnd at h
      split at h
      next => cases h
      next hb =>
        cases h
        refine .inl ⟨hframes, by simpa using hb, ?_⟩
        rw [turned, ← hframes]
    next frame outer hframes =>
      refine .inr ⟨frame, outer, hframes, ?_⟩
      unfold readSeparator at h
      split at h
      next hb =>
        cases h
        refine .inl ⟨hb, ?_⟩
        simp only [turned, List.append_nil, ← hframes]
      split at h
      next hb =>
        obtain ⟨outer', hframes', rfl⟩ := passClosing_iff.mp h
        cases hframes.symm.trans hframes'
        exact .inr ⟨hb, rfl⟩
      next => cases h
  · rintro ⟨b, s, hs, h⟩
    refine EStateM.bind_eq_ok.mpr ⟨b, _, scan_eq_ok.mpr ⟨s, hs, rfl⟩, ?_⟩
    rcases h with ⟨hframes, rfl, rfl⟩ | ⟨frame, outer, hframes, ⟨rfl, rfl⟩ | ⟨rfl, rfl⟩⟩
    · simp only [hframes]
      rfl
    · simp only [hframes, turned, List.append_nil]
      rfl
    · have hne : some frame.closing ≠ some Ascii.comma := by
        cases frame <;> decide
      simp only [hframes, readSeparator, if_neg hne, if_true]
      exact passClosing_iff.mpr ⟨outer, rfl, rfl⟩

end Tokenizer

end DocWalk.Json
