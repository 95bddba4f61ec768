import DocWalk.Proofs.Json.Moves
import DocWalk.Proofs.Source.Requests

/-!
# Reading comes to an end

A step that does not fail takes at least one byte, save three: the one that starts the document, the
one that has seen an array to have a first element, and the one at the end (`Free`). That holds in
every state, in the middle of a token or of a character too, and two bounds follow.

A tokenizer that has nothing pending steps until something is, or a step fails; `Fills` counts these
steps. Each that queues nothing goes forward in the text or turns from the first element of an array
to its value, and there are not two of the latter without one of the former between them.

The events are paid for by bytes, two for each. That is not enough for an element of an array: one
byte may be a number, with the two ends of its node around it. So the byte that opens an array, or a
comma in one, leaves something over for the element behind it, and `owed` is what is left over at a
place. `credit` is what is left of all; no step adds to it, and each event that is taken takes from it.

**The law** (`reading_ends`): filling ends, whatever was asked before and failed; and one of the first
`2 * n + 2` events asked of a text of `n` bytes is the end of the document or an error.
-/

set_option autoImplicit false

namespace DocWalk.Json

namespace Scan

theorem forward_scalar (b : UInt8) : Forward (scalar b) :=
  forward_ite (forward_bind forward_string fun _ => forward_pure _) <|
    forward_ite (forward_bind (forward_literal _) fun _ => forward_pure _) <|
      forward_ite (forward_bind (forward_literal _) fun _ => forward_pure _) <|
        forward_ite (forward_bind (forward_literal _) fun _ => forward_pure _) <|
          forward_ite (forward_bind forward_number fun _ => forward_pure _) (forward_fail _)

end Scan

open Source (worth worth_append worth_singleton_le)

/-- A step between two states of awaiting that need not take a byte. -/
def Free (expect expect' : Expect) : Prop :=
  expect = .start ∨ (expect = .firstElement ∧ expect' = .value) ∨ expect' = .finished

/-- What is left over for a value where it is awaited, and for the start of the document. -/
def owed (expect : Expect) (frames : List Frame) : Nat :=
  match expect with
  | .start => 1 + worth (Tokenizer.opening frames)
  | .value | .firstElement => worth (Tokenizer.opening frames)
  | .firstKey | .key | .afterValue | .finished => 0

theorem worth_opening_le (frames : List Frame) : worth (Tokenizer.opening frames) ≤ 1 := by
  unfold Tokenizer.opening
  split
  · exact worth_singleton_le _
  · exact Nat.zero_le 1

theorem worth_closing_le (frames : List Frame) : worth (Tokenizer.closing frames) ≤ 1 := by
  unfold Tokenizer.closing
  split
  · exact Nat.zero_le 1
  · exact worth_singleton_le _

theorem worth_textEvents_le (text : Option String) : worth (textEvents text) ≤ 1 := by
  cases text with
  | none => exact Nat.zero_le 1
  | some text => exact worth_singleton_le _

namespace Moves

variable {expect expect' : Expect} {frames frames' : List Frame} {events : List Event}

/-- A step that need not take a byte starts the document, finds an element, or is at the end. -/
theorem cases_of_free (h : Moves expect frames events expect' frames') (hfree : Free expect expect') :
    (expect = .start ∧ expect' = .value ∧ frames' = frames ∧ events = [.startDocument]) ∨
      (expect = .firstElement ∧ expect' = .value ∧ frames' = frames ∧ events = []) ∨
      (expect' = .finished ∧ events = [.endDocument]) := by
  cases h with
  | start => exact .inl ⟨rfl, rfl, rfl, rfl⟩
  | element => exact .inr (.inl ⟨rfl, rfl, rfl, rfl⟩)
  | finish | finished => exact .inr (.inr ⟨rfl, rfl⟩)
  | enter frame => cases frame <;> simp [Free, Frame.afterOpening] at hfree
  | comma frame => cases frame <;> simp [Free, Frame.afterComma] at hfree
  | scalar => simp [Free] at hfree
  | key _ _ hexpect => rcases hexpect with rfl | rfl <;> simp [Free] at hfree
  | leave frame _ hexpect =>
    rcases hexpect with rfl | rfl <;> cases frame <;> simp [Free, Frame.afterOpening] at hfree

/-- Two for a byte pay for the events of a step and for what it leaves over. -/
theorem worth_add_owed_le (h : Moves expect frames events expect' frames') :
    worth events + owed expect' frames' ≤ owed expect frames + 2 := by
  cases h with
  | start => exact Nat.le_add_right _ 2
  | element =>
    show 0 + worth (Tokenizer.opening frames) ≤ worth (Tokenizer.opening frames) + 2
    omega
  | finish | finished => exact Nat.zero_le _
  | enter frame =>
    have howed : owed frame.afterOpening (frame :: frames) ≤ 1 := by
      cases frame
      · exact Nat.zero_le 1
      · exact worth_opening_le _
    show worth (Tokenizer.opening frames) + _ ≤ worth (Tokenizer.opening frames) + 2
    omega
  | scalar text =>
    have htext := worth_textEvents_le text
    have hclosing := worth_closing_le frames
    show _ + 0 ≤ worth (Tokenizer.opening frames) + 2
    rw [worth_append, worth_append]
    omega
  | key key =>
    have hkey := worth_singleton_le (.startNode { name := key })
    have hopening := worth_opening_le frames
    show _ + worth (Tokenizer.opening frames) ≤ _
    omega
  | comma frame outer =>
    have howed : owed frame.afterComma (frame :: outer) ≤ 1 := by
      cases frame
      · exact Nat.zero_le 1
      · exact worth_opening_le _
    show 0 + _ ≤ _
    omega
  | leave frame =>
    have hclosing := worth_closing_le frames'
    show _ + 0 ≤ _
    omega

/-- A step that takes no byte has its events paid for. -/
theorem worth_add_owed_le_of_free (h : Moves expect frames events expect' frames')
    (hfree : Free expect expect') :
    worth events + owed expect' frames' ≤ owed expect frames := by
  rcases h.cases_of_free hfree with
    ⟨rfl, rfl, rfl, rfl⟩ | ⟨rfl, rfl, rfl, rfl⟩ | ⟨rfl, rfl⟩
  · exact Nat.le_refl _
  · exact Nat.le_of_eq (Nat.zero_add _)
  · exact Nat.zero_le _

end Moves

namespace Tokenizer

/-! ## What a step takes -/

/-- A step goes forward in the text, by a byte at least unless it is free. -/
structure Steps (t u : Tokenizer) : Prop where
  reaches : t.scanner.Reaches u.scanner
  takes : Free t.expect u.expect ∨ u.scanner.rest.length < t.scanner.rest.length

/-- A byte seen behind blanks is taken. -/
theorem Steps.of_drop {t u : Tokenizer} {b : UInt8} {s : Scanner}
    (h : Scan.significant t.scanner = .ok (some b) s) (hu : u.scanner = s.drop 1) : Steps t u := by
  obtain ⟨hle, hlt⟩ := significant_some h
  constructor
  · rw [hu]
    exact (Scan.forward_significant.of_ok h).trans (s.reaches_drop 1)
  · rw [hu]
    exact .inr (Nat.lt_of_lt_of_le hlt hle)

/-- A token behind blanks is taken. -/
theorem Steps.of_token {t u : Tokenizer} {b : Option UInt8} {s : Scanner}
    (h : Scan.significant t.scanner = .ok b s) (hreach : s.Reaches u.scanner)
    (hlt : u.scanner.rest.length < s.rest.length) : Steps t u where
  reaches := (Scan.forward_significant.of_ok h).trans hreach
  takes := .inr (Nat.lt_of_lt_of_le hlt (significant_le h))

theorem steps_readValue {t u : Tokenizer} (h : readValue t = .ok () u) : Steps t u := by
  obtain ⟨b, s, hs, hturn⟩ := readValue_iff.mp h
  rcases hturn with ⟨_, rfl⟩ | ⟨_, rfl⟩ | ⟨_, _, text, s', hs', rfl⟩
  · exact .of_drop hs rfl
  · exact .of_drop hs rfl
  · exact .of_token hs ((Scan.forward_scalar b).of_ok hs') (Scan.takes_scalar b _ _ _ hs')

theorem steps_readKey {first : Bool} {t u : Tokenizer} (h : readKey first t = .ok () u) :
    Steps t u := by
  obtain ⟨b, s, hs, hturn⟩ := readKey_iff.mp h
  rcases hturn with ⟨_, rfl, outer, _, rfl⟩ | ⟨_, key, s', s'', hs', hs'', rfl⟩
  · exact .of_drop hs rfl
  · have hcolon := (Scan.forward_expect _ _).of_ok hs''
    exact .of_token hs ((Scan.forward_string.of_ok hs').trans hcolon)
      (Nat.lt_of_le_of_lt hcolon.length_le (Scan.takes_string _ _ _ hs'))

theorem steps_readFirstElement {t u : Tokenizer} (h : readFirstElement t = .ok () u)
    (ht : t.expect = .firstElement) : Steps t u := by
  obtain ⟨b, s, hs, hturn⟩ := readFirstElement_iff.mp h
  rcases hturn with ⟨rfl, outer, _, rfl⟩ | ⟨_, rfl⟩
  · exact .of_drop hs rfl
  · exact ⟨Scan.forward_significant.of_ok hs, .inl (.inr (.inl ⟨ht, rfl⟩))⟩

theorem steps_readAfterValue {t u : Tokenizer} (h : readAfterValue t = .ok () u) : Steps t u := by
  obtain ⟨b, s, hs, hturn⟩ := readAfterValue_iff.mp h
  rcases hturn with ⟨_, _, rfl⟩ | ⟨frame, outer, _, ⟨rfl, rfl⟩ | ⟨rfl, rfl⟩⟩
  · exact ⟨Scan.forward_significant.of_ok hs, .inl (.inr (.inr rfl))⟩
  · exact .of_drop hs rfl
  · exact .of_drop hs rfl

theorem steps_of_step {t u : Tokenizer} (h : step t = .ok () u) : Steps t u := by
  unfold step at h
  split at h
  next he =>
    cases h
    exact ⟨.refl _, .inl (.inl he)⟩
  next => exact steps_readValue h
  next => exact steps_readKey h
  next => exact steps_readKey h
  next he => exact steps_readFirstElement h he
  next => exact steps_readAfterValue h
  next he =>
    cases h
    exact ⟨.refl _, .inl (.inr (.inr he))⟩

/-! ## Filling -/

/-- A step forward in the text, or from the first element of an array to its value. -/
def Progress (t u : Tokenizer) : Prop :=
  t.position < u.position ∨ (t.expect = .firstElement ∧ u.expect = .value)

/-- Filling a tokenizer takes so many steps, and each that queues no event makes progress. -/
inductive Fills : Tokenizer → Nat → EStateM.Result Fault Tokenizer Unit → Prop where
  | done {t : Tokenizer} : t.pending ≠ [] → Fills t 0 (.ok () t)
  | failed {t u : Tokenizer} {fault : Fault} : t.pending = [] → step t = .error fault u →
      Fills t 1 (.error fault u)
  | step {t u : Tokenizer} {n : Nat} {result : EStateM.Result Fault Tokenizer Unit} :
      t.pending = [] → step t = .ok () u → (u.pending = [] → Progress t u) → Fills u n result →
      Fills t (n + 1) result

/-- A step that queues nothing makes progress. -/
theorem progress_of_step {t u : Tokenizer} (h : Tokenizer.step t = .ok () u)
    (hqueued : u.pending = t.pending) : Progress t u := by
  obtain ⟨hreach, hfree | hlt⟩ := steps_of_step h
  · obtain ⟨events, hmoves, hpending⟩ := moves_of_step h
    have hnone : events = [] := List.self_eq_append_right.mp (hqueued.symm.trans hpending)
    rcases hmoves.cases_of_free hfree with ⟨_, _, _, hevents⟩ | ⟨he, he', _⟩ | ⟨_, hevents⟩
    · cases hevents.symm.trans hnone
    · exact .inr ⟨he, he'⟩
    · cases hevents.symm.trans hnone
  · have hsum := hreach.pos_add_length
    left
    show t.scanner.pos < u.scanner.pos
    omega

theorem effort_le (t : Tokenizer) : t.effort ≤ 2 * t.scanner.rest.length + 2 := by
  unfold effort
  split
  · split <;> omega
  · omega

theorem effort_pos {t : Tokenizer} (hp : t.pending = []) : 0 < t.effort := by
  rw [effort, hp, List.isEmpty_nil, if_pos rfl]
  omega

theorem effort_lt_of_step {t u : Tokenizer} (hp : t.pending = [])
    (h : Tokenizer.step t = .ok () u) : u.effort < t.effort := by
  by_cases hu : u.pending = []
  · have hlt := (step_advances h).2 hu
    rw [show t.effort = _ from if_pos (List.isEmpty_iff.mpr hp)]
    exact hlt
  · rw [show u.effort = 0 from if_neg (fun h => hu (List.isEmpty_iff.mp h))]
    exact effort_pos hp

/-- Filling ends within the effort. -/
theorem fills (t : Tokenizer) : ∃ n ≤ t.effort, Fills t n (fill t) := by
  fun_induction fill t with
  | case1 t hp u hs ih =>
    obtain ⟨n, hn, hfills⟩ := ih
    have hlt := effort_lt_of_step hp hs
    exact ⟨n + 1, by omega,
      .step hp hs (fun hu => progress_of_step hs (hu.trans hp.symm)) hfills⟩
  | case2 t hp fault u hs => exact ⟨1, effort_pos hp, .failed hp hs⟩
  | case3 t hp => exact ⟨0, Nat.zero_le _, .done hp⟩

/-! ## Credit -/

/-- What is left of all that bytes pay for. -/
def credit (t : Tokenizer) : Nat :=
  worth t.pending + 2 * t.scanner.rest.length + owed t.expect t.frames + 1

theorem credit_le_of_step {t u : Tokenizer} (h : step t = .ok () u) : u.credit ≤ t.credit := by
  obtain ⟨events, hmoves, hpending⟩ := moves_of_step h
  obtain ⟨hreach, hfree | hlt⟩ := steps_of_step h
  · have howed := hmoves.worth_add_owed_le_of_free hfree
    have hle := hreach.length_le
    rw [credit, credit, hpending, worth_append]
    omega
  · have howed := hmoves.worth_add_owed_le
    rw [credit, credit, hpending, worth_append]
    omega

theorem credit_le_of_fill {t u : Tokenizer} (h : fill t = .ok () u) : u.credit ≤ t.credit := by
  fun_induction fill t with
  | case1 t hp v hs ih => exact Nat.le_trans (ih h) (credit_le_of_step hs)
  | case2 => cases h
  | case3 t hp =>
    cases h
    exact Nat.le_refl _

/-- An event that is taken is taken from the credit, unless it is the end of the document. -/
theorem credit_lt_of_next {t u : Tokenizer} {event : Event}
    (h : (Source.next : EStateM SourceError Tokenizer Event) t = .ok event u)
    (hne : event ≠ .endDocument) : u.credit < t.credit := by
  obtain ⟨v, rest, hfill, hpending, rfl⟩ := Source.Queued.next_ok_iff.mp h
  have hle := credit_le_of_fill (queued_fill_ok.mp hfill)
  change v.pending = event :: rest at hpending
  show worth v.pending.tail + 2 * v.scanner.rest.length + owed v.expect v.frames + 1 < _
  rw [credit, hpending, Source.worth_cons hne] at hle
  rw [hpending, List.tail_cons]
  omega

/-- So many events taken include the end of the document, or one of them fails to be. -/
theorem ends_of_credit {k : Nat} {t : Tokenizer} (h : t.credit ≤ k) :
    ∃ answer ∈ Source.answers (List.replicate k .next) t,
      (∃ e, answer.2 = .error e) ∨ answer.2 = .ok (some .endDocument) := by
  induction k generalizing t with
  | zero => exact absurd h (Nat.not_le.mpr (Nat.succ_pos _))
  | succ k ih =>
    rw [List.replicate_succ, Source.answers]
    cases hnext : (Source.next : EStateM SourceError Tokenizer Event) t with
    | error e u =>
      rw [Source.ask_next_error hnext]
      exact ⟨_, List.mem_cons_self, .inl ⟨e, rfl⟩⟩
    | ok event u =>
      rw [Source.ask_next_ok hnext]
      by_cases he : event = .endDocument
      · exact ⟨_, List.mem_cons_self, .inr (by rw [he]; rfl)⟩
      · have hlt := credit_lt_of_next hnext he
        obtain ⟨answer, hmem, hanswer⟩ := @ih u (by omega)
        exact ⟨answer, List.mem_cons_of_mem _ hmem, hanswer⟩

theorem credit_ofText (text : String) : (ofText text).credit = 2 * text.utf8ByteSize + 2 := by
  show 0 + 2 * (Utf8.encode text).length + 1 + 1 = _
  rw [Utf8.length_encode]
  omega

/-- **Reading a text comes to an end**, wherever in it: filling takes at most two steps for each byte
that is left, and two more, and each that queues no event goes forward or turns from the first element
of an array to its value. One of the first `2 * n + 2` events asked of a text of `n` bytes is the end
of the document or fails to be read. -/
theorem reading_ends (text : String) :
    (∀ requests, ∃ n, n ≤ 2 * (Source.after requests (ofText text)).scanner.rest.length + 2 ∧
      Fills (Source.after requests (ofText text)) n (fill (Source.after requests (ofText text)))) ∧
    ∃ answer ∈ Source.answers (List.replicate (2 * text.utf8ByteSize + 2) .next) (ofText text),
      (∃ e, answer.2 = .error e) ∨ answer.2 = .ok (some .endDocument) := by
  refine ⟨fun requests => ?_, ends_of_credit (Nat.le_of_eq (credit_ofText text))⟩
  obtain ⟨n, hn, hfills⟩ := fills (Source.after requests (ofText text))
  exact ⟨n, Nat.le_trans hn (effort_le _), hfills⟩

end Tokenizer

end DocWalk.Json
