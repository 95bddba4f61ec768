import DocWalk.Proofs.Json.Failures

/-!
# What is awaited inside which containers

What is awaited and the open containers are set in different places. An opening byte sets both, a
comma what is awaited only, and a closing byte leaves the innermost container before it is looked
whether that one was of the kind that closes. A fault may come between any two of these, and the
next request goes on from there.

**The law** (`agreement_of_underway`): in every state that a tokenizer comes through, behind faults
too, a key is awaited only inside an object and an element only inside an array, and in front of the
first token and behind the last nothing is open. So no closing byte ever meets a container of the
other kind, and the end of the document is queued only where no container is open.
-/

set_option autoImplicit false

namespace DocWalk.Json

open Source (Queued ask after)

/-! ## The reasons of a refusal -/

namespace Scan

/-- The reasons for which a scalar is refused. -/
def scalarReasons : List Reason :=
  [.unexpectedCharacter, .invalidLiteral, .invalidNumber] ++ stringReasons

variable {α : Type} {reasons : List Reason}

theorem FailsFor.mono {more : List Reason} {m : Scan α} (h : FailsFor reasons m)
    (hsubset : reasons ⊆ more) : FailsFor more m :=
  fun s fault t herror => hsubset (h s fault t herror)

theorem failsFor_literal (word : String) : FailsFor [.invalidLiteral] (literal word) :=
  failsFor_bind (failsFor_acceptBytes _) fun _ =>
    failsFor_ite (failsFor_pure _) (failsFor_fail List.mem_cons_self)

theorem failsFor_scalar (b : UInt8) : FailsFor scalarReasons (scalar b) := by
  have hstring : FailsFor scalarReasons string := failsFor_string.mono (by decide)
  have hnumber : FailsFor scalarReasons number := failsFor_number.mono (by decide)
  have hliteral : ∀ word, FailsFor scalarReasons (literal word) :=
    fun word => (failsFor_literal word).mono (by decide)
  unfold scalar
  refine failsFor_ite (failsFor_bind hstring fun _ => failsFor_pure _) ?_
  refine failsFor_ite (failsFor_bind (hliteral _) fun _ => failsFor_pure _) ?_
  refine failsFor_ite (failsFor_bind (hliteral _) fun _ => failsFor_pure _) ?_
  refine failsFor_ite (failsFor_bind (hliteral _) fun _ => failsFor_pure _) ?_
  exact failsFor_ite (failsFor_bind hnumber fun _ => failsFor_pure _) (failsFor_fail (by decide))

end Scan

/-- No reading is refused for a container of another kind. -/
theorem Refusal.words_ne {expect : Expect} {frames : List Frame} {s t : Scanner} {fault : Fault}
    (h : Refusal expect frames s fault t) : fault.reason.words ≠ "mismatched bracket" := by
  have hscalar : ∀ reason ∈ Scan.scalarReasons, reason.words ≠ "mismatched bracket" := by decide
  cases h with
  | noValue => exact show Reason.unexpectedEnd.words ≠ _ by decide
  | scalar _ _ _ herror => exact hscalar _ (Scan.failsFor_scalar _ _ _ _ herror)
  | noKey => exact show Reason.expectedKey.words ≠ _ by decide
  | key _ _ herror =>
    exact hscalar _ (List.mem_append_right _ (Scan.failsFor_string _ _ _ herror))
  | colon _ _ _ herror =>
    rw [Scan.expect_error herror]
    decide
  | trailing => exact show Reason.trailingCharacters.words ≠ _ by decide
  | @separator frame =>
    show frame.missing.words ≠ _
    cases frame <;> decide

/-- A step that queues the end of the document neither comes from a container nor enters one. -/
theorem Moves.frames_of_endDocument {expect expect' : Expect} {frames frames' : List Frame}
    {events : List Event} (h : Moves expect frames events expect' frames')
    (hfits : Fits expect frames) (hend : .endDocument ∈ events) : frames = [] ∧ frames' = [] := by
  have hopening := Tokenizer.endDocument_not_mem_opening
  have hclosing := Tokenizer.endDocument_not_mem_closing
  cases h with
  | start => cases List.mem_singleton.mp hend
  | enter => exact absurd hend (hopening _)
  | scalar text =>
    rcases List.mem_append.mp hend with hend | hend
    · rcases List.mem_append.mp hend with hend | hend
      · exact absurd hend (hopening _)
      · cases text with
        | none => cases hend
        | some text => cases List.mem_singleton.mp hend
    · exact absurd hend (hclosing _)
  | key => cases List.mem_singleton.mp hend
  | element => cases hend
  | comma => cases hend
  | leave => exact absurd hend (hclosing _)
  | finish => exact ⟨rfl, rfl⟩
  | finished => exact ⟨hfits, hfits⟩

/-! ## Every state on the way -/

namespace Tokenizer

/-- The states that a tokenizer of a text comes through: behind requests, of which any may have
failed, and between the tokens that one request reads. -/
inductive Underway (text : String) : Tokenizer → Prop where
  | behind (requests : List Request) : Underway text (after requests (ofText text))
  | between {t u : Tokenizer} : Underway text t → t.pending = [] → step t = .ok () u →
      Underway text u

/-- A step keeps what is so of a state that may have failed. -/
theorem Sound.step {t u : Tokenizer} (h : t.Sound) (hstep : Tokenizer.step t = .ok () u)
    (hpending : t.pending = []) : u.Sound := by
  obtain ⟨events, hmoves, hqueued⟩ := moves_of_step hstep
  refine ⟨hmoves.fits h.agrees, fun hmem => expect_of_ended ?_⟩
  rw [hqueued, hpending, List.nil_append] at hmem
  exact (hmoves.tells h.agrees).ended_of_mem hmem

theorem Underway.sound {text : String} {t : Tokenizer} (h : Underway text t) : t.Sound := by
  induction h with
  | behind requests => exact sound_after requests ⟨rfl, nofun⟩
  | between _ hpending hstep ih => exact ih.step hstep hpending

/-- What is awaited and the open containers agree, and so do what comes of them. -/
structure Agreement (t : Tokenizer) : Prop where
  key : t.expect = .firstKey ∨ t.expect = .key → t.frames.head? = some .object
  element : t.expect = .firstElement → t.frames.head? = some .array
  outside : t.expect = .start ∨ t.expect = .finished → t.frames = []
  /-- No step fails over the kind of a container. -/
  step_error : ∀ fault u, step t = .error fault u → fault.reason.words ≠ "mismatched bracket"
  /-- No request does. -/
  ask_error : ∀ request e u, ask request t = .error e u →
    ∃ fault, e = .json fault ∧ fault.reason.words ≠ "mismatched bracket"
  /-- A step queues the end of the document only where nothing is open, before it and behind. -/
  queued : ∃ events, (step t).left.pending = t.pending ++ events ∧
    (.endDocument ∈ events → t.frames = [] ∧ (step t).left.frames = [])
  /-- Nothing is open while the end of the document waits. -/
  waiting : .endDocument ∈ t.pending → t.frames = []

theorem Sound.frames_eq_nil {t : Tokenizer} (h : t.Sound) (hexpect : t.expect = .finished) :
    t.frames = [] := by
  have hagrees := h.agrees
  rwa [Agrees, hexpect] at hagrees

theorem Sound.agreement {t : Tokenizer} (h : t.Sound) : t.Agreement := by
  have hagrees : Fits t.expect t.frames := h.agrees
  constructor
  · rintro (hexpect | hexpect) <;> rwa [hexpect] at hagrees
  · intro hexpect
    rwa [hexpect] at hagrees
  · rintro (hexpect | hexpect) <;> rwa [hexpect] at hagrees
  · intro fault u herror
    obtain ⟨s, _, hrefusal⟩ := Tokenizer.step_error herror hagrees
    exact hrefusal.words_ne
  · intro request e u herror
    obtain ⟨fault, hfill, rfl⟩ := queued_fill_error.mp ((Queued.ask_error_iff request).mp herror)
    obtain ⟨_, _, s, hrefusal⟩ := fill_error hfill hagrees
    exact ⟨fault, rfl, hrefusal.words_ne⟩
  · cases hstep : Tokenizer.step t with
    | ok _ u =>
      obtain ⟨events, hmoves, hqueued⟩ := moves_of_step hstep
      exact ⟨events, hqueued, hmoves.frames_of_endDocument hagrees⟩
    | error fault u =>
      obtain ⟨s, rfl, _⟩ := Tokenizer.step_error hstep hagrees
      exact ⟨t.early, rfl, fun hmem => absurd hmem (endDocument_not_mem_early t)⟩
  · exact fun hmem => h.frames_eq_nil (h.finished hmem)

/-- **What is awaited and the open containers agree in every state** that a tokenizer comes through,
whatever is asked of it and whatever has failed: no closing byte meets a container of the other
kind, and the document ends outside all containers. -/
theorem agreement_of_underway {text : String} {t : Tokenizer} (h : Underway text t) : t.Agreement :=
  h.sound.agreement

/-- Behind a bracket that closes nothing the object inside the array is still the innermost
container, and between the two opening bytes it was the array. -/
theorem agreement_behind_fault :
    (∃ t : Tokenizer, Underway r"[{]" t ∧ t.expect = .firstElement ∧
        t.frames.head? = some .array) ∧
      ∃ t, Underway r"[{]" t ∧ t.expect = .firstKey ∧ t.frames.head? = some .object ∧
        ask .next t = .error (.json ⟨.expectedKey, 2⟩) t := by
  have hbetween : Underway r"[{]"
      ⟨⟨[Ascii.openBrace, Ascii.closeBracket], 1⟩, [.array], [], .firstElement⟩ :=
    .between (.behind [.next]) (by decide +kernel) (by decide +kernel)
  have hbehind : Underway r"[{]" (after [.next, .next, .next] (ofText r"[{]")) := .behind _
  refine ⟨⟨_, hbetween, rfl, (agreement_of_underway hbetween).element rfl⟩,
    ⟨_, hbehind, ?_, ?_, ?_⟩⟩
  · decide +kernel
  · exact (agreement_of_underway hbehind).key (.inl (by decide +kernel))
  · decide +kernel

end Tokenizer

end DocWalk.Json
