import DocWalk.Proofs.Json.Runs
import DocWalk.Proofs.Source.Contract

/-!
# What the tokenizer awaits, and inside what

A step that does not fail changes what is awaited and the open containers, and queues events; `Moves`
says how, and names no byte. So it holds of every step from every state, also of one that an error has
left in the middle of a character.

What is awaited and the innermost container agree (`Fits`), and each step keeps that. Then the two say
how many nodes are open: a container beside the outermost stands in a node of its own, and a value
awaited in an object has its node open already. The events of a step are told from that number to the
one behind it (`Moves.tells`), which is the contract of the tokenizer as a source.
-/

set_option autoImplicit false

namespace DocWalk.Json

/-- What is awaited behind the opening byte of a container. -/
def Frame.afterOpening : Frame → Expect
  | object => .firstKey
  | array => .firstElement

/-- A step from what is awaited inside some containers to what is awaited behind it, with the events it
queues. -/
inductive Moves : Expect → List Frame → List Event → Expect → List Frame → Prop where
  | start (frames : List Frame) : Moves .start frames [.startDocument] .value frames
  | enter (frame : Frame) (frames : List Frame) :
      Moves .value frames (Tokenizer.opening frames) frame.afterOpening (frame :: frames)
  | scalar (text : Option String) (frames : List Frame) :
      Moves .value frames
        (Tokenizer.opening frames ++ textEvents text ++ Tokenizer.closing frames) .afterValue frames
  | key {expect : Expect} (key : String) (frames : List Frame) :
      expect = .firstKey ∨ expect = .key →
      Moves expect frames [.startNode { name := key }] .value frames
  | element (frames : List Frame) : Moves .firstElement frames [] .value frames
  | comma (frame : Frame) (outer : List Frame) :
      Moves .afterValue (frame :: outer) [] frame.afterComma (frame :: outer)
  | leave {expect : Expect} (frame : Frame) (outer : List Frame) :
      expect = frame.afterOpening ∨ expect = .afterValue →
      Moves expect (frame :: outer) (Tokenizer.closing outer) .afterValue outer
  | finish : Moves .afterValue [] [.endDocument] .finished []
  | finished (frames : List Frame) : Moves .finished frames [.endDocument] .finished frames

/-- What is awaited agrees with the innermost container. -/
def Fits (expect : Expect) (frames : List Frame) : Prop :=
  match expect with
  | .firstKey | .key => frames.head? = some .object
  | .firstElement => frames.head? = some .array
  | .start | .finished => frames = []
  | .value | .afterValue => True

/-- How far the document is told where something is awaited inside some containers. -/
def stageAt (expect : Expect) (frames : List Frame) : Stage :=
  match expect, frames with
  | .start, _ => .fresh
  | .finished, _ => .ended
  | .value, .object :: outer => .inside (outer.length + 1)
  | _, frames => .inside (frames.length - 1)

namespace Moves

variable {expect expect' : Expect} {frames frames' : List Frame} {events : List Event}

/-- A step keeps the agreement. -/
theorem fits (h : Moves expect frames events expect' frames') (hfits : Fits expect frames) :
    Fits expect' frames' := by
  cases h with
  | enter frame => cases frame <;> rfl
  | comma frame =>
    cases frame with
    | object => rfl
    | array => trivial
  | finish => rfl
  | finished => exact hfits
  | start | scalar | key | element | leave => trivial

/-! ## What a step tells -/

/-- A value is told from the node that is open for it, or from the one it opens, to behind it. -/
theorem tells_opening (frames : List Frame) :
    Tells (stageAt .value frames) (Tokenizer.opening frames) (.inside frames.length) := by
  match frames with
  | [] => exact .nil _
  | .object :: outer => exact .nil _
  | .array :: outer => exact .single rfl

theorem tells_closing (frames : List Frame) :
    Tells (.inside frames.length) (Tokenizer.closing frames) (stageAt .afterValue frames) := by
  match frames with
  | [] => exact .nil _
  | frame :: outer => exact .single rfl

theorem tells_textEvents (depth : Nat) (text : Option String) :
    Tells (.inside depth) (textEvents text) (.inside depth) := by
  cases text with
  | none => exact .nil _
  | some text => exact .texts depth [text]

/-- What a step queues is told from the stage before to the stage behind it. -/
theorem tells (h : Moves expect frames events expect' frames') (hfits : Fits expect frames) :
    Tells (stageAt expect frames) events (stageAt expect' frames') := by
  cases h with
  | start =>
    cases hfits
    exact .single rfl
  | enter frame frames =>
    cases frame <;> exact tells_opening frames
  | scalar text frames =>
    exact ((tells_opening frames).append (tells_textEvents _ text)).append (tells_closing frames)
  | key key frames hexpect =>
    rcases hexpect with rfl | rfl
    all_goals
      obtain ⟨outer, rfl⟩ := List.head?_eq_some_iff.mp hfits
      exact .single (Stage.tell_startNode _ _)
  | element frames =>
    obtain ⟨outer, rfl⟩ := List.head?_eq_some_iff.mp hfits
    exact .nil _
  | comma frame outer => cases frame <;> exact .nil _
  | leave frame _ hexpect =>
    have hstage : stageAt expect (frame :: frames') = .inside frames'.length := by
      rcases hexpect with rfl | rfl
      · cases frame <;> rfl
      · rfl
    rw [hstage]
    exact tells_closing frames'
  | finish => exact .single rfl
  | finished => exact .single rfl

end Moves

namespace Tokenizer

/-! ## Every step moves -/

theorem moves_of_readValue {t u : Tokenizer} (h : readValue t = .ok () u) (ht : t.expect = .value) :
    ∃ events, Moves t.expect t.frames events u.expect u.frames ∧
      u.pending = t.pending ++ events := by
  obtain ⟨b, s, _, hturn⟩ := readValue_iff.mp h
  rw [ht]
  rcases hturn with ⟨_, rfl⟩ | ⟨_, rfl⟩ | ⟨_, _, text, s', _, rfl⟩
  · exact ⟨_, .enter .object t.frames, rfl⟩
  · exact ⟨_, .enter .array t.frames, rfl⟩
  · exact ⟨_, .scalar text t.frames, rfl⟩

theorem moves_of_readKey {first : Bool} {t u : Tokenizer} (h : readKey first t = .ok () u)
    (ht : t.expect = if first then .firstKey else .key) :
    ∃ events, Moves t.expect t.frames events u.expect u.frames ∧
      u.pending = t.pending ++ events := by
  obtain ⟨b, s, _, hturn⟩ := readKey_iff.mp h
  rcases hturn with ⟨rfl, _, outer, hframes, rfl⟩ | ⟨_, key, s', s'', _, _, rfl⟩
  · rw [hframes]
    exact ⟨_, .leave .object outer (.inl ht), rfl⟩
  · have hexpect : t.expect = .firstKey ∨ t.expect = .key := by
      cases first with
      | true => exact .inl ht
      | false => exact .inr ht
    exact ⟨_, .key key t.frames hexpect, rfl⟩

theorem moves_of_readFirstElement {t u : Tokenizer} (h : readFirstElement t = .ok () u)
    (ht : t.expect = .firstElement) :
    ∃ events, Moves t.expect t.frames events u.expect u.frames ∧
      u.pending = t.pending ++ events := by
  obtain ⟨b, s, _, hturn⟩ := readFirstElement_iff.mp h
  rcases hturn with ⟨_, outer, hframes, rfl⟩ | ⟨_, rfl⟩
  · rw [hframes]
    exact ⟨_, .leave .array outer (.inl ht), rfl⟩
  · rw [ht]
    exact ⟨_, .element t.frames, rfl⟩

theorem moves_of_readAfterValue {t u : Tokenizer} (h : readAfterValue t = .ok () u)
    (ht : t.expect = .afterValue) :
    ∃ events, Moves t.expect t.frames events u.expect u.frames ∧
      u.pending = t.pending ++ events := by
  obtain ⟨b, s, _, hturn⟩ := readAfterValue_iff.mp h
  rw [ht]
  rcases hturn with ⟨hframes, _, rfl⟩ | ⟨frame, outer, hframes, ⟨_, rfl⟩ | ⟨_, rfl⟩⟩
  · rw [hframes]
    exact ⟨_, .finish, rfl⟩
  · rw [hframes]
    exact ⟨_, .comma frame outer, rfl⟩
  · rw [hframes]
    exact ⟨_, .leave frame outer (.inr rfl), rfl⟩

theorem moves_of_step {t u : Tokenizer} (h : step t = .ok () u) :
    ∃ events, Moves t.expect t.frames events u.expect u.frames ∧
      u.pending = t.pending ++ events := by
  unfold step at h
  split at h
  next he =>
    cases h
    rw [he]
    exact ⟨_, .start t.frames, rfl⟩
  next he => exact moves_of_readValue h he
  next he => exact moves_of_readKey h he
  next he => exact moves_of_readKey h he
  next he => exact moves_of_readFirstElement h he
  next he => exact moves_of_readAfterValue h he
  next he =>
    cases h
    simp only [he]
    exact ⟨_, .finished t.frames, rfl⟩

/-! ## The contract of the tokenizer -/

/-- What is awaited agrees with the innermost container. -/
def Agrees (t : Tokenizer) : Prop :=
  Fits t.expect t.frames

/-- How far the document is told behind the pending events. -/
def stage (t : Tokenizer) : Stage :=
  stageAt t.expect t.frames

/-- What is read until an event is pending is told from the stage before to the stage behind it. -/
theorem tells_of_fill {t u : Tokenizer} (h : fill t = .ok () u) (ht : t.Agrees) :
    u.Agrees ∧ ∃ added, u.pending = t.pending ++ added ∧ Tells t.stage added u.stage := by
  fun_induction fill t with
  | case1 t hp v hs ih =>
    obtain ⟨events, hmoves, hpending⟩ := moves_of_step hs
    obtain ⟨hu, added, hadded, htells⟩ := ih h (hmoves.fits ht)
    refine ⟨hu, events ++ added, ?_, (hmoves.tells ht).append htells⟩
    rw [hadded, hpending, List.append_assoc]
  | case2 => cases h
  | case3 t hp =>
    cases h
    exact ⟨ht, [], (List.append_nil _).symm, .nil _⟩

instance : Source.Queued Tokenizer where
  fill := EStateM.adaptExcept .json fill
  pending := pending
  dropFirst t := { t with pending := t.pending.tail }
  pending_dropFirst _ := rfl
  fill_ok h := (fill_ok (EStateM.adaptExcept_eq_ok.mp h)).2
  fill_of_pending h := EStateM.adaptExcept_eq_ok.mpr (fill_of_pending h)
  peek_eq t := by
    show peek t = _
    unfold peek EStateM.adaptExcept
    cases fill t <;> rfl
  next_eq t := by
    show next t = _
    unfold next EStateM.adaptExcept
    cases fill t <;> rfl

theorem queued_fill_ok {t u : Tokenizer} :
    (Source.Queued.fill : EStateM SourceError Tokenizer Unit) t = .ok () u ↔ fill t = .ok () u :=
  EStateM.adaptExcept_eq_ok

theorem expect_of_ended {t : Tokenizer} (h : t.stage = .ended) : t.expect = .finished := by
  unfold stage stageAt at h
  split at h
  · cases h
  next he => exact he
  · cases h
  · cases h

theorem ordered : Source.Ordered position stage Agrees where
  fill := by
    intro t u ht h
    exact tells_of_fill (queued_fill_ok.mp h) ht
  dropFirst := fun ht => ⟨ht, rfl, rfl⟩
  ended := by
    intro t ht
    obtain ⟨s, frames, pending, expect⟩ := t
    obtain rfl : expect = .finished := expect_of_ended ht
    by_cases hp : pending = []
    · subst hp
      refine ⟨⟨s, frames, [.endDocument], .finished⟩, queued_fill_ok.mpr ?_, rfl⟩
      rw [fill_turn (u := ⟨s, frames, [.endDocument], .finished⟩) rfl rfl]
      exact fill_of_pending (List.cons_ne_nil _ _)
    · exact ⟨_, queued_fill_ok.mpr (fill_of_pending hp), rfl⟩

/-- **The tokenizer keeps the contract of a source**, on every text. -/
theorem contract (text : String) : Source.Contract position (ofText text) := by
  have hfirst : fill (ofText text) =
      .ok () ⟨.ofText text, [], [.startDocument], .value⟩ := by
    rw [fill_turn (u := ⟨.ofText text, [], [.startDocument], .value⟩) rfl rfl]
    exact fill_of_pending (List.cons_ne_nil _ _)
  exact ordered.contract ⟨rfl, .nil _⟩ ⟨_, queued_fill_ok.mpr hfirst⟩

end Tokenizer

end DocWalk.Json
