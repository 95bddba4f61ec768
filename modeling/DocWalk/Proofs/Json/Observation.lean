import DocWalk.Proofs.Cursor.Watching
import DocWalk.Proofs.Json.Completeness
import DocWalk.Proofs.Json.Resumption
import DocWalk.Proofs.Json.Soundness

/-!
# Watching a JSON text

A JSON text gives nodes without attributes, and behind its end always the end again, so walks over it
that watch different places go side by side.

**The law** (`watching_only_observes`): whatever two walks over one text watch, and from when on, what
both show at one time is the same, both end alike, and the one is ahead by one event at most. On a text
that writes a value they show the same, up to the end of the document where no depth is too deep; on
any other text both stop at the same fault.
-/

set_option autoImplicit false

namespace DocWalk.Json

open Grammar
open Source (Frugal Queued)

/-- No event of a step has attributes. -/
theorem Moves.attributes_eq {expect expect' : Expect} {frames frames' : List Frame}
    {events : List Event} (h : Moves expect frames events expect' frames') :
    ∀ event ∈ events, event.attributes = [] := by
  have hopening : ∀ frames, ∀ event ∈ Tokenizer.opening frames, event.attributes = [] := by
    intro frames event hmem
    unfold Tokenizer.opening at hmem
    split at hmem
    next =>
      rw [List.mem_singleton.mp hmem]
      rfl
    next => cases hmem
  have hclosing : ∀ frames, ∀ event ∈ Tokenizer.closing frames, event.attributes = [] := by
    intro frames event hmem
    unfold Tokenizer.closing at hmem
    split at hmem
    next => cases hmem
    next =>
      rw [List.mem_singleton.mp hmem]
      rfl
  cases h with
  | start | key | finish | finished =>
    intro event hmem
    rw [List.mem_singleton.mp hmem]
    rfl
  | element | comma => exact List.forall_mem_nil _
  | enter => exact hopening _
  | leave => exact hclosing _
  | scalar text =>
    simp only [List.forall_mem_append]
    refine ⟨⟨hopening _, ?_⟩, hclosing _⟩
    cases text with
    | none => exact List.forall_mem_nil _
    | some text =>
      intro event hmem
      rw [List.mem_singleton.mp hmem]
      rfl

namespace Tokenizer

/-- What waits has no attributes, and an end that waits has been read. -/
structure Unadorned (t : Tokenizer) : Prop where
  sound : t.Sound
  attributes_eq : ∀ event ∈ t.pending, event.attributes = []

theorem attributes_of_fill {t u : Tokenizer} (h : fill t = .ok () u)
    (ht : ∀ event ∈ t.pending, event.attributes = []) :
    ∀ event ∈ u.pending, event.attributes = [] := by
  fun_induction fill t with
  | case1 t hp v hs ih =>
    obtain ⟨events, hmoves, hpending⟩ := moves_of_step hs
    apply ih h
    rw [hpending, List.forall_mem_append]
    exact ⟨ht, hmoves.attributes_eq⟩
  | case2 => cases h
  | case3 =>
    cases h
    exact ht

theorem Unadorned.fill {t u : Tokenizer} (h : t.Unadorned) (hfill : Tokenizer.fill t = .ok () u) :
    u.Unadorned :=
  ⟨h.sound.fill hfill, attributes_of_fill hfill h.attributes_eq⟩

theorem unadorned_ofText (text : String) : (ofText text).Unadorned :=
  ⟨⟨rfl, nofun⟩, nofun⟩

theorem frugal_unadorned : Frugal Unadorned where
  peek := by
    intro s t shown hs hpeek
    obtain ⟨_, _, hfill, _, _⟩ := Queued.peek_ok_iff.mp hpeek
    exact hs.fill (queued_fill_ok.mp hfill)
  next := by
    intro s t event hs hnext
    obtain ⟨v, rest, hfill, hpending, rfl⟩ := Queued.next_ok_iff.mp hnext
    obtain ⟨hsound, hattributes⟩ := hs.fill (queued_fill_ok.mp hfill)
    change v.pending = event :: rest at hpending
    refine ⟨⟨⟨hsound.agrees, ?_⟩, ?_⟩, hattributes event (hpending ▸ List.mem_cons_self)⟩
    · exact fun hmem => hsound.finished (List.mem_of_mem_tail hmem)
    · exact fun event hmem => hattributes event (List.mem_of_mem_tail hmem)
  ended := by
    intro s t hs hnext
    obtain ⟨v, rest, hfill, hpending, rfl⟩ := Queued.next_ok_iff.mp hnext
    have hv := (hs.fill (queued_fill_ok.mp hfill)).sound
    have hfinished : v.expect = .finished :=
      hv.finished (List.mem_of_mem_head? (congrArg List.head? hpending))
    have hstage : stage { v with pending := v.pending.tail } = .ended := by
      rw [stage, stageAt.eq_def, hfinished]
    obtain ⟨u, hu, _⟩ := ordered.ended hstage
    obtain ⟨event, more, hmore⟩ := List.exists_cons_of_ne_nil (Queued.fill_ok hu)
    exact ⟨_, u, Queued.peek_ok_iff.mpr ⟨event, more, hu, hmore, rfl⟩⟩

/-! ## What draining ends with -/

/-- What is written where a document starts is a text. -/
theorem isText_of_completes {text : String} (h : Completes ⟨.start, [], text.toList⟩) :
    ∃ v, IsText v text := by
  generalize hchars : text.toList = chars at h
  cases h with
  | start hvalue =>
    cases hvalue with
    | @value _ v _ _ hv hrest =>
      cases hrest with
      | root hb =>
        refine ⟨v, ?_⟩
        rw [IsText, hchars]
        exact hv.spaced hb

/-- Draining comes to the end of the document on texts that write a value, and on no others. -/
theorem answer_drain_iff (text : String) :
    (Source.drain (ofText text)).2.answer = .ok () ↔ ∃ v, IsText v text := by
  constructor
  · intro hanswer
    cases hdrain : Source.drain (ofText text) with
    | mk given r =>
      rw [hdrain] at hanswer
      cases r with
      | error e t => cases hanswer
      | ok _ t =>
        obtain ⟨hruns, hend⟩ := runs_of_drain hdrain
        exact isText_of_completes (hruns.completes ⟨rfl, rfl, rfl⟩ rfl nofun hend)
  · rintro ⟨v, hv⟩
    obtain ⟨u, hruns, hended⟩ := runs_ofText hv
    have hend : .endDocument ∉ Event.startDocument :: v.events := by
      intro hmem
      cases hmem with
      | tail _ hmem => exact v.endDocument_not_mem hmem
    obtain ⟨given, t, hdrain, _⟩ := (hruns.emits hended).drain hend
    rw [hdrain]
    rfl

/-- Draining a text fails for a fault of the text. -/
theorem fault_of_drain_error {t : Tokenizer} {e : SourceError}
    (h : (Source.drain t).2.answer = .error e) : ∃ fault, e = .json fault := by
  fun_induction Source.drain t with
  | case1 t e' u hnext =>
    cases h
    rw [Queued.next_eq] at hnext
    split at hnext <;> cases hnext
    next hfill =>
      obtain ⟨fault, _, rfl⟩ := queued_fill_error.mp hfill
      exact ⟨fault, rfl⟩
  | case2 => cases h
  | case3 t event v hnext hne _ more outcome hdrain ih =>
    rw [hdrain] at ih
    exact ih h

/-! ## The law -/

open Cursor (Visit Outcome SideBySide drainWatching advance new register)

/-- A walk over a text that watches what is planned. -/
def walk (text : String) (config : Config) (headers : Option (List (String × String)))
    (plan : Nat → List Expression) : List Visit × Outcome Tokenizer Unit :=
  drainWatching plan (new (ofText text) config headers)

/-- Without a limit a walk has no reason to stop but its text. -/
theorem answer_walk (text : String) {config : Config} (headers : Option (List (String × String)))
    (plan : Nat → List Expression) (hlimit : config.maxDepth = none) :
    (walk text config headers plan).2.answer =
      (Source.drain (ofText text)).2.answer.mapError .source := by
  have hbare : Cursor.Bare Unadorned (new (ofText text) config headers) :=
    ⟨rfl, unadorned_ofText text⟩
  have hcovered : Cursor.Covered Owes (new (ofText text) config headers) :=
    ⟨hlimit, owes_ofText text⟩
  rcases Cursor.answer_drainWatching frugal_unadorned hbare plan with hends | ⟨e, he, hown⟩
  · exact hends
  · obtain ⟨fault, hfault⟩ := Cursor.source_of_drainWatching_error nests_owes hcovered he
    exact absurd hfault (hown fault)

/-- **To watch is only to look**, over every text. Two walks that watch whatever they like, from when
they like, go side by side. Over a text that writes a value they show the same, and without a limit
they come to its end; over any other text they fail for the same fault. -/
theorem watching_only_observes (text : String) (config : Config)
    (headers : Option (List (String × String))) (plan other : Nat → List Expression) :
    SideBySide (walk text config headers plan) (walk text config headers other) ∧
      ((∃ v, IsText v text) →
        (walk text config headers other).1 = (walk text config headers plan).1 ∧
          (config.maxDepth = none → ∃ position,
            (walk text config headers plan).1.getLast? = some ⟨.endDocument, position⟩)) ∧
      ((¬∃ v, IsText v text) → config.maxDepth = none → ∃ fault,
        (walk text config headers plan).2.answer = .error (.source (.json fault)) ∧
          (walk text config headers other).2.answer = .error (.source (.json fault))) := by
  have hbare : Cursor.Bare Unadorned (new (ofText text) config headers) :=
    ⟨rfl, unadorned_ofText text⟩
  obtain ⟨hanswer, halong⟩ :=
    (Cursor.Level.refl (new (ofText text) config headers)).alongside frugal_unadorned hbare hbare
      plan other
  refine ⟨halong.sideBySide hanswer, fun hv => ⟨?_, fun hlimit => ?_⟩, fun hv hlimit => ?_⟩
  · -- No walk fails for its source here, whatever the limit.
    refine (halong.eq_of_ne fun fault hfault => ?_).symm
    rcases Cursor.answer_drainWatching frugal_unadorned hbare plan with hends | ⟨e, he, hown⟩
    · have hdrain : (Source.drain (new (ofText text) config headers).source).2.answer =
          .ok () := (answer_drain_iff text).mpr hv
      rw [hdrain, hfault] at hends
      cases hends
    · cases hfault.symm.trans he
      exact hown fault rfl
  · apply Cursor.getLast?_drainWatching
    have hends := answer_walk text headers plan hlimit
    rw [(answer_drain_iff text).mpr hv] at hends
    exact hends
  · rw [answer_walk text headers plan hlimit, answer_walk text headers other hlimit]
    cases hdrain : (Source.drain (ofText text)).2.answer with
    | ok => exact absurd ((answer_drain_iff text).mp hdrain) hv
    | error e =>
      obtain ⟨fault, rfl⟩ := fault_of_drain_error hdrain
      exact ⟨fault, rfl, rfl⟩

/-- A plan to watch one name from the start. -/
def lookout (n : Nat) : List Expression :=
  if n = 0 then [.of "member" 0 "k"] else []

/-- Over a text that is no value, a walk that watches something fails at once, and one that watches
nothing shows the start of the document before. -/
theorem walk_refused :
    (∃ d, walk "x" {} none lookout =
        ([], .error (.source (.json ⟨.unexpectedCharacter, 0⟩)) d)) ∧
      ∃ d, walk "x" {} none (fun _ => []) =
        ([⟨.startDocument, ⟨"", 0⟩⟩], .error (.source (.json ⟨.unexpectedCharacter, 0⟩)) d) := by
  constructor
  · have hfails : ∃ d, advance ((lookout 0).foldl register (new (ofText "x"))) =
        .error (.source (.json ⟨.unexpectedCharacter, 0⟩)) d :=
      ⟨_, EStateM.Result.answer_eq_error_iff.mp (by decide +kernel)⟩
    obtain ⟨d, hd⟩ := hfails
    exact ⟨d, Cursor.drainWatching_error hd⟩
  · have hstarts : ∃ d s, advance (new (ofText "x")) = .ok .startDocument d ∧
        d.attributes = [] ∧ d.position = ⟨"", 0⟩ ∧
        next d.source = .error (.json ⟨.unexpectedCharacter, 0⟩) s :=
      ⟨_, _, EStateM.Result.answer_eq_ok_iff.mp (by decide +kernel), by decide +kernel,
        by decide +kernel, EStateM.Result.answer_eq_error_iff.mp (by decide +kernel)⟩
    obtain ⟨d, s, hadvance, hattributes, hposition, hnext⟩ := hstarts
    have hlast : ∃ f, drainWatching (fun _ => []) (new (ofText "x")) = ([⟨_, _⟩], .error _ f) :=
      Cursor.drainWatching_last hadvance (by simp) hattributes hnext
    rw [hposition] at hlast
    exact hlast

/-- A plan to watch something changes nothing over an array of one word, and over a text that is no
value it ends the walk one event sooner, with the same fault. -/
theorem watching_only_observes_lookout :
    ((∃ v, IsText v "[true]") ∧
      (walk "[true]" {} none lookout).1 = (walk "[true]" {} none fun _ => []).1 ∧
      ∃ position, (walk "[true]" {} none fun _ => []).1.getLast? = some ⟨.endDocument, position⟩) ∧
    (¬∃ v, IsText v "x") ∧
      (walk "x" {} none lookout).1.length + 1 = (walk "x" {} none fun _ => []).1.length ∧
      ∃ fault, (walk "x" {} none fun _ => []).2.answer = .error (.source (.json fault)) ∧
        (walk "x" {} none lookout).2.answer = .error (.source (.json fault)) := by
  have hword : IsText (.array [.bool true]) "[true]" :=
    @Spaced.mk _ [] "[true]".toList [] nofun
      (.array (.one (@Spaced.mk _ [] "true".toList [] nofun (.scalar .true) nofun))) nofun
  obtain ⟨_, hwords, _⟩ := watching_only_observes "[true]" {} none (fun _ => []) lookout
  obtain ⟨hsame, hend⟩ := hwords ⟨_, hword⟩
  obtain ⟨⟨d, hrefused⟩, ⟨f, hlater⟩⟩ := walk_refused
  have hnone : ¬∃ v, IsText v "x" := by
    intro hv
    have hdrain := answer_walk "x" none lookout (show ({} : Config).maxDepth = none from rfl)
    rw [hrefused, (answer_drain_iff "x").mpr hv] at hdrain
    cases hdrain
  obtain ⟨_, _, hfault⟩ := watching_only_observes "x" {} none (fun _ => []) lookout
  refine ⟨⟨⟨_, hword⟩, hsame, hend rfl⟩, hnone, ?_, hfault hnone rfl⟩
  rw [hrefused, hlater]
  rfl

end Tokenizer

end DocWalk.Json
