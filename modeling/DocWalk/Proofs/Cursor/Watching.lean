import DocWalk.Proofs.Cursor.DepthFirst
import DocWalk.Proofs.Cursor.Interchange
import DocWalk.Proofs.Cursor.OpenNodes
import DocWalk.Proofs.Source.Requests

/-!
# To watch is only to look

A cursor that watches places looks one event ahead with every advance; one that watches nothing does
not. So two walks over one document that differ in what is watched, and from when on, are in different
states between advances: the one source has read ahead. `Level` is what stays the same, and of the
sources it asks only that they give the same next event.

Where the look ahead fails the walk stops one event earlier than a walk that does not look. That walk
goes to this event and fails at the next advance, for the same reason. Attributes would come in between,
and an error behind the end of the document would be met by the one walk only; `Frugal` rules out both.

**The laws**: two walks from cursors that are level go side by side (`Level.alongside`). Each ends as
draining its source ends, or stops for a reason of its own (`answer_drainWatching`), of which there is
none without a limit on the depth (`source_of_drainWatching_error`).
-/

set_option autoImplicit false

namespace DocWalk

open EStateM

variable {σ : Type}

/-- Sources that give nodes without attributes, and behind the end of the document an event to show. -/
structure Source.Frugal [Source σ] (frugal : σ → Prop) : Prop where
  peek {s t : σ} {shown : Option Event} : frugal s →
    (Source.peek : EStateM SourceError σ _) s = .ok shown t → frugal t
  next {s t : σ} {event : Event} : frugal s →
    (Source.next : EStateM SourceError σ _) s = .ok event t → frugal t ∧ event.attributes = []
  ended {s t : σ} : frugal s → (Source.next : EStateM SourceError σ _) s = .ok .endDocument t →
    ∃ shown u, (Source.peek : EStateM SourceError σ _) t = .ok shown u

/-- Sources that give the same next event drain alike. -/
theorem Source.drain_congr [FiniteSource σ] {s t : σ}
    (h : (Source.next : EStateM SourceError σ Event) t = Source.next s) :
    Source.drain t = Source.drain s := by
  cases hs : (Source.next : EStateM SourceError σ Event) s with
  | error e u => rw [Source.drain_error hs, Source.drain_error (h.trans hs)]
  | ok event u =>
    by_cases hend : event = .endDocument
    · subst hend
      rw [Source.drain_end hs, Source.drain_end (h.trans hs)]
    · rw [Source.drain_next hs hend, Source.drain_next (h.trans hs) hend]

namespace Cursor

/-- Moves on to the end or an error, and before each advance watches the places that a plan names for
it. -/
def drainWatching [FiniteSource σ] (plan : Nat → List Expression) (c : Cursor σ) :
    List Visit × Outcome σ Unit :=
  match _h : advance ((plan 0).foldl register c) with
  | .error e d => ([], .error e d)
  | .ok event d =>
    if _he : event = .endDocument then ([⟨event, d.position⟩], .ok () d)
    else
      (⟨event, d.position⟩ :: (drainWatching (fun n => plan (n + 1)) d).1,
        (drainWatching (fun n => plan (n + 1)) d).2)
termination_by c.left
decreasing_by
  all_goals
    have hlt := advance_lt _h _he
    rwa [foldl_register] at hlt

/-! ## Cursors that are level -/

/-- Two cursors in the same place, with the same settings, whose sources give the same next event. What
they watch and have caught may differ. -/
structure Level [Source σ] (c d : Cursor σ) : Prop where
  config_eq : d.config = c.config
  names_eq : d.names = c.names
  path_eq : d.path = c.path
  current_eq : d.current = c.current
  attributes_eq : d.attributes = c.attributes
  next_eq : (Source.next : EStateM SourceError σ Event) d.source = Source.next c.source

namespace Level

variable [Source σ] {c d f : Cursor σ}

theorem refl (c : Cursor σ) : Level c c :=
  ⟨rfl, rfl, rfl, rfl, rfl, rfl⟩

theorem symm (h : Level c d) : Level d c :=
  ⟨h.config_eq.symm, h.names_eq.symm, h.path_eq.symm, h.current_eq.symm, h.attributes_eq.symm,
    h.next_eq.symm⟩

theorem trans (h : Level c d) (k : Level d f) : Level c f :=
  ⟨k.config_eq.trans h.config_eq, k.names_eq.trans h.names_eq, k.path_eq.trans h.path_eq,
    k.current_eq.trans h.current_eq, k.attributes_eq.trans h.attributes_eq,
    k.next_eq.trans h.next_eq⟩

theorem position_eq (h : Level c d) : d.position = c.position := by
  rw [position, position, depth, depth, h.path_eq, h.names_eq]

theorem arrive (h : Level c d) (event : Event) :
    Level { c with current := some event } { d with current := some event } :=
  ⟨h.config_eq, h.names_eq, h.path_eq, rfl, h.attributes_eq, h.next_eq⟩

end Level

theorem level_register [Source σ] (places : List Expression) (c : Cursor σ) :
    Level c (places.foldl register c) := by
  rw [foldl_register]
  exact ⟨rfl, rfl, rfl, rfl, rfl, rfl⟩

/-- No attribute waits, and none will. -/
structure Bare (frugal : σ → Prop) (c : Cursor σ) : Prop where
  attributes_eq : c.attributes = []
  frugal : frugal c.source

theorem Bare.register {frugal : σ → Prop} {c : Cursor σ} (h : Bare frugal c)
    (places : List Expression) : Bare frugal (places.foldl Cursor.register c) := by
  rw [foldl_register]
  exact ⟨h.attributes_eq, h.frugal⟩

theorem Covered.register {owes : Nat → σ → Prop} {c : Cursor σ} (h : Covered owes c)
    (places : List Expression) : Covered owes (places.foldl Cursor.register c) := by
  rw [foldl_register]
  exact ⟨h.maxDepth_eq, h.owes⟩

/-- The attributes that wait behind an event are its own, where none waited before it. -/
theorem enter_attributes {event : Event} {c d : Cursor σ} (h : enter event c = .ok () d)
    (hc : c.attributes = []) : d.attributes = event.attributes := by
  have hnode : toNode c = .ok () d → d.attributes = [] := by
    intro htoNode
    unfold toNode at htoNode
    split at htoNode <;> cases htoNode <;> exact hc
  cases event with
  | startNode node =>
    change openNode node c = _ at h
    unfold openNode at h
    split at h
    next =>
      cases h
      rfl
    next =>
      split at h
      next => cases h
      next =>
        cases h
        rfl
  | endNode =>
    change closeNode c = _ at h
    unfold closeNode at h
    split at h <;> cases h
    exact hc
  | attr =>
    cases h
    exact hc
  | startDocument => exact hnode h
  | endDocument => exact hnode h
  | text => exact hnode h

/-- To enter an event fails for a reason of the cursor only. -/
theorem ne_source_of_enter_error {event : Event} {c d : Cursor σ} {e : WalkError}
    (h : enter event c = .error e d) (fault : SourceError) : e ≠ .source fault := by
  rcases enter_error_cases h with ⟨path, limit, rfl, _⟩ | ⟨rfl, _⟩
  · exact nofun
  · exact nofun

theorem ask_eq_error {α : Type} {request : EStateM SourceError σ α} {c d : Cursor σ}
    {e : WalkError} : ask request c = .error e d ↔
      ∃ fault s, request c.source = .error fault s ∧ e = .source fault ∧
        d = { c with source := s } := by
  unfold ask
  cases request c.source with
  | ok => simp
  | error fault s =>
    constructor
    · intro h
      cases h
      exact ⟨fault, s, rfl, rfl, rfl⟩
    · rintro ⟨_, _, hrequest, rfl, rfl⟩
      cases hrequest
      rfl

section

variable [Source σ]

theorem level_take : Agree Level (take : Walk σ Event) take := by
  intro c d h
  unfold take
  rw [h.attributes_eq]
  split
  next a rest _ =>
    exact .ok ⟨h.config_eq, h.names_eq, h.path_eq, h.current_eq, rfl, h.next_eq⟩
  next =>
    unfold ask
    rw [h.next_eq]
    split
    next s _ => exact .ok ⟨h.config_eq, h.names_eq, h.path_eq, h.current_eq, h.attributes_eq, rfl⟩
    next s _ => exact .error ⟨h.config_eq, h.names_eq, h.path_eq, h.current_eq, h.attributes_eq, rfl⟩

theorem level_enter (event : Event) : Agree Level (enter event : Walk σ Unit) (enter event) := by
  rintro ⟨source, config, names, path, current, attributes, registry, patterns, headers, journal⟩
    ⟨source', config', names', path', current', attributes', registry', patterns', headers', journal'⟩
    ⟨hconfig, hnames, hpath, hcurrent, hattributes, hnext⟩
  dsimp only at hconfig hnames hpath hcurrent hattributes hnext
  subst hconfig hnames hpath hcurrent hattributes
  have htoNode : (toNode ⟨source, config', names', path', current', attributes', registry, patterns,
      headers, journal⟩).Alike Level (toNode ⟨source', config', names', path', current', attributes',
        registry', patterns', headers', journal'⟩) := by
    cases current' with
    | none => exact .ok ⟨rfl, rfl, rfl, rfl, rfl, hnext⟩
    | some event =>
      cases event with
      | attr | startDocument | endDocument | startNode | endNode | text =>
        exact .ok ⟨rfl, rfl, rfl, rfl, rfl, hnext⟩
  cases event with
  | startNode node =>
    show Result.Alike _ (openNode node _) (openNode node _)
    unfold openNode
    dsimp only
    split
    next => exact .ok ⟨rfl, rfl, rfl, rfl, rfl, hnext⟩
    next limit _ =>
      show Result.Alike _ (if limit ≤ names'.length then _ else _)
        (if limit ≤ names'.length then _ else _)
      split
      next => exact .error ⟨rfl, rfl, rfl, rfl, rfl, hnext⟩
      next => exact .ok ⟨rfl, rfl, rfl, rfl, rfl, hnext⟩
  | endNode =>
    cases names' with
    | nil => exact .error ⟨rfl, rfl, rfl, rfl, rfl, hnext⟩
    | cons name outer => exact .ok ⟨rfl, rfl, rfl, rfl, rfl, hnext⟩
  | attr a => exact .ok ⟨rfl, rfl, rfl, rfl, rfl, hnext⟩
  | startDocument | endDocument | text => exact htoNode

/-- Takes the next event and moves to it; an advance without its look ahead. -/
def reach : Walk σ Event := do
  let event ← take
  enter event
  return event

theorem level_reach : Agree Level (reach : Walk σ Event) reach := by
  apply level_take.bind
  intro event
  apply (level_enter event).bind
  intro _
  exact .pure event

theorem advance_eq : (advance : Walk σ Event) =
    reach >>= fun event => watch event >>= fun _ => arrive event := by
  simp only [advance, reach, bind_assoc, pure_bind]

theorem advance_of_reach_error {c d : Cursor σ} {e : WalkError} (h : reach c = .error e d) :
    advance c = .error e d := by
  rw [advance_eq]
  exact bind_eq_error.mpr (.inl h)

theorem advance_of_watch {c d f : Cursor σ} {event : Event} (hreach : reach c = .ok event d)
    (hwatch : watch event d = .ok () f) :
    advance c = .ok event { f with current := some event } := by
  rw [advance_eq]
  exact bind_eq_ok.mpr ⟨event, d, hreach, bind_eq_ok.mpr ⟨(), f, hwatch, rfl⟩⟩

theorem advance_of_watch_error {c d f : Cursor σ} {event : Event} {e : WalkError}
    (hreach : reach c = .ok event d) (hwatch : watch event d = .error e f) :
    advance c = .error e f := by
  rw [advance_eq]
  exact bind_eq_error.mpr (.inr ⟨event, d, hreach, bind_eq_error.mpr (.inl hwatch)⟩)

/-! ## One advance -/

/-- To watch fails where something is watched and the source fails to show what is next. -/
theorem watch_eq_error_iff {event : Event} {c d : Cursor σ} {e : WalkError} :
    watch event c = .error e d ↔ event.isAttribute = false ∧ c.registry.isEmpty = false ∧
      ∃ fault s, (Source.peek : EStateM SourceError σ (Option Event)) c.source = .error fault s ∧
        e = .source fault ∧ d = { c with source := s } := by
  constructor
  · intro h
    unfold watch at h
    split at h
    next => cases h
    next hattribute =>
      unfold lookAhead at h
      split at h
      next => cases h
      next hempty =>
        split at h <;> cases h
        next hask =>
          obtain ⟨fault, s, hpeek, rfl, rfl⟩ := ask_eq_error.mp hask
          rw [Bool.not_eq_true] at hattribute hempty
          exact ⟨hattribute, hempty, fault, s, hpeek, rfl, rfl⟩
  · rintro ⟨hattribute, hempty, fault, s, hpeek, rfl, rfl⟩
    have hask : ask Source.peek c = .error (.source fault) { c with source := s } :=
      ask_of_error hpeek
    rw [watch, hattribute]
    show lookAhead event.isText c = _
    rw [lookAhead, hempty, hask]
    rfl

theorem source_of_watch_error {event : Event} {c d : Cursor σ} {e : WalkError}
    (h : watch event c = .error e d) : ∃ fault, e = .source fault := by
  obtain ⟨_, _, fault, _, _, rfl, _⟩ := watch_eq_error_iff.mp h
  exact ⟨fault, rfl⟩

theorem source_of_take_error {c d : Cursor σ} {e : WalkError} (h : take c = .error e d) :
    ∃ fault, e = .source fault := by
  unfold take at h
  split at h
  next => cases h
  next =>
    obtain ⟨fault, _, _, rfl, _⟩ := ask_eq_error.mp h
    exact ⟨fault, rfl⟩

theorem take_of_attributes_nil {c : Cursor σ} (h : c.attributes = []) :
    (take : Walk σ Event) c = ask Source.next c := by
  unfold take
  rw [h]

/-- Without attributes a cursor enters the next event of its source. -/
theorem reach_eq_ok_iff {c d : Cursor σ} {event : Event} (hc : c.attributes = []) :
    reach c = .ok event d ↔
      ∃ s, (Source.next : EStateM SourceError σ Event) c.source = .ok event s ∧
        enter event { c with source := s } = .ok () d := by
  constructor
  · intro h
    obtain ⟨taken, _, htake, h⟩ := bind_eq_ok.mp h
    obtain ⟨_, _, henter, hpure⟩ := bind_eq_ok.mp h
    obtain ⟨rfl, rfl⟩ := pure_eq_ok.mp hpure
    rw [take_of_attributes_nil hc] at htake
    obtain ⟨s, hnext, rfl⟩ := ask_eq_ok.mp htake
    exact ⟨s, hnext, henter⟩
  · rintro ⟨s, hnext, henter⟩
    have htake := (take_of_attributes_nil hc).trans (ask_eq_ok.mpr ⟨s, hnext, rfl⟩)
    exact bind_eq_ok.mpr ⟨_, _, htake, bind_eq_ok.mpr ⟨_, _, henter, rfl⟩⟩

/-- Without attributes a cursor fails where its source does. -/
theorem reach_of_next_error {c : Cursor σ} {e : SourceError} {s : σ} (hc : c.attributes = [])
    (h : (Source.next : EStateM SourceError σ Event) c.source = .error e s) :
    reach c = .error (.source e) { c with source := s } :=
  bind_eq_error.mpr (.inl ((take_of_attributes_nil hc).trans (ask_of_error h)))

/-- Without a limit a cursor over a source that nests fails for its source only. -/
theorem source_of_advance_error {owes : Nat → σ → Prop} (nests : Source.Nests owes) {c d : Cursor σ}
    (hcovered : Covered owes c) {e : WalkError} (h : advance c = .error e d) :
    ∃ fault, e = .source fault := by
  rcases advance_eq_error_iff.mp h with htake | ⟨event, f, htake, hfail | ⟨g, _, hwatch⟩⟩
  · exact source_of_take_error htake
  · obtain ⟨g, henter, _⟩ := (taken_of_take nests hcovered htake).enter
    cases henter.symm.trans hfail
  · exact source_of_watch_error hwatch

/-- A cursor gets nowhere where its source fails, or for a reason of its own. -/
theorem reach_error {c d : Cursor σ} {e : WalkError} (hc : c.attributes = [])
    (h : reach c = .error e d) :
    (∃ fault s, e = .source fault ∧
        (Source.next : EStateM SourceError σ Event) c.source = .error fault s) ∨
      ∀ fault, e ≠ .source fault := by
  rcases bind_eq_error.mp h with htake | ⟨event, f, _, hrest⟩
  · rw [take_of_attributes_nil hc] at htake
    obtain ⟨fault, s, hnext, rfl, _⟩ := ask_eq_error.mp htake
    exact .inl ⟨fault, s, rfl, hnext⟩
  · rcases bind_eq_error.mp hrest with henter | ⟨_, _, _, hpure⟩
    · exact .inr (ne_source_of_enter_error henter)
    · cases hpure

variable {frugal : σ → Prop} (laws : Source.Frugal frugal) {c d : Cursor σ} {event : Event}

include laws

/-- Where a cursor gets to is behind the next event of its source. -/
theorem reach_ok (h : Bare frugal c) (hreach : reach c = .ok event d) :
    (Source.next : EStateM SourceError σ Event) c.source = .ok event d.source ∧ Bare frugal d := by
  obtain ⟨s, hnext, henter⟩ := (reach_eq_ok_iff h.attributes_eq).mp hreach
  obtain ⟨hfrugal, hnone⟩ := laws.next h.frugal hnext
  obtain ⟨hsource, _⟩ := enter_source henter
  have hattributes := enter_attributes henter h.attributes_eq
  rw [hsource]
  exact ⟨hnext, hattributes.trans hnone, hsource ▸ hfrugal⟩

/-- To watch leaves a cursor level, or fails as the next event does. -/
theorem watch_cases [Source.LawfulPeek σ] (h : Bare frugal c) (event : Event) :
    (∃ d, watch event c = .ok () d ∧ Level c d ∧ Bare frugal d) ∨
      ∃ e s d, (Source.peek : EStateM SourceError σ (Option Event)) c.source = .error e s ∧
        watch event c = .error (.source e) d := by
  unfold watch
  split
  next => exact .inl ⟨c, rfl, .refl c, h⟩
  next =>
    unfold lookAhead
    split
    next => exact .inl ⟨c, rfl, .refl c, h⟩
    next =>
      cases hpeek : (Source.peek : EStateM SourceError σ (Option Event)) c.source with
      | error e s =>
        rw [ask_of_error hpeek]
        exact .inr ⟨e, s, _, rfl, rfl⟩
      | ok shown s =>
        obtain ⟨_, _, hnext⟩ := Source.LawfulPeek.peek_ok hpeek
        have hlevel : Level c { c with source := s } := ⟨rfl, rfl, rfl, rfl, rfl, hnext⟩
        have hbare : Bare frugal { c with source := s } := ⟨h.attributes_eq, laws.peek h.frugal hpeek⟩
        have hask : ask Source.peek c = .ok shown { c with source := s } :=
          ask_eq_ok.mpr ⟨s, hpeek, rfl⟩
        rw [hask]
        refine .inl ?_
        split
        next text f hshown =>
          cases hshown
          refine ⟨_, rfl, ?_⟩
          unfold catchText
          split <;> exact ⟨⟨rfl, rfl, rfl, rfl, rfl, hnext⟩, ⟨hbare.attributes_eq, hbare.frugal⟩⟩
        next hshown =>
          cases hshown
          exact ⟨_, rfl, hlevel, hbare⟩
        next hshown => cases hshown

/-- A cursor that has got somewhere advances to there, or it fails as its source fails with the next
event; not at the end. -/
theorem advance_of_reach_ok [Source.LawfulPeek σ] (h : Bare frugal c)
    (hreach : reach c = .ok event d) :
    (∃ f, advance c = .ok event f ∧ Level { d with current := some event } f ∧ Bare frugal f) ∨
      ∃ e s f, event ≠ .endDocument ∧
        (Source.next : EStateM SourceError σ Event) d.source = .error e s ∧
        advance c = .error (.source e) f := by
  obtain ⟨hnext, hbare⟩ := reach_ok laws h hreach
  rcases watch_cases laws hbare event with ⟨f, hwatch, hlevel, hf⟩ | ⟨e, s, f, hpeek, hwatch⟩
  · refine .inl ⟨_, advance_of_watch hreach hwatch, hlevel.arrive event, ?_⟩
    exact ⟨hf.attributes_eq, hf.frugal⟩
  · refine .inr ⟨e, s, f, ?_, Source.LawfulPeek.peek_error hpeek,
      advance_of_watch_error hreach hwatch⟩
    -- Behind the end there is something to show.
    rintro rfl
    obtain ⟨shown, t, hshown⟩ := laws.ended h.frugal hnext
    cases hpeek.symm.trans hshown

end

/-! ## Side by side -/

section

variable [FiniteSource σ] {c d : Cursor σ} {plan : Nat → List Expression}

theorem drainWatching_error {e : WalkError}
    (h : advance ((plan 0).foldl register c) = .error e d) :
    drainWatching plan c = ([], .error e d) := by
  rw [drainWatching]
  split
  next hfail =>
    cases h.symm.trans hfail
    rfl
  next hgo => cases h.symm.trans hgo

theorem drainWatching_end (h : advance ((plan 0).foldl register c) = .ok .endDocument d) :
    drainWatching plan c = ([⟨.endDocument, d.position⟩], .ok () d) := by
  rw [drainWatching]
  split
  next hfail => cases h.symm.trans hfail
  next hgo =>
    cases h.symm.trans hgo
    rfl

theorem drainWatching_go {event : Event} (h : advance ((plan 0).foldl register c) = .ok event d)
    (hne : event ≠ .endDocument) :
    drainWatching plan c =
      (⟨event, d.position⟩ :: (drainWatching (fun n => plan (n + 1)) d).1,
        (drainWatching (fun n => plan (n + 1)) d).2) := by
  rw [drainWatching]
  split
  next hfail => cases h.symm.trans hfail
  next hgo =>
    cases h.symm.trans hgo
    rw [dif_neg hne]

/-- To plan nothing is to drain. -/
theorem drainWatching_nil (c : Cursor σ) : drainWatching (fun _ => []) c = drain c := by
  fun_induction drain c with
  | case1 c e d hadvance =>
    apply drainWatching_error
    exact hadvance
  | case2 c d hadvance =>
    apply drainWatching_end
    exact hadvance
  | case3 c event d hadvance hne shown outcome hdrain ih =>
    refine (drainWatching_go (d := d) ?_ hne).trans ?_
    · exact hadvance
    · rw [ih, hdrain]

/-- A walk that does not look ahead goes one event further, and fails there. -/
theorem drainWatching_last {event : Event} {e : SourceError} {s : σ}
    (h : advance ((plan 0).foldl register c) = .ok event d) (hne : event ≠ .endDocument)
    (hd : d.attributes = [])
    (hnext : (Source.next : EStateM SourceError σ Event) d.source = .error e s) :
    ∃ f, drainWatching plan c = ([⟨event, d.position⟩], .error (.source e) f) := by
  have hfails : ∃ f, advance ((plan 1).foldl register d) = .error (.source e) f := by
    rw [foldl_register]
    exact ⟨_, advance_of_reach_error (reach_of_next_error hd hnext)⟩
  obtain ⟨f, hf⟩ := hfails
  exact ⟨f, by rw [drainWatching_go h hne, drainWatching_error hf]⟩

/-- A walk that does not fail shows the end of the document last. -/
theorem getLast?_drainWatching (h : (drainWatching plan c).2.answer = .ok ()) :
    ∃ position, (drainWatching plan c).1.getLast? = some ⟨.endDocument, position⟩ := by
  fun_induction drainWatching plan c with
  | case1 => cases h
  | case2 _ _ d => exact ⟨d.position, rfl⟩
  | case3 plan c event d hadvance hne ih =>
    obtain ⟨position, hlast⟩ := ih h
    exact ⟨position, by rw [List.getLast?_cons, hlast]; rfl⟩

/-- Without a limit a walk over a source that nests fails for its source only. -/
theorem source_of_drainWatching_error {owes : Nat → σ → Prop} (nests : Source.Nests owes)
    (hcovered : Covered owes c) {e : WalkError} (h : (drainWatching plan c).2.answer = .error e) :
    ∃ fault, e = .source fault := by
  fun_induction drainWatching plan c with
  | case1 plan c e' d hadvance =>
    cases h
    exact source_of_advance_error nests (hcovered.register _) hadvance
  | case2 => cases h
  | case3 plan c event d hadvance hne ih =>
    have hagain := nested_advance nests (hcovered.register (plan 0))
    rw [hadvance] at hagain
    exact ih hagain.covered h

/-- Two walks that cannot be told apart but for one event that the one shows and the other does not
show any more. -/
structure SideBySide (walk other : List Visit × Outcome σ Unit) : Prop where
  /-- What both show at one time is the same. -/
  agree : ∀ (n : Nat) (visit visit' : Visit), walk.1[n]? = some visit →
    other.1[n]? = some visit' → visit = visit'
  /-- Both end alike. -/
  answer_eq : other.2.answer = walk.2.answer
  length_le : walk.1.length ≤ other.1.length + 1 ∧ other.1.length ≤ walk.1.length + 1

/-- Two walks with the same end, the one of which may have gone one event further where both fail for
their source. -/
inductive Alongside : Except WalkError Unit → List Visit → List Visit → Prop where
  | together (answer : Except WalkError Unit) : Alongside answer [] []
  | behind (e : SourceError) (visit : Visit) : Alongside (.error (.source e)) [] [visit]
  | ahead (e : SourceError) (visit : Visit) : Alongside (.error (.source e)) [visit] []
  | both {answer : Except WalkError Unit} {shown others : List Visit} (visit : Visit) :
      Alongside answer shown others → Alongside answer (visit :: shown) (visit :: others)

namespace Alongside

variable {answer : Except WalkError Unit} {shown others : List Visit}

/-- What both show at one time is the same. -/
theorem agree (h : Alongside answer shown others) {n : Nat} {visit visit' : Visit}
    (hvisit : shown[n]? = some visit) (hvisit' : others[n]? = some visit') : visit = visit' := by
  induction h generalizing n with
  | together => cases hvisit
  | behind => cases hvisit
  | ahead => cases hvisit'
  | both first _ ih =>
    cases n with
    | zero =>
      cases hvisit
      cases hvisit'
      rfl
    | succ n => exact ih hvisit hvisit'

theorem length_le (h : Alongside answer shown others) :
    shown.length ≤ others.length + 1 ∧ others.length ≤ shown.length + 1 := by
  induction h with
  | together => exact ⟨Nat.zero_le _, Nat.zero_le _⟩
  | behind => exact ⟨Nat.zero_le _, Nat.le_refl _⟩
  | ahead => exact ⟨Nat.le_refl _, Nat.zero_le _⟩
  | both _ _ ih => exact ⟨Nat.succ_le_succ ih.1, Nat.succ_le_succ ih.2⟩

omit [FiniteSource σ] in
theorem sideBySide {walk other : List Visit × Outcome σ Unit}
    (h : Alongside walk.2.answer walk.1 other.1) (hanswer : other.2.answer = walk.2.answer) :
    SideBySide walk other :=
  ⟨fun _ _ _ hvisit hvisit' => h.agree hvisit hvisit', hanswer, h.length_le⟩

/-- Walks that do not fail for their source show the same. -/
theorem eq_of_ne (h : Alongside answer shown others) (hne : ∀ fault, answer ≠ .error (.source fault)) :
    shown = others := by
  induction h with
  | together => rfl
  | behind e | ahead e => exact absurd rfl (hne e)
  | both visit _ ih => rw [ih hne]

end Alongside

variable {frugal : σ → Prop} [Source.LawfulPeek σ] (laws : Source.Frugal frugal)

include laws

/-- **What is watched does not show**: two walks from cursors that are level go side by side, whatever
each of them watches and from when on. -/
theorem Level.alongside {c d : Cursor σ} (h : Level c d) (hc : Bare frugal c)
    (hd : Bare frugal d) (plan other : Nat → List Expression) :
    (drainWatching other d).2.answer = (drainWatching plan c).2.answer ∧
      Alongside (drainWatching plan c).2.answer (drainWatching plan c).1
        (drainWatching other d).1 := by
  have hregistered : Level ((plan 0).foldl register c) ((other 0).foldl register d) :=
    (level_register _ c).symm.trans (h.trans (level_register _ d))
  cases hreach : reach ((plan 0).foldl register c) with
  | error e f =>
    obtain ⟨g, hreach', _⟩ := level_reach.of_error hregistered hreach
    rw [drainWatching_error (advance_of_reach_error hreach),
      drainWatching_error (advance_of_reach_error hreach')]
    exact ⟨rfl, .together _⟩
  | ok event f =>
    obtain ⟨g, hreach', hlevel⟩ := level_reach.of_ok hregistered hreach
    have hpair := hlevel.arrive event
    rcases advance_of_reach_ok laws (hc.register _) hreach with
      ⟨c', hadvance, hc', hbare⟩ | ⟨e, s, c', hne, hnext, hadvance⟩ <;>
    rcases advance_of_reach_ok laws (hd.register _) hreach' with
      ⟨d', hadvance', hd', hbare'⟩ | ⟨e', s', d', hne', hnext', hadvance'⟩
    next =>
      -- Both advance, and are level again.
      have hagain : Level c' d' := hc'.symm.trans (hpair.trans hd')
      by_cases hend : event = .endDocument
      · subst hend
        rw [drainWatching_end hadvance, drainWatching_end hadvance', hagain.position_eq]
        exact ⟨rfl, .both _ (.together _)⟩
      · obtain ⟨hanswer, halong⟩ := hagain.alongside hbare hbare' (fun n => plan (n + 1))
          fun n => other (n + 1)
        rw [drainWatching_go hadvance hend, drainWatching_go hadvance' hend, hagain.position_eq]
        exact ⟨hanswer, .both _ halong⟩
    next =>
      have hfails := hc'.next_eq.trans (hlevel.next_eq.symm.trans hnext')
      obtain ⟨_, hlast⟩ := drainWatching_last hadvance hne' hbare.attributes_eq hfails
      rw [hlast, drainWatching_error hadvance']
      exact ⟨rfl, .ahead _ _⟩
    next =>
      have hfails := hd'.next_eq.trans (hlevel.next_eq.trans hnext)
      obtain ⟨_, hlast⟩ := drainWatching_last hadvance' hne hbare'.attributes_eq hfails
      rw [hlast, drainWatching_error hadvance]
      exact ⟨rfl, .behind _ _⟩
    next =>
      cases hnext'.symm.trans (hlevel.next_eq.trans hnext)
      rw [drainWatching_error hadvance, drainWatching_error hadvance']
      exact ⟨rfl, .together _⟩
termination_by c.left
decreasing_by
  have hlt := advance_lt hadvance hend
  rwa [foldl_register] at hlt

/-- A walk ends as draining its source does, or it stops for a reason of its own. -/
theorem answer_drainWatching {c : Cursor σ} (h : Bare frugal c) (plan : Nat → List Expression) :
    (drainWatching plan c).2.answer = (Source.drain c.source).2.answer.mapError .source ∨
      ∃ e, (drainWatching plan c).2.answer = .error e ∧ ∀ fault, e ≠ .source fault := by
  have hregistered := h.register (plan 0)
  have hsource : ((plan 0).foldl register c).source = c.source := by
    rw [foldl_register]
  rw [← hsource]
  cases hreach : reach ((plan 0).foldl register c) with
  | error e d =>
    rw [drainWatching_error (advance_of_reach_error hreach)]
    rcases reach_error hregistered.attributes_eq hreach with ⟨fault, s, rfl, hnext⟩ | hown
    · rw [Source.drain_error hnext]
      exact .inl rfl
    · exact .inr ⟨e, rfl, hown⟩
  | ok event d =>
    obtain ⟨hnext, _⟩ := reach_ok laws hregistered hreach
    rcases advance_of_reach_ok laws hregistered hreach with
      ⟨f, hadvance, hlevel, hbare⟩ | ⟨e, t, f, hne, hfails, hadvance⟩
    · by_cases hend : event = .endDocument
      · subst hend
        rw [drainWatching_end hadvance, Source.drain_end hnext]
        exact .inl rfl
      · have hrest := answer_drainWatching hbare fun n => plan (n + 1)
        rw [Source.drain_congr hlevel.next_eq] at hrest
        rw [drainWatching_go hadvance hend, Source.drain_next hnext hend]
        exact hrest
    · rw [drainWatching_error hadvance, Source.drain_next hnext hne, Source.drain_error hfails]
      exact .inl rfl
termination_by c.left
decreasing_by
  have hlt := advance_lt hadvance hend
  rwa [foldl_register] at hlt

end

end Cursor

end DocWalk
