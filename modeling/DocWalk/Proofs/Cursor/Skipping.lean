import DocWalk.Proofs.Cursor.Settings
import DocWalk.Proofs.Cursor.Watching

/-!
# Skipping a node

Skipping moves on until fewer nodes are open than at the start of the node. What is in the node, its
attributes included, keeps the depth at that of the node or deeper, so the first event that goes
below is the end of the node itself (`Facing.walks_content`).

A cursor that watches places looks one event further, behind the end of the node. If the source
fails there, the node is behind the cursor and the failure is told all the same.

**The law** (`skipNode_contract`): over any source a node is skipped with all that is in it, or the
failure behind it is told; a document that ends inside the node is told of; and over a script,
whatever it holds, skipping comes to an end with no more advances than the script has to show.
-/

set_option autoImplicit false

namespace DocWalk

open EStateM

variable {σ : Type}

/-- The events close every node that they open and no other, and the document does not end among
them. -/
structure SelfContained (events : List Event) : Prop where
  closes : events.foldlM openAfter 0 = some 0
  endDocument_not_mem : .endDocument ∉ events

/-- What is balanced is self-contained. -/
theorem Balanced.selfContained {events : List Event} (h : Balanced 0 events) :
    SelfContained events := by
  have hall : ∀ {depth events}, Balanced depth events →
      events.foldlM openAfter depth = some 0 ∧ .endDocument ∉ events := by
    intro depth events h
    induction h with
    | nil => exact ⟨rfl, List.not_mem_nil⟩
    | text _ ih | startNode _ ih | endNode _ ih =>
      refine ⟨ih.1, List.not_mem_cons_of_ne_of_not_mem ?_ ih.2⟩
      rintro ⟨⟩
  exact ⟨(hall h).1, (hall h).2⟩

/-- What an entry of a script has a cursor show: an event and its attributes. -/
def ScriptEntry.shown : ScriptEntry → List Event
  | .event given => given.withAttributes
  | .error _ | .nothing => []

/-- A look at a script leaves it as it is. -/
theorem Script.eq_of_peek {script other : Script} {shown : Option Event}
    (h : (Source.peek : EStateM SourceError Script (Option Event)) script = .ok shown other) :
    other = script := by
  change Script.peek script = _ at h
  unfold Script.peek at h
  split at h <;> cases h <;> rfl

/-- An event before the end is the first entry. -/
theorem Script.entries_of_next {script other : Script} {event : Event}
    (h : (Source.next : EStateM SourceError Script Event) script = .ok event other)
    (hne : event ≠ .endDocument) : script.entries = .event event :: other.entries := by
  change Script.next script = _ at h
  unfold Script.next at h
  split at h <;> cases h
  · exact absurd rfl hne
  · assumption
  · exact absurd rfl hne

namespace Cursor

/-! ## What an advance leaves -/

theorem enter_registry {event : Event} {c d : Cursor σ} (h : enter event c = .ok () d) :
    d.registry = c.registry := by
  have hnode : toNode c = .ok () d → d.registry = c.registry := by
    intro htoNode
    unfold toNode at htoNode
    split at htoNode <;> cases htoNode <;> rfl
  cases event with
  | startNode node =>
    change openNode node c = _ at h
    unfold openNode at h
    split at h
    next =>
      cases h
      rfl
    next =>
      split at h <;> cases h
      rfl
  | endNode =>
    change closeNode c = _ at h
    unfold closeNode at h
    split at h <;> cases h
    rfl
  | attr =>
    cases h
    rfl
  | startDocument => exact hnode h
  | endDocument => exact hnode h
  | text => exact hnode h

section

variable [Source σ] {c d : Cursor σ} {event : Event}

/-- The second cursor is the first behind a look at its source, if it took one: the same attributes
wait, and it watches something or nothing as before. -/
structure Looked (c d : Cursor σ) : Prop where
  attributes_eq : d.attributes = c.attributes
  isEmpty_eq : d.registry.isEmpty = c.registry.isEmpty
  source : d.source = c.source ∨ c.registry.isEmpty = false ∧ ∃ shown,
    (Source.peek : EStateM SourceError σ (Option Event)) c.source = .ok shown d.source

theorem looked_of_watch (h : watch event c = .ok () d) : Looked c d := by
  unfold watch at h
  split at h
  next =>
    cases h
    exact ⟨rfl, rfl, .inl rfl⟩
  next =>
    unfold lookAhead at h
    split at h
    next =>
      cases h
      exact ⟨rfl, rfl, .inl rfl⟩
    next hempty =>
      rw [Bool.not_eq_true] at hempty
      split at h
      next hask =>
        obtain ⟨s, hs, rfl⟩ := ask_eq_ok.mp hask
        cases h
        unfold catchText
        split <;> exact ⟨rfl, rfl, .inr ⟨hempty, _, hs⟩⟩
      next hask =>
        obtain ⟨s, hs, rfl⟩ := ask_eq_ok.mp hask
        cases h
        exact ⟨rfl, rfl, .inr ⟨hempty, _, hs⟩⟩
      next => cases h

end

/-! ## In front of events -/

/-- The cursor has no limit and stands inside these nodes; its source gives these events first. Idle
is a cursor that watches nothing. -/
structure Facing [Source σ] (idle : Bool) (c : Cursor σ) (names : List String)
    (events : List Event) (behind : σ → Prop) : Prop where
  gives : Source.EmitsFirst c.source events behind
  names_eq : c.names = names
  maxDepth_eq : c.config.maxDepth = none
  isEmpty_eq : c.registry.isEmpty = idle

section

variable [Source σ] {idle : Bool} {c d : Cursor σ} {names : List String} {event : Event}
  {events rest : List Event} {behind : σ → Prop}

/-- An attribute that waits is handed out, and nothing else moves. -/
theorem Facing.attribute {a : Attribute} {more : List Attribute}
    (h : Facing idle c names events behind) (hattributes : c.attributes = a :: more) :
    ∃ d, advance c = .ok (.attr a) d ∧ d.attributes = more ∧
      Facing idle d names events behind :=
  ⟨_, advance_attribute hattributes, rfl, h.gives, h.names_eq, h.maxDepth_eq, h.isEmpty_eq⟩

/-- Behind the attributes the next event of the source is entered, if it closes no node in vain. -/
theorem Facing.reach (h : Facing idle c names (event :: rest) behind)
    (hattributes : c.attributes = []) (hopen : event = .endNode → names ≠ []) :
    ∃ d, Cursor.reach c = .ok event d ∧ d.attributes = event.attributes ∧
      Facing idle d (namesAfter names event) rest behind := by
  obtain ⟨s, hnext, hgives⟩ := h.gives.next
  have htaken : Taken (fun _ _ => True) event { c with source := s } := by
    obtain ⟨depth, hdepth⟩ : ∃ depth, openAfter c.depth event = some depth := by
      apply exists_openAfter
      rw [Cursor.depth, h.names_eq]
      exact fun hend => List.length_pos_iff.mpr (hopen hend)
    exact ⟨h.maxDepth_eq, depth, hdepth, trivial⟩
  obtain ⟨d, henter, _⟩ := htaken.enter
  refine ⟨d, (reach_eq_ok_iff hattributes).mpr ⟨s, hnext, henter⟩,
    enter_attributes henter hattributes, ?_, ?_, ?_, ?_⟩
  · rw [(enter_source henter).1]
    exact hgives
  · rw [(enter_names henter).1, h.names_eq]
  · exact ((sameSettings_enter event).of_ok henter).config_eq ▸ h.maxDepth_eq
  · rw [enter_registry henter, h.isEmpty_eq]

/-- To watch leaves a cursor in front of the same events, when it is idle or what stands behind them
can be looked at. -/
theorem Facing.watch (h : Facing idle c names events behind)
    (hsighted : idle = false → Source.Sighted events behind) :
    ∃ d, Cursor.watch event c = .ok () d ∧ d.attributes = c.attributes ∧
      Facing idle d names events behind := by
  cases hwatch : Cursor.watch event c with
  | ok _ d =>
    obtain ⟨hattributes, hempty, hsource⟩ := looked_of_watch hwatch
    refine ⟨d, rfl, hattributes, ?_, ?_, ?_, hempty.trans h.isEmpty_eq⟩
    · rcases hsource with hsource | ⟨hbusy, shown, hpeek⟩
      · rw [hsource]
        exact h.gives
      · obtain ⟨_, s, hs, hgives⟩ := h.gives.peek (hsighted (h.isEmpty_eq.symm.trans hbusy))
        cases hpeek.symm.trans hs
        exact hgives
    · exact ((samePlace_watch event).of_ok hwatch).names_eq.trans h.names_eq
    · exact ((sameSettings_watch event).of_ok hwatch).config_eq ▸ h.maxDepth_eq
  | error e d =>
    obtain ⟨_, hbusy, fault, s, hpeek, _, _⟩ := watch_eq_error_iff.mp hwatch
    obtain ⟨shown, t, hshown, _⟩ := h.gives.peek (hsighted (h.isEmpty_eq.symm.trans hbusy))
    cases hpeek.symm.trans hshown

/-- So the next event is shown. -/
theorem Facing.advance (h : Facing idle c names (event :: rest) behind)
    (hattributes : c.attributes = []) (hopen : event = .endNode → names ≠ [])
    (hsighted : idle = false → Source.Sighted rest behind) :
    ∃ d, Cursor.advance c = .ok event d ∧ d.current = some event ∧
      d.attributes = event.attributes ∧ Facing idle d (namesAfter names event) rest behind := by
  obtain ⟨d, hreach, hd, hfacing⟩ := h.reach hattributes hopen
  obtain ⟨f, hwatch, hf, hfacing⟩ := hfacing.watch hsighted
  refine ⟨_, advance_of_watch hreach hwatch, rfl, hf.trans hd, ?_⟩
  exact ⟨hfacing.gives, hfacing.names_eq, hfacing.maxDepth_eq, hfacing.isEmpty_eq⟩

/-! ## Over what is in a node -/

theorem Facing.walks_attributes (h : Facing idle c names events behind) :
    ∃ shown d, Walks c shown d ∧
      (∀ visit ∈ shown, visit.event ≠ .endDocument ∧ names.length ≤ visit.position.depth) ∧
      d.attributes = [] ∧ Facing idle d names events behind := by
  generalize hattributes : c.attributes = attributes
  induction attributes generalizing c with
  | nil => exact ⟨[], c, .rest c, List.forall_mem_nil _, hattributes, h⟩
  | cons a more ih =>
    obtain ⟨d, hadvance, hd, hfacing⟩ := h.attribute hattributes
    obtain ⟨shown, last, hwalks, hshown, hlast⟩ := ih hfacing hd
    refine ⟨_, last, .step hadvance hwalks, ?_, hlast⟩
    have hdepth : names.length ≤ d.position.depth := Nat.le_of_eq (congrArg _ hfacing.names_eq.symm)
    exact List.forall_mem_cons.mpr ⟨⟨nofun, hdepth⟩, hshown⟩

/-- The nodes that are open around the events stay open. -/
theorem drop_namesAfter {depth next : Nat} {kept : List String}
    (h : openAfter depth event = some next) (hkept : names.drop depth = kept) :
    (namesAfter names event).drop next = kept := by
  cases event with
  | endNode =>
    cases depth with
    | zero => cases h
    | succ depth =>
      cases h
      rw [namesAfter, List.drop_tail]
      exact hkept
  | startDocument | endDocument | startNode | text | attr =>
    cases h
    exact hkept

/-- Over what is in a node a cursor walks to the end of the node, and never goes above it. -/
theorem Facing.walks_content {content : List Event} {depth : Nat} {kept : List String}
    (h : Facing idle c names (content ++ rest) behind) (hrest : rest ≠ [])
    (hcloses : content.foldlM openAfter depth = some 0) (hend : .endDocument ∉ content)
    (hkept : names.drop depth = kept) (hne : kept ≠ []) :
    ∃ shown d, Walks c shown d ∧
      (∀ visit ∈ shown, visit.event ≠ .endDocument ∧ kept.length ≤ visit.position.depth) ∧
      d.attributes = [] ∧ Facing idle d kept rest behind := by
  -- On the events, with the nodes that they have opened on top of those that are kept.
  induction content generalizing c names depth with
  | nil =>
    cases hcloses
    obtain rfl : names = kept := hkept
    exact h.walks_attributes
  | cons event content ih =>
    obtain ⟨next, hopen, hcloses⟩ := Option.bind_eq_some_iff.mp
      (List.foldlM_cons.symm.trans hcloses)
    obtain ⟨hevent, hend⟩ := List.ne_and_not_mem_of_not_mem_cons hend
    have hnext := drop_namesAfter hopen hkept
    have hle : kept.length ≤ names.length := by
      rw [← hkept, List.length_drop]
      exact Nat.sub_le _ _
    have hnames : names ≠ [] := by
      rintro rfl
      exact hne (hkept.symm.trans List.drop_nil)
    obtain ⟨shown, d, hwalks, hshown, hd, hfacing⟩ := h.walks_attributes
    obtain ⟨f, hadvance, _, _, hf⟩ := hfacing.advance hd (fun _ => hnames)
      fun _ hnil => absurd hnil (List.append_ne_nil_of_right_ne_nil content hrest)
    obtain ⟨more, last, hmore, hdeep, hlast⟩ := ih hf hcloses hend hnext
    refine ⟨_, last, hwalks.trans (.step hadvance hmore), ?_, hlast⟩
    intro visit hvisit
    rcases List.mem_append.mp hvisit with hvisit | hvisit
    · exact ⟨(hshown visit hvisit).1, Nat.le_trans hle (hshown visit hvisit).2⟩
    · rcases List.mem_cons.mp hvisit with rfl | hvisit
      · refine ⟨Ne.symm hevent, ?_⟩
        show kept.length ≤ f.names.length
        rw [hf.names_eq, ← hnext, List.length_drop]
        exact Nat.sub_le _ _
      · exact hdeep visit hvisit

/-! ## Skipping -/

/-- What holds of the place where a walk starts and of every place that it shows holds of the place
that it comes to. -/
theorem Walks.at_last {p : Position → Prop} {shown : List Visit} (h : Walks c shown d)
    (hc : p c.position) (hshown : ∀ visit ∈ shown, p visit.position) : p d.position := by
  induction h with
  | rest => exact hc
  | step _ _ ih =>
    obtain ⟨hfirst, hmore⟩ := List.forall_mem_cons.mp hshown
    exact ih hfirst hmore

/-- To skip is to walk above the target, and to skip from there. -/
theorem SkipsTo.of_walks {target : Nat} {shown : List Visit} {r : Outcome σ Unit}
    (h : Walks c shown d) (hc : target < c.depth)
    (hshown : ∀ visit ∈ shown, visit.event ≠ .endDocument ∧ target < visit.position.depth)
    (hskips : SkipsTo target d r) : SkipsTo target c r := by
  induction h with
  | rest => exact hskips
  | step hadvance _ ih =>
    obtain ⟨⟨hne, hdeep⟩, hmore⟩ := List.forall_mem_cons.mp hshown
    exact .onward hc hadvance hne (ih hdeep hmore hskips)

/-- What skipping comes to is what a walk comes to, which goes to the target with its last step at
most: it is there, or the document has ended, or an advance has failed. -/
theorem SkipsTo.walks {target : Nat} {r : Outcome σ Unit} (h : SkipsTo target c r) :
    ∃ shown d, Walks c shown d ∧ (∀ visit ∈ shown, visit.event ≠ .endDocument) ∧
      (shown ≠ [] → target < c.depth) ∧
      (∀ visit ∈ shown.dropLast, target < visit.position.depth) ∧
      ((d.depth ≤ target ∧ r = .ok () d) ∨
        target < d.depth ∧ ((∃ f, advance d = .ok .endDocument f ∧ r = misfit .endedInsideNode f) ∨
          ∃ e f, advance d = .error e f ∧ r = .error e f)) := by
  induction h with
  | @reached c hreached =>
    exact ⟨[], c, .rest c, List.forall_mem_nil _, nofun, List.forall_mem_nil _,
      .inl ⟨hreached, rfl⟩⟩
  | @stopped c d e hdeep hadvance =>
    exact ⟨[], c, .rest c, List.forall_mem_nil _, nofun, List.forall_mem_nil _,
      .inr ⟨hdeep, .inr ⟨e, d, hadvance, rfl⟩⟩⟩
  | @ended c d hdeep hadvance =>
    exact ⟨[], c, .rest c, List.forall_mem_nil _, nofun, List.forall_mem_nil _,
      .inr ⟨hdeep, .inl ⟨d, hadvance, rfl⟩⟩⟩
  | @onward c d event r hdeep hadvance hne _ ih =>
    obtain ⟨shown, last, hwalks, hshown, habove, hlast, hends⟩ := ih
    refine ⟨_, last, .step hadvance hwalks, List.forall_mem_cons.mpr ⟨hne, hshown⟩,
      fun _ => hdeep, ?_, hends⟩
    cases shown with
    | nil => exact List.forall_mem_nil _
    | cons visit more =>
      exact List.forall_mem_cons.mpr ⟨habove (List.cons_ne_nil _ _), hlast⟩

theorem skipsNode_of_startNode {node : Node} {r : Outcome σ Unit}
    (h : c.current = some (.startNode node)) : SkipsNode c r ↔ SkipsTo (c.depth - 1) c r := by
  rw [SkipsNode, h]

/-- The cursor has no limit and stands on a node that has opened inside these others. Its source
gives what is in the node and the end of the node, and then these events first. -/
structure OnNode (c : Cursor σ) (outer : List String) (after : List Event)
    (behind : σ → Prop) : Prop where
  current : ∃ node, c.current = some (.startNode node)
  names : ∃ name, c.names = name :: outer
  maxDepth_eq : c.config.maxDepth = none
  gives : ∃ content, SelfContained content ∧
    Source.EmitsFirst c.source (content ++ .endNode :: after) behind

/-- From the start of a node a cursor walks to the end of it, and what comes of skipping from there
comes of skipping the node. -/
theorem OnNode.walks {outer : List String} {after : List Event} (h : OnNode c outer after behind) :
    ∃ name d, d.attributes = [] ∧
      Facing c.registry.isEmpty d (name :: outer) (.endNode :: after) behind ∧
      ∀ r, SkipsTo outer.length d r → SkipsNode c r := by
  obtain ⟨⟨node, hcurrent⟩, ⟨name, hnames⟩, hnone, content, hcontent, hgives⟩ := h
  have hfacing :
      Facing c.registry.isEmpty c (name :: outer) (content ++ .endNode :: after) behind :=
    ⟨hgives, hnames, hnone, rfl⟩
  obtain ⟨shown, d, hwalks, hshown, hd, hlast⟩ := hfacing.walks_content (List.cons_ne_nil _ _)
    hcontent.closes hcontent.endDocument_not_mem List.drop_zero (List.cons_ne_nil _ _)
  have hdepth : c.depth = outer.length + 1 := congrArg List.length hnames
  refine ⟨name, d, hd, hlast, fun r hskips => ?_⟩
  rw [skipsNode_of_startNode hcurrent, hdepth]
  have habove : outer.length < c.depth := hdepth ▸ Nat.lt_succ_self _
  exact .of_walks hwalks habove hshown hskips

/-- A node is skipped with all that is in it, when nothing is watched or what stands behind the node
can be looked at. -/
theorem OnNode.skips {outer : List String} {after : List Event} (h : OnNode c outer after behind)
    (hsighted : c.registry.isEmpty = false → Source.Sighted after behind) :
    ∃ d, SkipsNode c (.ok () d) ∧ d.current = some .endNode ∧ d.attributes = [] ∧
      Facing c.registry.isEmpty d outer after behind := by
  obtain ⟨name, d, hd, hfacing, hskips⟩ := h.walks
  obtain ⟨f, hadvance, hcurrent, hf, hbehind⟩ :=
    hfacing.advance hd (fun _ => List.cons_ne_nil _ _) hsighted
  have hdeep : outer.length < d.depth := by
    rw [depth, hfacing.names_eq]
    exact Nat.lt_succ_self _
  have hreached : f.depth ≤ outer.length := by
    rw [depth, hbehind.names_eq]
    exact Nat.le_refl _
  have hgoes : Event.endNode ≠ .endDocument := by rintro ⟨⟩
  exact ⟨f, hskips _ (.onward hdeep hadvance hgoes (.reached hreached)), hcurrent, hf, hbehind⟩

/-- Where something is watched and the source fails behind the node, the node is skipped, and the
failure is told. -/
theorem OnNode.skips_error {outer : List String} (h : OnNode c outer [] behind)
    (hbusy : c.registry.isEmpty = false)
    (hblind : ∀ s, behind s → ∃ e t,
      (Source.peek : EStateM SourceError σ (Option Event)) s = .error e t) :
    ∃ e d s, SkipsNode c (.error (.source e) d) ∧ d.names = outer ∧ d.attributes = [] ∧
      behind s ∧ (Source.peek : EStateM SourceError σ (Option Event)) s = .error e d.source := by
  obtain ⟨name, d, hd, hfacing, hskips⟩ := h.walks
  obtain ⟨f, hreach, hf, hbehind⟩ := hfacing.reach hd fun _ => List.cons_ne_nil _ _
  have hsource := Source.emitsFirst_nil_iff.mp hbehind.gives
  obtain ⟨e, t, hpeek⟩ := hblind f.source hsource
  have hwatch : Cursor.watch .endNode f = .error (.source e) { f with source := t } :=
    watch_eq_error_iff.mpr ⟨rfl, hbehind.isEmpty_eq.trans hbusy, e, t, hpeek, rfl, rfl⟩
  have hadvance := advance_of_watch_error hreach hwatch
  have hdeep : outer.length < d.depth := by
    rw [depth, hfacing.names_eq]
    exact Nat.lt_succ_self _
  exact ⟨e, _, f.source, hskips _ (.stopped hdeep hadvance), hbehind.names_eq, hf, hsource, hpeek⟩

/-- Where the document ends inside a node, skipping tells so, or the failure behind the end. -/
theorem skipsNode_of_endDocument {node : Node} {shown : List Visit} {s : σ}
    (hcurrent : c.current = some (.startNode node)) (hwalks : Walks c shown d)
    (hshown : ∀ visit ∈ shown, visit.event ≠ .endDocument ∧ c.depth ≤ visit.position.depth)
    (hdepth : 0 < c.depth) (hattributes : d.attributes = [])
    (hnext : (Source.next : EStateM SourceError σ Event) d.source = .ok .endDocument s) :
    (∃ f, SkipsNode c (.error (.structural f.path .endedInsideNode) f)) ∨
      ∃ e t f, d.registry.isEmpty = false ∧
        (Source.peek : EStateM SourceError σ (Option Event)) s = .error e t ∧
        SkipsNode c (.error (.source e) f) := by
  obtain ⟨f, henter, hsource, hregistry⟩ : ∃ f, enter .endDocument { d with source := s } =
      .ok () f ∧ f.source = s ∧ f.registry = d.registry := by
    show ∃ f, toNode { d with source := s } = .ok () f ∧ _
    unfold toNode
    split <;> exact ⟨_, rfl, rfl, rfl⟩
  have hreach : reach d = .ok .endDocument f :=
    (reach_eq_ok_iff hattributes).mpr ⟨s, hnext, henter⟩
  have htarget : c.depth - 1 < c.depth := Nat.sub_lt hdepth Nat.one_pos
  have habove : ∀ visit ∈ shown,
      visit.event ≠ .endDocument ∧ c.depth - 1 < visit.position.depth :=
    fun visit hvisit => (hshown visit hvisit).imp_right (Nat.lt_of_lt_of_le htarget)
  have hdeep : c.depth - 1 < d.depth :=
    hwalks.at_last (p := fun here => c.depth - 1 < here.depth) htarget
      fun visit hvisit => (habove visit hvisit).2
  have hskips : ∀ r, SkipsTo (c.depth - 1) d r → SkipsNode c r := by
    intro r hr
    rw [skipsNode_of_startNode hcurrent]
    exact .of_walks hwalks htarget habove hr
  cases hwatch : Cursor.watch .endDocument f with
  | ok _ g => exact .inl ⟨_, hskips _ (.ended hdeep (advance_of_watch hreach hwatch))⟩
  | error e g =>
    obtain ⟨_, hbusy, fault, t, hpeek, rfl, _⟩ := watch_eq_error_iff.mp hwatch
    have hadvance := advance_of_watch_error hreach hwatch
    rw [hregistry] at hbusy
    rw [hsource] at hpeek
    exact .inr ⟨fault, t, g, hbusy, hpeek, hskips _ (.stopped hdeep hadvance)⟩

end

/-! ## Over a script -/

/-- How many events a cursor over a script shows before the end at most. -/
def toShow (c : Cursor Script) : Nat :=
  c.attributes.length + (c.source.entries.flatMap ScriptEntry.shown).length

/-- Every event before the end takes from what is to be shown. -/
theorem advance_toShow {c d : Cursor Script} {event : Event} (h : advance c = .ok event d)
    (hne : event ≠ .endDocument) : d.toShow < c.toShow := by
  cases hattributes : c.attributes with
  | cons a more =>
    cases (advance_attribute hattributes).symm.trans h
    rw [toShow, toShow, hattributes, List.length_cons]
    exact Nat.add_lt_add_right (Nat.lt_succ_self _) _
  | nil =>
    obtain ⟨_, f, g, htake, henter, hwatch, rfl⟩ := advance_eq_ok_iff.mp h
    rw [take_of_attributes_nil hattributes] at htake
    obtain ⟨s, hnext, rfl⟩ := ask_eq_ok.mp htake
    obtain ⟨hwaiting, _, hlooked⟩ := looked_of_watch hwatch
    have hown : g.attributes = event.attributes :=
      hwaiting.trans (enter_attributes henter hattributes)
    have hentered : f.source = s := (enter_source henter).1
    have hsource : g.source = s := by
      rcases hlooked with hsame | ⟨_, shown, hpeek⟩
      · exact hsame.trans hentered
      · exact (Script.eq_of_peek hpeek).trans hentered
    have hentry : (ScriptEntry.event event).shown.length = event.attributes.length + 1 :=
      congrArg Nat.succ (List.length_map _)
    show g.attributes.length + (g.source.entries.flatMap ScriptEntry.shown).length < c.toShow
    rw [hown, hsource, toShow, hattributes, Script.entries_of_next hnext hne, List.flatMap_cons,
      List.length_append, hentry, List.length_nil]
    omega

theorem Walks.length_add_toShow_le {c d : Cursor Script} {shown : List Visit}
    (h : Walks c shown d) (hshown : ∀ visit ∈ shown, visit.event ≠ .endDocument) :
    shown.length + d.toShow ≤ c.toShow := by
  induction h with
  | rest => exact Nat.le_of_eq (Nat.zero_add _)
  | step hadvance _ ih =>
    obtain ⟨hne, hmore⟩ := List.forall_mem_cons.mp hshown
    have hless := advance_toShow hadvance hne
    have hrest := ih hmore
    rw [List.length_cons]
    omega

/-! ## The law -/

/-- **Skipping a node.** From the start of a node, whatever attributes wait and whatever is in the
node, skipping goes on to the end of the node and takes nothing behind it. The cursor is then inside
the nodes around, and the next advance shows the event behind the node. Only where something is
watched, and the source fails behind the node, is this failure told instead. Where the document ends
inside the node, skipping tells so, or the failure behind the end. Over a script it always comes to
an end, with no more advances than the script has to show: the node is behind, or the document has
ended inside it, or an advance has failed. -/
theorem skipNode_contract [Source σ] :
    (∀ (c : Cursor σ) (outer : List String) (after : List Event) (behind : σ → Prop),
      OnNode c outer after behind →
        ((c.registry.isEmpty = false → Source.Sighted after behind) →
          ∃ d, SkipsNode c (.ok () d) ∧ d.names = outer ∧ d.current = some .endNode ∧
            d.attributes = [] ∧ Source.EmitsFirst d.source after behind ∧
            ∀ event more, after = event :: more → (event = .endNode → outer ≠ []) →
              (c.registry.isEmpty = false → Source.Sighted more behind) →
              ∃ f, advance d = .ok event f) ∧
        (c.registry.isEmpty = false → after = [] →
          (∀ s, behind s → ∃ e t,
            (Source.peek : EStateM SourceError σ (Option Event)) s = .error e t) →
          ∃ e d s, SkipsNode c (.error (.source e) d) ∧ d.names = outer ∧ d.attributes = [] ∧
            behind s ∧
            (Source.peek : EStateM SourceError σ (Option Event)) s = .error e d.source)) ∧
      (∀ (c d : Cursor σ) (node : Node) (shown : List Visit) (s : σ),
        c.current = some (.startNode node) → 0 < c.depth → Walks c shown d →
        (∀ visit ∈ shown, visit.event ≠ .endDocument ∧ c.depth ≤ visit.position.depth) →
        d.attributes = [] →
        (Source.next : EStateM SourceError σ Event) d.source = .ok .endDocument s →
        (∃ f misfit, SkipsNode c (.error (.structural f.path misfit) f) ∧
            misfit.message = "document ended inside node") ∨
          ∃ e t f, d.registry.isEmpty = false ∧
            (Source.peek : EStateM SourceError σ (Option Event)) s = .error e t ∧
            SkipsNode c (.error (.source e) f)) ∧
      ∀ (c : Cursor Script) (node : Node), c.current = some (.startNode node) →
        ∃ shown d, Walks c shown d ∧ shown.length ≤ c.toShow ∧
          (∀ visit ∈ shown, visit.event ≠ .endDocument) ∧
          (∀ visit ∈ shown.dropLast, c.depth - 1 < visit.position.depth) ∧
          ((d.depth ≤ c.depth - 1 ∧ skipNode c = .ok () d) ∨
            c.depth - 1 < d.depth ∧
              ((∃ f misfit, advance d = .ok .endDocument f ∧
                  skipNode c = .error (.structural f.path misfit) f ∧
                  misfit.message = "document ended inside node") ∨
                ∃ e f, advance d = .error e f ∧ skipNode c = .error e f)) := by
  refine ⟨?_, ?_, ?_⟩
  · intro c outer after behind h
    constructor
    · intro hsighted
      obtain ⟨d, hskips, hcurrent, hd, hfacing⟩ := h.skips hsighted
      refine ⟨d, hskips, hfacing.names_eq, hcurrent, hd, hfacing.gives, ?_⟩
      rintro event more rfl hopen hmore
      obtain ⟨f, hadvance, _⟩ := hfacing.advance hd hopen hmore
      exact ⟨f, hadvance⟩
    · rintro hbusy rfl hblind
      exact h.skips_error hbusy hblind
  · intro c d node shown s hcurrent hdepth hwalks hshown hattributes hnext
    rcases skipsNode_of_endDocument hcurrent hwalks hshown hdepth hattributes hnext with
      ⟨f, hskips⟩ | hfails
    · exact .inl ⟨f, .endedInsideNode, hskips, rfl⟩
    · exact .inr hfails
  · intro c node hcurrent
    have hskips : SkipsTo (c.depth - 1) c (skipNode c) :=
      (skipsNode_of_startNode hcurrent).mp (skipsNode_iff.mpr rfl)
    obtain ⟨shown, d, hwalks, hshown, _, hdeep, hends⟩ := hskips.walks
    have hlength : shown.length ≤ c.toShow :=
      Nat.le_trans (Nat.le_add_right _ _) (hwalks.length_add_toShow_le hshown)
    refine ⟨shown, d, hwalks, hlength, hshown, hdeep, ?_⟩
    rcases hends with hreached | ⟨hinside, ⟨f, hended, hskipped⟩ | hstopped⟩
    · exact .inl hreached
    · exact .inr ⟨hinside, .inl ⟨f, .endedInsideNode, hended, hskipped, rfl⟩⟩
    · exact .inr ⟨hinside, .inr hstopped⟩

/-- An error that a source may tell. -/
def boom : SourceError :=
  .json ⟨.stated "boom", 0⟩

/-- A node opens, then this event comes, and an error behind it. -/
def brokenBehind (event : Event) : Script :=
  ⟨[.event (.startNode { name := "a" }), .event event, .error boom]⟩

/-- A caller over a script who watches a place of this name and has advanced to the first event. -/
def onFirst (name : String) (script : Script) : Cursor Script :=
  Operation.after [.register name 0 "k", .advance] (new script)

/-- A caller who watches a place and has advanced to the node. -/
def onBroken (event : Event) : Cursor Script :=
  onFirst "x" (brokenBehind event)

theorem advance_onBroken {event : Event} (h : event = .endNode ∨ event = .endDocument) :
    ∃ d, advance (onBroken event) = .error (.source boom) d := by
  refine ⟨(advance (onBroken event)).left, ?_⟩
  rcases h with rfl | rfl
  · cbv
  · cbv

/-- The node is complete, and skipping it fails for what stands behind it. Where the document ends
in the node, skipping fails for what stands behind the end. -/
theorem skipNode_onBroken :
    (OnNode (onBroken .endNode) [] [] (· = ⟨[.error boom]⟩) ∧
        ∃ d, skipNode (onBroken .endNode) = .error (.source boom) d) ∧
      (onBroken .endDocument).current = some (.startNode { name := "a" }) ∧
        (Source.next : EStateM SourceError Script Event) (onBroken .endDocument).source =
          .ok .endDocument ⟨[.error boom]⟩ ∧
        ∃ d, skipNode (onBroken .endDocument) = .error (.source boom) d := by
  have hskips : ∀ {event}, event = .endNode ∨ event = .endDocument →
      ∃ d, skipNode (onBroken event) = .error (.source boom) d := by
    intro event h
    obtain ⟨d, hadvance⟩ := advance_onBroken h
    have hcurrent : (onBroken event).current = some (.startNode { name := "a" }) := by
      rcases h with rfl | rfl <;> cbv
    have hdeep : (onBroken event).depth - 1 < (onBroken event).depth := by
      rcases h with rfl | rfl <;> decide
    exact ⟨d, skipsNode_iff.mp ((skipsNode_of_startNode hcurrent).mpr (.stopped hdeep hadvance))⟩
  have hsource : (onBroken .endNode).source =
      ⟨[Event.endNode].map .event ++ [.error boom]⟩ := by cbv
  refine ⟨⟨⟨⟨_, rfl⟩, ⟨_, rfl⟩, rfl, [], ⟨rfl, List.not_mem_nil⟩, ?_⟩, hskips (.inl rfl)⟩,
    by cbv, by cbv, hskips (.inr rfl)⟩
  rw [hsource]
  exact Script.emitsFirst_events _ _

/-- A walk over the document of `mixedBody` that watches it, so many advances on. -/
def overMixed (n : Nat) : Cursor Script :=
  Operation.after (List.replicate n .advance) (watching mixedScript {} none sharedKey)

/-- What is in the outer node of it. -/
def mixedContent : List Event :=
  [.text "x", .text "y", .startNode { name := "b" }, .text "z", .endNode, .text "v", .text "w"]

/-- It skips the outer node with its attribute waiting. It skips the inner node when the text of it
has been read, and goes on with the text behind. And where the document ends in a node, skipping
tells so. -/
theorem skipNode_contract_mixed :
    (∃ d, skipNode (overMixed 2) = .ok () d ∧ d.names = []) ∧
      (∃ d f, (Operation.perform .readText (overMixed 6)).answer = .ok (.text "z") ∧
        skipNode (Operation.perform .readText (overMixed 6)).left = .ok () d ∧ d.names = ["a"] ∧
        advance d = .ok (.text "v") f) ∧
      ∃ f misfit, skipNode (Operation.after [.advance] (new (brokenBehind .endDocument))) =
        .error (.structural f.path misfit) f ∧ misfit.message = "document ended inside node" := by
  obtain ⟨hcomplete, hended, _⟩ := @skipNode_contract Script _
  refine ⟨?_, ?_, ?_⟩
  · have hsource : (overMixed 2).source =
        ⟨(mixedContent ++ [Event.endNode]).map .event ++ []⟩ := by cbv
    have hnode : OnNode (overMixed 2) [] [] (· = ⟨[]⟩) := by
      have hcontent : Balanced 0 mixedContent :=
        .text (.text (.startNode (.text (.endNode (.text (.text .nil))))))
      refine ⟨⟨_, rfl⟩, ⟨_, rfl⟩, rfl, mixedContent, hcontent.selfContained, ?_⟩
      rw [hsource]
      exact Script.emitsFirst_events _ _
    have hsighted : Source.Sighted [] (· = Script.mk []) := by
      rintro _ s rfl
      exact ⟨_, _, rfl, rfl⟩
    obtain ⟨d, hskips, hnames, _⟩ := (hcomplete _ _ _ _ hnode).1 fun _ => hsighted
    exact ⟨d, skipsNode_iff.mp hskips, hnames⟩
  · have hsource : (Operation.perform .readText (overMixed 6)).left.source =
        ⟨[.endNode, .text "v", .text "w", .endNode].map .event ++ []⟩ := by cbv
    have hnode : OnNode (Operation.perform .readText (overMixed 6)).left ["a"]
        [.text "v", .text "w", .endNode] (· = ⟨[]⟩) := by
      refine ⟨⟨{ name := "b" }, by cbv⟩, ⟨"b", by cbv⟩, by cbv, [], ⟨rfl, List.not_mem_nil⟩, ?_⟩
      rw [hsource]
      exact Script.emitsFirst_events _ _
    have hsighted : ∀ {event : Event} {more : List Event},
        Source.Sighted (event :: more) (· = Script.mk []) :=
      fun hnil => absurd hnil (List.cons_ne_nil _ _)
    obtain ⟨d, hskips, hnames, _, _, _, hgoes⟩ := (hcomplete _ _ _ _ hnode).1 fun _ => hsighted
    have hopen : Event.text "v" = .endNode → ["a"] ≠ [] := fun _ => List.cons_ne_nil _ _
    obtain ⟨f, hadvance⟩ := hgoes (.text "v") _ rfl hopen fun _ => hsighted
    exact ⟨d, f, by cbv, skipsNode_iff.mp hskips, hnames, hadvance⟩
  · have hcurrent : (Operation.after [.advance] (new (brokenBehind .endDocument))).current =
        some (.startNode { name := "a" }) := by cbv
    have hnext : (Source.next : EStateM SourceError Script Event)
        (Operation.after [.advance] (new (brokenBehind .endDocument))).source =
          .ok .endDocument ⟨[.error boom]⟩ := by cbv
    rcases hended _ _ _ _ _ hcurrent (by decide) (.rest _) (List.forall_mem_nil _) (by cbv)
      hnext with ⟨f, misfit, hskips, hmessage⟩ | ⟨_, _, _, hbusy, _⟩
    · exact ⟨f, misfit, skipsNode_iff.mp hskips, hmessage⟩
    · exact absurd hbusy (by decide)

end Cursor

end DocWalk
