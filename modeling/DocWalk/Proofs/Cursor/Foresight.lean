import DocWalk.Cursor
import DocWalk.Proofs.Source.Emission

/-!
# What a cursor will have caught

A cursor catches a text one event before it stands on it. So while a document lies ahead of a
cursor, the registry at the end is already fixed: it is what is caught now, and then every later
text at its own position, as a first piece or as one more. `foreseen` is that registry, computed
from the events alone.

`Foresees c events final` says that the cursor stands in front of these events of a balanced
document, with the first of them caught already if it is text, and will end with that registry.
**The law of a step** (`Foresees.advance`): an advance that takes an event leads to a cursor in
front of the others, and what is foreseen stays as it was.

The position of a text is that of the event before it, whatever attributes are handed out in
between: an attribute moves the path only until the next event of the source.
-/

set_option autoImplicit false

namespace DocWalk

/-! ## Documents -/

/-- Nodes that open and close in balance inside so many open nodes, with texts between. -/
inductive Balanced : Nat → List Event → Prop where
  | nil : Balanced 0 []
  | text {depth : Nat} {text : String} {rest : List Event} : Balanced depth rest →
      Balanced depth (.text text :: rest)
  | startNode {depth : Nat} {node : Node} {rest : List Event} : Balanced (depth + 1) rest →
      Balanced depth (.startNode node :: rest)
  | endNode {depth : Nat} {rest : List Event} : Balanced depth rest →
      Balanced (depth + 1) (.endNode :: rest)

/-- What may lie ahead of a cursor before the end: a whole document, or the rest of one. -/
inductive Upcoming : Nat → List Event → Prop where
  | whole {body : List Event} : Balanced 0 body → Upcoming 0 (.startDocument :: body)
  | rest {depth : Nat} {events : List Event} : Balanced depth events → Upcoming depth events

/-- The open nodes behind an event. -/
def namesAfter (names : List String) : Event → List String
  | .startNode node => node.name :: names
  | .endNode => names.tail
  | .startDocument | .endDocument | .text _ | .attr _ => names

/-- How many nodes are open behind an event. -/
def depthAfter (depth : Nat) : Event → Nat
  | .startNode _ => depth + 1
  | .endNode => depth - 1
  | .startDocument | .endDocument | .text _ | .attr _ => depth

theorem length_namesAfter (names : List String) (event : Event) :
    (namesAfter names event).length = depthAfter names.length event := by
  cases event with
  | endNode => exact List.length_tail
  | startNode | startDocument | endDocument | text | attr => rfl

/-- The event that a source gives next is no attribute and ends no node that is not open, and what
is behind it may lie ahead as well. -/
theorem Upcoming.next {depth : Nat} {events : List Event} (h : Upcoming depth events) :
    (events.headD .endDocument).isAttribute = false ∧
      (events.headD .endDocument = .endNode → 0 < depth) ∧
      Upcoming (depthAfter depth (events.headD .endDocument)) events.tail := by
  cases h with
  | whole hbody => exact ⟨rfl, nofun, .rest hbody⟩
  | rest hrest =>
    cases hrest with
    | nil => exact ⟨rfl, nofun, .rest .nil⟩
    | text hrest => exact ⟨rfl, nofun, .rest hrest⟩
    | startNode hrest => exact ⟨rfl, nofun, .rest hrest⟩
    | endNode hrest => exact ⟨rfl, fun _ => Nat.succ_pos _, .rest hrest⟩

/-- At the front of what lies ahead the end of the document is shown only when nothing lies ahead.
-/
theorem Upcoming.eq_nil {depth : Nat} {events : List Event} (h : Upcoming depth events)
    (hend : events.headD .endDocument = .endDocument) : events = [] := by
  cases h with
  | whole => cases hend
  | rest hrest =>
    cases hrest with
    | nil => rfl
    | text => cases hend
    | startNode => cases hend
    | endNode => cases hend

/-! ## Texts and where they stand -/

/-- The position inside these nodes. -/
def Position.inside (names : List String) : Position :=
  ⟨Path.join names, names.length⟩

/-- Each event with the position behind it. -/
def located (names : List String) : List Event → List (Event × Position)
  | [] => []
  | event :: rest =>
    (event, .inside (namesAfter names event)) :: located (namesAfter names event) rest

namespace Registry

/-- Catches an event if it is text: as a first piece, or as one more. -/
def catchEvent (registry : Registry) (here : Position) (continued : Bool) : Event → Registry
  | .text text => if continued then registry.extend here text else registry.capture here text
  | .startDocument | .endDocument | .startNode _ | .endNode | .attr _ => registry

/-- Catches every text at its position; one behind a text is one more piece of it. -/
def catchAll (continued : Bool) (registry : Registry) : List (Event × Position) → Registry
  | [] => registry
  | (event, here) :: rest => catchAll event.isText (registry.catchEvent here continued event) rest

/-- The registry at the end of the events, when the first of them is caught already. -/
def foreseen (registry : Registry) (names : List String) : List Event → Registry
  | [] => registry
  | event :: rest => registry.catchAll event.isText (located (namesAfter names event) rest)

/-- A text stands where the event before it does, so catching it from there changes nothing of what
is foreseen. -/
theorem foreseen_catchEvent (registry : Registry) (names : List String) (event : Event)
    (rest : List Event) :
    (registry.catchEvent (.inside (namesAfter names event)) event.isText
        (rest.headD .endDocument)).foreseen (namesAfter names event) rest =
      registry.foreseen names (event :: rest) := by
  cases rest with
  | nil => rfl
  | cons next rest =>
    cases next with
    | text | startDocument | endDocument | startNode | endNode | attr => rfl

theorem watching_of_isEmpty {registry : Registry} (h : registry.isEmpty = true) (here : Position) :
    registry.watching here = [] := by
  rw [watching, List.isEmpty_iff.mp h, List.filter_nil]

/-- Where nothing is watched nothing is caught. -/
theorem catchEvent_of_isEmpty {registry : Registry} (h : registry.isEmpty = true) (here : Position)
    (continued : Bool) (event : Event) : registry.catchEvent here continued event = registry := by
  cases event with
  | text =>
    rw [catchEvent, extend, capture, watching_of_isEmpty h]
    exact ite_self _
  | startDocument | endDocument | startNode | endNode | attr => rfl

end Registry

/-! ## One step -/

namespace Cursor

variable {σ : Type}

/-- The cursor behind an event of its source, before it looks ahead. -/
def entered (c : Cursor σ) (event : Event) : Cursor σ :=
  { c with
    names := namesAfter c.names event
    path := Path.join (namesAfter c.names event)
    attributes := match event with
      | .startNode node => node.attributes
      | .startDocument | .endDocument | .endNode | .text _ | .attr _ => c.attributes }

/-- The cursor stands in front of these events of a balanced document. -/
structure Ahead [Source σ] (c : Cursor σ) (events : List Event) : Prop where
  emits : Source.Emits c.source events
  upcoming : Upcoming c.depth events
  path_eq : c.onAttribute = false → c.path = Path.join c.names

/-- A node that opens deeper than the limit stops the walk. -/
structure Stopped (c : Cursor σ) (event : Event) (limit : Nat) : Prop where
  opens : ∃ node, event = .startNode node
  maxDepth_eq : c.config.maxDepth = some limit
  limit_le : limit ≤ c.depth

theorem toNode_eq {c : Cursor σ} (h : c.onAttribute = false → c.path = Path.join c.names) :
    toNode c = .ok () { c with path := Path.join c.names } := by
  unfold toNode
  split
  next => rfl
  next hattr =>
    rw [Bool.not_eq_true] at hattr
    rw [← h hattr]

/-- An event of the source is entered, unless it opens a node too deep. -/
theorem enter_eq {c : Cursor σ} {event : Event} (hattr : event.isAttribute = false)
    (hnames : event = .endNode → 0 < c.depth)
    (hpath : c.onAttribute = false → c.path = Path.join c.names) :
    enter event c = .ok () (c.entered event) ∨
      ∃ limit path d, c.Stopped event limit ∧ enter event c = .error (.tooDeep path limit) d := by
  cases event with
  | startNode node =>
    have henter : enter (.startNode node) c = openNode node c := rfl
    rw [henter, openNode]
    split
    next => exact .inl rfl
    next limit hlimit =>
      split
      next hdeep => exact .inr ⟨limit, _, _, ⟨⟨node, rfl⟩, hlimit, hdeep⟩, rfl⟩
      next => exact .inl rfl
  | endNode =>
    obtain ⟨name, outer, hcons⟩ := List.exists_cons_of_length_pos (hnames rfl)
    left
    unfold enter closeNode entered namesAfter
    simp only [hcons, List.tail_cons]
  | attr => cases hattr
  | startDocument => exact .inl (toNode_eq hpath)
  | endDocument => exact .inl (toNode_eq hpath)
  | text => exact .inl (toNode_eq hpath)

/-- Looking ahead catches what the source gives next. -/
theorem lookAhead_eq [Source σ] {c : Cursor σ} {events : List Event}
    (h : Source.Emits c.source events) (continued : Bool) :
    ∃ s journal, Source.Emits s events ∧
      lookAhead continued c = .ok ()
        { c with
          source := s
          journal
          registry := c.registry.catchEvent c.position continued (events.headD .endDocument) } := by
  unfold lookAhead
  split
  next hempty =>
    refine ⟨c.source, c.journal, h, ?_⟩
    rw [Registry.catchEvent_of_isEmpty hempty]
  next =>
    obtain ⟨shown, s, hs, hshown, hemits⟩ := h.peek
    have hask : ask Source.peek c = .ok shown { c with source := s } := ask_eq_ok.mpr ⟨s, hs, rfl⟩
    rw [hask]
    cases hshown with
    | ended => exact ⟨s, c.journal, hemits, rfl⟩
    | nothing => exact ⟨s, c.journal, hemits, rfl⟩
    | @first event =>
      cases event with
      | text text =>
        cases continued with
        | true => exact ⟨s, c.journal, hemits, rfl⟩
        | false =>
          exact ⟨s, (c.registry.captureNotices c.position).reverse ++ c.journal, hemits, rfl⟩
      | startDocument | endDocument | startNode | endNode | attr =>
        exact ⟨s, c.journal, hemits, rfl⟩

/-- An attribute that waits is handed out, and the source is not asked. -/
theorem advance_attribute [Source σ] {c : Cursor σ} {a : Attribute} {rest : List Attribute}
    (h : c.attributes = a :: rest) :
    advance c = .ok (.attr a)
      { c with
        attributes := rest
        path := Path.joinAttribute c.names a.name
        current := some (.attr a) } := by
  have htake : take c = .ok (.attr a) { c with attributes := rest } := by
    unfold take
    simp only [h]
  refine EStateM.bind_eq_ok.mpr ⟨_, _, htake, ?_⟩
  rfl

/-- Behind the attributes the next event of the source is taken, and the one behind it is caught. -/
theorem advance_event [Source σ] {c : Cursor σ} {event : Event} {rest : List Event} {s : σ}
    (hattr : c.attributes = [])
    (hnext : (Source.next : EStateM SourceError σ _) c.source = .ok event s)
    (hemits : Source.Emits s rest) (hevent : event.isAttribute = false)
    (hnames : event = .endNode → 0 < c.depth)
    (hpath : c.onAttribute = false → c.path = Path.join c.names) :
    (∃ t journal, Source.Emits t rest ∧ advance c = .ok event
        { c.entered event with
          source := t
          journal
          registry := c.registry.catchEvent (.inside (namesAfter c.names event)) event.isText
            (rest.headD .endDocument)
          current := some event }) ∨
      ∃ limit path d, c.Stopped event limit ∧ advance c = .error (.tooDeep path limit) d := by
  have htake : take c = .ok event { c with source := s } := by
    unfold take
    split
    next hcons => cases hattr.symm.trans hcons
    next => exact ask_eq_ok.mpr ⟨s, hnext, rfl⟩
  have henter := @enter_eq σ { c with source := s } event hevent hnames hpath
  rcases henter with henter | ⟨limit, path, d, hstopped, henter⟩
  · have hwatch : watch event = (lookAhead event.isText : Walk σ Unit) := by
      rw [watch, hevent]
      rfl
    obtain ⟨t, journal, ht, hlook⟩ :=
      @lookAhead_eq σ _ (entered { c with source := s } event) rest hemits event.isText
    refine .inl ⟨t, journal, ht, ?_⟩
    refine EStateM.bind_eq_ok.mpr ⟨event, _, htake, ?_⟩
    refine EStateM.bind_eq_ok.mpr ⟨(), _, henter, ?_⟩
    rw [hwatch]
    exact EStateM.bind_eq_ok.mpr ⟨(), _, hlook, rfl⟩
  · obtain ⟨hopens, hlimit, hdeep⟩ := hstopped
    refine .inr ⟨limit, path, d, ⟨hopens, hlimit, hdeep⟩, ?_⟩
    refine EStateM.bind_eq_error.mpr (.inr ⟨event, _, htake, ?_⟩)
    exact EStateM.bind_eq_error.mpr (.inl henter)

/-! ## What stays foreseen -/

/-- The cursor stands in front of these events and will end with this registry. -/
structure Foresees [Source σ] (c : Cursor σ) (events : List Event) (final : Registry) : Prop
    extends Ahead c events where
  foreseen_eq : c.registry.foreseen c.names events = final

/-- The cursor has moved to an event, and what a caller has set is as it was. -/
structure MovedTo (c d : Cursor σ) (event : Event) : Prop where
  current_eq : d.current = some event
  names_eq : d.names = namesAfter c.names event
  path_eq : event.isAttribute = false → d.path = Path.join d.names
  config_eq : d.config = c.config
  patterns_eq : d.patterns = c.patterns

theorem MovedTo.position_eq {c d : Cursor σ} {event : Event} (h : MovedTo c d event)
    (hevent : event.isAttribute = false) : d.position = .inside (namesAfter c.names event) := by
  rw [position, depth, h.path_eq hevent, h.names_eq]
  rfl

/-- An advance hands out an attribute or takes the next event, and what is foreseen stays. Only a
node that opens too deep stops it. -/
theorem Foresees.advance [Source σ] {c : Cursor σ} {events : List Event} {final : Registry}
    (h : Foresees c events final) :
    (∃ a d, Cursor.advance c = .ok (.attr a) d ∧ MovedTo c d (.attr a) ∧ Foresees d events final) ∨
      (∃ d, Cursor.advance c = .ok (events.headD .endDocument) d ∧
        MovedTo c d (events.headD .endDocument) ∧ Foresees d events.tail final) ∨
      ∃ limit path d, c.Stopped (events.headD .endDocument) limit ∧
        Cursor.advance c = .error (.tooDeep path limit) d := by
  cases hattr : c.attributes with
  | cons a rest =>
    left
    refine ⟨a, _, advance_attribute hattr, ⟨rfl, rfl, nofun, rfl, rfl⟩, ?_⟩
    exact ⟨⟨h.emits, h.upcoming, nofun⟩, h.foreseen_eq⟩
  | nil =>
    right
    obtain ⟨s, hnext, hemits⟩ := h.emits.next
    obtain ⟨hevent, hnames, hupcoming⟩ := h.upcoming.next
    rcases advance_event hattr hnext hemits hevent hnames h.path_eq with
      ⟨t, journal, ht, hadvance⟩ | hdeep
    · left
      refine ⟨_, hadvance, ⟨rfl, rfl, fun _ => rfl, rfl, rfl⟩, ⟨ht, ?_, fun _ => rfl⟩, ?_⟩
      · rw [depth, ← length_namesAfter] at hupcoming
        exact hupcoming
      · rw [← h.foreseen_eq]
        cases events with
        | nil => rfl
        | cons event rest => exact Registry.foreseen_catchEvent c.registry c.names event rest
    · exact .inr hdeep

/-! ## At the start -/

/-- A cursor in front of the first event that watches these places. -/
def watching (source : σ) (config : Config) (headers : Option (List (String × String)))
    (expressions : List Expression) : Cursor σ :=
  expressions.foldl register (new source config headers)

/-- Registering changes the registry alone, and keeps the order. -/
theorem foldl_register (expressions : List Expression) (c : Cursor σ) :
    expressions.foldl register c =
      { c with registry := ⟨c.registry.expressions ++ expressions, c.registry.captured⟩ } := by
  induction expressions generalizing c with
  | nil =>
    rw [List.append_nil]
    rfl
  | cons expression rest ih =>
    rw [List.foldl_cons, ih]
    simp only [register, Registry.register, List.append_assoc, List.cons_append, List.nil_append]

theorem watching_eq (source : σ) (config : Config) (headers : Option (List (String × String)))
    (expressions : List Expression) :
    watching source config headers expressions =
      { new source config headers with registry := ⟨expressions, {}⟩ } :=
  foldl_register expressions (new source config headers)

/-- A cursor in front of a whole document foresees every text of it. -/
theorem foresees_watching [Source σ] {source : σ} {body : List Event} (config : Config)
    (headers : Option (List (String × String))) (expressions : List Expression)
    (hsource : Source.Emits source (.startDocument :: body)) (hbody : Balanced 0 body) :
    Foresees (watching source config headers expressions) (.startDocument :: body)
      ((Registry.mk expressions {}).catchAll false (located [] body)) := by
  rw [watching_eq]
  exact ⟨⟨hsource, .whole hbody, fun _ => rfl⟩, rfl⟩

end Cursor

/-! ## A document -/

/-- A node with an attribute, and texts in pieces around a child. -/
def mixedBody : List Event :=
  [.startNode { name := "a", attributes := [⟨"id", "1"⟩] }, .text "x", .text "y",
    .startNode { name := "b" }, .text "z", .endNode, .text "v", .text "w", .endNode]

theorem balanced_mixedBody : Balanced 0 mixedBody :=
  .startNode (.text (.text (.startNode (.text (.endNode (.text (.text (.endNode .nil))))))))

/-- Two places of it watched under one key. -/
def sharedKey : List Expression :=
  [⟨⟨"a", 1⟩, 0, "k"⟩, ⟨⟨"b", 1⟩, 1, "k"⟩]

/-- A source of that document. -/
def mixedScript : Script :=
  ⟨(.startDocument :: mixedBody).map .event⟩

theorem emits_mixedScript : Source.Emits mixedScript (.startDocument :: mixedBody) :=
  Script.emits_events _

end DocWalk
