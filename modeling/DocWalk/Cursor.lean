import DocWalk.Config
import DocWalk.Cursor.Error
import DocWalk.Metadata
import DocWalk.Path.Cache
import DocWalk.Primitive

/-!
# The document cursor

A cursor walks the events of a source and knows at each of them the names of the open nodes and their
joined path. The attributes of a node that opens become events of their own, in front of its content.
Before each event is handed out the cursor looks one event ahead: text that comes next is caught by
the metadata expressions that mean the present position.

An operation that fails leaves the cursor as far as it came: the event may be gone from the source
and the position may have moved, while the current event is still the old one.

`advance_lt` bounds the walk: every event before the end takes from the events of the source, or from
the attributes that wait.
-/

set_option autoImplicit false

namespace DocWalk

/-- A traversal of the events of a source. -/
structure Cursor (σ : Type) where
  source : σ
  config : Config
  /-- Names of the open nodes, innermost first. -/
  names : List String
  /-- The joined path of the position. -/
  path : String
  /-- The event that was handed out last. -/
  current : Option Event
  /-- Attributes of the node opened last that were not handed out yet. -/
  attributes : List Attribute
  registry : Registry
  patterns : PatternCache
  /-- Headers that came with the document, if any did. -/
  headers : Option (List (String × String))
  /-- Notices, the latest first. -/
  journal : List Notice

/-- An operation of a cursor. -/
abbrev Walk (σ : Type) := EStateM WalkError (Cursor σ)

namespace Cursor

variable {σ : Type}

/-- A cursor in front of the first event. -/
def new (source : σ) (config : Config := {}) (headers : Option (List (String × String)) := none) :
    Cursor σ :=
  { source, config, headers
    names := []
    path := ""
    current := none
    attributes := []
    registry := {}
    patterns := { capacity := config.cacheCapacity }
    journal := [] }

/-- Number of open nodes. -/
def depth (c : Cursor σ) : Nat :=
  c.names.length

/-- Where the cursor stands. -/
def position (c : Cursor σ) : Position :=
  ⟨c.path, c.depth⟩

/-- The name of the innermost open node. -/
def parent? (c : Cursor σ) : Option String :=
  c.names.head?

/-- What the metadata expressions have caught so far. -/
def metadata (c : Cursor σ) : Captured :=
  c.registry.captured

/-- The value of a header. -/
def header? (c : Cursor σ) (name : String) : Option String :=
  c.headers.bind (·.lookup name)

/-- The notices so far, in order. -/
def notices (c : Cursor σ) : List Notice :=
  c.journal.reverse

/-- Whether the current event is an attribute. -/
def onAttribute (c : Cursor σ) : Bool :=
  c.current.any (·.isAttribute)

/-- Watches a place for metadata, for the rest of the traversal. -/
def register (c : Cursor σ) (expression : Expression) : Cursor σ :=
  { c with registry := c.registry.register expression }

/-- The loose test of the current path. -/
def test (c : Cursor σ) (pattern : String) : Bool :=
  Path.matchesSuffix c.path pattern

/-- The anchored test of the position, with the cursor that remembers the pattern. -/
def testAt (c : Cursor σ) (pattern : String) (anchor : Nat) : Bool × Cursor σ :=
  let (answer, patterns) := c.patterns.holds pattern c.position anchor
  (answer, { c with patterns })

/-- Adds notices, given in order. -/
def tell (c : Cursor σ) (notices : List Notice) : Cursor σ :=
  { c with journal := notices.reverse ++ c.journal }

/-- Fails with a misfit at the current path. -/
def misfit {α : Type} (misfit : Misfit) : Walk σ α := fun c =>
  .error (.structural c.path misfit) c

/-- Asks the source. -/
def ask {α : Type} (request : EStateM SourceError σ α) : Walk σ α := fun c =>
  match request c.source with
  | .ok a s => .ok a { c with source := s }
  | .error e s => .error (.source e) { c with source := s }

/-! ## Moving on -/

/-- Takes the first waiting attribute, or else the next event of the source. -/
def take [Source σ] : Walk σ Event := fun c =>
  match c.attributes with
  | a :: rest => .ok (.attr a) { c with attributes := rest }
  | [] => ask Source.next c

/-- Opens a node, unless that is too deep. -/
def openNode (node : Node) : Walk σ Unit := fun c =>
  let opened : Cursor σ :=
    { c with
      names := node.name :: c.names
      attributes := node.attributes
      path := Path.join (node.name :: c.names) }
  match c.config.maxDepth with
  | none => .ok () opened
  | some limit =>
    if limit ≤ c.depth then
      .error (.tooDeep (c.path ++ "/" ++ node.name) limit) (c.tell [.tooDeep limit c.path])
    else .ok () opened

/-- Closes the innermost open node. -/
def closeNode : Walk σ Unit := fun c =>
  match c.names with
  | [] => misfit .unopenedEnd c
  | _ :: outer => .ok () { c with names := outer, path := Path.join outer }

/-- Goes from a node to one of its attributes. -/
def toAttribute (name : String) : Walk σ Unit := fun c =>
  .ok () { c with path := Path.joinAttribute c.names name }

/-- Goes from an attribute back to its node. -/
def toNode : Walk σ Unit := fun c =>
  if c.onAttribute then .ok () { c with path := Path.join c.names } else .ok () c

/-- Moves the position to an event. -/
def enter (event : Event) : Walk σ Unit :=
  match event with
  | .startNode node => openNode node
  | .endNode => closeNode
  | .attr a => toAttribute a.name
  | .startDocument | .endDocument | .text _ => toNode

/-- Lets the metadata expressions catch a text at the position: as the first piece of the text there,
or as one more. -/
def catchText (continued : Bool) (text : String) (c : Cursor σ) : Cursor σ :=
  if continued then { c with registry := c.registry.extend c.position text }
  else
    { c with registry := c.registry.capture c.position text }.tell
      (c.registry.captureNotices c.position)

/-- Looks at the next event, if anything is watched, and catches it if it is text. -/
def lookAhead [Source σ] (continued : Bool) : Walk σ Unit := fun c =>
  if c.registry.isEmpty then .ok () c
  else
    match ask Source.peek c with
    | .ok (some (.text text)) c => .ok () (c.catchText continued text)
    | .ok _ c => .ok () c
    | .error e c => .error e c

/-- Looks ahead from an event of the source. Text behind text is one more piece of it. -/
def watch [Source σ] (event : Event) : Walk σ Unit :=
  if event.isAttribute then pure () else lookAhead event.isText

/-- Makes an event the current one. -/
def arrive (event : Event) : Walk σ Event := fun c =>
  .ok event { c with current := some event }

/-- Moves to the next event. -/
def advance [Source σ] : Walk σ Event := do
  let event ← take
  enter event
  watch event
  arrive event

/-- Whether the next event of the source is the start of the document. -/
def atStart [Source σ] : Walk σ Bool := do
  return (← ask Source.peek) = some .startDocument

/-! ## The walk comes to an end -/

/-- A cursor has no more events of its source left than another. -/
def NoMore [FiniteSource σ] (c d : Cursor σ) : Prop :=
  FiniteSource.remaining d.source ≤ FiniteSource.remaining c.source

theorem ask_eq_ok {α : Type} {request : EStateM SourceError σ α} {c d : Cursor σ} {a : α} :
    ask request c = .ok a d ↔ ∃ s, request c.source = .ok a s ∧ d = { c with source := s } := by
  unfold ask
  cases request c.source <;> simp [and_assoc, eq_comm]

theorem source_catchText (continued : Bool) (text : String) (c : Cursor σ) :
    (c.catchText continued text).source = c.source := by
  unfold catchText
  split <;> rfl

theorem lookAhead_noMore [FiniteSource σ] {continued : Bool} {c d : Cursor σ}
    (h : lookAhead continued c = .ok () d) : NoMore c d := by
  unfold lookAhead at h
  split at h
  · cases h
    exact Nat.le_refl _
  split at h
  next hp =>
    obtain ⟨s, hs, rfl⟩ := ask_eq_ok.mp hp
    cases h
    simp only [NoMore, source_catchText]
    exact FiniteSource.peek_le hs
  next hp =>
    obtain ⟨s, hs, rfl⟩ := ask_eq_ok.mp hp
    cases h
    exact FiniteSource.peek_le hs
  next => cases h

theorem openNode_source {node : Node} {c d : Cursor σ} (h : openNode node c = .ok () d) :
    d.source = c.source := by
  unfold openNode at h
  split at h
  · cases h
    rfl
  split at h
  · cases h
  · cases h
    rfl

theorem closeNode_source {c d : Cursor σ} (h : closeNode c = .ok () d) : d.source = c.source := by
  unfold closeNode at h
  split at h
  · cases h
  · cases h
    rfl

theorem toNode_source {c d : Cursor σ} (h : toNode c = .ok () d) : d.source = c.source := by
  unfold toNode at h
  split at h <;> cases h <;> rfl

theorem toAttribute_source {name : String} {c d : Cursor σ} (h : toAttribute name c = .ok () d) :
    d.source = c.source ∧ d.attributes = c.attributes := by
  unfold toAttribute at h
  cases h
  exact ⟨rfl, rfl⟩

theorem enter_source {event : Event} {c d : Cursor σ} (h : enter event c = .ok () d) :
    d.source = c.source ∧ (event.isAttribute → d.attributes = c.attributes) := by
  cases event with
  | startNode node => exact ⟨openNode_source h, nofun⟩
  | endNode => exact ⟨closeNode_source h, nofun⟩
  | attr a => exact ⟨(toAttribute_source h).1, fun _ => (toAttribute_source h).2⟩
  | startDocument => exact ⟨toNode_source h, nofun⟩
  | endDocument => exact ⟨toNode_source h, nofun⟩
  | text t => exact ⟨toNode_source h, nofun⟩

theorem watch_noMore [FiniteSource σ] {event : Event} {c d : Cursor σ}
    (h : watch event c = .ok () d) :
    NoMore c d ∧ (event.isAttribute → d.attributes = c.attributes) := by
  unfold watch at h
  split at h
  · obtain ⟨_, rfl⟩ := EStateM.pure_eq_ok.mp h
    exact ⟨Nat.le_refl _, fun _ => rfl⟩
  next ha => exact ⟨lookAhead_noMore h, fun h' => absurd h' ha⟩

/-- The measure of a walk: the events of the source, then the attributes that wait. -/
def left [FiniteSource σ] (c : Cursor σ) : Nat × Nat :=
  (FiniteSource.remaining c.source, c.attributes.length)

/-- Every event before the end takes from what is left. -/
theorem advance_lt [FiniteSource σ] {c d : Cursor σ} {event : Event}
    (h : advance c = .ok event d) (he : event ≠ .endDocument) :
    Prod.Lex (· < ·) (· < ·) d.left c.left := by
  obtain ⟨taken, c₁, h₁, h⟩ := EStateM.bind_eq_ok.mp h
  obtain ⟨_, c₂, h₂, h⟩ := EStateM.bind_eq_ok.mp h
  obtain ⟨_, c₃, h₃, h⟩ := EStateM.bind_eq_ok.mp h
  obtain ⟨hs, ha⟩ := enter_source h₂
  obtain ⟨hle, ha'⟩ := watch_noMore h₃
  simp only [arrive, EStateM.Result.ok.injEq] at h
  obtain ⟨rfl, rfl⟩ := h
  simp only [NoMore, hs] at hle
  unfold take at h₁
  split at h₁
  next a rest hattr =>
    cases h₁
    rw [left, left, ha' rfl, ha rfl, hattr]
    rcases Nat.lt_or_eq_of_le hle with hlt | heq
    · exact .left _ _ hlt
    · rw [show FiniteSource.remaining c.source = _ from heq.symm]
      exact .right _ (Nat.lt_succ_self _)
  next =>
    obtain ⟨s, hn, rfl⟩ := ask_eq_ok.mp h₁
    exact .left _ _ (Nat.lt_of_le_of_lt hle (FiniteSource.next_lt hn he))

end Cursor

end DocWalk
