import DocWalk.Cursor.Traversal

/-!
# Operations of a cursor

What a caller may ask of a cursor and what is answered. Over a finite source every operation comes to
an end, and `Operation.perform` is that end: an answer or an error, and the cursor left.

Two operations are loops over events: reading the text of a node and skipping a node. A source that
gives texts for ever, or opens nodes for ever, keeps them busy for ever, and a source may show one
event and give another. `Performs` says of any source what an operation comes to when it comes to an
end, one rule for each turn of a loop.

What an operation does besides entering events leaves the open nodes, the path and the current event
as they are (`SamePlace`).

**The law** (`performs_iff`): over a finite source the two say the same.
-/

set_option autoImplicit false

namespace DocWalk.Cursor

variable {σ : Type}

/-- How an operation of a cursor ends. -/
abbrev Outcome (σ α : Type) := EStateM.Result WalkError (Cursor σ) α

/-! ## What leaves the place as it is -/

/-- Another cursor with the same open nodes, path and current event. -/
structure SamePlace (c d : Cursor σ) : Prop where
  names_eq : d.names = c.names
  path_eq : d.path = c.path
  current_eq : d.current = c.current

theorem SamePlace.refl (c : Cursor σ) : SamePlace c c :=
  ⟨rfl, rfl, rfl⟩

theorem SamePlace.trans {c d f : Cursor σ} (h : SamePlace c d) (k : SamePlace d f) :
    SamePlace c f :=
  ⟨k.names_eq.trans h.names_eq, k.path_eq.trans h.path_eq, k.current_eq.trans h.current_eq⟩

theorem samePlace_ask {α : Type} (request : EStateM SourceError σ α) :
    EStateM.Leads SamePlace (ask request) := by
  intro c
  unfold ask
  split <;> exact ⟨rfl, rfl, rfl⟩

theorem samePlace_catchText (continued : Bool) (text : String) (c : Cursor σ) :
    SamePlace c (c.catchText continued text) := by
  unfold catchText
  split <;> exact ⟨rfl, rfl, rfl⟩

theorem samePlace_lookAhead [Source σ] (continued : Bool) :
    EStateM.Leads (ε := WalkError) (SamePlace (σ := σ)) (lookAhead continued) := by
  intro c
  unfold lookAhead
  split
  next => exact .refl c
  next =>
    split
    next hp => exact ((samePlace_ask _).of_ok hp).trans (samePlace_catchText continued _ _)
    next hp => exact (samePlace_ask _).of_ok hp
    next hp => exact (samePlace_ask _).of_error hp

theorem samePlace_take [Source σ] : EStateM.Leads (SamePlace (σ := σ)) take := by
  intro c
  unfold take
  split
  next => exact ⟨rfl, rfl, rfl⟩
  next => exact samePlace_ask Source.next c

theorem samePlace_watch [Source σ] (event : Event) :
    EStateM.Leads (ε := WalkError) (SamePlace (σ := σ)) (watch event) := by
  unfold watch
  split
  next => exact .pure .refl ()
  next => exact samePlace_lookAhead _

/-- An event cannot be entered where a node is too deep, or where no node is open that could close. -/
theorem enter_error_cases {event : Event} {c d : Cursor σ} {e : WalkError}
    (h : enter event c = .error e d) :
    (∃ path limit, e = .tooDeep path limit ∧ d = c.tell [.tooDeep limit c.path]) ∨
      e = .structural c.path .unopenedEnd ∧ d = c := by
  cases event with
  | startNode node =>
    change openNode node c = _ at h
    unfold openNode at h
    split at h
    next => cases h
    next limit _ =>
      split at h <;> cases h
      exact .inl ⟨_, limit, rfl, rfl⟩
  | endNode =>
    change closeNode c = _ at h
    unfold closeNode at h
    split at h <;> cases h
    exact .inr ⟨rfl, rfl⟩
  | attr => cases h
  | startDocument | endDocument | text =>
    change toNode c = _ at h
    unfold toNode at h
    split at h <;> cases h

/-! ## One advance -/

/-- An advance takes an event, enters it, watches what comes behind it and arrives. -/
theorem advance_eq_ok_iff [Source σ] {event : Event} {c d : Cursor σ} :
    advance c = .ok event d ↔ ∃ a b f, take c = .ok event a ∧ enter event a = .ok () b ∧
      watch event b = .ok () f ∧ d = { f with current := some event } := by
  constructor
  · intro h
    obtain ⟨_, a, htake, h⟩ := EStateM.bind_eq_ok.mp h
    obtain ⟨_, b, henter, h⟩ := EStateM.bind_eq_ok.mp h
    obtain ⟨_, f, hwatch, h⟩ := EStateM.bind_eq_ok.mp h
    cases h
    exact ⟨a, b, f, htake, henter, hwatch, rfl⟩
  · rintro ⟨a, b, f, htake, henter, hwatch, rfl⟩
    refine EStateM.bind_eq_ok.mpr ⟨_, _, htake, ?_⟩
    refine EStateM.bind_eq_ok.mpr ⟨_, _, henter, ?_⟩
    exact EStateM.bind_eq_ok.mpr ⟨_, _, hwatch, rfl⟩

/-- It fails with the first of these that fails. -/
theorem advance_eq_error_iff [Source σ] {c d : Cursor σ} {e : WalkError} :
    advance c = .error e d ↔ take c = .error e d ∨ ∃ event a, take c = .ok event a ∧
      (enter event a = .error e d ∨
        ∃ b, enter event a = .ok () b ∧ watch event b = .error e d) := by
  constructor
  · intro h
    rcases EStateM.bind_eq_error.mp h with htake | ⟨event, a, htake, h⟩
    · exact .inl htake
    right
    refine ⟨event, a, htake, ?_⟩
    rcases EStateM.bind_eq_error.mp h with henter | ⟨_, b, henter, h⟩
    · exact .inl henter
    rcases EStateM.bind_eq_error.mp h with hwatch | ⟨_, _, _, harrive⟩
    · exact .inr ⟨b, henter, hwatch⟩
    · cases harrive
  · rintro (htake | ⟨event, a, htake, hrest⟩)
    · exact EStateM.bind_eq_error.mpr (.inl htake)
    refine EStateM.bind_eq_error.mpr (.inr ⟨event, a, htake, EStateM.bind_eq_error.mpr ?_⟩)
    refine hrest.imp id ?_
    rintro ⟨b, henter, hwatch⟩
    exact ⟨(), b, henter, EStateM.bind_eq_error.mpr (.inl hwatch)⟩

/-! ## Loops over any source -/

/-- What taking texts behind `out` comes to, up to the end of the node or to where nothing is shown.
-/
inductive CollectsText [Source σ] : String → Cursor σ → Outcome σ String → Prop where
  | unseen {out : String} {c d : Cursor σ} {e : WalkError} :
      ask Source.peek c = .error e d → CollectsText out c (.error e d)
  | ends {out : String} {c d : Cursor σ} {shown : Option Event} : ask Source.peek c = .ok shown d →
      shown = none ∨ shown = some .endNode → CollectsText out c (.ok out d)
  | found {out : String} {c d : Cursor σ} {event : Event} : ask Source.peek c = .ok (some event) d →
      event.isText = false → event.isEndNode = false → CollectsText out c (failInText event d)
  | untaken {out text : String} {c d f : Cursor σ} {e : WalkError} :
      ask Source.peek c = .ok (some (.text text)) d → ask Source.next d = .error e f →
      CollectsText out c (.error e f)
  | unwatched {out text chunk : String} {c d f g : Cursor σ} {e : WalkError} :
      ask Source.peek c = .ok (some (.text text)) d → ask Source.next d = .ok (.text chunk) f →
      lookAhead true f = .error e g → CollectsText out c (.error e g)
  | piece {out text chunk : String} {c d f g : Cursor σ} {r : Outcome σ String} :
      ask Source.peek c = .ok (some (.text text)) d → ask Source.next d = .ok (.text chunk) f →
      lookAhead true f = .ok () g → CollectsText (out ++ chunk) g r → CollectsText out c r
  /-- A text was shown, and something else is given: it is passed over. -/
  | other {out text : String} {c d f : Cursor σ} {event : Event} {r : Outcome σ String} :
      ask Source.peek c = .ok (some (.text text)) d → ask Source.next d = .ok event f →
      event.isText = false → CollectsText out f r → CollectsText out c r

/-- What moving on comes to, until no more than `target` nodes are open. -/
inductive SkipsTo [Source σ] (target : Nat) : Cursor σ → Outcome σ Unit → Prop where
  | reached {c : Cursor σ} : c.depth ≤ target → SkipsTo target c (.ok () c)
  | stopped {c d : Cursor σ} {e : WalkError} : target < c.depth → advance c = .error e d →
      SkipsTo target c (.error e d)
  | ended {c d : Cursor σ} : target < c.depth → advance c = .ok .endDocument d →
      SkipsTo target c (misfit .endedInsideNode d)
  | onward {c d : Cursor σ} {event : Event} {r : Outcome σ Unit} : target < c.depth →
      advance c = .ok event d → event ≠ .endDocument → SkipsTo target d r → SkipsTo target c r

/-- What reading the text at the position comes to. -/
def ReadsText [Source σ] (c : Cursor σ) (r : Outcome σ String) : Prop :=
  match c.current with
  | none => r = misfit .textBeforeFirst c
  | some (.attr a) => r = .ok a.value c
  | some (.startNode _) => CollectsText "" { c with attributes := [] } r
  | some event => r = misfit (.noTextAt event) c

/-- What skipping the node that has just opened comes to. -/
def SkipsNode [Source σ] (c : Cursor σ) (r : Outcome σ Unit) : Prop :=
  match c.current with
  | some (.startNode _) => SkipsTo (c.depth - 1) c r
  | _ => r = misfit .skipElsewhere c

/-- The value of a text that was read. -/
def decodeText (kind : Kind) : Outcome σ String → Outcome σ Primitive
  | .ok text c =>
    match kind.decode text with
    | .ok value => .ok value (c.tell (kind.notices text))
    | .error e => .error (.decode c.path e) (c.tell (kind.notices text))
  | .error e c => .error e c

/-! ## Requests and answers -/

/-- What can be seen of a cursor without moving it. -/
inductive View where
  | test (pattern : String)
  | path
  | depth
  | parent
  | current
  | metadata
  | header (name : String)
  deriving DecidableEq, Repr

/-- What a caller may ask. -/
inductive Operation where
  | advance
  | readText
  | read (kind : Kind)
  | skip
  | atStart
  | testAt (pattern : String) (anchor : Nat)
  | register (pattern : String) (anchor : Nat) (key : String)
  | look (view : View)
  deriving DecidableEq, Repr

/-- What a caller is told. -/
inductive Answer where
  | done
  | event (event : Event)
  | text (text : String)
  | value (value : Primitive)
  | flag (flag : Bool)
  | number (number : Nat)
  | text? (text : Option String)
  | event? (event : Option Event)
  | captured (captured : Captured)
  deriving DecidableEq, Repr

/-- What a view shows. -/
def View.of (c : Cursor σ) : View → Answer
  | .test pattern => .flag (c.test pattern)
  | .path => .text c.path
  | .depth => .number c.depth
  | .parent => .text? c.parent?
  | .current => .event? c.current
  | .metadata => .captured c.metadata
  | .header name => .text? (c.header? name)

namespace Operation

/-- What an operation comes to over a finite source. -/
def perform [FiniteSource σ] (operation : Operation) (c : Cursor σ) : Outcome σ Answer :=
  match operation with
  | .advance => (Cursor.advance c).mapAnswer .event
  | .readText => (Cursor.readText c).mapAnswer .text
  | .read kind => (Cursor.read kind c).mapAnswer .value
  | .skip => (skipNode c).mapAnswer fun _ => .done
  | .atStart => (Cursor.atStart c).mapAnswer .flag
  | .testAt pattern anchor => .ok (.flag (c.testAt pattern anchor).1) (c.testAt pattern anchor).2
  | .register pattern anchor key => .ok .done (c.register (.of pattern anchor key))
  | .look view => .ok (view.of c) c

/-- The answers to one operation after another, each on the cursor that the one before has left. -/
def answers [FiniteSource σ] : List Operation → Cursor σ → List (Except WalkError Answer)
  | [], _ => []
  | operation :: rest, c =>
    (operation.perform c).answer :: answers rest (operation.perform c).left

/-- The cursor left behind one operation after another. -/
def after [FiniteSource σ] (operations : List Operation) (c : Cursor σ) : Cursor σ :=
  operations.foldl (fun c operation => (operation.perform c).left) c

/-- What an operation comes to over any source, if it comes to an end. -/
def Performs [Source σ] (operation : Operation) (c : Cursor σ) (r : Outcome σ Answer) : Prop :=
  match operation with
  | .advance => r = (Cursor.advance c).mapAnswer .event
  | .readText => ∃ read, ReadsText c read ∧ r = read.mapAnswer .text
  | .read kind => ∃ read, ReadsText c read ∧ r = (decodeText kind read).mapAnswer .value
  | .skip => ∃ skipped, SkipsNode c skipped ∧ r = skipped.mapAnswer fun _ => .done
  | .atStart => r = (Cursor.atStart c).mapAnswer .flag
  | .testAt pattern anchor =>
    r = .ok (.flag (c.testAt pattern anchor).1) (c.testAt pattern anchor).2
  | .register pattern anchor key => r = .ok .done (c.register (.of pattern anchor key))
  | .look view => r = .ok (view.of c) c

end Operation

/-- One operation after another, from one cursor to another, whether they fail or not: what was asked
and what was answered. -/
inductive Session [Source σ] :
    Cursor σ → List (Operation × Except WalkError Answer) → Cursor σ → Prop where
  | rest (c : Cursor σ) : Session c [] c
  | step {c d : Cursor σ} {operation : Operation} {r : Outcome σ Answer}
      {more : List (Operation × Except WalkError Answer)} : operation.Performs c r →
      Session r.left more d → Session c ((operation, r.answer) :: more) d

/-! ## Loops over a finite source -/

variable [FiniteSource σ]

/-- One turn of taking texts. -/
theorem collectText_eq (out : String) (c : Cursor σ) :
    collectText out c =
      match ask Source.peek c with
      | .error e d => .error e d
      | .ok none d | .ok (some .endNode) d => .ok out d
      | .ok (some (.text _)) d =>
        match ask Source.next d with
        | .error e f => .error e f
        | .ok (.text chunk) f =>
          match lookAhead true f with
          | .error e g => .error e g
          | .ok () g => collectText (out ++ chunk) g
        | .ok _ f => .ok out f
      | .ok (some event) d => failInText event d := by
  rw [collectText]
  split
  next hp => rw [hp]
  next hp => rw [hp]
  next hp => rw [hp]
  next hp =>
    rw [hp]
    simp only
    split
    next hn => rw [hn]
    next hn =>
      rw [hn]
      simp only
      split
      next hw => rw [hw]
      next hw => rw [hw]
    next event _ hne hn =>
      rw [hn]
      cases event with
      | text => exact absurd rfl (hne _)
      | startDocument | endDocument | startNode | endNode | attr => rfl
  next event _ hend htext hp =>
    rw [hp]
    cases event with
    | text => exact absurd rfl (htext _)
    | endNode => exact absurd rfl hend
    | startDocument | endDocument | startNode | attr => rfl

/-- One turn of moving on. -/
theorem skipTo_eq (target : Nat) (c : Cursor σ) :
    skipTo target c =
      if c.depth ≤ target then .ok () c
      else
        match advance c with
        | .error e d => .error e d
        | .ok event d =>
          if event = .endDocument then misfit .endedInsideNode d else skipTo target d := by
  rw [skipTo]
  split
  next => rfl
  next =>
    split
    next h => rw [h]
    next h =>
      rw [h]
      rfl

theorem drain_end {c d : Cursor σ} (h : advance c = .ok .endDocument d) :
    drain c = ([⟨.endDocument, d.position⟩], .ok () d) := by
  rw [drain]
  split
  next hfail => cases h.symm.trans hfail
  next hgo =>
    cases h.symm.trans hgo
    rfl

theorem drain_go {c d : Cursor σ} {event : Event} (h : advance c = .ok event d)
    (hne : event ≠ .endDocument) :
    drain c = (⟨event, d.position⟩ :: (drain d).1, (drain d).2) := by
  rw [drain]
  split
  next hfail => cases h.symm.trans hfail
  next hgo =>
    cases h.symm.trans hgo
    rw [dif_neg hne]

/-- A text that is shown is given next. -/
theorem ask_next_of_peek {c d : Cursor σ} {event : Event}
    (h : ask Source.peek c = .ok (some event) d) : ∃ f, ask Source.next d = .ok event f := by
  obtain ⟨s, hs, rfl⟩ := ask_eq_ok.mp h
  obtain ⟨t, ht⟩ := FiniteSource.next_of_peek hs
  exact ⟨_, ask_eq_ok.mpr ⟨t, ht, rfl⟩⟩

theorem collectText_of_collectsText {out : String} {c : Cursor σ} {r : Outcome σ String}
    (h : CollectsText out c r) : collectText out c = r := by
  induction h with
  | unseen hp => rw [collectText_eq, hp]
  | ends hp hshown =>
    rw [collectText_eq, hp]
    rcases hshown with rfl | rfl <;> rfl
  | @found out c d event hp htext hend =>
    rw [collectText_eq, hp]
    cases event with
    | text => cases htext
    | endNode => cases hend
    | startDocument | endDocument | startNode | attr => rfl
  | untaken hp hn =>
    rw [collectText_eq, hp]
    simp only [hn]
  | unwatched hp hn hw =>
    rw [collectText_eq, hp]
    simp only [hn, hw]
  | piece hp hn hw _ ih =>
    rw [collectText_eq, hp]
    simp only [hn, hw]
    exact ih
  | other hp hn htext =>
    obtain ⟨f, hf⟩ := ask_next_of_peek hp
    cases hn.symm.trans hf
    cases htext

theorem collectsText_collectText (out : String) (c : Cursor σ) :
    CollectsText out c (collectText out c) := by
  fun_induction collectText out c with
  | case1 out c e d hp => exact .unseen hp
  | case2 out c d hp => exact .ends hp (.inl rfl)
  | case3 out c d hp => exact .ends hp (.inr rfl)
  | case4 out c text d hp e f hn => exact .untaken hp hn
  | case5 out c text d hp chunk f hn e g hw => exact .unwatched hp hn hw
  | case6 out c text d hp chunk f hn g hw ih => exact .piece hp hn hw ih
  | case7 out c text d hp event f hne hn =>
    obtain ⟨g, hg⟩ := ask_next_of_peek hp
    cases hn.symm.trans hg
    exact absurd rfl (hne text)
  | case8 out c event d hend htext hp =>
    apply CollectsText.found hp
    · cases event with
      | text => exact absurd rfl (htext _)
      | startDocument | endDocument | startNode | endNode | attr => rfl
    · cases event with
      | endNode => exact absurd rfl hend
      | startDocument | endDocument | startNode | text | attr => rfl

theorem skipTo_of_skipsTo {target : Nat} {c : Cursor σ} {r : Outcome σ Unit}
    (h : SkipsTo target c r) : skipTo target c = r := by
  induction h with
  | reached hdepth => rw [skipTo_eq, if_pos hdepth]
  | stopped hdepth hadvance => rw [skipTo_eq, if_neg (Nat.not_le.mpr hdepth), hadvance]
  | ended hdepth hadvance =>
    rw [skipTo_eq, if_neg (Nat.not_le.mpr hdepth), hadvance]
    exact if_pos rfl
  | onward hdepth hadvance hne _ ih =>
    rw [skipTo_eq, if_neg (Nat.not_le.mpr hdepth), hadvance]
    exact (if_neg hne).trans ih

theorem skipsTo_skipTo (target : Nat) (c : Cursor σ) : SkipsTo target c (skipTo target c) := by
  fun_induction skipTo target c with
  | case1 c hdepth => exact .reached hdepth
  | case2 c hdepth e d hadvance => exact .stopped (Nat.not_le.mp hdepth) hadvance
  | case3 c hdepth d hadvance => exact .ended (Nat.not_le.mp hdepth) hadvance
  | case4 c hdepth event d hadvance hne ih =>
    exact .onward (Nat.not_le.mp hdepth) hadvance hne ih

/-! ## Operations over a finite source -/

theorem collectsText_iff {out : String} {c : Cursor σ} {r : Outcome σ String} :
    CollectsText out c r ↔ collectText out c = r :=
  ⟨collectText_of_collectsText, fun h => h ▸ collectsText_collectText out c⟩

theorem skipsTo_iff {target : Nat} {c : Cursor σ} {r : Outcome σ Unit} :
    SkipsTo target c r ↔ skipTo target c = r :=
  ⟨skipTo_of_skipsTo, fun h => h ▸ skipsTo_skipTo target c⟩

theorem readText_of_startNode {c : Cursor σ} {node : Node} (h : c.current = some (.startNode node)) :
    readText c = collectText "" { c with attributes := [] } := by
  obtain ⟨source, config, names, path, current, attributes, registry, patterns, headers, journal⟩ :=
    c
  cases h
  rfl

theorem readsText_iff {c : Cursor σ} {r : Outcome σ String} : ReadsText c r ↔ readText c = r := by
  unfold ReadsText readText
  cases c.current with
  | none => exact eq_comm
  | some event =>
    cases event with
    | startNode => exact collectsText_iff
    | startDocument | endDocument | endNode | text | attr => exact eq_comm

theorem skipsNode_iff {c : Cursor σ} {r : Outcome σ Unit} : SkipsNode c r ↔ skipNode c = r := by
  unfold SkipsNode skipNode
  cases c.current with
  | none => exact eq_comm
  | some event =>
    cases event with
    | startNode => exact skipsTo_iff
    | startDocument | endDocument | endNode | text | attr => exact eq_comm

theorem read_eq (kind : Kind) (c : Cursor σ) : read kind c = decodeText kind (readText c) := by
  change EStateM.bind readText _ c = _
  unfold EStateM.bind
  cases readText c with
  | error => rfl
  | ok text d =>
    unfold decodeText
    dsimp only
    change (match kind.decode text with | .ok value => _ | .error e => _ : Walk σ Primitive) _ = _
    cases kind.decode text with
    | ok => rfl
    | error => rfl

/-- **What comes to an end is what is performed.** Over a finite source the rules give every operation
one end, the one it has. -/
theorem performs_iff {operation : Operation} {c : Cursor σ} {r : Outcome σ Answer} :
    operation.Performs c r ↔ operation.perform c = r := by
  cases operation with
  | readText =>
    simp only [Operation.Performs, Operation.perform, readsText_iff, exists_eq_left']
    exact eq_comm
  | read kind =>
    simp only [Operation.Performs, Operation.perform, readsText_iff, exists_eq_left', read_eq]
    exact eq_comm
  | skip =>
    simp only [Operation.Performs, Operation.perform, skipsNode_iff, exists_eq_left']
    exact eq_comm
  | advance | atStart | testAt | register | look => exact eq_comm

/-- Over a finite source every session comes to an end. -/
theorem session_answers (operations : List Operation) (c : Cursor σ) :
    Session c (operations.zip (Operation.answers operations c)) (Operation.after operations c) := by
  induction operations generalizing c with
  | nil => exact .rest c
  | cons operation rest ih => exact .step (performs_iff.mpr rfl) (ih _)

end DocWalk.Cursor
