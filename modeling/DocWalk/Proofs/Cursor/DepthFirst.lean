import DocWalk.Proofs.Cursor.Foresight
import DocWalk.Proofs.Cursor.Operations

/-!
# A walk is a traversal depth first

A document that is a tree is read as a flat sequence of events, and the cursor that walks it keeps the
names of the open nodes, their joined path, and the attributes that wait. `Tree.visits` says what such
a walk shows by recursion on the tree, with nothing kept but the path and the depth of the node
around: a node, then its attributes in order, then what is in it, then the end of the node, back at
the place around it.

**The law** (`drain_forest`): draining shows just that, between the two markers. The induction is on
the tree, for any names around it and any events behind it. What the current event is does not enter
it: behind an attribute the path is that of the attribute, and the next event of the source leads back
from there.

Two laws of the walk stand beside it. Every advance keeps the balance of depth and of nodes opened and
closed, over any source (`Walks.depth_eq`). And the events are those of the document with the
attributes of each node behind it (`map_event_visits`).
-/

set_option autoImplicit false

namespace DocWalk

/-! ## Documents as trees -/

/-- A text, or a node with what is in it. -/
inductive Tree where
  | text (text : String)
  | node (node : Node) (children : List Tree)
  deriving Repr, Inhabited

mutual

/-- The events of a tree. -/
def Tree.flatten : Tree → List Event
  | .text text => [.text text]
  | .node node children => .startNode node :: flattenAll children ++ [.endNode]

/-- The events of a forest. -/
def flattenAll : List Tree → List Event
  | [] => []
  | tree :: rest => tree.flatten ++ flattenAll rest

end

/-- The attributes that come with an event. -/
def Event.attributes : Event → List Attribute
  | .startNode node => node.attributes
  | .startDocument | .endDocument | .endNode | .text _ | .attr _ => []

/-- An event, and its attributes as events behind it. -/
def Event.withAttributes (event : Event) : List Event :=
  event :: event.attributes.map .attr

namespace Cursor

variable {σ : Type}

/-- The attributes of a node, one by one, from the node. -/
def attributeVisits (path : String) (depth : Nat) (attributes : List Attribute) : List Visit :=
  attributes.map fun a => ⟨.attr a, ⟨path ++ "/@" ++ a.name, depth⟩⟩

mutual

/-- What a walk over a tree shows, inside a node of this path and depth. -/
def visits (path : String) (depth : Nat) : Tree → List Visit
  | .text text => [⟨.text text, ⟨path, depth⟩⟩]
  | .node node children =>
    ⟨.startNode node, ⟨path ++ "/" ++ node.name, depth + 1⟩⟩ ::
        attributeVisits (path ++ "/" ++ node.name) (depth + 1) node.attributes ++
      visitsAll (path ++ "/" ++ node.name) (depth + 1) children ++
      [⟨.endNode, ⟨path, depth⟩⟩]

/-- What a walk over a forest shows. -/
def visitsAll (path : String) (depth : Nat) : List Tree → List Visit
  | [] => []
  | tree :: rest => visits path depth tree ++ visitsAll path depth rest

end

/-- What a walk over a whole document shows. -/
def documentVisits (forest : List Tree) : List Visit :=
  ⟨.startDocument, ⟨"", 0⟩⟩ :: visitsAll "" 0 forest ++ [⟨.endDocument, ⟨"", 0⟩⟩]

/-! ## Nothing is lost -/

theorem map_event_attributeVisits (path : String) (depth : Nat) (attributes : List Attribute) :
    (attributeVisits path depth attributes).map Visit.event = attributes.map .attr := by
  rw [attributeVisits, List.map_map]
  rfl

mutual

/-- The events shown are those of the tree, with the attributes of each node behind it. -/
theorem map_event_visits (path : String) (depth : Nat) : ∀ tree : Tree,
    (visits path depth tree).map Visit.event = tree.flatten.flatMap Event.withAttributes
  | .text _ => rfl
  | .node node children => by
    have hchildren := map_event_visitsAll (path ++ "/" ++ node.name) (depth + 1) children
    simp only [visits, Tree.flatten, List.map_cons, List.map_append, List.flatMap_cons,
      List.flatMap_append, map_event_attributeVisits, hchildren, Event.withAttributes,
      Event.attributes, List.cons_append, List.append_assoc, List.map_nil, List.flatMap_nil,
      List.append_nil]

theorem map_event_visitsAll (path : String) (depth : Nat) : ∀ forest : List Tree,
    (visitsAll path depth forest).map Visit.event =
      (flattenAll forest).flatMap Event.withAttributes
  | [] => rfl
  | tree :: rest => by
    rw [visitsAll, flattenAll, List.map_append, List.flatMap_append, map_event_visits,
      map_event_visitsAll]

end

/-! ## Walks -/

/-- Advances from one cursor to another, with what they show. -/
inductive Walks [Source σ] : Cursor σ → List Visit → Cursor σ → Prop where
  | rest (c : Cursor σ) : Walks c [] c
  | step {c d last : Cursor σ} {event : Event} {more : List Visit} : advance c = .ok event d →
      Walks d more last → Walks c (⟨event, d.position⟩ :: more) last

theorem Walks.single [Source σ] {c d : Cursor σ} {event : Event} (h : advance c = .ok event d) :
    Walks c [⟨event, d.position⟩] d :=
  .step h (.rest d)

theorem Walks.trans [Source σ] {c d last : Cursor σ} {shown more : List Visit}
    (h : Walks c shown d) (k : Walks d more last) : Walks c (shown ++ more) last := by
  induction h with
  | rest => exact k
  | step hadvance _ ih => exact .step hadvance (ih k)

theorem Walks.split [Source σ] {c last : Cursor σ} {shown more : List Visit}
    (h : Walks c (shown ++ more) last) : ∃ d, Walks c shown d ∧ Walks d more last := by
  induction shown generalizing c with
  | nil => exact ⟨c, .rest c, h⟩
  | cons visit shown ih =>
    cases h with
    | step hadvance hmore =>
      obtain ⟨d, hshown, hlast⟩ := ih hmore
      exact ⟨d, .step hadvance hshown, hlast⟩

/-- The nodes opened among what is shown. -/
def opened (shown : List Visit) : Nat :=
  shown.countP (·.event.isStartNode)

/-- The nodes closed among what is shown. -/
def closed (shown : List Visit) : Nat :=
  shown.countP (·.event.isEndNode)

theorem enter_names {event : Event} {c d : Cursor σ} (h : enter event c = .ok () d) :
    d.names = namesAfter c.names event ∧ (event = .endNode → c.names ≠ []) := by
  have hnode : toNode c = .ok () d → d.names = c.names := by
    intro htoNode
    unfold toNode at htoNode
    split at htoNode <;> cases htoNode <;> rfl
  cases event with
  | startNode node =>
    change openNode node c = _ at h
    unfold openNode at h
    split at h
    next =>
      cases h
      exact ⟨rfl, nofun⟩
    next =>
      split at h
      next => cases h
      next =>
        cases h
        exact ⟨rfl, nofun⟩
  | endNode =>
    change closeNode c = _ at h
    unfold closeNode at h
    split at h
    next => cases h
    next hcons =>
      cases h
      refine ⟨?_, fun _ hnil => ?_⟩
      · rw [namesAfter, hcons]
        rfl
      · cases hcons.symm.trans hnil
  | attr =>
    cases h
    exact ⟨rfl, nofun⟩
  | startDocument => exact ⟨hnode h, nofun⟩
  | endDocument => exact ⟨hnode h, nofun⟩
  | text => exact ⟨hnode h, nofun⟩

/-- An advance to an event leaves the names that are open behind it. -/
theorem advance_names [Source σ] {event : Event} {c d : Cursor σ}
    (h : advance c = .ok event d) :
    d.names = namesAfter c.names event ∧ (event = .endNode → c.names ≠ []) := by
  obtain ⟨c₁, c₂, c₃, h₁, h₂, h₃, rfl⟩ := advance_eq_ok_iff.mp h
  have htake := (samePlace_take.of_ok h₁).names_eq
  have hwatch := ((samePlace_watch event).of_ok h₃).names_eq
  obtain ⟨hnames, hend⟩ := enter_names h₂
  rw [htake] at hnames hend
  exact ⟨hwatch.trans hnames, hend⟩

/-- An advance goes one level down where a node opens, one up where a node closes, and stays on its
level elsewhere. -/
theorem advance_depth [Source σ] {event : Event} {c d : Cursor σ} (h : advance c = .ok event d) :
    d.depth + event.isEndNode.toNat = c.depth + event.isStartNode.toNat := by
  obtain ⟨hnames, hend⟩ := advance_names h
  rw [depth, depth, hnames]
  cases event with
  | endNode =>
    obtain ⟨name, outer, hcons⟩ := List.exists_cons_of_ne_nil (hend rfl)
    rw [hcons]
    rfl
  | startNode | startDocument | endDocument | text | attr => rfl

/-- Depth is what was opened and not closed, wherever a walk has come to. -/
theorem Walks.depth_eq [Source σ] {c d : Cursor σ} {shown : List Visit} (h : Walks c shown d) :
    d.depth + closed shown = c.depth + opened shown := by
  induction h with
  | rest => rfl
  | @step c d last event more hadvance _ ih =>
    have hstep := advance_depth hadvance
    have hclosed : closed (⟨event, d.position⟩ :: more) = closed more + event.isEndNode.toNat := by
      cases event <;> simp [closed, Event.isEndNode]
    have hopened : opened (⟨event, d.position⟩ :: more) = opened more + event.isStartNode.toNat := by
      cases event <;> simp [opened, Event.isStartNode]
    omega

/-- The last of what a walk shows is where it has come to. -/
theorem Walks.position_eq [Source σ] {c d : Cursor σ} {shown : List Visit} {visit : Visit}
    (h : Walks c (shown ++ [visit]) d) : visit.position = d.position := by
  obtain ⟨e, _, hlast⟩ := h.split
  cases hlast with
  | step _ hrest =>
    cases hrest
    rfl

/-! ## Walking over a tree -/

/-- The cursor has no limit, and stands inside these nodes in front of these attributes and then of
these events. -/
structure InFront [Source σ] (c : Cursor σ) (names : List String) (attributes : List Attribute)
    (events : List Event) : Prop where
  emits : Source.Emits c.source events
  attributes_eq : c.attributes = attributes
  names_eq : c.names = names
  path_eq : c.onAttribute = false → c.path = Path.join c.names
  maxDepth_eq : c.config.maxDepth = none

/-- An attribute that waits is shown at its node. -/
theorem InFront.attribute [Source σ] {c : Cursor σ} {names : List String} {a : Attribute}
    {rest : List Attribute} {events : List Event} (h : InFront c names (a :: rest) events) :
    ∃ d, advance c = .ok (.attr a) d ∧
      d.position = ⟨Path.join names ++ "/@" ++ a.name, names.length⟩ ∧
      InFront d names rest events := by
  refine ⟨_, advance_attribute h.attributes_eq, ?_, ?_⟩
  · rw [← h.names_eq]
    rfl
  · exact ⟨h.emits, rfl, h.names_eq, nofun, h.maxDepth_eq⟩

/-- Behind the attributes the next event is shown where it leads, and its attributes wait. -/
theorem InFront.event [Source σ] {c : Cursor σ} {names : List String} {events : List Event}
    (h : InFront c names [] events) (hattr : (events.headD .endDocument).isAttribute = false)
    (hend : events.headD .endDocument = .endNode → names ≠ []) :
    ∃ d, advance c = .ok (events.headD .endDocument) d ∧
      d.position = .inside (namesAfter names (events.headD .endDocument)) ∧
      InFront d (namesAfter names (events.headD .endDocument))
        (events.headD .endDocument).attributes events.tail := by
  obtain ⟨s, hnext, hemits⟩ := h.emits.next
  have hdepth : events.headD .endDocument = .endNode → 0 < c.depth := by
    intro heq
    rw [depth, h.names_eq]
    exact List.length_pos_iff.mpr (hend heq)
  rcases advance_event h.attributes_eq hnext hemits hattr hdepth h.path_eq with
    ⟨t, journal, ht, hadvance⟩ | ⟨limit, _, _, hstopped, _⟩
  · refine ⟨_, hadvance, ?_, ?_⟩
    · rw [← h.names_eq]
      rfl
    · refine ⟨ht, ?_, ?_, fun _ => rfl, h.maxDepth_eq⟩
      · generalize events.headD .endDocument = event
        cases event with
        | startNode => rfl
        | startDocument | endDocument | endNode | text | attr => exact h.attributes_eq
      · rw [← h.names_eq]
        rfl
  · cases h.maxDepth_eq.symm.trans hstopped.maxDepth_eq

theorem InFront.walks_attributes [Source σ] {c : Cursor σ} {names : List String}
    {attributes : List Attribute} {events : List Event} (h : InFront c names attributes events) :
    ∃ d, Walks c (attributeVisits (Path.join names) names.length attributes) d ∧
      InFront d names [] events := by
  induction attributes generalizing c with
  | nil => exact ⟨c, .rest c, h⟩
  | cons a rest ih =>
    obtain ⟨d, hadvance, hposition, hd⟩ := h.attribute
    obtain ⟨last, hwalks, hlast⟩ := ih hd
    have hstep := Walks.step hadvance hwalks
    rw [hposition] at hstep
    exact ⟨last, hstep, hlast⟩

mutual

/-- Over a tree, whatever stands around it and behind it. -/
theorem InFront.walks_tree [Source σ] {c : Cursor σ} {names : List String} {rest : List Event} :
    ∀ tree : Tree, InFront c names [] (tree.flatten ++ rest) →
      ∃ d, Walks c (visits (Path.join names) names.length tree) d ∧ InFront d names [] rest
  | .text text, h => by
    obtain ⟨d, hadvance, hposition, hd⟩ := h.event rfl nofun
    have hstep := Walks.single hadvance
    rw [hposition] at hstep
    exact ⟨d, hstep, hd⟩
  | .node node children, h => by
    simp only [Tree.flatten, List.cons_append, List.append_assoc] at h
    obtain ⟨c₁, hopen, hposition, h₁⟩ := h.event rfl nofun
    obtain ⟨c₂, hattributes, h₂⟩ := h₁.walks_attributes
    obtain ⟨c₃, hchildren, h₃⟩ := InFront.walks_forest children h₂
    obtain ⟨c₄, hclose, hback, h₄⟩ := h₃.event rfl fun _ => List.cons_ne_nil _ _
    have hwalks := Walks.step hopen ((hattributes.trans hchildren).trans (.single hclose))
    rw [hposition, hback] at hwalks
    refine ⟨c₄, ?_, h₄⟩
    rw [visits]
    exact hwalks

theorem InFront.walks_forest [Source σ] {c : Cursor σ} {names : List String} {rest : List Event} :
    ∀ forest : List Tree, InFront c names [] (flattenAll forest ++ rest) →
      ∃ d, Walks c (visitsAll (Path.join names) names.length forest) d ∧ InFront d names [] rest
  | [], h => ⟨c, .rest c, h⟩
  | tree :: others, h => by
    rw [flattenAll, List.append_assoc] at h
    obtain ⟨d, htree, hd⟩ := InFront.walks_tree tree h
    obtain ⟨last, hothers, hlast⟩ := InFront.walks_forest others hd
    exact ⟨last, htree.trans hothers, hlast⟩

end

/-- At the end of the document the end is shown again and again. -/
theorem InFront.ended [Source σ] {c : Cursor σ} (h : InFront c [] [] []) :
    ∃ d, advance c = .ok .endDocument d ∧ d.position = ⟨"", 0⟩ ∧ InFront d [] [] [] :=
  h.event rfl nofun

/-- However often a cursor at the end of the document advances, the end is shown. -/
theorem InFront.advance_after [FiniteSource σ] (n : Nat) {c : Cursor σ} (h : InFront c [] [] []) :
    ∃ d, advance (Operation.after (List.replicate n .advance) c) = .ok .endDocument d ∧
      d.position = ⟨"", 0⟩ := by
  induction n generalizing c with
  | zero =>
    obtain ⟨d, hadvance, hposition, _⟩ := h.ended
    exact ⟨d, hadvance, hposition⟩
  | succ n ih =>
    obtain ⟨d, hadvance, _, hd⟩ := h.ended
    have hleft : (Operation.perform .advance c).left = d := by
      rw [Operation.perform, EStateM.Result.left_mapAnswer, hadvance]
      rfl
    rw [List.replicate_succ, Operation.after, List.foldl_cons, hleft]
    exact ih hd

/-! ## Draining -/

theorem drain_of_walks [FiniteSource σ] {c d last : Cursor σ} {shown : List Visit}
    (h : Walks c shown d) (hshown : ∀ visit ∈ shown, visit.event ≠ .endDocument)
    (hlast : advance d = .ok .endDocument last) :
    drain c = (shown ++ [⟨.endDocument, last.position⟩], .ok () last) := by
  induction h with
  | rest => exact drain_end hlast
  | step hadvance _ ih =>
    rw [List.forall_mem_cons] at hshown
    rw [drain_go hadvance hshown.1, ih hshown.2 hlast]
    rfl

mutual

/-- The end of the document is no event of a tree. -/
theorem event_ne_endDocument_visits (path : String) (depth : Nat) : ∀ tree : Tree,
    ∀ visit ∈ visits path depth tree, visit.event ≠ .endDocument
  | .text _, visit, hvisit => by
    rw [List.mem_singleton.mp hvisit]
    exact nofun
  | .node node children, visit, hvisit => by
    simp only [visits, List.cons_append, List.mem_cons, List.mem_append, attributeVisits,
      List.mem_map, List.not_mem_nil, or_false] at hvisit
    rcases hvisit with rfl | (⟨a, _, rfl⟩ | hvisit) | rfl
    · exact nofun
    · exact nofun
    · exact event_ne_endDocument_visitsAll _ _ children visit hvisit
    · exact nofun

theorem event_ne_endDocument_visitsAll (path : String) (depth : Nat) : ∀ forest : List Tree,
    ∀ visit ∈ visitsAll path depth forest, visit.event ≠ .endDocument
  | [], visit, hvisit => nomatch hvisit
  | tree :: rest, visit, hvisit => by
    rw [visitsAll, List.mem_append] at hvisit
    rcases hvisit with hvisit | hvisit
    · exact event_ne_endDocument_visits path depth tree visit hvisit
    · exact event_ne_endDocument_visitsAll path depth rest visit hvisit

end

/-- Walking over a whole document: all that is shown, and the cursor at its end. -/
theorem walks_document [Source σ] {source : σ} {config : Config} {forest : List Tree}
    (headers : Option (List (String × String))) (expressions : List Expression)
    (hsource : Source.Emits source (.startDocument :: flattenAll forest))
    (hlimit : config.maxDepth = none) :
    ∃ d last, Walks (watching source config headers expressions)
        (⟨.startDocument, ⟨"", 0⟩⟩ :: visitsAll "" 0 forest) d ∧
      advance d = .ok .endDocument last ∧ last.position = ⟨"", 0⟩ ∧ InFront last [] [] [] := by
  have hstart : InFront (watching source config headers expressions) [] []
      (.startDocument :: flattenAll forest) := by
    rw [watching_eq]
    exact ⟨hsource, rfl, rfl, fun _ => rfl, hlimit⟩
  obtain ⟨c₁, hfirst, hposition, h₁⟩ := hstart.event rfl nofun
  rw [← List.append_nil (List.tail _)] at h₁
  obtain ⟨d, hforest, hd⟩ := InFront.walks_forest forest h₁
  obtain ⟨last, hend, hlast, hfront⟩ := hd.ended
  have hwalks := Walks.step hfirst hforest
  rw [hposition] at hwalks
  exact ⟨d, last, hwalks, hend, hlast, hfront⟩

/-- **Draining is the traversal depth first.** A cursor without a limit over the events of a forest,
whatever it watches, shows the markers with the visits of the forest between them. From then on every
advance shows the end of the document at the same place. At each visit the depth is what was opened
and not closed, and the events are those of the document, each attribute behind its node. -/
theorem drain_forest [FiniteSource σ] {source : σ} {config : Config} {forest : List Tree}
    (headers : Option (List (String × String))) (expressions : List Expression)
    (hsource : Source.Emits source (.startDocument :: flattenAll forest))
    (hlimit : config.maxDepth = none) :
    ∃ last, drain (watching source config headers expressions) =
        (documentVisits forest, .ok () last) ∧
      (∀ n, ∃ d, advance (Operation.after (List.replicate n .advance) last) =
        .ok .endDocument d ∧ d.position = ⟨"", 0⟩) ∧
      (∀ before visit after, documentVisits forest = before ++ visit :: after →
        visit.position.depth + closed (before ++ [visit]) = opened (before ++ [visit])) ∧
      (documentVisits forest).map Visit.event =
        (Event.startDocument :: flattenAll forest ++ [Event.endDocument]).flatMap
          Event.withAttributes := by
  obtain ⟨d, last, hwalks, hend, hlast, hfront⟩ :=
    walks_document headers expressions hsource hlimit
  refine ⟨last, ?_, ?_, ?_, ?_⟩
  · rw [drain_of_walks hwalks ?_ hend, hlast]
    · rfl
    · intro visit hvisit
      rcases List.mem_cons.mp hvisit with rfl | hvisit
      · exact nofun
      · exact event_ne_endDocument_visitsAll _ _ forest visit hvisit
  · intro n
    exact hfront.advance_after n
  · intro before visit after heq
    have hall := hwalks.trans (.single hend)
    rw [hlast, ← documentVisits, heq, List.append_cons] at hall
    obtain ⟨e, hbefore, _⟩ := hall.split
    have hdepth := hbefore.depth_eq
    rw [watching_eq] at hdepth
    rw [hbefore.position_eq]
    exact hdepth.trans (Nat.zero_add _)
  · rw [documentVisits, List.map_append, List.map_cons, map_event_visitsAll, List.flatMap_append,
      List.flatMap_cons]
    rfl

/-- The document of `mixedBody` as a tree. -/
def mixedForest : List Tree :=
  [.node { name := "a", attributes := [⟨"id", "1"⟩] }
    [.text "x", .text "y", .node { name := "b" } [.text "z"], .text "v", .text "w"]]

/-- A draining of it shows the attribute between its node and the texts, and comes back to the place
around each node. -/
theorem drain_forest_mixed :
    ∃ last, drain (watching mixedScript {} none sharedKey) =
      ([⟨.startDocument, ⟨"", 0⟩⟩,
        ⟨.startNode { name := "a", attributes := [⟨"id", "1"⟩] }, ⟨"/a", 1⟩⟩,
        ⟨.attr ⟨"id", "1"⟩, ⟨"/a/@id", 1⟩⟩,
        ⟨.text "x", ⟨"/a", 1⟩⟩, ⟨.text "y", ⟨"/a", 1⟩⟩,
        ⟨.startNode { name := "b" }, ⟨"/a/b", 2⟩⟩, ⟨.text "z", ⟨"/a/b", 2⟩⟩,
        ⟨.endNode, ⟨"/a", 1⟩⟩,
        ⟨.text "v", ⟨"/a", 1⟩⟩, ⟨.text "w", ⟨"/a", 1⟩⟩, ⟨.endNode, ⟨"", 0⟩⟩,
        ⟨.endDocument, ⟨"", 0⟩⟩], .ok () last) ∧
      ∃ d, advance last = .ok .endDocument d ∧ d.position = ⟨"", 0⟩ := by
  have hsource : Source.Emits mixedScript (.startDocument :: flattenAll mixedForest) :=
    emits_mixedScript
  have hlimit : ({} : Config).maxDepth = none := rfl
  obtain ⟨last, hdrain, hafter, _, _⟩ := drain_forest none sharedKey hsource hlimit
  refine ⟨last, ?_, hafter 0⟩
  rw [hdrain]
  rfl

end Cursor

end DocWalk
