import DocWalk.Proofs.Cursor.Operations

/-!
# Cursors that no operation tells apart

An operation sees of a cursor what its source shows and gives, what its patterns answer, and what it
keeps besides (`Kept`); and it changes a cursor through these alone. A relation between cursors is
`Congruent` if these agree along it and stay in it. The steps of a cursor then end alike on both
sides, and so does every operation, as long as the relation keeps the limit on the depth
(`Interchangeable`).

**The laws.** A session with the one cursor is a session with the other, with the same answers
(`Session.transfer`); over finite sources the answers are equal (`Interchangeable.answers_eq`).
-/

set_option autoImplicit false

namespace EStateM

variable {ε σ τ α β : Type}

/-- Two ends with the same answer or the same error, that leave related states. -/
inductive Result.Alike (related : σ → τ → Prop) : Result ε σ α → Result ε τ α → Prop where
  | ok {a : α} {s : σ} {t : τ} : related s t → Alike related (.ok a s) (.ok a t)
  | error {e : ε} {s : σ} {t : τ} : related s t → Alike related (.error e s) (.error e t)

namespace Result.Alike

variable {related : σ → τ → Prop} {r : Result ε σ α} {q : Result ε τ α}

theorem answer_eq (h : Alike related r q) : r.answer = q.answer := by
  cases h <;> rfl

theorem left (h : Alike related r q) : related r.left q.left := by
  cases h <;> assumption

theorem mapAnswer (h : Alike related r q) (f : α → β) :
    Alike related (r.mapAnswer f) (q.mapAnswer f) := by
  cases h with
  | ok hs => exact .ok hs
  | error hs => exact .error hs

end Result.Alike

/-- Two operations that end alike from related states. -/
def Agree (related : σ → τ → Prop) (m : EStateM ε σ α) (n : EStateM ε τ α) : Prop :=
  ∀ s t, related s t → (m s).Alike related (n t)

section

variable {related : σ → τ → Prop} {m : EStateM ε σ α} {n : EStateM ε τ α}

theorem Agree.of_ok (h : Agree related m n) {s s' : σ} {t : τ} {a : α} (hs : related s t)
    (hm : m s = .ok a s') : ∃ t', n t = .ok a t' ∧ related s' t' := by
  have halike := h s t hs
  rw [hm] at halike
  generalize hn : n t = q at halike
  cases halike with
  | ok hs' => exact ⟨_, rfl, hs'⟩

theorem Agree.of_error (h : Agree related m n) {s s' : σ} {t : τ} {e : ε} (hs : related s t)
    (hm : m s = .error e s') : ∃ t', n t = .error e t' ∧ related s' t' := by
  have halike := h s t hs
  rw [hm] at halike
  generalize hn : n t = q at halike
  cases halike with
  | error hs' => exact ⟨_, rfl, hs'⟩

/-- An operation agrees with itself where the states are the same. -/
theorem Agree.refl (m : EStateM ε σ α) : Agree Eq m m := by
  rintro s _ rfl
  cases m s with
  | ok => exact .ok rfl
  | error => exact .error rfl

theorem Agree.pure (a : α) :
    Agree related (Pure.pure a : EStateM ε σ α) (Pure.pure a : EStateM ε τ α) :=
  fun _ _ hs => .ok hs

/-- A sequence ends alike where its first operation does, and the second behind it. -/
theorem Result.Alike.bind {s : σ} {t : τ} (h : (m s).Alike related (n t)) {f : α → EStateM ε σ β}
    {g : α → EStateM ε τ β}
    (k : ∀ a s' t', m s = .ok a s' → related s' t' → (f a s').Alike related (g a t')) :
    ((m >>= f) s).Alike related ((n >>= g) t) := by
  show (EStateM.bind m f s).Alike related (EStateM.bind n g t)
  unfold EStateM.bind
  cases hm : m s with
  | ok a s' =>
    rw [hm] at h
    generalize n t = q at h
    cases h with
    | ok hs' => exact k a s' _ hm hs'
  | error e s' =>
    rw [hm] at h
    generalize n t = q at h
    cases h with
    | error hs' => exact .error hs'

theorem Agree.bind (h : Agree related m n) {f : α → EStateM ε σ β} {g : α → EStateM ε τ β}
    (k : ∀ a, Agree related (f a) (g a)) : Agree related (m >>= f) (n >>= g) :=
  fun s t hs => (h s t hs).bind fun a s' t' _ hs' => k a s' t' hs'

end

end EStateM

namespace DocWalk.Cursor

open EStateM

variable {σ τ : Type}

/-- What a cursor keeps besides its source, its settings and the patterns it remembers. -/
structure Kept where
  names : List String
  path : String
  current : Option Event
  attributes : List Attribute
  registry : Registry
  headers : Option (List (String × String))
  journal : List Notice

/-- What the cursor keeps. -/
def kept (c : Cursor σ) : Kept :=
  ⟨c.names, c.path, c.current, c.attributes, c.registry, c.headers, c.journal⟩

/-- The cursor with the same source, settings and patterns that keeps this. -/
def keep (c : Cursor σ) (k : Kept) : Cursor σ :=
  { c with
    names := k.names
    path := k.path
    current := k.current
    attributes := k.attributes
    registry := k.registry
    headers := k.headers
    journal := k.journal }

theorem ask_of_error {α : Type} {request : EStateM SourceError σ α} {c : Cursor σ} {s : σ}
    {e : SourceError} (h : request c.source = .error e s) :
    ask request c = .error (.source e) { c with source := s } := by
  rw [ask, h]

/-- Requests of the sources that agree, asked of the cursors. -/
theorem agree_ask {α : Type} {related : σ → τ → Prop} {along : Cursor σ → Cursor τ → Prop}
    {request : EStateM SourceError σ α} {request' : EStateM SourceError τ α}
    (h : Agree related request request')
    (hsource : ∀ {c d}, along c d → related c.source d.source)
    (hwith : ∀ {c d}, along c d → ∀ {s t}, related s t →
      along { c with source := s } { d with source := t }) :
    Agree along (ask request) (ask request') := by
  intro c d hcd
  cases hs : request c.source with
  | ok a s =>
    obtain ⟨t, ht, hst⟩ := h.of_ok (hsource hcd) hs
    rw [ask_eq_ok.mpr ⟨s, hs, rfl⟩, ask_eq_ok.mpr ⟨t, ht, rfl⟩]
    exact .ok (hwith hcd hst)
  | error e s =>
    obtain ⟨t, ht, hst⟩ := h.of_error (hsource hcd) hs
    rw [ask_of_error hs, ask_of_error ht]
    exact .error (hwith hcd hst)

/-- Cursors along which all that an operation sees agrees, and stays so. -/
structure Congruent [Source σ] [Source τ] (along : Cursor σ → Cursor τ → Prop) : Prop where
  kept_eq {c : Cursor σ} {d : Cursor τ} : along c d → d.kept = c.kept
  keep {c : Cursor σ} {d : Cursor τ} : along c d → ∀ k, along (c.keep k) (d.keep k)
  peek : Agree along (ask Source.peek) (ask Source.peek)
  next : Agree along (ask Source.next) (ask Source.next)
  testAt_eq {c : Cursor σ} {d : Cursor τ} : along c d → ∀ pattern anchor,
    (d.testAt pattern anchor).1 = (c.testAt pattern anchor).1
  testAt {c : Cursor σ} {d : Cursor τ} : along c d → ∀ pattern anchor,
    along (c.testAt pattern anchor).2 (d.testAt pattern anchor).2

/-- Congruent, with the same limit on the depth. -/
structure Interchangeable [Source σ] [Source τ] (along : Cursor σ → Cursor τ → Prop) : Prop extends
    Congruent along where
  maxDepth_eq {c : Cursor σ} {d : Cursor τ} : along c d → d.config.maxDepth = c.config.maxDepth

section

variable [Source σ] [Source τ] {along : Cursor σ → Cursor τ → Prop} {c : Cursor σ} {d : Cursor τ}

namespace Congruent

variable (congruent : Congruent along)

include congruent

/-- What changes on both sides in the same way stays along. -/
theorem update (h : along c d) (f : Kept → Kept) :
    along (c.keep (f c.kept)) (d.keep (f d.kept)) := by
  rw [congruent.kept_eq h]
  exact congruent.keep h _

theorem names_eq (h : along c d) : d.names = c.names :=
  congrArg Kept.names (congruent.kept_eq h)

theorem path_eq (h : along c d) : d.path = c.path :=
  congrArg Kept.path (congruent.kept_eq h)

theorem current_eq (h : along c d) : d.current = c.current :=
  congrArg Kept.current (congruent.kept_eq h)

theorem attributes_eq (h : along c d) : d.attributes = c.attributes :=
  congrArg Kept.attributes (congruent.kept_eq h)

theorem registry_eq (h : along c d) : d.registry = c.registry :=
  congrArg Kept.registry (congruent.kept_eq h)

theorem headers_eq (h : along c d) : d.headers = c.headers :=
  congrArg Kept.headers (congruent.kept_eq h)

theorem depth_eq (h : along c d) : d.depth = c.depth :=
  congrArg List.length (congruent.names_eq h)

theorem position_eq (h : along c d) : d.position = c.position := by
  rw [position, position, congruent.path_eq h, congruent.depth_eq h]

theorem onAttribute_eq (h : along c d) : d.onAttribute = c.onAttribute := by
  rw [onAttribute, onAttribute, congruent.current_eq h]

theorem tell (h : along c d) (notices : List Notice) :
    along (c.tell notices) (d.tell notices) :=
  congruent.update h fun k => { k with journal := notices.reverse ++ k.journal }

theorem catchText (h : along c d) (continued : Bool) (text : String) :
    along (c.catchText continued text) (d.catchText continued text) := by
  unfold Cursor.catchText
  rw [congruent.registry_eq h, congruent.position_eq h]
  split
  · exact congruent.update h fun k => { k with registry := c.registry.extend c.position text }
  · have hcaught := congruent.update h fun k =>
      { k with registry := c.registry.capture c.position text }
    exact congruent.tell hcaught _

/-! ## Steps -/

theorem misfit {α : Type} (m : Misfit) :
    Agree along (misfit m : Walk σ α) (Cursor.misfit m : Walk τ α) := by
  intro c d h
  unfold Cursor.misfit
  rw [congruent.path_eq h]
  exact .error h

theorem failInText {α : Type} (found : Event) :
    Agree along (failInText found : Walk σ α) (Cursor.failInText found : Walk τ α) := by
  intro c d h
  unfold Cursor.failInText
  rw [congruent.path_eq h]
  exact congruent.misfit _ _ _ (congruent.tell h _)

theorem closeNode : Agree along (closeNode : Walk σ Unit) (Cursor.closeNode : Walk τ Unit) := by
  intro c d h
  unfold Cursor.closeNode
  rw [congruent.names_eq h]
  split
  next => exact congruent.misfit _ _ _ h
  next name outer _ =>
    exact .ok (congruent.update h fun k => { k with names := outer, path := Path.join outer })

theorem toAttribute (name : String) :
    Agree along (toAttribute name : Walk σ Unit) (Cursor.toAttribute name : Walk τ Unit) :=
  fun _ _ h =>
    .ok (congruent.update h fun k => { k with path := Path.joinAttribute k.names name })

theorem toNode : Agree along (toNode : Walk σ Unit) (Cursor.toNode : Walk τ Unit) := by
  intro c d h
  unfold Cursor.toNode
  rw [congruent.onAttribute_eq h]
  split
  · exact .ok (congruent.update h fun k => { k with path := Path.join k.names })
  · exact .ok h

/-- An event is entered alike, if a node that opens is. -/
theorem enter {event : Event} (h : along c d)
    (hopen : ∀ node, event = .startNode node →
      (openNode node c).Alike along (openNode node d)) :
    (enter event c).Alike along (Cursor.enter event d) := by
  cases event with
  | startNode node => exact hopen node rfl
  | endNode => exact congruent.closeNode c d h
  | attr a => exact congruent.toAttribute a.name c d h
  | startDocument | endDocument | text => exact congruent.toNode c d h

theorem arrive (event : Event) :
    Agree along (arrive event : Walk σ Event) (Cursor.arrive event : Walk τ Event) :=
  fun _ _ h => .ok (congruent.update h fun k => { k with current := some event })

theorem take : Agree along (take : Walk σ Event) (Cursor.take : Walk τ Event) := by
  intro c d h
  unfold Cursor.take
  rw [congruent.attributes_eq h]
  split
  next a rest _ => exact .ok (congruent.update h fun k => { k with attributes := rest })
  next => exact congruent.next c d h

theorem lookAhead (continued : Bool) :
    Agree along (lookAhead continued : Walk σ Unit) (Cursor.lookAhead continued : Walk τ Unit) := by
  intro c d h
  unfold Cursor.lookAhead
  rw [congruent.registry_eq h]
  split
  · exact .ok h
  cases hp : ask Source.peek c with
  | ok shown c' =>
    obtain ⟨d', hp', h'⟩ := congruent.peek.of_ok h hp
    rw [hp']
    cases shown with
    | none => exact .ok h'
    | some event =>
      cases event with
      | text text => exact .ok (congruent.catchText h' continued text)
      | startDocument | endDocument | startNode | endNode | attr => exact .ok h'
  | error e c' =>
    obtain ⟨d', hp', h'⟩ := congruent.peek.of_error h hp
    rw [hp']
    exact .error h'

theorem watch (event : Event) :
    Agree along (watch event : Walk σ Unit) (Cursor.watch event : Walk τ Unit) := by
  unfold Cursor.watch
  split
  · exact .pure ()
  · exact congruent.lookAhead _

theorem atStart : Agree along (atStart : Walk σ Bool) (Cursor.atStart : Walk τ Bool) := by
  apply congruent.peek.bind
  intro shown
  exact .pure _

end Congruent

namespace Interchangeable

variable (interchangeable : Interchangeable along)

include interchangeable

theorem openNode (node : Node) :
    Agree along (openNode node : Walk σ Unit) (Cursor.openNode node : Walk τ Unit) := by
  intro c d h
  have hopened := interchangeable.update h fun k =>
    { k with
      names := node.name :: k.names
      attributes := node.attributes
      path := Path.join (node.name :: k.names) }
  unfold Cursor.openNode
  rw [interchangeable.maxDepth_eq h, interchangeable.depth_eq h]
  split
  next => exact .ok hopened
  next limit _ =>
    split
    next =>
      rw [interchangeable.path_eq h]
      exact .error (interchangeable.tell h _)
    next => exact .ok hopened

theorem advance : Agree along (advance : Walk σ Event) (Cursor.advance : Walk τ Event) := by
  apply interchangeable.take.bind
  intro event
  have henter : Agree along (enter event : Walk σ Unit) (enter event) := fun c d h =>
    interchangeable.enter h fun node _ => interchangeable.openNode node c d h
  apply henter.bind
  intro _
  apply (interchangeable.watch event).bind
  intro _
  exact interchangeable.arrive event

end Interchangeable

/-! ## Operations -/

theorem CollectsText.transfer {out : String} {r : Outcome σ String} (h : CollectsText out c r)
    (congruent : Congruent along) (hcd : along c d) :
    ∃ q, CollectsText out d q ∧ r.Alike along q := by
  -- On the run: each request ends alike with the other cursor, and the rest goes on along.
  induction h generalizing d with
  | unseen hp =>
    obtain ⟨d', hp', h'⟩ := congruent.peek.of_error hcd hp
    exact ⟨_, .unseen hp', .error h'⟩
  | ends hp hshown =>
    obtain ⟨d', hp', h'⟩ := congruent.peek.of_ok hcd hp
    exact ⟨_, .ends hp' hshown, .ok h'⟩
  | found hp htext hend =>
    obtain ⟨d', hp', h'⟩ := congruent.peek.of_ok hcd hp
    exact ⟨_, .found hp' htext hend, congruent.failInText _ _ _ h'⟩
  | untaken hp hn =>
    obtain ⟨d', hp', h'⟩ := congruent.peek.of_ok hcd hp
    obtain ⟨f', hn', hf⟩ := congruent.next.of_error h' hn
    exact ⟨_, .untaken hp' hn', .error hf⟩
  | unwatched hp hn hw =>
    obtain ⟨d', hp', h'⟩ := congruent.peek.of_ok hcd hp
    obtain ⟨f', hn', hf⟩ := congruent.next.of_ok h' hn
    obtain ⟨g', hw', hg⟩ := (congruent.lookAhead true).of_error hf hw
    exact ⟨_, .unwatched hp' hn' hw', .error hg⟩
  | piece hp hn hw _ ih =>
    obtain ⟨d', hp', h'⟩ := congruent.peek.of_ok hcd hp
    obtain ⟨f', hn', hf⟩ := congruent.next.of_ok h' hn
    obtain ⟨g', hw', hg⟩ := (congruent.lookAhead true).of_ok hf hw
    obtain ⟨q, hq, halike⟩ := ih hg
    exact ⟨q, .piece hp' hn' hw' hq, halike⟩
  | other hp hn htext _ ih =>
    obtain ⟨d', hp', h'⟩ := congruent.peek.of_ok hcd hp
    obtain ⟨f', hn', hf⟩ := congruent.next.of_ok h' hn
    obtain ⟨q, hq, halike⟩ := ih hf
    exact ⟨q, .other hp' hn' htext hq, halike⟩

theorem ReadsText.transfer {r : Outcome σ String} (h : ReadsText c r) (congruent : Congruent along)
    (hcd : along c d) : ∃ q, ReadsText d q ∧ r.Alike along q := by
  unfold ReadsText at h ⊢
  rw [congruent.current_eq hcd]
  split at h
  next =>
    subst h
    exact ⟨_, rfl, congruent.misfit _ _ _ hcd⟩
  next =>
    subst h
    exact ⟨_, rfl, .ok hcd⟩
  next =>
    have hpassed := congruent.update hcd fun k =>
      { k with current := c.current, attributes := [] }
    exact h.transfer congruent hpassed
  next =>
    subst h
    exact ⟨_, rfl, congruent.misfit _ _ _ hcd⟩

theorem SkipsTo.transfer {target : Nat} {r : Outcome σ Unit} (h : SkipsTo target c r)
    (interchangeable : Interchangeable along) (hcd : along c d) :
    ∃ q, SkipsTo target d q ∧ r.Alike along q := by
  induction h generalizing d with
  | reached hdepth => exact ⟨_, .reached (by rwa [interchangeable.depth_eq hcd]), .ok hcd⟩
  | stopped hdepth hadvance =>
    obtain ⟨d', hadvance', h'⟩ := interchangeable.advance.of_error hcd hadvance
    exact ⟨_, .stopped (by rwa [interchangeable.depth_eq hcd]) hadvance', .error h'⟩
  | ended hdepth hadvance =>
    obtain ⟨d', hadvance', h'⟩ := interchangeable.advance.of_ok hcd hadvance
    exact ⟨_, .ended (by rwa [interchangeable.depth_eq hcd]) hadvance',
      interchangeable.misfit _ _ _ h'⟩
  | onward hdepth hadvance hne _ ih =>
    obtain ⟨d', hadvance', h'⟩ := interchangeable.advance.of_ok hcd hadvance
    obtain ⟨q, hq, halike⟩ := ih h'
    exact ⟨q, .onward (by rwa [interchangeable.depth_eq hcd]) hadvance' hne hq, halike⟩

theorem SkipsNode.transfer {r : Outcome σ Unit} (h : SkipsNode c r)
    (interchangeable : Interchangeable along) (hcd : along c d) :
    ∃ q, SkipsNode d q ∧ r.Alike along q := by
  unfold SkipsNode at h ⊢
  rw [interchangeable.current_eq hcd, interchangeable.depth_eq hcd]
  split at h
  next => exact h.transfer interchangeable hcd
  next =>
    subst h
    exact ⟨_, rfl, interchangeable.misfit _ _ _ hcd⟩

theorem Congruent.decodeText (congruent : Congruent along) {r : Outcome σ String}
    {q : Outcome τ String} (h : r.Alike along q) (kind : Kind) :
    (decodeText kind r).Alike along (Cursor.decodeText kind q) := by
  cases h with
  | ok hcd =>
    unfold Cursor.decodeText
    dsimp only
    rw [congruent.path_eq hcd]
    split
    · exact .ok (congruent.tell hcd _)
    · exact .error (congruent.tell hcd _)
  | error hcd => exact .error hcd

theorem Congruent.view_eq (congruent : Congruent along) (hcd : along c d) (view : View) :
    view.of d = view.of c := by
  cases view with
  | test pattern =>
    exact congrArg (Answer.flag <| Path.matchesSuffix · pattern) (congruent.path_eq hcd)
  | path => exact congrArg Answer.text (congruent.path_eq hcd)
  | depth => exact congrArg Answer.number (congruent.depth_eq hcd)
  | parent => exact congrArg (Answer.text? <| List.head? ·) (congruent.names_eq hcd)
  | current => exact congrArg Answer.event? (congruent.current_eq hcd)
  | metadata => exact congrArg (Answer.captured <| Registry.captured ·) (congruent.registry_eq hcd)
  | header name =>
    exact congrArg (Answer.text? <| Option.bind · (·.lookup name)) (congruent.headers_eq hcd)

/-- What an operation comes to with the one cursor, it comes to with the other. -/
theorem Operation.Performs.transfer {operation : Operation} {r : Outcome σ Answer}
    (h : operation.Performs c r) (interchangeable : Interchangeable along) (hcd : along c d) :
    ∃ q, operation.Performs d q ∧ r.Alike along q := by
  cases operation with
  | advance =>
    obtain rfl : r = (Cursor.advance c).mapAnswer .event := h
    exact ⟨_, rfl, (interchangeable.advance c d hcd).mapAnswer _⟩
  | readText =>
    obtain ⟨read, hread, rfl⟩ := h
    obtain ⟨q, hq, halike⟩ := hread.transfer interchangeable.toCongruent hcd
    exact ⟨_, ⟨q, hq, rfl⟩, halike.mapAnswer _⟩
  | read kind =>
    obtain ⟨read, hread, rfl⟩ := h
    obtain ⟨q, hq, halike⟩ := hread.transfer interchangeable.toCongruent hcd
    exact ⟨_, ⟨q, hq, rfl⟩, (interchangeable.decodeText halike kind).mapAnswer _⟩
  | skip =>
    obtain ⟨skipped, hskipped, rfl⟩ := h
    obtain ⟨q, hq, halike⟩ := hskipped.transfer interchangeable hcd
    exact ⟨_, ⟨q, hq, rfl⟩, halike.mapAnswer _⟩
  | atStart =>
    obtain rfl : r = (Cursor.atStart c).mapAnswer .flag := h
    exact ⟨_, rfl, (interchangeable.atStart c d hcd).mapAnswer _⟩
  | testAt pattern anchor =>
    obtain rfl : r = .ok (.flag (c.testAt pattern anchor).1) (c.testAt pattern anchor).2 := h
    refine ⟨_, rfl, ?_⟩
    rw [interchangeable.testAt_eq hcd]
    exact .ok (interchangeable.testAt hcd pattern anchor)
  | register pattern anchor key =>
    obtain rfl : r = .ok .done (c.register (.of pattern anchor key)) := h
    exact ⟨_, rfl, .ok (interchangeable.update hcd fun k =>
      { k with registry := k.registry.register (.of pattern anchor key) })⟩
  | look view =>
    obtain rfl : r = .ok (view.of c) c := h
    refine ⟨_, rfl, ?_⟩
    rw [interchangeable.view_eq hcd]
    exact .ok hcd

/-- **A session with the one cursor is a session with the other**, with the same answers. -/
theorem Session.transfer {last : Cursor σ} {asked : List (Operation × Except WalkError Answer)}
    (h : Session c asked last) (interchangeable : Interchangeable along) (hcd : along c d) :
    ∃ last', Session d asked last' ∧ along last last' := by
  induction h generalizing d with
  | rest => exact ⟨d, .rest d, hcd⟩
  | step hperforms _ ih =>
    obtain ⟨q, hq, halike⟩ := hperforms.transfer interchangeable hcd
    obtain ⟨last', hmore, hlast⟩ := ih halike.left
    rw [halike.answer_eq]
    exact ⟨last', .step hq hmore, hlast⟩

end

/-- Over finite sources every operation in every sequence is answered alike. -/
theorem Interchangeable.answers_eq [FiniteSource σ] [FiniteSource τ]
    {along : Cursor σ → Cursor τ → Prop} (interchangeable : Interchangeable along)
    (operations : List Operation) {c : Cursor σ} {d : Cursor τ} (hcd : along c d) :
    Operation.answers operations c = Operation.answers operations d := by
  induction operations generalizing c d with
  | nil => rfl
  | cons operation rest ih =>
    have hperforms : operation.Performs c (operation.perform c) := performs_iff.mpr rfl
    obtain ⟨q, hq, halike⟩ := hperforms.transfer interchangeable hcd
    obtain rfl : operation.perform d = q := performs_iff.mp hq
    rw [Operation.answers, Operation.answers, halike.answer_eq, ih halike.left]

end DocWalk.Cursor
