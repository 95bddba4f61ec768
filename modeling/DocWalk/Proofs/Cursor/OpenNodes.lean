import DocWalk.Proofs.Cursor.Operations
import DocWalk.Proofs.Source.Nesting

/-!
# Nodes that a cursor has open

A cursor counts the open nodes by their names. Over a source that nests, and with no limit on the
depth, the count agrees with what the source owes, whatever is asked and whatever fails: an event that
was taken is entered, even where looking ahead from it fails. A limit breaks this, for the node that is
too deep is taken and not entered.

A text that is passed over in reading is the text that was shown, so no event goes by unseen. This is
what needs a finite source here.

**The law** (`unopenedEnd_not_mem_answers`): no operation ever fails because a node ends that is not
open.
-/

set_option autoImplicit false

namespace DocWalk

/-- No other misfit has the words of a node that ends and was not opened. -/
theorem Misfit.eq_unopenedEnd_of_message {misfit : Misfit}
    (h : misfit.message = "end of node without an open node") : misfit = .unopenedEnd := by
  cases misfit with
  | unopenedEnd => rfl
  | noTextAt event =>
    replace h : "cannot read text at " ++ event.describe = "end of node without an open node" := h
    have hhead := congrArg (fun text => text.toList.head?) h
    simp at hhead
  | unexpectedInText event =>
    replace h : "expected text or end of node, found " ++ event.describe =
      "end of node without an open node" := h
    have hhead := congrArg (fun text => text.toList[1]?) h
    simp at hhead
  | textBeforeFirst | skipElsewhere | endedInsideNode => exact absurd h (by decide)

namespace Cursor

variable {σ : Type} {owes : Nat → σ → Prop}

/-- The source owes what fits the open nodes of the cursor, and no node is too deep. -/
structure Covered (owes : Nat → σ → Prop) (c : Cursor σ) : Prop where
  maxDepth_eq : c.config.maxDepth = none
  owes : owes c.depth c.source

/-- An event that was taken and is not entered yet closes no node that is not open, and the source owes
what fits behind it. -/
structure Taken (owes : Nat → σ → Prop) (event : Event) (c : Cursor σ) : Prop where
  maxDepth_eq : c.config.maxDepth = none
  owes : ∃ behind, openAfter c.depth event = some behind ∧ owes behind c.source

/-- An end behind which the cursor is covered, and that is not the failure of closing what is not open.
-/
structure Nested {α : Type} (owes : Nat → σ → Prop) (r : Outcome σ α) : Prop where
  covered : Covered owes r.left
  error_ne : ∀ path d, r ≠ .error (.structural path .unopenedEnd) d

namespace Nested

variable {α β : Type} {c d : Cursor σ}

theorem ok (h : Covered owes c) (a : α) : Nested owes (.ok a c : Outcome σ α) :=
  ⟨h, nofun⟩

theorem source (h : Covered owes c) (e : SourceError) :
    Nested owes (.error (.source e) c : Outcome σ α) :=
  ⟨h, nofun⟩

theorem misfit (h : Covered owes c) {misfit : Misfit} (hne : misfit ≠ .unopenedEnd) :
    Nested owes (Cursor.misfit misfit c : Outcome σ α) := by
  refine ⟨h, fun path d heq => ?_⟩
  cases heq
  exact hne rfl

/-- An operation that fails where a part of it does fails in the same way. -/
theorem failed {e : WalkError} (h : Nested owes (.error e d : Outcome σ α)) :
    Nested owes (.error e d : Outcome σ β) := by
  refine ⟨h.covered, fun path d' heq => ?_⟩
  cases heq
  exact h.error_ne path _ rfl

theorem mapAnswer {r : Outcome σ α} (h : Nested owes r) (f : α → β) :
    Nested owes (r.mapAnswer f) := by
  cases r with
  | ok a d => exact .ok h.covered (f a)
  | error e d => exact h.failed

theorem bind {m : Walk σ α} {f : α → Walk σ β}
    (hm : ∀ e d, m c = .error e d → Nested owes (.error e d : Outcome σ α))
    (hf : ∀ a d, m c = .ok a d → Nested owes (f a d)) : Nested owes ((m >>= f) c) := by
  show Nested owes (EStateM.bind m f c)
  unfold EStateM.bind
  cases h : m c with
  | ok a d => exact hf a d h
  | error e d => exact (hm e d h).failed

end Nested

theorem Covered.withSource {c : Cursor σ} (h : Covered owes c) {s : σ} (hs : owes c.depth s) :
    Covered owes { c with source := s } :=
  ⟨h.maxDepth_eq, hs⟩

/-! ## Asking the source -/

section

variable [Source σ] (nests : Source.Nests owes) {c d : Cursor σ}

include nests

theorem nested_peek (h : Covered owes c) :
    Nested owes (ask Source.peek c : Outcome σ (Option Event)) := by
  have hpeek := nests.peek h.owes
  unfold ask
  cases hs : (Source.peek : EStateM SourceError σ (Option Event)) c.source with
  | ok shown s =>
    rw [hs] at hpeek
    exact .ok (h.withSource hpeek) shown
  | error e s =>
    rw [hs] at hpeek
    exact .source (h.withSource hpeek) e

theorem covered_of_peek {shown : Option Event} (h : Covered owes c)
    (hpeek : ask Source.peek c = .ok shown d) : Covered owes d := by
  have hnested := nested_peek nests h
  rw [hpeek] at hnested
  exact hnested.covered

theorem taken_of_next {event : Event} (h : Covered owes c)
    (hnext : ask Source.next c = .ok event d) : Taken owes event d := by
  obtain ⟨s, hs, rfl⟩ := ask_eq_ok.mp hnext
  exact ⟨h.maxDepth_eq, nests.next h.owes hs⟩

theorem covered_of_text {text : String} (h : Covered owes c)
    (hnext : ask Source.next c = .ok (.text text) d) : Covered owes d := by
  obtain ⟨hlimit, _, hopen, howes⟩ := taken_of_next nests h hnext
  cases hopen
  exact ⟨hlimit, howes⟩

theorem nested_next_error {e : WalkError} (h : Covered owes c)
    (hnext : (ask Source.next c : Outcome σ Event) = .error e d) :
    Nested owes (.error e d : Outcome σ Event) := by
  unfold ask at hnext
  split at hnext
  next => cases hnext
  next fault s hs =>
    cases hnext
    exact .source (h.withSource (nests.next_error h.owes hs)) fault

theorem nested_lookAhead (h : Covered owes c) (continued : Bool) :
    Nested owes (lookAhead continued c) := by
  unfold lookAhead
  split
  next => exact .ok h ()
  next =>
    split
    next text f hp =>
      refine .ok ?_ ()
      obtain ⟨hlimit, howes⟩ := covered_of_peek nests h hp
      unfold catchText
      split <;> exact ⟨hlimit, howes⟩
    next hp => exact .ok (covered_of_peek nests h hp) ()
    next hp => exact (hp ▸ nested_peek nests h).failed

end

/-! ## Moving on -/

/-- Without a limit an event that closes no node in vain is entered. -/
theorem Taken.enter {event : Event} {c : Cursor σ} (h : Taken owes event c) :
    ∃ d, enter event c = .ok () d ∧ Covered owes d := by
  obtain ⟨hlimit, behind, hopen, howes⟩ := h
  have htoNode : behind = c.depth → ∃ d, toNode c = .ok () d ∧ Covered owes d := by
    rintro rfl
    unfold toNode
    split
    next => exact ⟨_, rfl, ⟨hlimit, howes⟩⟩
    next => exact ⟨c, rfl, hlimit, howes⟩
  cases event with
  | startNode node =>
    cases hopen
    refine ⟨{ c with
      names := node.name :: c.names
      attributes := node.attributes
      path := Path.join (node.name :: c.names) }, ?_, hlimit, howes⟩
    show openNode node c = _
    rw [openNode, hlimit]
  | endNode =>
    obtain ⟨source, config, names, path, current, attributes, registry, patterns, headers, journal⟩ :=
      c
    cases names with
    | nil => cases hopen
    | cons name outer =>
      cases hopen
      exact ⟨_, rfl, ⟨hlimit, howes⟩⟩
  | attr a =>
    cases hopen
    exact ⟨_, rfl, ⟨hlimit, howes⟩⟩
  | startDocument | endDocument | text =>
    cases hopen
    exact htoNode rfl

section

variable [Source σ] (nests : Source.Nests owes) {c d : Cursor σ}

include nests

theorem taken_of_take {event : Event} (h : Covered owes c) (htake : take c = .ok event d) :
    Taken owes event d := by
  unfold take at htake
  split at htake
  next =>
    cases htake
    exact ⟨h.maxDepth_eq, c.depth, rfl, h.owes⟩
  next => exact taken_of_next nests h htake

theorem nested_take_error {e : WalkError} (h : Covered owes c) (htake : take c = .error e d) :
    Nested owes (.error e d : Outcome σ Event) := by
  unfold take at htake
  split at htake
  next => cases htake
  next => exact nested_next_error nests h htake

theorem nested_watch (h : Covered owes c) (event : Event) : Nested owes (watch event c) := by
  unfold watch
  split
  next => exact .ok h ()
  next => exact nested_lookAhead nests h _

/-- An event that is taken is entered, so the count agrees behind it, also where the look ahead from it
fails. -/
theorem nested_advance (h : Covered owes c) : Nested owes (advance c) := by
  refine .bind (fun _ _ => nested_take_error nests h) fun event d htake => ?_
  obtain ⟨f, henter, hf⟩ := (taken_of_take nests h htake).enter
  refine .bind (fun _ _ hfail => nomatch henter.symm.trans hfail) fun _ g hgo => ?_
  cases henter.symm.trans hgo
  have hwatch := nested_watch nests hf event
  refine .bind (fun _ _ hfail => hfail ▸ hwatch) fun _ k hgo => ?_
  rw [hgo] at hwatch
  obtain ⟨hlimit, howes⟩ := hwatch.covered
  exact ⟨⟨hlimit, howes⟩, nofun⟩

theorem nested_atStart (h : Covered owes c) : Nested owes (atStart c) := by
  refine .bind (fun _ _ hfail => hfail ▸ nested_peek nests h) fun shown d hshown => ?_
  exact .ok (covered_of_peek nests h hshown) _

end

/-! ## Every operation -/

section

variable [FiniteSource σ] (nests : Source.Nests owes) {c : Cursor σ}

include nests

theorem CollectsText.nested {out : String} {r : Outcome σ String} (h : CollectsText out c r)
    (hc : Covered owes c) : Nested owes r := by
  induction h with
  | unseen hp => exact (hp ▸ nested_peek nests hc).failed
  | ends hp => exact .ok (covered_of_peek nests hc hp) _
  | @found out c d event hp =>
    obtain ⟨hlimit, howes⟩ := covered_of_peek nests hc hp
    have htold : Covered owes (d.tell [.unexpectedInText d.path event.describe]) := ⟨hlimit, howes⟩
    exact .misfit htold nofun
  | untaken hp hn => exact (nested_next_error nests (covered_of_peek nests hc hp) hn).failed
  | unwatched hp hn hw =>
    have htaken := covered_of_text nests (covered_of_peek nests hc hp) hn
    exact (hw ▸ nested_lookAhead nests htaken true).failed
  | piece hp hn hw _ ih =>
    have htaken := covered_of_text nests (covered_of_peek nests hc hp) hn
    have hwatched := nested_lookAhead nests htaken true
    rw [hw] at hwatched
    exact ih hwatched.covered
  | other hp hn htext =>
    -- What was shown is what is given.
    obtain ⟨f, hf⟩ := ask_next_of_peek hp
    cases hn.symm.trans hf
    cases htext

theorem nested_readText (h : Covered owes c) : Nested owes (readText c) := by
  have hreads : ReadsText c (readText c) := readsText_iff.mpr rfl
  generalize readText c = r at hreads
  unfold ReadsText at hreads
  split at hreads
  next => exact hreads ▸ .misfit h nofun
  next => exact hreads ▸ .ok h _
  next =>
    have hpassed : Covered owes { c with attributes := [] } := ⟨h.maxDepth_eq, h.owes⟩
    exact CollectsText.nested nests hreads hpassed
  next => exact hreads ▸ .misfit h nofun

theorem SkipsTo.nested {target : Nat} {r : Outcome σ Unit} (h : SkipsTo target c r)
    (hc : Covered owes c) : Nested owes r := by
  induction h with
  | reached => exact .ok hc ()
  | stopped _ hadvance => exact (hadvance ▸ nested_advance nests hc).failed
  | ended _ hadvance =>
    have hend := nested_advance nests hc
    rw [hadvance] at hend
    exact .misfit hend.covered nofun
  | onward _ hadvance _ _ ih =>
    have hgo := nested_advance nests hc
    rw [hadvance] at hgo
    exact ih hgo.covered

theorem nested_skipNode (h : Covered owes c) : Nested owes (skipNode c) := by
  have hskips : SkipsNode c (skipNode c) := skipsNode_iff.mpr rfl
  generalize skipNode c = r at hskips
  unfold SkipsNode at hskips
  split at hskips
  next => exact SkipsTo.nested nests hskips h
  next => exact hskips ▸ .misfit h nofun

omit [FiniteSource σ] nests in
theorem Nested.decodeText {r : Outcome σ String} (h : Nested owes r) (kind : Kind) :
    Nested owes (decodeText kind r) := by
  unfold Cursor.decodeText
  split
  next text d =>
    have htold : Covered owes (d.tell (kind.notices text)) := ⟨h.covered.maxDepth_eq, h.covered.owes⟩
    split
    next => exact .ok htold _
    next => exact ⟨htold, nofun⟩
  next => exact h.failed

/-- Every operation leaves the count in agreement, and closes no node that is not open. -/
theorem nested_perform (operation : Operation) (h : Covered owes c) :
    Nested owes (operation.perform c) := by
  cases operation with
  | advance => exact (nested_advance nests h).mapAnswer _
  | readText => exact (nested_readText nests h).mapAnswer _
  | read kind =>
    have hread := (nested_readText nests h).decodeText kind
    rw [← read_eq] at hread
    exact hread.mapAnswer _
  | skip => exact (nested_skipNode nests h).mapAnswer _
  | atStart => exact (nested_atStart nests h).mapAnswer _
  | testAt | register => exact ⟨⟨h.maxDepth_eq, h.owes⟩, nofun⟩
  | look => exact .ok h _

/-- **No node ends that is not open**, whatever is asked of a cursor and whatever has failed before. -/
theorem unopenedEnd_not_mem_answers (operations : List Operation) (h : Covered owes c)
    (path : String) : .error (.structural path .unopenedEnd) ∉ Operation.answers operations c := by
  induction operations generalizing c with
  | nil => exact List.not_mem_nil
  | cons operation rest ih =>
    have hnested := nested_perform nests operation h
    rw [Operation.answers, List.mem_cons, not_or]
    refine ⟨fun hanswer => ?_, ih hnested.covered⟩
    cases hr : operation.perform c with
    | ok answer d =>
      rw [hr] at hanswer
      cases hanswer
    | error e d =>
      rw [hr] at hanswer
      cases hanswer
      exact hnested.error_ne path d hr

end

end Cursor

end DocWalk
