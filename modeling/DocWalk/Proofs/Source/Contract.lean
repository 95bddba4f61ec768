import DocWalk.Proofs.Source.Requests

/-!
# What a source owes to its caller

A document is told in order: its start once, then nodes that open and close around text, and behind
the last of them the end, for ever. `Stage.tell` says what may come at each stage of that order, and
`Tells` what a sequence of events tells from one stage to another. `Contract` is the order in the
words of a caller who stops at the first error, with counts in the place of stages.

**The law** (`Ordered.contract`): a source keeps the contract when what it has told and what waits in
its queue together stand at the stage that its state names (`Ordered`). What the source reads next has
only to be told from that stage, whatever was told before.
-/

set_option autoImplicit false

namespace DocWalk

/-- How far a document is told. -/
inductive Stage where
  | fresh
  /-- Behind the start, inside so many nodes. -/
  | inside (depth : Nat)
  | ended
  deriving DecidableEq, Repr

namespace Stage

/-- The stage behind an event, if the event may come. -/
def tell : Stage → Event → Option Stage
  | .fresh, .startDocument => some (.inside 0)
  | .inside depth, .startNode _ => some (.inside (depth + 1))
  | .inside (depth + 1), .endNode => some (.inside depth)
  | .inside depth, .text _ => some (.inside depth)
  | .inside 0, .endDocument => some .ended
  | .ended, .endDocument => some .ended
  | _, _ => none

theorem tell_startNode (depth : Nat) (node : Node) :
    (inside depth).tell (.startNode node) = some (inside (depth + 1)) := by
  cases depth <;> rfl

theorem tell_text (depth : Nat) (text : String) :
    (inside depth).tell (.text text) = some (inside depth) := by
  cases depth <;> rfl

/-- Number of nodes that are open at a stage. -/
def depth : Stage → Nat
  | .inside depth => depth
  | .fresh | .ended => 0

end Stage

/-- Number of nodes that events open. -/
def opens (events : List Event) : Nat :=
  events.countP Event.isStartNode

/-- Number of nodes that events close. -/
def closes (events : List Event) : Nat :=
  events.countP Event.isEndNode

/-- Events that may come one after the other from one stage to another. -/
inductive Tells : Stage → List Event → Stage → Prop where
  | nil (s : Stage) : Tells s [] s
  | cons {s t u : Stage} {event : Event} {rest : List Event} : s.tell event = some t →
      Tells t rest u → Tells s (event :: rest) u

namespace Tells

variable {s t u : Stage} {events more : List Event}

theorem single {event : Event} (h : s.tell event = some t) : Tells s [event] t :=
  .cons h (.nil t)

theorem append (h : Tells s events t) (k : Tells t more u) : Tells s (events ++ more) u := by
  induction h with
  | nil => exact k
  | cons htell _ ih => exact .cons htell (ih k)

theorem split (h : Tells s (events ++ more) u) : ∃ t, Tells s events t ∧ Tells t more u := by
  induction events generalizing s with
  | nil => exact ⟨s, .nil s, h⟩
  | cons event rest ih =>
    cases h with
    | cons htell hrest =>
      obtain ⟨t, hevents, hmore⟩ := ih hrest
      exact ⟨t, .cons htell hevents, hmore⟩

/-- Texts may come anywhere inside the document. -/
theorem texts (depth : Nat) (texts : List String) :
    Tells (.inside depth) (texts.map .text) (.inside depth) := by
  induction texts with
  | nil => exact .nil _
  | cons text rest ih => exact .cons (Stage.tell_text depth text) ih

/-- What opens and does not close is open at the end. -/
theorem depth_eq (h : Tells s events t) : s.depth + opens events = t.depth + closes events := by
  induction h with
  | nil => rfl
  | @cons s t u event rest htell _ ih =>
    have hevent : s.depth + opens [event] = t.depth + closes [event] := by
      rcases s with _ | (_ | depth) | _ <;> cases event <;> cases htell <;> rfl
    have hopens : opens ([event] ++ rest) = opens [event] + opens rest := List.countP_append
    have hcloses : closes ([event] ++ rest) = closes [event] + closes rest := List.countP_append
    rw [List.singleton_append] at hopens hcloses
    omega

theorem attr_not_mem (h : Tells s events t) (a : Attribute) : .attr a ∉ events := by
  induction h with
  | nil => exact List.not_mem_nil
  | @cons s _ _ event _ htell _ ih =>
    rintro (_ | ⟨_, hmem⟩)
    · rcases s with _ | (_ | depth) | _ <;> cases htell
    · exact ih hmem

/-- Behind the start there is no other. -/
theorem startDocument_not_mem (h : Tells s events t) (hs : s ≠ .fresh) :
    .startDocument ∉ events := by
  induction h with
  | nil => exact List.not_mem_nil
  | @cons s t _ event _ htell _ ih =>
    have ht : t ≠ .fresh := by
      rintro rfl
      rcases s with _ | (_ | depth) | _ <;> cases event <;> cases htell
    rintro (_ | ⟨_, hmem⟩)
    · rcases s with _ | (_ | depth) | _
      · exact hs rfl
      all_goals cases htell
    · exact ih ht hmem

/-- A document is told from its start. -/
theorem eq_cons_of_fresh (h : Tells .fresh events t) (hne : events ≠ []) :
    ∃ rest, events = .startDocument :: rest ∧ .startDocument ∉ rest := by
  cases h with
  | nil => exact absurd rfl hne
  | @cons _ t _ event rest htell hrest =>
    cases event <;> cases htell
    exact ⟨rest, rfl, hrest.startDocument_not_mem nofun⟩

/-- Behind the end there is nothing but the end. -/
theorem of_ended (h : Tells .ended events t) :
    t = .ended ∧ ∀ event ∈ events, event = .endDocument := by
  generalize hs : Stage.ended = s at h
  induction h with
  | nil => exact ⟨rfl, nofun⟩
  | @cons s _ _ event _ htell _ ih =>
    subst hs
    cases event <;> cases htell
    obtain ⟨rfl, hrest⟩ := ih rfl
    exact ⟨rfl, List.forall_mem_cons.mpr ⟨rfl, hrest⟩⟩

/-- The end may come where no node is open, and ends the document. -/
theorem of_endDocument (h : s.tell .endDocument = some t) : s.depth = 0 ∧ t = .ended := by
  rcases s with _ | (_ | depth) | _ <;> cases h <;> exact ⟨rfl, rfl⟩

theorem ended_of_mem (h : Tells s events t) (hend : .endDocument ∈ events) : t = .ended := by
  obtain ⟨front, back, rfl⟩ := List.append_of_mem hend
  obtain ⟨u, _, hback⟩ := h.split
  cases hback with
  | cons htell hrest =>
    obtain ⟨_, rfl⟩ := of_endDocument htell
    exact hrest.of_ended.1

end Tells

namespace Source

variable {σ : Type}

/-- What a source owes to a caller who stops at the first error. -/
structure Contract [Source σ] (position : σ → Nat) (s : σ) : Prop where
  /-- The first event taken is the start of the document, and no other is. -/
  starts : ∀ requests, .next ∈ requests →
    ∃ rest, (serve requests s).1 = .startDocument :: rest ∧ .startDocument ∉ rest
  no_attribute : ∀ requests a, .attr a ∉ (serve requests s).1
  /-- No node is closed that is not open. -/
  closes_le : ∀ requests front, front <+: (serve requests s).1 → closes front ≤ opens front
  /-- At the end of the document every node is closed. -/
  closes_eq : ∀ requests front back, (serve requests s).1 = front ++ .endDocument :: back →
    closes front = opens front
  /-- Behind the end every request shows or gives the end, and reads nothing. -/
  stays : ∀ requests t, (serve requests s).2 = .ok () t → .endDocument ∈ (serve requests s).1 →
    ∀ request, ∃ u, ask request t = .ok (some .endDocument) u ∧ position u = position t

/-- A source with a queue whose state names the stage at which its queue ends. -/
structure Ordered [Source σ] [Queued σ] (position : σ → Nat) (stage : σ → Stage)
    (sound : σ → Prop) : Prop where
  /-- What is read is told from the stage before to the stage behind it. -/
  fill {s t : σ} : sound s → Queued.fill s = .ok () t →
    sound t ∧ ∃ added, Queued.pending t = Queued.pending s ++ added ∧ Tells (stage s) added (stage t)
  /-- To give an event changes the queue only. -/
  dropFirst {s : σ} : sound s → sound (Queued.dropFirst s) ∧
    stage (Queued.dropFirst s) = stage s ∧ position (Queued.dropFirst s) = position s
  /-- Behind the end there is nothing to read. -/
  ended {s : σ} : stage s = .ended →
    ∃ t, Queued.fill s = .ok () t ∧ position t = position s

/-- What was taken and what waits are told from the start up to the stage of the source. -/
structure Told [Source σ] [Queued σ] (stage : σ → Stage) (sound : σ → Prop) (taken : List Event)
    (s : σ) : Prop where
  sound : sound s
  tells : Tells .fresh (taken ++ Queued.pending s) (stage s)

namespace Ordered

variable [Source σ] [Queued σ] {position : σ → Nat} {stage : σ → Stage} {sound : σ → Prop}
  {taken : List Event} {s t : σ}

theorem told_fill (h : Ordered position stage sound) (hs : Told stage sound taken s)
    (hfill : Queued.fill s = .ok () t) : Told stage sound taken t := by
  obtain ⟨hsound, added, hpending, htells⟩ := h.fill hs.sound hfill
  refine ⟨hsound, ?_⟩
  rw [hpending, ← List.append_assoc]
  exact hs.tells.append htells

theorem told_dropFirst (h : Ordered position stage sound) {event : Event} {rest : List Event}
    (hs : Told stage sound taken s) (hpending : Queued.pending s = event :: rest) :
    Told stage sound (taken ++ [event]) (Queued.dropFirst s) := by
  obtain ⟨hsound, hstage, _⟩ := h.dropFirst hs.sound
  refine ⟨hsound, ?_⟩
  have htells := hs.tells
  rw [hpending, List.append_cons] at htells
  rwa [Queued.pending_dropFirst, hpending, List.tail_cons, hstage]

theorem told_serve (h : Ordered position stage sound) (requests : List Request)
    (hs : Told stage sound taken s) :
    ∃ t, Told stage sound (taken ++ (serve requests s).1) t ∧
      ∀ u, (serve requests s).2 = .ok () u → u = t := by
  apply serve_keeps (P := Told stage sound) _ _ requests hs
  · intro taken s shown t hs hpeek
    obtain ⟨event, rest, hfill, _, _⟩ := Queued.peek_ok_iff.mp hpeek
    exact h.told_fill hs hfill
  · intro taken s event u hs hnext
    obtain ⟨t, rest, hfill, hpending, rfl⟩ := Queued.next_ok_iff.mp hnext
    exact h.told_dropFirst (h.told_fill hs hfill) hpending

/-- At its end a source has the end ready, and stays where it is. -/
theorem ask_ended (h : Ordered position stage sound) (hs : Told stage sound taken s)
    (hend : .endDocument ∈ taken) (request : Request) :
    ∃ t, ask request s = .ok (some .endDocument) t ∧ position t = position s := by
  have hstage : stage s = .ended := hs.tells.ended_of_mem (List.mem_append_left _ hend)
  obtain ⟨t, hfill, hposition⟩ := h.ended hstage
  have ht := h.told_fill hs hfill
  obtain ⟨event, rest, hpending⟩ := List.exists_cons_of_ne_nil (Queued.fill_ok hfill)
  have hevent : event = .endDocument := by
    obtain ⟨u, htaken, hwaits⟩ := ht.tells.split
    obtain rfl := htaken.ended_of_mem hend
    exact hwaits.of_ended.2 event (hpending ▸ List.mem_cons_self)
  subst hevent
  refine ⟨_, Queued.ask_of_fill request hfill hpending, ?_⟩
  cases request with
  | peek => exact hposition
  | next =>
    obtain ⟨_, _, hdrop⟩ := h.dropFirst ht.sound
    exact hdrop.trans hposition

/-- **A source that is told in order keeps the contract**, from a state where nothing is told and the
first event can be read. -/
theorem contract (h : Ordered position stage sound) (hs : Told stage sound [] s)
    (hfirst : ∃ t, Queued.fill s = .ok () t) : Contract position s := by
  have htells : ∀ requests, ∃ u, Tells .fresh (serve requests s).1 u := by
    intro requests
    obtain ⟨t, ht, _⟩ := h.told_serve requests hs
    obtain ⟨u, htaken, _⟩ := ht.tells.split
    exact ⟨u, htaken⟩
  constructor
  · intro requests hmem
    obtain ⟨u, hu⟩ := htells requests
    apply hu.eq_cons_of_fresh
    -- Where a look comes first does not matter, and the first event is read.
    have htakes : .next ∈ takes requests := List.mem_filter.mpr ⟨hmem, rfl⟩
    obtain ⟨more, hmore⟩ := (takes_cases requests).resolve_left (List.ne_nil_of_mem htakes)
    obtain ⟨t, hfill⟩ := hfirst
    obtain ⟨event, rest, hpending⟩ := List.exists_cons_of_ne_nil (Queued.fill_ok hfill)
    rw [fst_serve, hmore, serve_next_ok (Queued.next_ok_iff.mpr ⟨t, rest, hfill, hpending, rfl⟩)]
    exact List.cons_ne_nil _ _
  · intro requests a
    obtain ⟨u, hu⟩ := htells requests
    exact hu.attr_not_mem a
  · rintro requests front ⟨back, hback⟩
    obtain ⟨u, hu⟩ := htells requests
    rw [← hback] at hu
    obtain ⟨v, hfront, _⟩ := hu.split
    have hdepth := hfront.depth_eq
    rw [Stage.depth, Nat.zero_add] at hdepth
    omega
  · intro requests front back hback
    obtain ⟨u, hu⟩ := htells requests
    rw [hback] at hu
    obtain ⟨v, hfront, hrest⟩ := hu.split
    have hdepth := hfront.depth_eq
    cases hrest with
    | cons htell _ =>
      rw [(Tells.of_endDocument htell).1, Stage.depth, Nat.zero_add, Nat.zero_add] at hdepth
      exact hdepth.symm
  · intro requests t ht hend request
    obtain ⟨u, hu, hsame⟩ := h.told_serve requests hs
    obtain rfl := hsame t ht
    exact h.ask_ended hu hend request

end Ordered

end Source

end DocWalk
