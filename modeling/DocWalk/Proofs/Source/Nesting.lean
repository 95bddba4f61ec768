import DocWalk.Proofs.Source.Contract

/-!
# Nodes that nest, also behind errors

`Contract` speaks of a caller who stops at the first error. This module speaks of one who goes on. An
error may bring the order of a document into disarray, and then only the nesting is left: whoever
counts the nodes that were opened and not yet closed never finds one closed that is not open.

`Covers depth events left` says that of a list of events, and leaves room for nodes that stay open for
ever. What is told in order is covered (`Tells.covers`), but what is covered need not be told: a start
may come again, and an end inside a node.

**The law** (`Nests.covers_given`): a source that covers what it gives from each state to the next,
failing or not, covers all that a caller is ever given.
-/

set_option autoImplicit false

namespace DocWalk

/-- Number of open nodes behind an event, in front of which so many are open; none where it closes a
node that is not open. -/
def openAfter : Nat → Event → Option Nat
  | depth, .startNode _ => some (depth + 1)
  | 0, .endNode => none
  | depth + 1, .endNode => some depth
  | depth, .startDocument | depth, .endDocument | depth, .text _ | depth, .attr _ => some depth

/-- In front of the events so many nodes are open, none is closed that is not open, and at least so
many are left open behind them. -/
inductive Covers : Nat → List Event → Nat → Prop where
  | nil {depth left : Nat} : left ≤ depth → Covers depth [] left
  | cons {depth next left : Nat} {event : Event} {rest : List Event} :
      openAfter depth event = some next → Covers next rest left →
      Covers depth (event :: rest) left

theorem openAfter_mono {depth next more : Nat} {event : Event}
    (h : openAfter depth event = some next) (hle : depth ≤ more) :
    ∃ last, openAfter more event = some last ∧ next ≤ last := by
  cases event with
  | endNode =>
    cases depth with
    | zero => cases h
    | succ depth =>
      cases h
      obtain ⟨last, rfl⟩ := Nat.exists_eq_add_of_le' (Nat.le_trans (Nat.le_add_left 1 next) hle)
      exact ⟨last, rfl, Nat.le_of_succ_le_succ hle⟩
  | startNode =>
    cases h
    exact ⟨_, rfl, Nat.succ_le_succ hle⟩
  | startDocument | endDocument | text | attr =>
    cases h
    exact ⟨_, rfl, hle⟩

/-- An event that closes no node in vain leaves some nodes open. -/
theorem exists_openAfter {depth : Nat} {event : Event} (h : event = .endNode → 0 < depth) :
    ∃ behind, openAfter depth event = some behind := by
  cases event with
  | endNode =>
    cases depth with
    | zero => exact absurd (h rfl) (Nat.lt_irrefl 0)
    | succ depth => exact ⟨depth, rfl⟩
  | startDocument | endDocument | startNode | text | attr => exact ⟨_, rfl⟩

/-- What opens and does not close is open behind an event. -/
theorem openAfter_eq {depth next : Nat} {event : Event} (h : openAfter depth event = some next) :
    depth + opens [event] = next + closes [event] := by
  cases event with
  | endNode =>
    cases depth with
    | zero => cases h
    | succ depth =>
      cases h
      rfl
  | startDocument | endDocument | startNode | text | attr =>
    cases h
    rfl

namespace Covers

variable {depth left : Nat} {events more : List Event}

/-- Nodes that are open besides do no harm. -/
theorem mono (h : Covers depth events left) {surplus : Nat} (hle : depth ≤ surplus) :
    Covers surplus events left := by
  induction h generalizing surplus with
  | nil hleft => exact .nil (Nat.le_trans hleft hle)
  | cons hopen _ ih =>
    obtain ⟨last, hlast, hnext⟩ := openAfter_mono hopen hle
    exact .cons hlast (ih hnext)

theorem append {last : Nat} (h : Covers depth events left) (k : Covers left more last) :
    Covers depth (events ++ more) last := by
  induction h with
  | nil hleft => exact k.mono hleft
  | cons hopen _ ih => exact .cons hopen (ih k)

/-- In every front of the events no more nodes are closed than are open. -/
theorem closes_le (h : Covers depth events left) {front : List Event} (hfront : front <+: events) :
    closes front ≤ depth + opens front := by
  induction h generalizing front with
  | nil =>
    rw [List.prefix_nil.mp hfront]
    exact Nat.zero_le _
  | @cons depth next left event rest hopen _ ih =>
    cases front with
    | nil => exact Nat.zero_le _
    | cons first others =>
      obtain ⟨rfl, hothers⟩ := List.cons_prefix_cons.mp hfront
      have hevent := openAfter_eq hopen
      have hrest := ih hothers
      have hopens : opens ([first] ++ others) = opens [first] + opens others := List.countP_append
      have hcloses : closes ([first] ++ others) = closes [first] + closes others :=
        List.countP_append
      rw [List.singleton_append] at hopens hcloses
      omega

end Covers

/-- Where nothing is told the stage stays. -/
theorem Tells.eq_of_nil {s t : Stage} (h : Tells s [] t) : t = s := by
  cases h
  rfl

/-- What is told in order is covered, from the nodes open before to those open behind it. -/
theorem Tells.covers {s t : Stage} {events : List Event} (h : Tells s events t) :
    Covers s.depth events t.depth := by
  induction h with
  | nil => exact .nil (Nat.le_refl _)
  | @cons s t _ event _ htell _ ih =>
    have hopen : openAfter s.depth event = some t.depth := by
      rcases s with _ | (_ | depth) | _ <;> cases event <;> cases htell <;> rfl
    exact .cons hopen ih

namespace Source

variable {σ : Type}

/-- What a state owes to a caller with so many open nodes, whatever has failed before, and how each
request passes it on. -/
structure Nests [Source σ] (owes : Nat → σ → Prop) : Prop where
  peek {depth : Nat} {s : σ} : owes depth s →
    owes depth ((Source.peek : EStateM SourceError σ (Option Event)) s).left
  next {depth : Nat} {s t : σ} {event : Event} : owes depth s →
    (Source.next : EStateM SourceError σ _) s = .ok event t →
      ∃ behind, openAfter depth event = some behind ∧ owes behind t
  next_error {depth : Nat} {s t : σ} {e : SourceError} : owes depth s →
    (Source.next : EStateM SourceError σ Event) s = .error e t → owes depth t

/-- **All that is ever given is covered**, whatever is asked and whatever fails on the way. -/
theorem Nests.covers_given [Source σ] {owes : Nat → σ → Prop} (h : Nests owes)
    (requests : List Request) {depth : Nat} {s : σ} (hs : owes depth s) :
    ∃ left, Covers depth (given (answers requests s)) left := by
  induction requests generalizing depth s with
  | nil => exact ⟨depth, .nil (Nat.le_refl _)⟩
  | cons request rest ih =>
    cases request with
    | peek => exact ih (h.peek hs)
    | next =>
      cases hnext : (Source.next : EStateM SourceError σ Event) s with
      | ok event t =>
        obtain ⟨behind, hopen, ht⟩ := h.next hs hnext
        obtain ⟨left, hrest⟩ := ih ht
        refine ⟨left, ?_⟩
        rw [answers, ask_next_ok hnext]
        exact .cons hopen hrest
      | error e t =>
        have hask : ask .next s = .error e t := by
          show EStateM.map some Source.next s = _
          rw [EStateM.map, hnext]
        rw [answers, hask]
        exact ih (h.next_error hs hnext)

end Source

end DocWalk
