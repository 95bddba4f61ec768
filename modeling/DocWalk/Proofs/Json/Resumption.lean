import DocWalk.Proofs.Cursor.OpenNodes
import DocWalk.Proofs.Json.Failures
import Mathlib.Data.List.Basic

/-!
# Reading on behind errors of a JSON text

Behind an error the tokenizer goes on from where its scanner stands, in the middle of a token or of a
character, and what it reads then need not be the text's own tokens. A node may be opened once more:
that of an array's element, for each try. What is awaited and the open containers stay as they were,
and so does the number of nodes that they stand in.

`Owes depth` is the invariant of a caller with so many open nodes: the events that wait are covered,
and behind them at least as many nodes are open as the stage of the tokenizer names. A step that does
not fail tells on from that stage, and one that fails leaves the stage and opens nodes at most.

**The law** (`nests_behind_errors`): in all that a caller is ever given no more nodes are closed than
were opened, and a cursor without a limit never finds one closed that is not open.
-/

set_option autoImplicit false

namespace DocWalk.Json

open Source (Nests Queued answers given)

namespace Tokenizer

/-- What waits is covered by so many open nodes, and leaves those open that the tokenizer stands in. -/
structure Owes (depth : Nat) (t : Tokenizer) : Prop where
  agrees : t.Agrees
  covers : Covers depth t.pending t.stage.depth

/-- Reading that fails leaves the stage where it was. -/
theorem stage_of_fill_error {t u : Tokenizer} {fault : Fault} (h : fill t = .error fault u)
    (ht : t.Agrees) : t.pending = [] ∧ u.stage = t.stage := by
  fun_induction fill t with
  | case1 t hp v hs ih =>
    obtain ⟨events, hmoves, hpending⟩ := moves_of_step hs
    obtain ⟨hnone, hstage⟩ := ih h (hmoves.fits ht)
    rw [hp, List.nil_append] at hpending
    -- The steps before the one that fails have queued nothing.
    obtain rfl : events = [] := hpending.symm.trans hnone
    exact ⟨hp, hstage.trans (hmoves.tells ht).eq_of_nil⟩
  | case2 t hp fault' v hs =>
    cases h
    obtain ⟨s, rfl, _⟩ := step_error hs ht
    exact ⟨hp, rfl⟩
  | case3 => cases h

/-- The node of an element that failed to be read does no harm. -/
theorem covers_early {depth left : Nat} (h : left ≤ depth) (t : Tokenizer) :
    Covers depth t.early left := by
  unfold early opening
  split
  next =>
    split
    next => exact .cons rfl (.nil (Nat.le_succ_of_le h))
    next => exact .nil h
  next => exact .nil h

theorem Owes.fill {depth : Nat} {t u : Tokenizer} (h : t.Owes depth)
    (hfill : Tokenizer.fill t = .ok () u) : u.Owes depth := by
  obtain ⟨hu, added, hpending, htells⟩ := tells_of_fill hfill h.agrees
  refine ⟨hu, ?_⟩
  rw [hpending]
  exact h.covers.append htells.covers

theorem Owes.fill_error {depth : Nat} {t u : Tokenizer} {fault : Fault} (h : t.Owes depth)
    (hfill : Tokenizer.fill t = .error fault u) : u.Owes depth := by
  obtain ⟨hu, hearly, _⟩ := Tokenizer.fill_error hfill h.agrees
  obtain ⟨hnone, hstage⟩ := stage_of_fill_error hfill h.agrees
  have hcovers := h.covers
  rw [hnone] at hcovers
  cases hcovers with
  | nil hle =>
    refine ⟨hu, ?_⟩
    rw [hearly, hstage]
    exact covers_early hle u

/-- Each request passes on what is owed, failing or not. -/
theorem nests_owes : Nests Owes where
  peek := by
    intro depth t h
    rw [Queued.peek_eq]
    cases hfill : (Queued.fill : EStateM SourceError Tokenizer Unit) t with
    | ok _ u => exact h.fill (queued_fill_ok.mp hfill)
    | error e u =>
      obtain ⟨fault, hread, _⟩ := queued_fill_error.mp hfill
      exact h.fill_error hread
  next := by
    intro depth t u event h hnext
    obtain ⟨v, rest, hfill, hpending, rfl⟩ := Queued.next_ok_iff.mp hnext
    obtain ⟨hv, hcovers⟩ := h.fill (queued_fill_ok.mp hfill)
    change v.pending = event :: rest at hpending
    rw [hpending] at hcovers
    cases hcovers with
    | cons hopen hrest =>
      refine ⟨_, hopen, hv, ?_⟩
      show Covers _ v.pending.tail v.stage.depth
      rw [hpending]
      exact hrest
  next_error := by
    intro depth t u e h hnext
    rw [Queued.next_eq] at hnext
    cases hfill : (Queued.fill : EStateM SourceError Tokenizer Unit) t with
    | ok _ v =>
      rw [hfill] at hnext
      cases hnext
    | error e' v =>
      rw [hfill] at hnext
      cases hnext
      obtain ⟨fault, hread, _⟩ := queued_fill_error.mp hfill
      exact h.fill_error hread

theorem owes_ofText (text : String) : (ofText text).Owes 0 :=
  ⟨rfl, .nil (Nat.le_refl _)⟩

/-- **A JSON text never closes what it has not opened**, well formed or not and whatever has failed
before: among the events that were given, at no time are there more ends of nodes than starts, and no
operation of a cursor without a limit fails for such an end. -/
theorem nests_behind_errors (text : String) :
    (∀ requests front, front <+: given (answers requests (ofText text)) →
        closes front ≤ opens front) ∧
      ∀ config headers operations, config.maxDepth = none → ∀ path misfit,
        .error (.structural path misfit) ∈
            Cursor.Operation.answers operations (Cursor.new (ofText text) config headers) →
          misfit.message ≠ "end of node without an open node" := by
  constructor
  · intro requests front hfront
    obtain ⟨left, hcovers⟩ := nests_owes.covers_given requests (owes_ofText text)
    have hle := hcovers.closes_le hfront
    rwa [Nat.zero_add] at hle
  · intro config headers operations hlimit path misfit hmem hmessage
    have hcovered : Cursor.Covered Owes (Cursor.new (ofText text) config headers) :=
      ⟨hlimit, owes_ofText text⟩
    rw [Misfit.eq_unopenedEnd_of_message hmessage] at hmem
    exact Cursor.unopenedEnd_not_mem_answers nests_owes operations hcovered path hmem

/-- A caller watches a place, goes on behind a number without an exponent, and asks for text behind the
text of the array that follows. -/
def resumedOperations : List Cursor.Operation :=
  [.register "member" 0 "k", .advance, .advance, .advance, .advance, .advance, .readText, .advance]

/-- Behind the broken number its element is tried again, so three nodes open and two close. Asking for
text where there is none still fails for its own reason. -/
theorem nests_behind_errors_resumed :
    (given (answers (List.replicate 9 .next) (ofText "[1e [2]]")) =
        [.startDocument, .startNode { name := "member" }, .startNode { name := "member" },
          .startNode { name := "member" }, .text "2", .endNode, .endNode, .endDocument] ∧
        closes (given (answers (List.replicate 9 .next) (ofText "[1e [2]]"))) ≤
          opens (given (answers (List.replicate 9 .next) (ofText "[1e [2]]")))) ∧
      ∃ path misfit, .error (.structural path misfit) ∈
            Cursor.Operation.answers resumedOperations (Cursor.new (ofText "[1e [2]]")) ∧
          misfit.message ≠ "end of node without an open node" := by
  constructor
  · refine ⟨by decide +kernel, (nests_behind_errors "[1e [2]]").1 _ _ (List.prefix_refl _)⟩
  · have hanswers : (Cursor.Operation.answers resumedOperations
        (Cursor.new (ofText "[1e [2]]")))[6]? =
        some (.error (.structural "/member/member/member" (.noTextAt (.text "2")))) := by
      decide +kernel
    have hmem := List.mem_of_getElem? hanswers
    exact ⟨_, _, hmem, (nests_behind_errors "[1e [2]]").2 _ _ _ rfl _ _ hmem⟩

end Tokenizer

end DocWalk.Json
