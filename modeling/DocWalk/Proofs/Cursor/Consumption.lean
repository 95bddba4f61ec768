import DocWalk.Proofs.Cursor.Foresight
import DocWalk.Proofs.Cursor.Operations

/-!
# Metadata and the caller

A caller may advance event by event, read the text of a node at once, or skip a node, and may try
each where it fails. Reading text takes events without standing on them, passes over attributes that
wait, and stops in the middle of a node that holds more than text.

What is foreseen stays through all of it: a text that is read at once is caught as one more piece
from the node it stands in, which is what an advance past it does. So the order of moves does not
matter.

**The law**: whatever the moves, a cursor that has come to the end of its document holds the
metadata that advancing alone would have caught.
-/

set_option autoImplicit false

namespace DocWalk

namespace Cursor

variable {σ : Type}

/-! ## Reading text -/

theorem Foresees.peek [Source σ] {c : Cursor σ} {events : List Event} {final : Registry}
    (h : Foresees c events final) :
    ∃ shown s, ask Source.peek c = .ok shown { c with source := s } ∧ Source.Shows events shown ∧
      Foresees { c with source := s } events final := by
  obtain ⟨shown, s, hs, hshown, hemits⟩ := h.emits.peek
  have hask : ask Source.peek c = .ok shown { c with source := s } := ask_eq_ok.mpr ⟨s, hs, rfl⟩
  exact ⟨shown, s, hask, hshown, ⟨hemits, h.upcoming, h.path_eq⟩, h.foreseen_eq⟩

/-- A text that is read where it stands is followed by one more piece, or by none. -/
theorem Foresees.takeText [Source σ] {c : Cursor σ} {text : String} {rest : List Event}
    {final : Registry} (h : Foresees c (.text text :: rest) final) (hc : c.onAttribute = false) :
    ∃ s t journal registry, ask Source.next c = .ok (.text text) { c with source := s } ∧
      lookAhead true { c with source := s } =
        .ok () { c with source := t, journal, registry } ∧
      Foresees { c with source := t, journal, registry } rest final := by
  obtain ⟨s, hs, hemits⟩ := h.emits.next
  obtain ⟨_, _, hupcoming⟩ := h.upcoming.next
  obtain ⟨t, journal, ht, hlook⟩ := @lookAhead_eq σ _ { c with source := s } rest hemits true
  refine ⟨s, t, journal, _, ask_eq_ok.mpr ⟨s, hs, rfl⟩, hlook, ⟨ht, hupcoming, h.path_eq⟩, ?_⟩
  have hposition : Cursor.position { c with source := s } = .inside c.names := by
    rw [position, h.path_eq hc]
    rfl
  rw [hposition, ← h.foreseen_eq]
  exact Registry.foreseen_catchEvent c.registry c.names (.text text) rest

/-- Reading on through a node's text leaves a cursor that foresees the same, where it stops as well
as where it fails. -/
theorem Foresees.collectText [FiniteSource σ] {c : Cursor σ} {events : List Event}
    {final : Registry} (h : Foresees c events final) (hc : c.onAttribute = false) (out : String) :
    ∃ rest, Foresees (Cursor.collectText out c).left rest final ∧
      (Cursor.collectText out c).left.current = c.current ∧
      (Cursor.collectText out c).left.config = c.config := by
  induction events generalizing c out with
  | nil =>
    obtain ⟨shown, s, hpeek, hshown, hs⟩ := h.peek
    cases hshown with
    | ended =>
      rw [collectsText_iff.mp (.found hpeek rfl rfl)]
      exact ⟨[], ⟨⟨hs.emits, hs.upcoming, hs.path_eq⟩, hs.foreseen_eq⟩, rfl, rfl⟩
    | nothing =>
      rw [collectsText_iff.mp (.ends hpeek (.inl rfl))]
      exact ⟨[], hs, rfl, rfl⟩
  | cons event rest ih =>
    obtain ⟨shown, s, hpeek, hshown, hs⟩ := h.peek
    cases hshown
    have hfound : event.isText = false → event.isEndNode = false →
        ∃ rest, Foresees (Cursor.collectText out c).left rest final ∧
          (Cursor.collectText out c).left.current = c.current ∧
          (Cursor.collectText out c).left.config = c.config := by
      intro htext hend
      rw [collectsText_iff.mp (.found hpeek htext hend)]
      exact ⟨event :: rest, ⟨⟨hs.emits, hs.upcoming, hs.path_eq⟩, hs.foreseen_eq⟩, rfl, rfl⟩
    cases event with
    | text text =>
      obtain ⟨s', t, journal, registry, hnext, hlook, ht⟩ := hs.takeText hc
      rw [collectsText_iff.mp (.piece hpeek hnext hlook (collectsText_collectText _ _))]
      exact ih ht hc (out ++ text)
    | endNode =>
      rw [collectsText_iff.mp (.ends hpeek (.inr rfl))]
      exact ⟨.endNode :: rest, hs, rfl, rfl⟩
    | startDocument | endDocument | startNode | attr => exact hfound rfl rfl

/-! ## Every move -/

/-- A cursor without a limit that will end with this registry, and that has nothing ahead when it
stands at the end. -/
structure BoundFor [Source σ] (final : Registry) (c : Cursor σ) : Prop where
  foresees : ∃ events, Foresees c events final ∧ (c.current = some .endDocument → events = [])
  unlimited : c.config.maxDepth = none

theorem BoundFor.registry_eq [Source σ] {final : Registry} {c : Cursor σ} (h : BoundFor final c)
    (hend : c.current = some .endDocument) : c.registry = final := by
  obtain ⟨⟨events, hforesees, hnil⟩, _⟩ := h
  cases hnil hend
  exact hforesees.foreseen_eq

theorem BoundFor.advance [Source σ] {final : Registry} {c : Cursor σ} (h : BoundFor final c) :
    ∃ event d, Cursor.advance c = .ok event d ∧ d.current = some event ∧ BoundFor final d := by
  obtain ⟨⟨events, hforesees, _⟩, hunlimited⟩ := h
  rcases hforesees.advance with
    ⟨a, d, hadvance, hmoved, hd⟩ | ⟨d, hadvance, hmoved, hd⟩ | ⟨limit, _, _, hstopped, _⟩
  · refine ⟨_, d, hadvance, hmoved.current_eq, ⟨events, hd, fun hend => ?_⟩, ?_⟩
    · cases hmoved.current_eq.symm.trans hend
    · rw [hmoved.config_eq]
      exact hunlimited
  · refine ⟨_, d, hadvance, hmoved.current_eq, ⟨events.tail, hd, fun hend => ?_⟩, ?_⟩
    · have hhead := Option.some.inj (hmoved.current_eq.symm.trans hend)
      rw [hforesees.upcoming.eq_nil hhead]
      rfl
    · rw [hmoved.config_eq]
      exact hunlimited
  · cases hunlimited.symm.trans hstopped.maxDepth_eq

theorem BoundFor.readText [FiniteSource σ] {final : Registry} {c : Cursor σ}
    (h : BoundFor final c) : BoundFor final (Cursor.readText c).left := by
  unfold Cursor.readText
  split
  next => exact h
  next => exact h
  next node hcurrent =>
    obtain ⟨⟨events, hforesees, _⟩, hunlimited⟩ := h
    have hc : c.onAttribute = false := by
      rw [onAttribute, hcurrent]
      rfl
    have hpassed : Foresees { c with attributes := [] } events final :=
      ⟨⟨hforesees.emits, hforesees.upcoming, hforesees.path_eq⟩, hforesees.foreseen_eq⟩
    obtain ⟨rest, hrest, hsame, hconfig⟩ := hpassed.collectText hc ""
    refine ⟨⟨rest, hrest, fun hend => ?_⟩, ?_⟩
    · rw [hsame] at hend
      cases hcurrent.symm.trans hend
    · rw [hconfig]
      exact hunlimited
  next => exact h

theorem BoundFor.skipTo [FiniteSource σ] {final : Registry} {c : Cursor σ} {target : Nat}
    (h : BoundFor final c) : BoundFor final (Cursor.skipTo target c).left := by
  fun_induction Cursor.skipTo target c with
  | case1 => exact h
  | case2 c _ e d hfail =>
    obtain ⟨event, d', hadvance, _⟩ := h.advance
    cases hfail.symm.trans hadvance
  | case3 c _ d hend =>
    obtain ⟨event, d', hadvance, _, hd⟩ := h.advance
    cases hend.symm.trans hadvance
    exact hd
  | case4 c _ event d hgo _ ih =>
    obtain ⟨event', d', hadvance, _, hd⟩ := h.advance
    cases hgo.symm.trans hadvance
    exact ih hd

theorem BoundFor.skipNode [FiniteSource σ] {final : Registry} {c : Cursor σ}
    (h : BoundFor final c) : BoundFor final (Cursor.skipNode c).left := by
  unfold Cursor.skipNode
  split
  next => exact h.skipTo
  next => exact h

/-- What a caller may do with a cursor on its way to the end. -/
inductive Move where
  | advance
  | readText
  | skip
  deriving DecidableEq, Repr

/-- The cursor behind a move, whether the move failed or not. -/
def Move.run [FiniteSource σ] (move : Move) (c : Cursor σ) : Cursor σ :=
  match move with
  | .advance => (Cursor.advance c).left
  | .readText => (Cursor.readText c).left
  | .skip => (Cursor.skipNode c).left

/-- The cursor behind some moves. -/
def follow [FiniteSource σ] (moves : List Move) (c : Cursor σ) : Cursor σ :=
  moves.foldl (fun c move => move.run c) c

theorem BoundFor.run [FiniteSource σ] {final : Registry} {c : Cursor σ} (h : BoundFor final c)
    (move : Move) : BoundFor final (move.run c) := by
  cases move with
  | advance =>
    obtain ⟨event, d, hadvance, _, hd⟩ := h.advance
    unfold Move.run
    rw [hadvance]
    exact hd
  | readText => exact h.readText
  | skip => exact h.skipNode

theorem BoundFor.follow [FiniteSource σ] {final : Registry} {c : Cursor σ} (h : BoundFor final c)
    (moves : List Move) : BoundFor final (Cursor.follow moves c) := by
  induction moves generalizing c with
  | nil => exact h
  | cons move rest ih => exact ih (h.run move)

/-- A walk of advances comes to the end. -/
theorem BoundFor.drain [FiniteSource σ] {final : Registry} {c : Cursor σ} (h : BoundFor final c) :
    ∃ visits d, Cursor.drain c = (visits, .ok () d) ∧ d.registry = final := by
  fun_induction Cursor.drain c with
  | case1 c e d hfail =>
    obtain ⟨event, d', hadvance, _⟩ := h.advance
    cases hfail.symm.trans hadvance
  | case2 c d hend =>
    obtain ⟨event, d', hadvance, hcurrent, hd⟩ := h.advance
    cases hend.symm.trans hadvance
    exact ⟨_, d, rfl, hd.registry_eq hcurrent⟩
  | case3 c event d hgo _ visits outcome hdrain ih =>
    obtain ⟨event', d', hadvance, _, hd⟩ := h.advance
    cases hgo.symm.trans hadvance
    obtain ⟨visits', e, hrest, he⟩ := ih hd
    cases hdrain.symm.trans hrest
    exact ⟨_, e, rfl, he⟩

/-- A cursor in front of a whole document is bound for one registry. -/
theorem boundFor_watching [Source σ] {source : σ} {config : Config} {body : List Event}
    (headers : Option (List (String × String))) (expressions : List Expression)
    (hsource : Source.Emits source (.startDocument :: body)) (hbody : Balanced 0 body)
    (hlimit : config.maxDepth = none) :
    ∃ final, BoundFor final (watching source config headers expressions) := by
  have hforesees := foresees_watching config headers expressions hsource hbody
  refine ⟨_, ⟨_, hforesees, fun hcurrent => ?_⟩, ?_⟩
  · rw [watching_eq] at hcurrent
    cases hcurrent
  · rw [watching_eq]
    exact hlimit

/-- **Metadata does not depend on the caller.** A cursor without a limit over a balanced document,
with any places watched from the start and brought to the end by any moves, holds what advancing
alone would have caught. -/
theorem metadata_follow_eq_drain [FiniteSource σ] {source : σ} {config : Config}
    {body : List Event} (headers : Option (List (String × String)))
    (expressions : List Expression) (moves : List Move)
    (hsource : Source.Emits source (.startDocument :: body)) (hbody : Balanced 0 body)
    (hlimit : config.maxDepth = none)
    (hend : (follow moves (watching source config headers expressions)).current =
      some .endDocument) :
    ∃ visits d, drain (watching source config headers expressions) = (visits, .ok () d) ∧
      (follow moves (watching source config headers expressions)).metadata = d.metadata := by
  obtain ⟨final, hbound⟩ := boundFor_watching headers expressions hsource hbody hlimit
  obtain ⟨visits, d, hdrain, hregistry⟩ := hbound.drain
  refine ⟨visits, d, hdrain, ?_⟩
  rw [metadata, metadata, (hbound.follow moves).registry_eq hend, hregistry]

/-- Reading text that fails at a child, skipping that child, and reading where nothing can be read,
with two places watched under one key. -/
theorem metadata_follow_eq_drain_mixed :
    ∃ visits d,
      drain (watching mixedScript {} none sharedKey) = (visits, .ok () d) ∧
      (follow [.readText, .advance, .advance, .readText, .advance, .skip, .readText, .advance,
          .advance, .advance, .advance]
        (watching mixedScript {} none sharedKey)).metadata = d.metadata := by
  have hend : (follow [.readText, .advance, .advance, .readText, .advance, .skip, .readText,
      .advance, .advance, .advance, .advance]
      (watching mixedScript {} none sharedKey)).current =
        some .endDocument := by
    cbv
  exact metadata_follow_eq_drain none _ _ emits_mixedScript balanced_mixedBody rfl hend

end Cursor

end DocWalk
