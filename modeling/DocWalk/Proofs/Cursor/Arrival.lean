import DocWalk.Proofs.Cursor.Consumption
import DocWalk.Proofs.Cursor.DepthFirst

/-!
# Coming to a node

A walk that has shown the first events of a balanced document stands in front of the others, whatever
it watches and whatever limit it has (`Foresees.walks`). Without a limit there is such a walk, as far
as nodes have no attributes (`InFront.walks_events`).

At a node that holds nothing but one text, reading gives this text (`Foresees.readText_leaf`).
-/

set_option autoImplicit false

namespace DocWalk.Cursor

variable {σ : Type}

/-- The last event that a walk shows is the current one. -/
theorem Walks.current_eq [Source σ] {c d : Cursor σ} {shown : List Visit} {visit : Visit}
    (h : Walks c (shown ++ [visit]) d) : d.current = some visit.event := by
  obtain ⟨e, _, hlast⟩ := h.split
  cases hlast with
  | step hadvance hrest =>
    cases hrest
    obtain ⟨_, _, _, _, _, _, rfl⟩ := advance_eq_ok_iff.mp hadvance
    rfl

/-- Behind the first events a walk stands in front of the others. -/
theorem Foresees.walks [Source σ] {c d : Cursor σ} {front rest : List Event} {final : Registry}
    {shown : List Visit} (h : Foresees c (front ++ rest) final) (hwalks : Walks c shown d)
    (hshown : shown.map Visit.event = front) (hfront : ∀ event ∈ front, event.isAttribute = false) :
    Foresees d rest final := by
  induction hwalks generalizing front with
  | rest =>
    cases hshown
    exact h
  | @step c d last event more hadvance _ ih =>
    cases hshown
    obtain ⟨hevent, hmore⟩ := List.forall_mem_cons.mp hfront
    rcases h.advance with ⟨a, d', hattr, _, _⟩ | ⟨d', hnext, _, hd⟩ | ⟨_, _, _, _, hdeep⟩
    · cases hadvance.symm.trans hattr
      cases hevent
    · cases hadvance.symm.trans hnext
      exact ih hd rfl hmore
    · cases hadvance.symm.trans hdeep

/-- Without a limit a walk shows the first events, where no node of them has attributes. -/
theorem InFront.walks_events [Source σ] {c : Cursor σ} {names : List String}
    {front rest : List Event} (h : InFront c names [] (front ++ rest))
    (hahead : Upcoming names.length (front ++ rest))
    (hbare : ∀ event ∈ front, event.attributes = []) :
    ∃ shown d, Walks c shown d ∧ shown.map Visit.event = front := by
  induction front generalizing c names with
  | nil => exact ⟨[], c, .rest c, rfl⟩
  | cons event more ih =>
    obtain ⟨hevent, hmore⟩ := List.forall_mem_cons.mp hbare
    obtain ⟨hattr, hend, hnext⟩ := hahead.next
    obtain ⟨d, hadvance, _, hd⟩ := h.event hattr fun heq => List.length_pos_iff.mp (hend heq)
    change InFront d (namesAfter names event) event.attributes (more ++ rest) at hd
    rw [hevent] at hd
    rw [← length_namesAfter] at hnext
    obtain ⟨shown, last, hwalks, hshown⟩ := ih hd hnext hmore
    exact ⟨_, last, .step hadvance hwalks, congrArg _ hshown⟩

/-- Of one text in front of the end of its node, the text is taken. -/
theorem Foresees.collectText_leaf [FiniteSource σ] {c : Cursor σ} {text : String}
    {rest : List Event} {final : Registry} (h : Foresees c (.text text :: .endNode :: rest) final)
    (hc : c.onAttribute = false) :
    ∃ d, Cursor.collectText "" c = .ok text d ∧ Foresees d (.endNode :: rest) final ∧
      d.path = c.path := by
  obtain ⟨_, s, hpeek, hshown, hs⟩ := h.peek
  cases hshown
  obtain ⟨s', t, journal, registry, hnext, hlook, ht⟩ := hs.takeText hc
  obtain ⟨_, u, hend, hshown, hu⟩ := ht.peek
  cases hshown
  have hcollects : Cursor.collectText "" c = .ok ("" ++ text) _ :=
    collectsText_iff.mp (.piece hpeek hnext hlook (.ends hend (.inr rfl)))
  rw [String.empty_append] at hcollects
  exact ⟨_, hcollects, hu, rfl⟩

/-- A node that holds one text and nothing else is read as this text. -/
theorem Foresees.readText_leaf [FiniteSource σ] {c : Cursor σ} {node : Node} {text : String}
    {rest : List Event} {final : Registry} (h : Foresees c (.text text :: .endNode :: rest) final)
    (hcurrent : c.current = some (.startNode node)) :
    ∃ d, Cursor.readText c = .ok text d ∧ Foresees d (.endNode :: rest) final ∧
      d.path = c.path := by
  have hc : c.onAttribute = false := by
    rw [onAttribute, hcurrent]
    rfl
  have hpassed : Foresees { c with attributes := [] } (.text text :: .endNode :: rest) final :=
    ⟨⟨h.emits, h.upcoming, h.path_eq⟩, h.foreseen_eq⟩
  rw [readText_of_startNode hcurrent]
  exact hpassed.collectText_leaf hc

end DocWalk.Cursor
