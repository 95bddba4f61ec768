import DocWalk.Proofs.Cursor.Congruence
import DocWalk.Proofs.Source.Emission

/-!
# Sources that cannot be told apart

A cursor knows its document only by what the source shows and gives. Two sources that answer every
request alike, whatever was asked before, therefore make cursors that answer every operation alike:
what a cursor keeps apart from its source is the same on both sides, error texts included.

**The laws.** Cursors over twin sources are interchangeable (`Twins.interchangeable`), so over finite
sources their answers are equal (`answers_eq`). Two sources that emit the same events, and always have
something to show, are such a pair (`bisimulation_of_emits`).
-/

set_option autoImplicit false

namespace DocWalk

open EStateM

variable {σ τ : Type}

/-- Related sources answer both requests alike and stay related. -/
structure Source.Bisimulation [Source σ] [Source τ] (related : σ → τ → Prop) : Prop where
  peek : Agree related (Source.peek : EStateM SourceError σ _) Source.peek
  next : Agree related (Source.next : EStateM SourceError σ _) Source.next

namespace Cursor

variable {related : σ → τ → Prop}

/-- A cursor with another source. -/
def withSource (c : Cursor σ) (t : τ) : Cursor τ :=
  { source := t
    config := c.config
    names := c.names
    path := c.path
    current := c.current
    attributes := c.attributes
    registry := c.registry
    patterns := c.patterns
    headers := c.headers
    journal := c.journal }

/-- Two cursors that differ in their sources alone, which are related. -/
inductive Twins (related : σ → τ → Prop) (c : Cursor σ) : Cursor τ → Prop where
  | mk {t : τ} : related c.source t → Twins related c (c.withSource t)

theorem Twins.new {s : σ} {t : τ} (h : related s t) (config : Config)
    (headers : Option (List (String × String))) :
    Twins related (new s config headers) (new t config headers) :=
  .mk (c := Cursor.new s config headers) h

theorem Twins.source {c : Cursor σ} {d : Cursor τ} (h : Twins related c d) :
    related c.source d.source := by
  obtain ⟨ht⟩ := h
  exact ht

theorem Twins.withSources {c : Cursor σ} {d : Cursor τ} (h : Twins related c d) {s : σ} {t : τ}
    (hst : related s t) : Twins related { c with source := s } { d with source := t } := by
  obtain ⟨_⟩ := h
  exact .mk (c := { c with source := s }) hst

/-- Cursors that differ in their sources alone are told apart by nothing if the sources are not. -/
theorem Twins.interchangeable [Source σ] [Source τ]
    (bisimulation : Source.Bisimulation related) : Interchangeable (Twins related) where
  kept_eq h := by
    obtain ⟨_⟩ := h
    rfl
  keep h k := by
    obtain ⟨ht⟩ := h
    exact .mk ht
  peek := agree_ask bisimulation.peek Twins.source Twins.withSources
  next := agree_ask bisimulation.next Twins.source Twins.withSources
  testAt_eq h pattern anchor := by
    obtain ⟨_⟩ := h
    rfl
  testAt h pattern anchor := by
    obtain ⟨ht⟩ := h
    exact .mk ht
  maxDepth_eq h := by
    obtain ⟨_⟩ := h
    rfl

/-- Over finite sources that answer alike, every operation in every sequence is answered alike. -/
theorem answers_eq [FiniteSource σ] [FiniteSource τ] (bisimulation : Source.Bisimulation related)
    (operations : List Operation) {c : Cursor σ} {d : Cursor τ} (htwins : Twins related c d) :
    Operation.answers operations c = Operation.answers operations d :=
  (Twins.interchangeable bisimulation).answers_eq operations htwins

end Cursor

/-! ## Sources of the same events -/

/-- Sources that emit the same events and always have one to show answer alike. -/
theorem Source.bisimulation_of_emits [Source σ] [Source τ]
    (hσ : ∀ s t : σ, (Source.peek : EStateM SourceError σ _) s ≠ .ok none t)
    (hτ : ∀ s t : τ, (Source.peek : EStateM SourceError τ _) s ≠ .ok none t) :
    Source.Bisimulation fun (s : σ) (t : τ) =>
      ∃ events, Source.Emits s events ∧ Source.Emits t events := by
  constructor
  · rintro s t ⟨events, hs, ht⟩
    obtain ⟨shown, s', hpeek, hshown, hs'⟩ := hs.peek
    obtain ⟨shown', t', hpeek', hshown', ht'⟩ := ht.peek
    have hsame : shown = shown' := by
      cases hshown with
      | first => cases hshown' with | first => rfl
      | ended =>
        cases hshown' with
        | ended => rfl
        | nothing => exact absurd hpeek' (hτ t t')
      | nothing => exact absurd hpeek (hσ s s')
    rw [hpeek, hpeek', hsame]
    exact .ok ⟨events, hs', ht'⟩
  · rintro s t ⟨events, hs, ht⟩
    obtain ⟨s', hnext, hs'⟩ := hs.next
    obtain ⟨t', hnext', ht'⟩ := ht.next
    rw [hnext, hnext']
    exact .ok ⟨events.tail, hs', ht'⟩

theorem Cursor.answers_eq_of_emits [FiniteSource σ] [FiniteSource τ]
    (hσ : ∀ s t : σ, (Source.peek : EStateM SourceError σ _) s ≠ .ok none t)
    (hτ : ∀ s t : τ, (Source.peek : EStateM SourceError τ _) s ≠ .ok none t)
    {s : σ} {t : τ} {events : List Event} (hs : Source.Emits s events)
    (ht : Source.Emits t events) (config : Config)
    (headers : Option (List (String × String))) (operations : List Cursor.Operation) :
    Operation.answers operations (new s config headers) =
      Operation.answers operations (new t config headers) :=
  answers_eq (Source.bisimulation_of_emits hσ hτ) operations (.new ⟨events, hs, ht⟩ config headers)

end DocWalk
