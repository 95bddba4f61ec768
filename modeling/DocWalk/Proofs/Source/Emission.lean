import DocWalk.Source.Scripted

/-!
# What a source emits

A source without errors is known by the events it is yet to give. `Emits s events` says that from
`s` on the source shows and gives just these events in order and the end of the document for ever
after, whatever is asked in which order. It is the greatest relation that both requests keep, so a
source is shown to emit something by any relation that they keep.

The law for a walk is `Emits.drain`: draining such a source does not fail and takes these events and
the end.

`EmitsFirst s events behind` says less of a source: it gives these events first. What it does behind
them, errors included, is left open but for what `behind` says of it.
-/

set_option autoImplicit false

namespace DocWalk.Source

variable {σ : Type}

/-- What a source shows of the events before its end: the first of them, and behind them the end of
the document or nothing. -/
inductive Shows : List Event → Option Event → Prop where
  | first {event : Event} {rest : List Event} : Shows (event :: rest) (some event)
  | ended : Shows [] (some .endDocument)
  | nothing : Shows [] none

/-- A relation between a source and the events before its end that both requests keep. -/
structure Emission [Source σ] (gives : σ → List Event → Prop) : Prop where
  peek {s : σ} {events : List Event} : gives s events →
    ∃ shown t, (Source.peek : EStateM SourceError σ _) s = .ok shown t ∧ Shows events shown ∧
      gives t events
  next {s : σ} {events : List Event} : gives s events →
    ∃ t, (Source.next : EStateM SourceError σ _) s = .ok (events.headD .endDocument) t ∧
      gives t events.tail

/-- The source gives these events and then the end of the document, without an error. -/
def Emits [Source σ] (s : σ) (events : List Event) : Prop :=
  ∃ gives : σ → List Event → Prop, Emission gives ∧ gives s events

theorem Emits.peek [Source σ] {s : σ} {events : List Event} (h : Emits s events) :
    ∃ shown t, (Source.peek : EStateM SourceError σ _) s = .ok shown t ∧ Shows events shown ∧
      Emits t events := by
  obtain ⟨gives, kept, hs⟩ := h
  obtain ⟨shown, t, ht, hshown, hgives⟩ := kept.peek hs
  exact ⟨shown, t, ht, hshown, gives, kept, hgives⟩

theorem Emits.next [Source σ] {s : σ} {events : List Event} (h : Emits s events) :
    ∃ t, (Source.next : EStateM SourceError σ _) s = .ok (events.headD .endDocument) t ∧
      Emits t events.tail := by
  obtain ⟨gives, kept, hs⟩ := h
  obtain ⟨t, ht, hgives⟩ := kept.next hs
  exact ⟨t, ht, gives, kept, hgives⟩

/-! ## Some events first -/

/-- A relation between a source and events that it gives first, which both requests keep. Behind the
events the source is as `behind` says. -/
structure Delivery [Source σ] (behind : σ → Prop) (gives : σ → List Event → Prop) : Prop where
  peek {s : σ} {event : Event} {rest : List Event} : gives s (event :: rest) →
    ∃ shown t, (Source.peek : EStateM SourceError σ (Option Event)) s = .ok shown t ∧
      gives t (event :: rest)
  next {s : σ} {event : Event} {rest : List Event} : gives s (event :: rest) →
    ∃ t, (Source.next : EStateM SourceError σ Event) s = .ok event t ∧ gives t rest
  behind {s : σ} : gives s [] → behind s

/-- The source gives these events first, whether it is looked at or not, and is then as `behind`
says. -/
def EmitsFirst [Source σ] (s : σ) (events : List Event) (behind : σ → Prop) : Prop :=
  ∃ gives : σ → List Event → Prop, Delivery behind gives ∧ gives s events

/-- Where no events are left, what stands behind them can be looked at. -/
def Sighted [Source σ] (events : List Event) (behind : σ → Prop) : Prop :=
  events = [] → ∀ s, behind s →
    ∃ shown t, (Source.peek : EStateM SourceError σ (Option Event)) s = .ok shown t ∧ behind t

section

variable [Source σ] {s : σ} {behind : σ → Prop}

theorem EmitsFirst.next {event : Event} {rest : List Event}
    (h : EmitsFirst s (event :: rest) behind) :
    ∃ t, (Source.next : EStateM SourceError σ _) s = .ok event t ∧ EmitsFirst t rest behind := by
  obtain ⟨gives, kept, hs⟩ := h
  obtain ⟨t, ht, hgives⟩ := kept.next hs
  exact ⟨t, ht, gives, kept, hgives⟩

theorem emitsFirst_nil_iff : EmitsFirst s [] behind ↔ behind s := by
  constructor
  · rintro ⟨gives, kept, hs⟩
    exact kept.behind hs
  · intro hs
    refine ⟨fun s events => events = [] ∧ behind s, ⟨?_, ?_, And.right⟩, rfl, hs⟩
    · exact fun h => nomatch h.1
    · exact fun h => nomatch h.1

/-- A look at a source leaves the events that it gives first, and what stands behind them. -/
theorem EmitsFirst.peek {events : List Event} (h : EmitsFirst s events behind)
    (hsighted : Sighted events behind) :
    ∃ shown t, (Source.peek : EStateM SourceError σ (Option Event)) s = .ok shown t ∧
      EmitsFirst t events behind := by
  cases events with
  | nil =>
    obtain ⟨shown, t, ht, hbehind⟩ := hsighted rfl s (emitsFirst_nil_iff.mp h)
    exact ⟨shown, t, ht, emitsFirst_nil_iff.mpr hbehind⟩
  | cons event rest =>
    obtain ⟨gives, kept, hs⟩ := h
    obtain ⟨shown, t, ht, hgives⟩ := kept.peek hs
    exact ⟨shown, t, ht, gives, kept, hgives⟩

end

/-! ## Draining -/

theorem drain_end [FiniteSource σ] {s t : σ}
    (h : (Source.next : EStateM SourceError σ _) s = .ok .endDocument t) :
    Source.drain s = ([(.endDocument, t)], .ok () t) := by
  rw [Source.drain]
  split
  next hnext => cases h.symm.trans hnext
  next hnext =>
    cases h.symm.trans hnext
    rfl

theorem drain_error [FiniteSource σ] {s t : σ} {e : SourceError}
    (h : (Source.next : EStateM SourceError σ Event) s = .error e t) :
    Source.drain s = ([], .error e t) := by
  rw [Source.drain]
  split
  next hnext =>
    cases h.symm.trans hnext
    rfl
  next hnext => cases h.symm.trans hnext

theorem drain_next [FiniteSource σ] {s t : σ} {event : Event}
    (h : (Source.next : EStateM SourceError σ _) s = .ok event t) (he : event ≠ .endDocument) :
    Source.drain s = ((event, t) :: (Source.drain t).1, (Source.drain t).2) := by
  rw [Source.drain]
  split
  next hnext => cases h.symm.trans hnext
  next hnext =>
    cases h.symm.trans hnext
    rw [dif_neg he]

/-- Draining a source takes what it emits, and then the end. -/
theorem Emits.drain [FiniteSource σ] {s : σ} {events : List Event} (h : Emits s events)
    (hend : .endDocument ∉ events) :
    ∃ given t, Source.drain s = (given, .ok () t) ∧
      given.map Prod.fst = events ++ [.endDocument] := by
  induction events generalizing s with
  | nil =>
    obtain ⟨t, ht, _⟩ := h.next
    exact ⟨_, t, drain_end ht, rfl⟩
  | cons event rest ih =>
    simp only [List.mem_cons, not_or] at hend
    obtain ⟨hne, hrest⟩ := hend
    obtain ⟨t, ht, hemits⟩ := h.next
    obtain ⟨given, u, hdrain, hgiven⟩ := ih hemits hrest
    refine ⟨(event, t) :: given, u, ?_, ?_⟩
    · rw [drain_next ht (Ne.symm hne), hdrain]
      rfl
    · rw [List.map_cons, hgiven]
      rfl

end DocWalk.Source

namespace DocWalk.Script

/-- A script of events emits them. -/
theorem emits_events (events : List Event) :
    Source.Emits (Script.mk (events.map .event)) events := by
  refine ⟨fun s events => s = ⟨events.map .event⟩, ⟨?_, ?_⟩, rfl⟩
  · rintro s events rfl
    cases events with
    | nil => exact ⟨_, _, rfl, .ended, rfl⟩
    | cons => exact ⟨_, _, rfl, .first, rfl⟩
  · rintro s events rfl
    refine ⟨⟨events.tail.map .event⟩, ?_, rfl⟩
    cases events <;> rfl

/-- A script gives the events in front of its other entries. -/
theorem emitsFirst_events (events : List Event) (entries : List ScriptEntry) :
    Source.EmitsFirst (Script.mk (events.map .event ++ entries)) events (· = ⟨entries⟩) := by
  refine ⟨fun s events => s = ⟨events.map .event ++ entries⟩, ⟨?_, ?_, id⟩, rfl⟩
  · rintro s event rest rfl
    exact ⟨_, _, rfl, rfl⟩
  · rintro s event rest rfl
    exact ⟨_, rfl, rfl⟩

end DocWalk.Script
