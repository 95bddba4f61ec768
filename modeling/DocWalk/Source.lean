import DocWalk.Event
import DocWalk.Json.Error
import DocWalk.Outcome
import DocWalk.Xml.Error

/-!
# Sources of events

A source is asked for its next event, or shown it without giving it up. It starts with the marker
before the document and, once it has reached the marker after it, gives that for ever. Either request
may fail and leaves a state in any case, so a caller may ask again.

A finite source has so many events to give, at most, before the end: its `remaining` goes down with
each, and looking ahead does not raise it. That is what ends every loop over events.
-/

set_option autoImplicit false

namespace DocWalk

/-- What may be wrong with a document. -/
inductive SourceError where
  | json (fault : Json.Fault)
  | xml (fault : Xml.Fault)
  deriving DecidableEq, Repr, Inhabited

/-- The words for an error. -/
def SourceError.message : SourceError → String
  | json fault => "malformed JSON: " ++ fault.message
  | xml fault => "malformed XML: " ++ fault.message

/-- A source of document events. -/
class Source (σ : Type) where
  /-- The next event, which stays. A source may have nothing to show. -/
  peek : EStateM SourceError σ (Option Event)
  /-- The next event, which goes. -/
  next : EStateM SourceError σ Event

/-- A source with a bound on the events before its end. -/
class FiniteSource (σ : Type) extends Source σ where
  /-- A bound on the events left before the end. -/
  remaining : σ → Nat
  /-- Each event before the end takes from the bound. -/
  next_lt {s t : σ} {event : Event} :
    Source.next s = .ok event t → event ≠ .endDocument → remaining t < remaining s
  /-- Looking ahead does not add to the bound. -/
  peek_le {s t : σ} {shown : Option Event} :
    Source.peek s = .ok shown t → remaining t ≤ remaining s
  /-- An event that is shown is the next one given. -/
  next_of_peek {s t : σ} {event : Event} :
    Source.peek s = .ok (some event) t → ∃ u, Source.next t = .ok event u

namespace Source

variable {σ : Type}

/-- Number of events that are not the end of the document. -/
def worth (events : List Event) : Nat :=
  (events.filter (· ≠ .endDocument)).length

theorem worth_append (xs ys : List Event) : worth (xs ++ ys) = worth xs + worth ys := by
  simp [worth]

theorem worth_singleton_le (event : Event) : worth [event] ≤ 1 := by
  unfold worth
  exact List.length_filter_le _ _

theorem worth_cons {event : Event} (h : event ≠ .endDocument) (events : List Event) :
    worth (event :: events) = worth events + 1 := by
  simp [worth, h]

/-- An event with the state of the source behind it. -/
abbrev Given (σ : Type) := Event × σ

/-- Takes events up to the end or an error: the events, each with the state behind it, and how it
ended. -/
def drain [FiniteSource σ] (s : σ) : List (Given σ) × EStateM.Result SourceError σ Unit :=
  match h : (next : EStateM SourceError σ Event) s with
  | .error e t => ([], .error e t)
  | .ok event t =>
    if he : event = .endDocument then ([(event, t)], .ok () t)
    else
      have := FiniteSource.next_lt h he
      let (given, outcome) := drain t
      ((event, t) :: given, outcome)
termination_by FiniteSource.remaining s

end Source

end DocWalk
