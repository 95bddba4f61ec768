import DocWalk.Source

/-!
# What a caller may ask of a source

A caller looks at the next event or takes it, in any order. `serve` answers a list of requests up to
the first that fails, and keeps what was taken; `after` is the state behind requests that may fail on
the way.

To look is to take no more than the next event, and to leave it. A source with that law
(`LawfulPeek`) is **transparent**: what a caller takes, and the error that stops it, do not depend on
where it looked (`LawfulPeek.transparent`). The two runs are in different states between requests, for
the one that looks has read ahead; the induction rests on this, that both come to the same state with
the next request (`serve_of_peek`).
-/

set_option autoImplicit false

namespace DocWalk

/-- What a caller asks of a source. -/
inductive Request where
  /-- To look at the next event. -/
  | peek
  /-- To take the next event. -/
  | next
  deriving DecidableEq, Repr

namespace Source

variable {σ : Type}

/-- Serves requests one by one, up to the first that fails: the events taken, and how it ended. -/
def serve [Source σ] : List Request → σ → List Event × EStateM.Result SourceError σ Unit
  | [], s => ([], .ok () s)
  | .peek :: rest, s =>
    match (Source.peek : EStateM SourceError σ (Option Event)) s with
    | .ok _ t => serve rest t
    | .error e t => ([], .error e t)
  | .next :: rest, s =>
    match (Source.next : EStateM SourceError σ Event) s with
    | .ok event t => (event :: (serve rest t).1, (serve rest t).2)
    | .error e t => ([], .error e t)

/-- Serves one request: what is shown or given. -/
def ask [Source σ] : Request → EStateM SourceError σ (Option Event)
  | .peek => Source.peek
  | .next => some <$> Source.next

/-- The state that requests leave, one after the other, whether they fail or not. -/
def after [Source σ] (requests : List Request) (s : σ) : σ :=
  requests.foldl (fun s request => (ask request s).left) s

/-- Whatever is asked of the source fails. -/
def Fatal [Source σ] (s : σ) : Prop :=
  ∀ more request, ∃ e, (ask request (after more s)).answer = .error e

/-- What each of some requests is answered, the failures among them. -/
def answers [Source σ] : List Request → σ → List (Request × Except SourceError (Option Event))
  | [], _ => []
  | request :: rest, s => (request, (ask request s).answer) :: answers rest (ask request s).left

/-- The event that an answer gives. -/
def given? : Request × Except SourceError (Option Event) → Option Event
  | (.next, .ok event) => event
  | (.next, .error _) | (.peek, _) => none

/-- The events that answers give. -/
def given (answers : List (Request × Except SourceError (Option Event))) : List Event :=
  answers.filterMap given?

/-- The requests that take an event. -/
def takes (requests : List Request) : List Request :=
  requests.filter (· = .next)

@[simp] theorem takes_peek (rest : List Request) : takes (.peek :: rest) = takes rest := rfl

@[simp] theorem takes_next (rest : List Request) : takes (.next :: rest) = .next :: takes rest := rfl

theorem takes_cases (requests : List Request) :
    takes requests = [] ∨ ∃ more, takes requests = .next :: more := by
  induction requests with
  | nil => exact .inl rfl
  | cons request rest ih =>
    cases request with
    | peek => exact ih
    | next => exact .inr ⟨takes rest, rfl⟩

section

variable [Source σ] {s t : σ} {event : Event} {shown : Option Event} {e : SourceError}

theorem serve_peek_ok (h : (Source.peek : EStateM SourceError σ _) s = .ok shown t)
    (rest : List Request) : serve (.peek :: rest) s = serve rest t := by
  rw [serve, h]

theorem serve_peek_error (h : (Source.peek : EStateM SourceError σ (Option Event)) s = .error e t)
    (rest : List Request) : serve (.peek :: rest) s = ([], .error e t) := by
  rw [serve, h]

theorem serve_next_ok (h : (Source.next : EStateM SourceError σ _) s = .ok event t)
    (rest : List Request) :
    serve (.next :: rest) s = (event :: (serve rest t).1, (serve rest t).2) := by
  rw [serve, h]

theorem serve_next_error (h : (Source.next : EStateM SourceError σ Event) s = .error e t)
    (rest : List Request) : serve (.next :: rest) s = ([], .error e t) := by
  rw [serve, h]

theorem ask_next_ok (h : (Source.next : EStateM SourceError σ _) s = .ok event t) :
    ask .next s = .ok (some event) t := by
  show EStateM.map some Source.next s = _
  rw [EStateM.map, h]

theorem ask_next_error (h : (Source.next : EStateM SourceError σ Event) s = .error e t) :
    ask .next s = .error e t := by
  show EStateM.map some Source.next s = _
  rw [EStateM.map, h]

end

/-! ## What requests keep -/

/-- What both requests keep of the events taken so far and the state is so behind any requests, as far
as they are served. -/
theorem serve_keeps [Source σ] {P : List Event → σ → Prop}
    (hpeek : ∀ {taken s shown t}, P taken s →
      (Source.peek : EStateM SourceError σ _) s = .ok shown t → P taken t)
    (hnext : ∀ {taken s event t}, P taken s →
      (Source.next : EStateM SourceError σ _) s = .ok event t → P (taken ++ [event]) t)
    (requests : List Request) {taken : List Event} {s : σ} (h : P taken s) :
    ∃ t, P (taken ++ (serve requests s).1) t ∧
      ∀ u, (serve requests s).2 = .ok () u → u = t := by
  induction requests generalizing taken s with
  | nil =>
    refine ⟨s, by rwa [serve, List.append_nil], ?_⟩
    intro u hu
    cases hu
    rfl
  | cons request rest ih =>
    cases request with
    | peek =>
      cases hs : (Source.peek : EStateM SourceError σ (Option Event)) s with
      | ok shown t =>
        rw [serve_peek_ok hs]
        exact ih (hpeek h hs)
      | error e t =>
        rw [serve_peek_error hs, List.append_nil]
        exact ⟨s, h, nofun⟩
    | next =>
      cases hs : (Source.next : EStateM SourceError σ Event) s with
      | ok event t =>
        rw [serve_next_ok hs, List.append_cons]
        exact ih (hnext h hs)
      | error e t =>
        rw [serve_next_error hs, List.append_nil]
        exact ⟨s, h, nofun⟩

/-- What each request keeps, failing or not, is so behind any requests. -/
theorem after_keeps [Source σ] {P : σ → Prop}
    (h : ∀ {s} request, P s → P (ask request s).left) (requests : List Request) {s : σ} (hs : P s) :
    P (after requests s) := by
  induction requests generalizing s with
  | nil => exact hs
  | cons request rest ih => exact ih (h request hs)

/-- What each request keeps of the answers so far and the state, failing or not, is so behind any
requests. -/
theorem answers_keep [Source σ]
    {P : List (Request × Except SourceError (Option Event)) → σ → Prop}
    (h : ∀ {before s} request, P before s →
      P (before ++ [(request, (ask request s).answer)]) (ask request s).left)
    (requests : List Request) {s : σ} (hs : P [] s) : P (answers requests s) (after requests s) := by
  suffices hbefore : ∀ before, P before s → P (before ++ answers requests s) (after requests s) from
    hbefore [] hs
  clear hs
  intro before hs
  induction requests generalizing before s with
  | nil => rwa [answers, List.append_nil]
  | cons request rest ih =>
    rw [answers, List.append_cons]
    exact ih _ (h request hs)

/-! ## Looking ahead -/

/-- To look reads what taking the next event reads, and leaves that event. -/
class LawfulPeek (σ : Type) [Source σ] : Prop where
  /-- What is shown is the next event; to look again, or to take it, does the same as before. -/
  peek_ok {s t : σ} {shown : Option Event} :
    (Source.peek : EStateM SourceError σ _) s = .ok shown t →
      (∃ event u, shown = some event ∧ (Source.next : EStateM SourceError σ _) s = .ok event u) ∧
        (Source.peek : EStateM SourceError σ _) t = .ok shown t ∧
        (Source.next : EStateM SourceError σ Event) t = Source.next s
  /-- To look fails as taking the next event does. -/
  peek_error {s t : σ} {e : SourceError} :
    (Source.peek : EStateM SourceError σ (Option Event)) s = .error e t →
      (Source.next : EStateM SourceError σ Event) s = .error e t

/-- Where a caller looks does not show in what it takes. -/
structure Transparent [Source σ] (s : σ) : Prop where
  /-- Requests that take as many events are given the same ones. -/
  same_events : ∀ requests others, takes requests = takes others →
    (serve requests s).1 = (serve others s).1
  /-- What a look shows is the event taken next, however often it is looked at before. -/
  shown_next : ∀ requests taken t shown u, serve requests s = (taken, .ok () t) →
    (Source.peek : EStateM SourceError σ _) t = .ok shown u →
      ∃ event v, shown = some event ∧ ∀ n,
        serve (List.replicate n .peek ++ [.next]) u = ([event], .ok () v) ∧
          (Source.peek : EStateM SourceError σ _) (after (List.replicate n .peek) u) = .ok shown u
  /-- An error that stops the one stops the other behind as many events, at the latest when it goes
  on to take the next. -/
  same_error : ∀ requests others, takes requests = takes others →
    ∀ taken e t, serve requests s = (taken, .error e t) →
      serve (others ++ [.next]) s = (taken, .error e t)

section

variable [Source σ] [LawfulPeek σ] {s t : σ} {shown : Option Event}

/-- From the first request on it does not show that a source was looked at. -/
theorem serve_of_peek (h : (Source.peek : EStateM SourceError σ _) s = .ok shown t)
    {requests : List Request} (hne : requests ≠ []) : serve requests t = serve requests s := by
  obtain ⟨_, hpeek, hnext⟩ := LawfulPeek.peek_ok h
  cases requests with
  | nil => exact absurd rfl hne
  | cons request rest =>
    cases request with
    | peek => rw [serve_peek_ok h, serve_peek_ok hpeek]
    | next => rw [serve, serve, hnext]

/-- The events taken are those that the requests to take give without a look. -/
theorem fst_serve (requests : List Request) (s : σ) :
    (serve requests s).1 = (serve (takes requests) s).1 := by
  induction requests generalizing s with
  | nil => rfl
  | cons request rest ih =>
    cases request with
    | peek =>
      rw [takes_peek]
      cases hs : (Source.peek : EStateM SourceError σ (Option Event)) s with
      | ok shown t =>
        rw [serve_peek_ok hs, ih]
        by_cases hnil : takes rest = []
        · rw [hnil]
          rfl
        · rw [serve_of_peek hs hnil]
      | error e t =>
        rw [serve_peek_error hs]
        rcases takes_cases rest with hnil | ⟨more, hmore⟩
        · rw [hnil]
          rfl
        · rw [hmore, serve_next_error (LawfulPeek.peek_error hs)]
    | next =>
      rw [takes_next]
      cases hs : (Source.next : EStateM SourceError σ Event) s with
      | ok event t => rw [serve_next_ok hs, serve_next_ok hs, ih]
      | error e t => rw [serve_next_error hs, serve_next_error hs]

/-- An error met on the way is met without a look, when the next event is asked for in the end. -/
theorem serve_takes_of_error {requests : List Request} {taken : List Event} {e : SourceError}
    (h : serve requests s = (taken, .error e t)) :
    serve (takes requests ++ [.next]) s = (taken, .error e t) := by
  induction requests generalizing s taken with
  | nil => cases h
  | cons request rest ih =>
    cases request with
    | peek =>
      rw [takes_peek]
      cases hs : (Source.peek : EStateM SourceError σ (Option Event)) s with
      | ok shown u =>
        rw [serve_peek_ok hs] at h
        rw [← serve_of_peek hs (List.append_ne_nil_of_right_ne_nil _ (List.cons_ne_nil _ _))]
        exact ih h
      | error e' u =>
        rw [serve_peek_error hs] at h
        have hnext := serve_next_error (LawfulPeek.peek_error hs)
        rw [← h]
        rcases takes_cases rest with hnil | ⟨more, hmore⟩
        · rw [hnil]
          exact hnext []
        · rw [hmore]
          exact hnext _
    | next =>
      rw [takes_next, List.cons_append]
      cases hs : (Source.next : EStateM SourceError σ Event) s with
      | ok event u =>
        rw [serve_next_ok hs, Prod.mk.injEq] at h
        obtain ⟨rfl, herror⟩ := h
        rw [serve_next_ok hs, ih (Prod.ext rfl herror)]
      | error e' u =>
        rw [serve_next_error hs] at h ⊢
        exact h

/-- An error met without a look is met with looks on the way. -/
theorem serve_of_takes_error {requests : List Request} {taken : List Event} {e : SourceError}
    (h : serve (takes requests) s = (taken, .error e t)) :
    serve requests s = (taken, .error e t) := by
  induction requests generalizing s taken with
  | nil => cases h
  | cons request rest ih =>
    cases request with
    | peek =>
      rw [takes_peek] at h
      have hne : takes rest ≠ [] := by
        intro hnil
        rw [hnil] at h
        cases h
      cases hs : (Source.peek : EStateM SourceError σ (Option Event)) s with
      | ok shown u =>
        rw [← serve_of_peek hs hne] at h
        rw [serve_peek_ok hs]
        exact ih h
      | error e' u =>
        obtain ⟨more, hmore⟩ := (takes_cases rest).resolve_left hne
        rw [serve_peek_error hs, ← h, hmore]
        exact (serve_next_error (LawfulPeek.peek_error hs) _).symm
    | next =>
      rw [takes_next] at h
      cases hs : (Source.next : EStateM SourceError σ Event) s with
      | ok event u =>
        rw [serve_next_ok hs, Prod.mk.injEq] at h
        obtain ⟨rfl, herror⟩ := h
        rw [serve_next_ok hs, ih (Prod.ext rfl herror)]
      | error e' u =>
        rw [serve_next_error hs] at h ⊢
        exact h

theorem LawfulPeek.transparent (s : σ) : Transparent s := by
  constructor
  · intro requests others htakes
    rw [fst_serve requests, fst_serve others, htakes]
  · intro requests taken t shown u _ hpeek
    obtain ⟨⟨event, v, rfl, hnext⟩, hagain, hsame⟩ := LawfulPeek.peek_ok hpeek
    rw [← hsame] at hnext
    have hstays : ∀ n, after (List.replicate n .peek) u = u := by
      intro n
      induction n with
      | zero => rfl
      | succ n ih =>
        have hleft : (ask .peek u).left = u := by
          show EStateM.Result.left (Source.peek u) = u
          rw [hagain]
          rfl
        rw [List.replicate_succ, after, List.foldl_cons, hleft]
        exact ih
    refine ⟨event, v, rfl, fun n => ⟨?_, by rw [hstays, hagain]⟩⟩
    induction n with
    | zero => exact serve_next_ok hnext []
    | succ n ih =>
      rw [List.replicate_succ, List.cons_append, serve_peek_ok hagain]
      exact ih
  · intro requests others htakes taken e t herror
    apply serve_of_takes_error
    have htaken := serve_takes_of_error herror
    rw [htakes] at htaken
    rw [takes, List.filter_append]
    exact htaken

end

/-! ## Sources with a queue -/

/-- A source that reads until events wait, and gives the first of them. -/
class Queued (σ : Type) [Source σ] where
  /-- Reads until an event waits. -/
  fill : EStateM SourceError σ Unit
  pending : σ → List Event
  /-- The source without its first waiting event. -/
  dropFirst : σ → σ
  pending_dropFirst (s : σ) : pending (dropFirst s) = (pending s).tail
  fill_ok {s t : σ} : fill s = .ok () t → pending t ≠ []
  fill_of_pending {s : σ} : pending s ≠ [] → fill s = .ok () s
  peek_eq (s : σ) : (Source.peek : EStateM SourceError σ _) s =
    match fill s with
    | .ok () t => .ok (pending t).head? t
    | .error e t => .error e t
  next_eq (s : σ) : (Source.next : EStateM SourceError σ _) s =
    match fill s with
    | .ok () t => .ok ((pending t).head?.getD .endDocument) (dropFirst t)
    | .error e t => .error e t

namespace Queued

variable [Source σ] [Queued σ] {s t u : σ}

theorem peek_ok_iff {shown : Option Event} :
    (Source.peek : EStateM SourceError σ _) s = .ok shown t ↔
      ∃ event rest, fill s = .ok () t ∧ pending t = event :: rest ∧ shown = some event := by
  rw [peek_eq]
  cases hfill : fill s with
  | error e v => exact ⟨nofun, nofun⟩
  | ok _ v =>
    obtain ⟨first, rest, hfirst⟩ := List.exists_cons_of_ne_nil (fill_ok hfill)
    constructor
    · intro h
      cases h
      exact ⟨first, rest, rfl, hfirst, by rw [hfirst]; rfl⟩
    · rintro ⟨event, more, hv, hpending, rfl⟩
      cases hv
      simp only [hpending, List.head?_cons]

theorem next_ok_iff {event : Event} :
    (Source.next : EStateM SourceError σ _) s = .ok event u ↔
      ∃ t rest, fill s = .ok () t ∧ pending t = event :: rest ∧ u = dropFirst t := by
  rw [next_eq]
  cases hfill : fill s with
  | error e v => exact ⟨nofun, nofun⟩
  | ok _ v =>
    obtain ⟨first, rest, hfirst⟩ := List.exists_cons_of_ne_nil (fill_ok hfill)
    constructor
    · intro h
      simp only [hfirst, List.head?_cons, Option.getD_some] at h
      cases h
      exact ⟨v, rest, rfl, hfirst, rfl⟩
    · rintro ⟨v, more, hv, hpending, rfl⟩
      cases hv
      simp only [hpending, List.head?_cons, Option.getD_some]

/-- The state behind a request that is answered from a queue. -/
def leave : Request → σ → σ
  | .peek, t => t
  | .next, t => dropFirst t

/-- A request shows or gives the first waiting event, once one waits. -/
theorem ask_of_fill (request : Request) {event : Event} {rest : List Event}
    (h : fill s = .ok () t) (hpending : pending t = event :: rest) :
    ask request s = .ok (some event) (leave request t) := by
  cases request with
  | peek => exact peek_ok_iff.mpr ⟨event, rest, h, hpending, rfl⟩
  | next => exact ask_next_ok (next_ok_iff.mpr ⟨t, rest, h, hpending, rfl⟩)

/-- A request fails just when reading does. -/
theorem ask_error_iff (request : Request) {e : SourceError} :
    ask request s = .error e t ↔ fill s = .error e t := by
  cases request with
  | peek =>
    show (Source.peek : EStateM SourceError σ _) s = _ ↔ _
    rw [peek_eq]
    cases fill s <;> simp
  | next =>
    show EStateM.map some Source.next s = _ ↔ _
    rw [EStateM.map, next_eq]
    cases fill s <;> simp

theorem ask_cases (request : Request) (s : σ) :
    (∃ t event rest, fill s = .ok () t ∧ pending t = event :: rest ∧
        ask request s = .ok (some event) (leave request t)) ∨
      ∃ e t, fill s = .error e t ∧ ask request s = .error e t := by
  cases hfill : fill s with
  | ok _ t =>
    obtain ⟨event, rest, hpending⟩ := List.exists_cons_of_ne_nil (fill_ok hfill)
    exact .inl ⟨t, event, rest, rfl, hpending, ask_of_fill request hfill hpending⟩
  | error e t => exact .inr ⟨e, t, rfl, (ask_error_iff request).mpr hfill⟩

instance : LawfulPeek σ where
  peek_ok := by
    intro s t shown h
    obtain ⟨event, rest, hfill, hpending, rfl⟩ := peek_ok_iff.mp h
    have hagain : fill t = .ok () t := fill_of_pending (fill_ok hfill)
    refine ⟨⟨event, _, rfl, next_ok_iff.mpr ⟨t, rest, hfill, hpending, rfl⟩⟩, ?_, ?_⟩
    · exact peek_ok_iff.mpr ⟨event, rest, hagain, hpending, rfl⟩
    · rw [next_eq, next_eq, hagain, hfill]
  peek_error := by
    intro s t e h
    have hfill : fill s = .error e t := (ask_error_iff .peek).mp h
    rw [next_eq, hfill]

end Queued

end Source

end DocWalk
