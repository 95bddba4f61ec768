import DocWalk.Proofs.Json.Turns
import DocWalk.Proofs.Source.Emission

/-!
# Runs of the tokenizer

A tokenizer asked for events does two things: it gives an event that is pending, and when none is it
takes a turn. `Runs t events u` is a sequence of the two from `t` to `u`, with the events given on
the way. How a caller's requests cut a run into pieces does not show in it.

**The laws**: what a source emits and how draining ends are both read off a run. A run to a
tokenizer that has read the whole text makes the source emit the run's events (`Runs.emits`), and a
drain that does not fail is a run (`runs_of_drain`).
-/

set_option autoImplicit false

namespace DocWalk.Json.Tokenizer

/-- A tokenizer gives its pending events, and takes a turn when there are none. -/
inductive Runs : Tokenizer → List Event → Tokenizer → Prop where
  | rest (t : Tokenizer) : Runs t [] t
  | give {t u : Tokenizer} {event : Event} {more events : List Event} :
      t.pending = event :: more → Runs { t with pending := more } events u →
      Runs t (event :: events) u
  | turn {t u w : Tokenizer} {events : List Event} : t.pending = [] → step t = .ok () u →
      Runs u events w → Runs t events w

/-- The whole text is read, and no event but the end is pending. -/
structure Ended (t : Tokenizer) : Prop where
  expect_eq : t.expect = .finished
  pending_eq : ∀ event ∈ t.pending, event = .endDocument

theorem Runs.trans {t u w : Tokenizer} {events more : List Event} (h : Runs t events u)
    (k : Runs u more w) : Runs t (events ++ more) w := by
  induction h with
  | rest => exact k
  | give hp _ ih => exact .give hp (ih k)
  | turn hp hs _ ih => exact .turn hp hs (ih k)

/-- Pending events are given in order. -/
theorem runs_flush (s : Scanner) (frames : List Frame) (events : List Event) (expect : Expect) :
    Runs ⟨s, frames, events, expect⟩ events ⟨s, frames, [], expect⟩ := by
  induction events with
  | nil => exact .rest _
  | cons event rest ih => exact .give rfl ih

/-- A turn with nothing pending, and then the events that it has read. -/
theorem runs_turned {s s' : Scanner} {frames frames' : List Frame} {expect expect' : Expect}
    {events : List Event}
    (h : step ⟨s, frames, [], expect⟩ =
      .ok () (turned ⟨s, frames, [], expect⟩ s' events expect' frames')) :
    Runs ⟨s, frames, [], expect⟩ events ⟨s', frames', [], expect'⟩ :=
  .turn rfl h (runs_flush s' frames' events expect')

/-! ## From runs to requests -/

theorem fill_turn {t u : Tokenizer} (hp : t.pending = []) (hs : step t = .ok () u) :
    fill t = fill u := by
  rw [fill, dif_pos hp]
  split
  next v hv =>
    cases hs.symm.trans hv
    rfl
  next hv => cases hs.symm.trans hv

theorem fill_of_step_error {t u : Tokenizer} {fault : Fault} (hp : t.pending = [])
    (hs : step t = .error fault u) : fill t = .error fault u := by
  rw [fill, dif_pos hp]
  split
  next hv => cases hs.symm.trans hv
  next hv =>
    cases hs.symm.trans hv
    rfl

/-- A run that gives an event first shows it, once the tokenizer has taken its turns. -/
theorem Runs.fill_cons {t u : Tokenizer} {event : Event} {events : List Event}
    (h : Runs t (event :: events) u) :
    ∃ v more, fill t = .ok () v ∧ v.pending = event :: more ∧
      Runs { v with pending := more } events u := by
  generalize hgiven : event :: events = given at h
  induction h with
  | rest => cases hgiven
  | @give t _ _ more _ hp hrest =>
    cases hgiven
    refine ⟨t, more, fill_of_pending ?_, hp, hrest⟩
    rw [hp]
    exact List.cons_ne_nil _ _
  | turn hp hs _ ih =>
    obtain ⟨v, more, hfill, hv, hrest⟩ := ih hgiven
    exact ⟨v, more, (fill_turn hp hs).trans hfill, hv, hrest⟩

/-- At the end of the text there is always the end of the document to show. -/
theorem Ended.fill {t : Tokenizer} (h : t.Ended) :
    ∃ v more, fill t = .ok () v ∧ v.pending = .endDocument :: more ∧ v.Ended := by
  obtain ⟨s, frames, pending, expect⟩ := t
  obtain ⟨rfl, hpending⟩ := h
  cases pending with
  | nil =>
    refine ⟨⟨s, frames, [.endDocument], .finished⟩, [], ?_, rfl, rfl, ?_⟩
    · rw [fill_turn (u := ⟨s, frames, [.endDocument], .finished⟩) rfl rfl]
      exact fill_of_pending (List.cons_ne_nil _ _)
    · intro event hmem
      exact List.mem_singleton.mp hmem
  | cons event more =>
    cases hpending event List.mem_cons_self
    exact ⟨_, more, fill_of_pending (List.cons_ne_nil _ _), rfl, rfl, hpending⟩

theorem Runs.fill_nil {t u : Tokenizer} (h : Runs t [] u) (hu : u.Ended) :
    ∃ v more, fill t = .ok () v ∧ v.pending = .endDocument :: more ∧ v.Ended := by
  generalize hgiven : [] = given at h
  induction h with
  | rest => exact hu.fill
  | give => cases hgiven
  | turn hp hs _ ih =>
    obtain ⟨v, more, hfill, hv, hended⟩ := ih hu hgiven
    exact ⟨v, more, (fill_turn hp hs).trans hfill, hv, hended⟩

/-- What filling a tokenizer on a run leaves: the next event of the run, or the end, in front. -/
theorem Runs.fill {t u : Tokenizer} {events : List Event} (h : Runs t events u) (hu : u.Ended) :
    ∃ v more, Tokenizer.fill t = .ok () v ∧ v.pending = events.headD .endDocument :: more ∧
      (∃ w, Runs v events w ∧ w.Ended) ∧
      ∃ w, Runs { v with pending := more } events.tail w ∧ w.Ended := by
  cases events with
  | nil =>
    obtain ⟨v, more, hfill, hv, hended⟩ := h.fill_nil hu
    refine ⟨v, more, hfill, hv, ⟨v, .rest v, hended⟩, _, .rest _, hended.expect_eq, ?_⟩
    intro event hmem
    apply hended.pending_eq
    rw [hv]
    exact List.mem_cons_of_mem _ hmem
  | cons event rest =>
    obtain ⟨v, more, hfill, hv, hrest⟩ := h.fill_cons
    exact ⟨v, more, hfill, hv, ⟨u, .give hv hrest, hu⟩, u, hrest, hu⟩

/-- A tokenizer that runs to the end of its text emits the events of the run. -/
theorem Runs.emits {t u : Tokenizer} {events : List Event} (h : Runs t events u) (hu : u.Ended) :
    Source.Emits t events := by
  refine ⟨fun t events => ∃ u, Runs t events u ∧ u.Ended, ⟨?_, ?_⟩, u, h, hu⟩
  · rintro s events ⟨u, h, hu⟩
    obtain ⟨v, more, hfill, hv, hstays, _⟩ := h.fill hu
    have hpeek : peek s = .ok (some (events.headD .endDocument)) v := by
      rw [peek, hfill]
      simp only [hv, List.head?_cons]
    cases events with
    | nil => exact ⟨_, v, hpeek, .ended, hstays⟩
    | cons => exact ⟨_, v, hpeek, .first, hstays⟩
  · rintro s events ⟨u, h, hu⟩
    obtain ⟨v, more, hfill, hv, _, hgoes⟩ := h.fill hu
    refine ⟨{ v with pending := more }, ?_, hgoes⟩
    change next s = _
    rw [next, hfill]
    simp only [hv, List.head?_cons, Option.getD_some, List.tail_cons]

/-! ## From requests to runs -/

theorem runs_of_fill {t u : Tokenizer} (h : fill t = .ok () u) : Runs t [] u := by
  fun_induction fill t with
  | case1 t hp v hs ih => exact .turn hp hs (ih h)
  | case2 => cases h
  | case3 =>
    cases h
    exact .rest u

theorem runs_of_next {t u : Tokenizer} {event : Event} (h : next t = .ok event u) :
    Runs t [event] u := by
  unfold next at h
  split at h
  next v hfill =>
    cases hp : v.pending with
    | nil => exact absurd hp (fill_ok hfill).2
    | cons first more =>
      rw [hp] at h
      cases h
      exact (runs_of_fill hfill).trans (.give hp (.rest _))
  next => cases h

/-- A drain that does not fail is a run, and it has given the end of the document. -/
theorem runs_of_drain {t u : Tokenizer} {given : List (Source.Given Tokenizer)}
    (h : Source.drain t = (given, .ok () u)) :
    Runs t (given.map Prod.fst) u ∧ .endDocument ∈ given.map Prod.fst := by
  fun_induction Source.drain t generalizing given with
  | case1 => cases h
  | case2 t v hnext =>
    cases h
    exact ⟨runs_of_next hnext, List.mem_singleton.mpr rfl⟩
  | case3 t event v hnext hne _ more outcome hdrain ih =>
    cases h
    obtain ⟨hruns, hend⟩ := ih hdrain
    exact ⟨(runs_of_next hnext).trans hruns, List.mem_cons_of_mem _ hend⟩

end DocWalk.Json.Tokenizer
