import DocWalk.Proofs.Cursor.Foresight
import DocWalk.Proofs.Cursor.Operations
import DocWalk.Proofs.Metadata

/-!
# What metadata holds

A text may come in any number of pieces, one event each, and a place may hold several texts with
other events between them. Of these metadata keeps the last: `LastRun` says what that is, over any
list in which some elements carry a text.

The cursor decides between a first piece and one more by the event before, not by the place. The two
agree because texts that follow one another stand at one position, so the piece before one that is
meant was meant as well.

**The law**: behind a whole document, metadata holds under each key of its own the last run of texts
that the cursor, standing on them, finds at the place watched. Attributes are not among the events
counted: they neither end a run nor are part of one.
-/

set_option autoImplicit false

namespace DocWalk

/-! ## Last runs -/

/-- The texts of the last run of elements that carry one, written together; nothing when no element
does. -/
inductive LastRun {α : Type} (text? : α → Option String) : List α → Option String → Prop where
  | absent {xs : List α} : (∀ x ∈ xs, text? x = none) → LastRun text? xs none
  | present {before run after : List α} {texts : List String} :
      (∀ x ∈ before.getLast?, text? x = none) → run ≠ [] → run.map text? = texts.map some →
      (∀ x ∈ after, text? x = none) →
      LastRun text? (before ++ run ++ after) (some (String.join texts))

namespace LastRun

variable {α : Type} {text? : α → Option String} {seen : List α} {kept : Option String}

/-- An element without a text leaves the last run as it was. -/
theorem skip {x : α} (h : LastRun text? seen kept) (hx : text? x = none) :
    LastRun text? (seen ++ [x]) kept := by
  have hlast : ∀ xs : List α, (∀ y ∈ xs, text? y = none) → ∀ y ∈ xs ++ [x], text? y = none := by
    intro xs hxs y hy
    rcases List.mem_append.mp hy with hy | hy
    · exact hxs y hy
    · rw [List.mem_singleton.mp hy]
      exact hx
  cases h with
  | absent hseen => exact .absent (hlast _ hseen)
  | present hbefore hrun htexts hafter =>
    rw [List.append_assoc]
    exact .present hbefore hrun htexts (hlast _ hafter)

theorem join_concat (texts : List String) (text : String) :
    String.join (texts ++ [text]) = String.join texts ++ text := by
  rw [String.join, List.foldl_append]
  rfl

/-- A text behind an element without one begins a run. -/
theorem begin {x : α} {text : String} (hx : text? x = some text)
    (hlast : ∀ y ∈ seen.getLast?, text? y = none) :
    LastRun text? (seen ++ [x]) (some text) := by
  have hmap : [x].map text? = [text].map some := by
    rw [List.map_singleton, List.map_singleton, hx]
  have hrun := @present α text? seen [x] [] [text] hlast (List.cons_ne_nil x []) hmap nofun
  rw [List.append_nil, ← List.nil_append [text], join_concat] at hrun
  rw [← String.empty_append (s := text)]
  exact hrun

/-- A text behind an element with one is one more piece of the last run. -/
theorem extend {x y : α} {text : String} (h : LastRun text? (seen ++ [y]) kept)
    (hy : text? y ≠ none) (hx : text? x = some text) :
    LastRun text? (seen ++ [y] ++ [x]) (some (kept.getD "" ++ text)) := by
  generalize hxs : seen ++ [y] = xs at h
  cases h with
  | absent hseen =>
    apply absurd _ hy
    apply hseen
    rw [← hxs]
    exact List.mem_concat_self
  | @present before run after texts hbefore hrun htexts hafter =>
    rcases List.eq_nil_or_concat after with rfl | ⟨others, z, rfl⟩
    · have hmap : (run ++ [x]).map text? = (texts ++ [text]).map some := by
        rw [List.map_append, List.map_append, htexts, List.map_singleton, List.map_singleton, hx]
      have hne := List.append_ne_nil_of_right_ne_nil run (List.cons_ne_nil x [])
      have hmore := @present α text? before (run ++ [x]) [] (texts ++ [text]) hbefore hne hmap nofun
      rw [Option.getD_some, ← join_concat]
      rw [List.append_nil, ← List.append_assoc] at hmore
      rw [List.append_nil]
      exact hmore
    · have hlast := congrArg List.getLast? hxs
      rw [List.concat_eq_append, ← List.append_assoc, List.getLast?_concat,
        List.getLast?_concat] at hlast
      cases hlast
      apply absurd _ hy
      apply hafter
      rw [List.concat_eq_append]
      exact List.mem_concat_self

end LastRun

/-- A list that is the image of another has the last runs of that one. -/
theorem LastRun.of_map {α β : Type} {text? : α → Option String} {told? : β → Option String}
    {image : β → α} {xs : List β} {kept : Option String} (h : LastRun text? (xs.map image) kept)
    (htold : ∀ x ∈ xs, told? x = text? (image x)) : LastRun told? xs kept := by
  generalize hys : xs.map image = ys at h
  cases h with
  | absent hys' =>
    subst hys
    refine .absent fun x hx => ?_
    rw [htold x hx]
    exact hys' _ (List.mem_map_of_mem hx)
  | @present before run after texts hbefore hrun htexts hafter =>
    obtain ⟨front, back, rfl, hfront, rfl⟩ := List.map_eq_append_iff.mp hys
    obtain ⟨first, middle, rfl, rfl, rfl⟩ := List.map_eq_append_iff.mp hfront
    simp only [List.mem_append] at htold
    refine .present ?_ (fun hnil => hrun (congrArg (List.map image) hnil)) ?_ ?_
    · intro x hx
      rw [htold x (.inl (.inl (List.mem_of_getLast? hx)))]
      apply hbefore
      rw [List.getLast?_map]
      exact Option.mem_map_of_mem image hx
    · rw [← htexts, List.map_map]
      exact List.map_congr_left fun x hx => htold x (.inl (.inr hx))
    · intro x hx
      rw [htold x (.inr hx)]
      exact hafter _ (List.mem_map_of_mem hx)

/-! ## Texts at their positions -/

/-- The text of an event where it stands, if the expression means the place. -/
def Expression.textAt (e : Expression) (site : Event × Position) : Option String :=
  if e.holds site.2 then site.1.text? else none

theorem Expression.textAt_of_not_isText (e : Expression) {site : Event × Position}
    (h : site.1.isText = false) : e.textAt site = none := by
  obtain ⟨event, here⟩ := site
  cases event with
  | text => cases h
  | startDocument | endDocument | startNode | endNode | attr => exact ite_self _

theorem located_concat (names : List String) (events : List Event) (event : Event) :
    located names (events ++ [event]) = located names events ++
      [(event, .inside (namesAfter (events.foldl namesAfter names) event))] := by
  induction events generalizing names with
  | nil => rfl
  | cons first rest ih =>
    rw [List.cons_append, located, ih]
    rfl

namespace Registry

/-- Catching one event keeps the last run under a key of its own. The element before is a text at
the same place when the event is caught as one more piece, and no text when it is not. -/
theorem lastRun_catchEvent {registry : Registry} {e : Expression}
    (hkeys : (registry.expressions.map (·.key)).Nodup) (he : e ∈ registry.expressions)
    {seen : List (Event × Position)} {names : List String} {continued : Bool} {event : Event}
    (h : LastRun e.textAt seen (registry.captured.get? e.key))
    (hmore : continued = true → ∃ before text, seen = before ++ [(.text text, .inside names)])
    (hfirst : continued = false → ∀ site ∈ seen.getLast?, site.1.isText = false) :
    LastRun e.textAt (seen ++ [(event, .inside (namesAfter names event))])
      ((registry.catchEvent (.inside (namesAfter names event)) continued event).captured.get?
        e.key) := by
  cases event with
  | text text =>
    change LastRun _ (seen ++ [(.text text, .inside names)])
      ((registry.catchEvent (.inside names) continued (.text text)).captured.get? e.key)
    by_cases hholds : e.holds (.inside names) = true
    · have htext : e.textAt (.text text, .inside names) = some text := by
        rw [Expression.textAt, if_pos hholds]
        rfl
      cases continued with
      | true =>
        -- The piece before stands under the same names, so the expression means it as well.
        obtain ⟨before, piece, rfl⟩ := hmore rfl
        have hpiece : e.textAt (.text piece, .inside names) ≠ none := by
          rw [Expression.textAt, if_pos hholds]
          exact nofun
        rw [catchEvent, if_pos rfl, get?_extend hkeys he, if_pos hholds]
        exact h.extend hpiece htext
      | false =>
        rw [catchEvent, if_neg Bool.false_ne_true, get?_capture hkeys he, if_pos hholds]
        apply LastRun.begin htext
        intro site hsite
        exact e.textAt_of_not_isText (hfirst rfl site hsite)
    · have htext : e.textAt (.text text, .inside names) = none := if_neg hholds
      have hkept : (registry.catchEvent (.inside names) continued (.text text)).captured.get?
          e.key = registry.captured.get? e.key := by
        cases continued with
        | true => rw [catchEvent, if_pos rfl, get?_extend hkeys he, if_neg hholds]
        | false => rw [catchEvent, if_neg Bool.false_ne_true, get?_capture hkeys he, if_neg hholds]
      rw [hkept]
      exact h.skip htext
  | startDocument | endDocument | startNode | endNode | attr =>
    exact h.skip (e.textAt_of_not_isText rfl)

theorem expressions_catchEvent (registry : Registry) (here : Position) (continued : Bool)
    (event : Event) : (registry.catchEvent here continued event).expressions =
      registry.expressions := by
  cases event with
  | text => cases continued <;> rfl
  | startDocument | endDocument | startNode | endNode | attr => rfl

/-- Catching every event ahead keeps under each key of its own the last run of texts at its place.
-/
theorem lastRun_catchAll {registry : Registry} {e : Expression}
    (hkeys : (registry.expressions.map (·.key)).Nodup) (he : e ∈ registry.expressions)
    {seen : List (Event × Position)} {names : List String} {continued : Bool}
    (h : LastRun e.textAt seen (registry.captured.get? e.key))
    (hmore : continued = true → ∃ before text, seen = before ++ [(.text text, .inside names)])
    (hfirst : continued = false → ∀ site ∈ seen.getLast?, site.1.isText = false)
    (events : List Event) :
    LastRun e.textAt (seen ++ located names events)
      ((registry.catchAll continued (located names events)).captured.get? e.key) := by
  induction events generalizing registry seen names continued with
  | nil =>
    rw [located, List.append_nil]
    exact h
  | cons event rest ih =>
    have hstep := @lastRun_catchEvent registry e hkeys he seen names continued event h hmore hfirst
    have hexpressions := registry.expressions_catchEvent (.inside (namesAfter names event))
      continued event
    rw [located, catchAll, List.append_cons]
    apply ih
    · rw [hexpressions]
      exact hkeys
    · rw [hexpressions]
      exact he
    · exact hstep
    · intro htext
      cases event with
      | text text => exact ⟨seen, text, rfl⟩
      | startDocument | endDocument | startNode | endNode | attr => cases htext
    · intro htext site hsite
      rw [List.getLast?_concat] at hsite
      cases hsite
      exact htext

/-- Nothing is caught at the end of the document, so the last runs of the events before it are those
of the whole. -/
theorem lastRun_document {expressions : List Expression} {e : Expression}
    (hkeys : (expressions.map (·.key)).Nodup) (he : e ∈ expressions) (body : List Event) :
    LastRun e.textAt (located [] (.startDocument :: body ++ [.endDocument]))
      (((Registry.mk expressions {}).catchAll false (located [] body)).captured.get? e.key) := by
  have hstart : LastRun e.textAt [(.startDocument, .inside [])] none := by
    refine .absent fun site hsite => ?_
    rw [List.mem_singleton.mp hsite]
    exact e.textAt_of_not_isText rfl
  have hbody := @lastRun_catchAll ⟨expressions, {}⟩ e hkeys he _ [] false hstart nofun
    (fun _ site hsite => by cases hsite; rfl) body
  rw [located_concat]
  exact hbody.skip (e.textAt_of_not_isText rfl)

end Registry

/-! ## Standing on events -/

/-- An event and the cursor that stands on it. -/
structure Stop (σ : Type) where
  event : Event
  cursor : Cursor σ

/-- A place to watch and the key for what stands there, as a caller gives them. -/
structure Watch where
  pattern : String
  anchor : Nat
  key : String

/-- The expression that is registered for a place. -/
def Watch.expression (w : Watch) : Expression :=
  .of w.pattern w.anchor w.key

namespace Stop

variable {σ : Type}

/-- What a walk tells of a stop. -/
def visit (stop : Stop σ) : Cursor.Visit :=
  ⟨stop.event, stop.cursor.position⟩

/-- The event with the position that the cursor reports. -/
def site (stop : Stop σ) : Event × Position :=
  (stop.event, stop.cursor.position)

/-- The text at a stop, if the cursor that stands there finds itself at the place watched. -/
def textAt (w : Watch) (stop : Stop σ) : Option String :=
  if (stop.cursor.testAt w.pattern w.anchor).1 then stop.event.text? else none

/-- The stops on events of the source: all but attributes. -/
def ofSource (stops : List (Stop σ)) : List (Stop σ) :=
  stops.filter fun stop => !stop.event.isAttribute

/-- A cursor that remembers no pattern compiles the one it tests. -/
theorem textAt_eq {stop : Stop σ} (h : stop.cursor.patterns.entries = []) (w : Watch) :
    stop.textAt w = w.expression.textAt stop.site := by
  have htest : (stop.cursor.testAt w.pattern w.anchor).1 =
      w.expression.holds stop.cursor.position := by
    unfold Cursor.testAt PatternCache.holds PatternCache.find?
    simp only [h, List.find?_nil, Option.getD_none]
    rfl
  rw [textAt, htest]
  rfl

end Stop

namespace Cursor

variable {σ : Type}

/-- The cursor advances from stop to stop until it stands at the end of the document. -/
inductive Drains [Source σ] : Cursor σ → List (Stop σ) → Cursor σ → Prop where
  | ends {c d : Cursor σ} : advance c = .ok .endDocument d → Drains c [⟨.endDocument, d⟩] d
  | goes {c d last : Cursor σ} {event : Event} {stops : List (Stop σ)} :
      advance c = .ok event d → event ≠ .endDocument → Drains d stops last →
      Drains c (⟨event, d⟩ :: stops) last

/-- Draining tells of just these stops. -/
theorem Drains.drain_eq [FiniteSource σ] {c d : Cursor σ} {stops : List (Stop σ)}
    (h : Drains c stops d) : drain c = (stops.map Stop.visit, .ok () d) := by
  induction h with
  | ends hadvance => exact drain_end hadvance
  | goes hadvance hne _ ih =>
    rw [drain_go hadvance hne, ih]
    rfl

/-- A walk that stands on these events of the source, each where it leads, and ends with this
registry. -/
structure WalksOver [Source σ] (c : Cursor σ) (events : List Event) (final : Registry)
    (stops : List (Stop σ)) (d : Cursor σ) : Prop where
  drains : Drains c stops d
  registry_eq : d.registry = final
  patterns_eq : ∀ stop ∈ stops, stop.cursor.patterns = c.patterns
  sites_eq : (Stop.ofSource stops).map Stop.site = located c.names (events ++ [.endDocument])

/-- The cursor has moved to one more stop in front of a walk. -/
theorem MovedTo.patterns_cons {c d : Cursor σ} {event : Event} {stops : List (Stop σ)}
    (h : MovedTo c d event) (hstops : ∀ stop ∈ stops, stop.cursor.patterns = d.patterns) :
    ∀ stop ∈ (⟨event, d⟩ : Stop σ) :: stops, stop.cursor.patterns = c.patterns := by
  intro stop hstop
  rcases List.mem_cons.mp hstop with rfl | hstop
  · exact h.patterns_eq
  · exact (hstops stop hstop).trans h.patterns_eq

theorem WalksOver.ends [Source σ] {c d : Cursor σ} {final : Registry}
    (hadvance : advance c = .ok .endDocument d) (hmoved : MovedTo c d .endDocument)
    (hfinal : d.registry = final) : WalksOver c [] final [⟨.endDocument, d⟩] d := by
  refine ⟨.ends hadvance, hfinal, hmoved.patterns_cons nofun, ?_⟩
  change [(Event.endDocument, d.position)] = _
  rw [hmoved.position_eq rfl]
  rfl

/-- An attribute in front of a walk adds a stop that is not on an event of the source. -/
theorem WalksOver.attribute [Source σ] {c d last : Cursor σ} {a : Attribute} {events : List Event}
    {final : Registry} {stops : List (Stop σ)} (h : WalksOver d events final stops last)
    (hadvance : advance c = .ok (.attr a) d) (hmoved : MovedTo c d (.attr a)) :
    WalksOver c events final (⟨.attr a, d⟩ :: stops) last := by
  refine ⟨.goes hadvance nofun h.drains, h.registry_eq, hmoved.patterns_cons h.patterns_eq, ?_⟩
  change (Stop.ofSource stops).map Stop.site = _
  rw [h.sites_eq, hmoved.names_eq]
  rfl

/-- An event of the source in front of a walk adds a stop where it leads. -/
theorem WalksOver.event [Source σ] {c d last : Cursor σ} {event : Event} {events : List Event}
    {final : Registry} {stops : List (Stop σ)} (h : WalksOver d events final stops last)
    (hadvance : advance c = .ok event d) (hmoved : MovedTo c d event)
    (hattr : event.isAttribute = false) (hne : event ≠ .endDocument) :
    WalksOver c (event :: events) final (⟨event, d⟩ :: stops) last := by
  refine ⟨.goes hadvance hne h.drains, h.registry_eq, hmoved.patterns_cons h.patterns_eq, ?_⟩
  have hsource : Stop.ofSource (⟨event, d⟩ :: stops) = ⟨event, d⟩ :: Stop.ofSource stops := by
    rw [Stop.ofSource, List.filter_cons, hattr]
    rfl
  have hsite : Stop.site ⟨event, d⟩ = (event, .inside (namesAfter c.names event)) := by
    rw [Stop.site, hmoved.position_eq hattr]
  rw [hsource, List.map_cons, hsite, h.sites_eq, hmoved.names_eq]
  rfl

/-- Among the events a node opens when as many nodes as the limit are open. -/
def OpensTooDeep (limit : Nat) (names : List String) (events : List Event) : Prop :=
  ∃ before node after, events = before ++ .startNode node :: after ∧
    limit ≤ (before.foldl namesAfter names).length

theorem OpensTooDeep.cons {limit : Nat} {names : List String} {event : Event} {rest : List Event}
    (h : OpensTooDeep limit (namesAfter names event) rest) :
    OpensTooDeep limit names (event :: rest) := by
  obtain ⟨before, node, after, rfl, hlimit⟩ := h
  exact ⟨event :: before, node, after, rfl, hlimit⟩

theorem Stopped.opensTooDeep {c : Cursor σ} {events : List Event} {limit : Nat}
    (h : c.Stopped (events.headD .endDocument) limit) : OpensTooDeep limit c.names events := by
  obtain ⟨⟨node, hnode⟩, _, hdeep⟩ := h
  cases events with
  | nil => cases hnode
  | cons event rest =>
    cases hnode
    exact ⟨[], node, rest, rfl, hdeep⟩

/-- What lies ahead is walked over to the end, unless a node opens too deep. -/
theorem Foresees.walksOver [FiniteSource σ] {c : Cursor σ} {events : List Event}
    {final : Registry} (h : Foresees c events final) :
    (∃ stops d, WalksOver c events final stops d) ∨
      ∃ limit path d, c.config.maxDepth = some limit ∧ OpensTooDeep limit c.names events ∧
        (drain c).2 = .error (.tooDeep path limit) d := by
  fun_induction drain c generalizing events with
  | case1 c e d hfail =>
    rcases h.advance with ⟨a, d', hadvance, _⟩ | ⟨d', hadvance, _⟩ | ⟨limit, path, d', hstop, hdeep⟩
    · cases hfail.symm.trans hadvance
    · cases hfail.symm.trans hadvance
    · cases hfail.symm.trans hdeep
      exact .inr ⟨limit, path, d, hstop.maxDepth_eq, hstop.opensTooDeep, rfl⟩
  | case2 c d hend =>
    rcases h.advance with ⟨a, d', hadvance, _⟩ | ⟨d', hadvance, hmoved, hd⟩ | ⟨_, _, d', _, hdeep⟩
    · cases hend.symm.trans hadvance
    · have heq := hend.symm.trans hadvance
      simp only [EStateM.Result.ok.injEq] at heq
      obtain ⟨hhead, rfl⟩ := heq
      cases h.upcoming.eq_nil hhead.symm
      exact .inl ⟨_, d, .ends hend hmoved hd.foreseen_eq⟩
    · cases hend.symm.trans hdeep
  | case3 c event d hgo hne visits outcome hdrain ih =>
    rw [hdrain] at ih
    rcases h.advance with ⟨a, d', hadvance, hmoved, hd⟩ | ⟨d', hadvance, hmoved, hd⟩ |
      ⟨_, _, d', _, hdeep⟩
    · -- An attribute is handed out, and the events ahead are still the same.
      cases hgo.symm.trans hadvance
      rcases ih hd with ⟨stops, last, hwalk⟩ | ⟨limit, path, e, hlimit, hopens, hdeep⟩
      · exact .inl ⟨_, last, hwalk.attribute hgo hmoved⟩
      · rw [hmoved.config_eq] at hlimit
        rw [hmoved.names_eq] at hopens
        exact .inr ⟨limit, path, e, hlimit, hopens, hdeep⟩
    · have heq := hgo.symm.trans hadvance
      simp only [EStateM.Result.ok.injEq] at heq
      obtain ⟨rfl, rfl⟩ := heq
      cases events with
      | nil => exact absurd rfl hne
      | cons event rest =>
        rcases ih hd with ⟨stops, last, hwalk⟩ | ⟨limit, path, e, hlimit, hopens, hdeep⟩
        · exact .inl ⟨_, last, hwalk.event hgo hmoved h.upcoming.next.1 hne⟩
        · rw [hmoved.config_eq] at hlimit
          rw [hmoved.names_eq] at hopens
          exact .inr ⟨limit, path, e, hlimit, hopens.cons, hdeep⟩
    · cases hgo.symm.trans hdeep

theorem fst_located (names : List String) (events : List Event) :
    (located names events).map Prod.fst = events := by
  induction events generalizing names with
  | nil => rfl
  | cons event rest ih => rw [located, List.map_cons, ih]

/-- **Metadata holds the last runs.** Over a balanced document, with places watched under keys of
their own from the start, draining stands on every event of the source, and metadata holds under
each key the last run of texts for which the cursor that stands on them finds itself at the place;
it holds nothing where there is no such text. Only a limit that the document passes ends the walk
before. -/
theorem metadata_of_drain [FiniteSource σ] {source : σ} {body : List Event} (config : Config)
    (headers : Option (List (String × String))) (watches : List Watch)
    (hsource : Source.Emits source (.startDocument :: body)) (hbody : Balanced 0 body)
    (hkeys : (watches.map (·.key)).Nodup) :
    (∃ stops d, Drains (watching source config headers (watches.map (·.expression))) stops d ∧
        drain (watching source config headers (watches.map (·.expression))) =
          (stops.map Stop.visit, .ok () d) ∧
        (Stop.ofSource stops).map Stop.event = .startDocument :: body ++ [.endDocument] ∧
        ∀ w ∈ watches, LastRun (Stop.textAt w) (Stop.ofSource stops) (d.metadata.get? w.key)) ∨
      ∃ limit path d, config.maxDepth = some limit ∧
        OpensTooDeep limit [] (.startDocument :: body) ∧
        (drain (watching source config headers (watches.map (·.expression)))).2 =
          .error (.tooDeep path limit) d := by
  have hforesees := foresees_watching config headers (watches.map (·.expression)) hsource hbody
  have heq := watching_eq source config headers (watches.map (·.expression))
  rcases hforesees.walksOver with ⟨stops, d, hwalk⟩ | ⟨limit, path, d, hlimit, hopens, hdeep⟩
  · left
    have hsites := hwalk.sites_eq
    rw [heq] at hsites
    refine ⟨stops, d, hwalk.drains, hwalk.drains.drain_eq, ?_, ?_⟩
    · have hevents := congrArg (List.map Prod.fst) hsites
      rw [fst_located, List.map_map] at hevents
      exact hevents
    · intro w hw
      have hexpressions : ((watches.map (·.expression)).map (·.key)).Nodup := by
        rw [List.map_map]
        exact hkeys
      have hruns := Registry.lastRun_document hexpressions (List.mem_map_of_mem hw) body
      rw [← hwalk.registry_eq] at hruns
      have hruns' : LastRun w.expression.textAt ((Stop.ofSource stops).map Stop.site)
          (d.metadata.get? w.key) := by
        rw [hsites]
        exact hruns
      refine hruns'.of_map fun stop hstop => Stop.textAt_eq ?_ w
      rw [hwalk.patterns_eq stop (List.mem_filter.mp hstop).1, heq]
      rfl
  · right
    rw [heq] at hlimit hopens
    exact ⟨limit, path, d, hlimit, hopens, hdeep⟩

/-- A node watched with its attribute handed out before its text, and a child between its texts. -/
theorem metadata_of_drain_mixed :
    ∃ stops d,
      Drains (watching mixedScript {} none ([⟨"a", 0, "k"⟩, ⟨"a/b", 0, "m"⟩].map Watch.expression))
        stops d ∧
      ∀ w ∈ [⟨"a", 0, "k"⟩, ⟨"a/b", 0, "m"⟩],
        LastRun (Stop.textAt w) (Stop.ofSource stops) (d.metadata.get? w.key) := by
  rcases metadata_of_drain {} none [⟨"a", 0, "k"⟩, ⟨"a/b", 0, "m"⟩] emits_mixedScript
    balanced_mixedBody (by decide) with ⟨stops, d, hdrains, _, _, hruns⟩ | ⟨_, _, _, hlimit, _⟩
  · exact ⟨stops, d, hdrains, hruns⟩
  · cases hlimit

end Cursor

end DocWalk
