import DocWalk.Proofs.Cursor.Skipping

/-!
# Reading the text of a node

A text may come in pieces. Reading it at the start of a node takes all of the pieces, one after the
other, and looks at what stands behind them without taking it. Where a place is watched the cursor
also looks behind each piece that it takes; that look sees the next piece, or what stands behind the
last one, so it takes nothing more and fails only where reading on would have failed.

What stands behind the texts decides how reading ends (`haltAt`). **The law** (`readText_contract`):
over any script, from the start of a node, reading takes the longest run of texts that comes first and
nothing else, leaves the place as it is, and the next advance takes what stands behind the run.
-/

set_option autoImplicit false

namespace DocWalk

/-- The entry of a text. -/
def ScriptEntry.ofText (text : String) : ScriptEntry :=
  .event (.text text)

/-- A look at a script leaves it as it is, whatever it shows. -/
theorem Script.left_peek (script : Script) :
    ((Source.peek : EStateM SourceError Script (Option Event)) script).left = script := by
  show (Script.peek script).left = script
  unfold Script.peek
  split <;> rfl

/-- A request takes the first entry, whatever it is. -/
theorem Script.left_next (script : Script) :
    ((Source.next : EStateM SourceError Script Event) script).left.entries =
      script.entries.tail := by
  show (Script.next script).left.entries = _
  obtain ⟨entries⟩ := script
  rcases entries with _ | ⟨_ | _ | _, _⟩ <;> rfl

namespace Cursor

variable {c : Cursor Script} {texts : List String} {rest : List ScriptEntry}

/-- The cursor in front of the rest of a script, when texts that it has passed were caught as more
pieces of the text at its place. -/
def passing (caught : List String) (rest : List ScriptEntry) (c : Cursor Script) : Cursor Script :=
  { c with
    source := ⟨rest⟩
    registry := caught.foldl (fun registry text => registry.extend c.position text) c.registry }

/-- How reading ends in front of the rest of a script, with the texts in front of it read. -/
def haltAt (out : String) (c : Cursor Script) : Outcome Script String :=
  match c.source.entries with
  | .nothing :: _ | .event .endNode :: _ => .ok out c
  | .error e :: _ => .error (.source e) c
  | .event found :: _ => failInText found c
  | [] => failInText .endDocument c

/-! ## The pieces of a text -/

theorem passing_nil (h : c.source.entries = rest) : c.passing [] rest = c := by
  obtain ⟨⟨_⟩, _, _, _, _, _, _, _, _, _⟩ := c
  subst h
  rfl

/-- A look at a script shows its first entry. -/
theorem ask_peek_eq (c : Cursor Script) :
    (ask Source.peek c : Outcome Script (Option Event)) =
      match c.source.entries with
      | [] => .ok (some .endDocument) c
      | .event event :: _ => .ok (some event) c
      | .error e :: _ => .error (.source e) c
      | .nothing :: _ => .ok none c := by
  obtain ⟨⟨entries⟩, _, _, _, _, _, _, _, _, _⟩ := c
  rcases entries with _ | ⟨_ | _ | _, _⟩ <;> rfl

/-- Where nothing but another entry than text comes, reading ends. -/
theorem collectText_halts (h : ∀ text, c.source.entries.head? ≠ some (.ofText text))
    (out : String) : collectText out c = haltAt out c := by
  rw [collectText_eq, ask_peek_eq, haltAt]
  cases hentries : c.source.entries with
  | nil => rfl
  | cons entry more =>
    rw [hentries] at h
    cases entry with
    | error | nothing => rfl
    | event event =>
      cases event with
      | text text => exact absurd rfl (h text)
      | startDocument | endDocument | startNode | endNode | attr => rfl

theorem ask_peek_text {text : String} (h : c.source.entries = .ofText text :: rest) :
    ask Source.peek c = .ok (some (.text text)) c := by
  rw [ask_peek_eq, h]
  rfl

theorem ask_next_text {text : String} (h : c.source.entries = .ofText text :: rest) :
    ask Source.next c = .ok (.text text) (c.passing [] rest) := by
  refine ask_eq_ok.mpr ⟨⟨rest⟩, ?_, rfl⟩
  show Script.next c.source = _
  rw [Script.next, h]
  rfl

/-- A further text is caught as one more piece. -/
theorem lookAhead_text {text : String} (h : c.source.entries = .ofText text :: rest) :
    lookAhead true c = .ok () (c.passing [text] c.source.entries) := by
  unfold lookAhead
  split
  next hempty =>
    have hcaught := Registry.catchEvent_of_isEmpty hempty c.position true (.text text)
    show _ = EStateM.Result.ok ()
      { c with registry := c.registry.catchEvent c.position true (.text text) }
    rw [hcaught]
  next =>
    rw [ask_peek_text h]
    rfl

/-- A look at another entry than text sees nothing to catch, or fails with the entry. -/
theorem lookAhead_other (h : ∀ text, c.source.entries.head? ≠ some (.ofText text)) :
    lookAhead true c = .ok () c ∨
      ∃ e more, c.source.entries = .error e :: more ∧ lookAhead true c = .error (.source e) c := by
  unfold lookAhead
  split
  next => exact .inl rfl
  next =>
    rw [ask_peek_eq]
    cases hentries : c.source.entries with
    | nil => exact .inl rfl
    | cons entry more =>
      cases entry with
      | error e => exact .inr ⟨e, more, rfl, rfl⟩
      | nothing => exact .inl rfl
      | event event =>
        cases event with
        | text text =>
          rw [hentries] at h
          exact absurd rfl (h text)
        | startDocument | endDocument | startNode | endNode | attr => exact .inl rfl

/-- So the look behind the last piece fails only where reading on would have failed. -/
theorem collectText_last {text : String} (hentries : c.source.entries = .ofText text :: rest)
    (hrest : ∀ text, rest.head? ≠ some (.ofText text)) (out : String) :
    collectText out c = haltAt (out ++ text) (c.passing [] rest) := by
  have hpeek := ask_peek_text hentries
  have hnext := ask_next_text hentries
  rcases lookAhead_other (c := c.passing [] rest) hrest with
    hsees | ⟨e, more, hfails, hlook⟩
  · have hhalts := collectText_halts (c := c.passing [] rest) hrest (out ++ text)
    exact collectsText_iff.mp (.piece hpeek hnext hsees (collectsText_iff.mpr hhalts))
  · rw [collectsText_iff.mp (.unwatched hpeek hnext hlook), haltAt, hfails]

/-- **Reading takes the texts that come first**, and what stands behind them decides how it ends. -/
theorem collectText_texts (hentries : c.source.entries = texts.map .ofText ++ rest)
    (hrest : ∀ text, rest.head? ≠ some (.ofText text)) (out : String) :
    collectText out c = haltAt (out ++ String.join texts) (c.passing texts.tail rest) := by
  -- On the texts: behind each that is taken the cursor has caught the next.
  induction texts generalizing c out with
  | nil =>
    have hsource : c.source.entries = rest := hentries
    rw [List.tail_nil, passing_nil hsource, String.join_nil, String.append_empty]
    exact collectText_halts (hsource ▸ hrest) out
  | cons text more ih =>
    rw [String.join_cons, ← String.append_assoc]
    cases more with
    | nil =>
      rw [String.join_nil, String.append_empty]
      exact collectText_last hentries hrest out
    | cons next more =>
      have hlook := lookAhead_text (c := c.passing [] ((next :: more).map .ofText ++ rest)) rfl
      have hmore := ih (c := c.passing [next] ((next :: more).map .ofText ++ rest)) rfl (out ++ text)
      exact collectsText_iff.mp (.piece (ask_peek_text hentries) (ask_next_text hentries) hlook
        (collectsText_iff.mpr hmore))

/-- Whether it fails or not, to end there moves nothing. -/
theorem left_haltAt (out : String) (c : Cursor Script) :
    SamePlace c (haltAt out c).left ∧ (haltAt out c).left.attributes = c.attributes ∧
      (haltAt out c).left.source = c.source := by
  unfold haltAt
  split <;> exact ⟨⟨rfl, rfl, rfl⟩, rfl, rfl⟩

/-- Where the node does not end, and the script neither fails nor shows nothing, reading ends in a
misfit at the current path. -/
theorem haltAt_misfit (hnothing : c.source.entries.head? ≠ some .nothing)
    (hend : c.source.entries.head? ≠ some (.event .endNode))
    (herror : ∀ e, c.source.entries.head? ≠ some (.error e)) (out : String) :
    ∃ misfit, haltAt out c = .error (.structural c.path misfit) (haltAt out c).left := by
  unfold haltAt
  cases hentries : c.source.entries with
  | nil => exact ⟨_, rfl⟩
  | cons entry more =>
    rw [hentries] at hnothing hend herror
    cases entry with
    | error e => exact absurd rfl (herror e)
    | nothing => exact absurd rfl hnothing
    | event event =>
      cases event with
      | endNode => exact absurd rfl hend
      | startDocument | endDocument | startNode | text | attr => exact ⟨_, rfl⟩

/-! ## The advance behind -/

theorem source_watch (event : Event) (c : Cursor Script) :
    (watch event c).left.source = c.source := by
  cases h : watch event c with
  | ok _ d =>
    obtain ⟨_, _, hsame | ⟨_, shown, hpeek⟩⟩ := looked_of_watch h
    · exact hsame
    · exact Script.eq_of_peek hpeek
  | error e d =>
    obtain ⟨_, _, fault, s, hpeek, _, rfl⟩ := watch_eq_error_iff.mp h
    have hleft := Script.left_peek c.source
    rw [hpeek] at hleft
    exact hleft

theorem source_enter (event : Event) (c : Cursor Script) :
    (enter event c).left.source = c.source := by
  cases h : enter event c with
  | ok _ d => exact (enter_source h).1
  | error e d =>
    rcases enter_error_cases h with ⟨_, _, _, rfl⟩ | ⟨_, rfl⟩
    · rfl
    · rfl

/-- An advance over a script takes what it takes first, and nothing more. -/
theorem source_advance (c : Cursor Script) :
    (advance c).left.source = (take c).left.source ∧
      ∀ event d, advance c = .ok event d → ∃ a, take c = .ok event a ∧ a.source = d.source := by
  cases hadvance : advance c with
  | ok event d =>
    obtain ⟨a, b, f, htake, henter, hwatch, rfl⟩ := advance_eq_ok_iff.mp hadvance
    have hentered := source_enter event a
    have hwatched := source_watch event b
    rw [henter] at hentered
    rw [hwatch] at hwatched
    have hsource : f.source = a.source := hwatched.trans hentered
    rw [htake]
    refine ⟨hsource, ?_⟩
    rintro _ _ ⟨⟩
    exact ⟨a, rfl, hsource.symm⟩
  | error e d =>
    refine ⟨?_, nofun⟩
    rcases advance_eq_error_iff.mp hadvance with htake | ⟨event, a, htake, hfail⟩
    · rw [htake]
    · have hentered := source_enter event a
      rw [htake]
      rcases hfail with henter | ⟨b, henter, hwatch⟩
      · rw [henter] at hentered
        exact hentered
      · have hwatched := source_watch event b
        rw [henter] at hentered
        rw [hwatch] at hwatched
        exact hwatched.trans hentered

/-- Where no attribute waits, an advance takes the first entry of the script, whether it fails or
not. -/
theorem advance_takes (h : c.attributes = []) :
    (advance c).left.source.entries = c.source.entries.tail ∧
      ∀ event d, advance c = .ok event d →
        (Source.next : EStateM SourceError Script Event) c.source = .ok event d.source := by
  obtain ⟨hleft, hok⟩ := source_advance c
  rw [take_of_attributes_nil h] at hleft hok
  constructor
  · have hnext := Script.left_next c.source
    rw [hleft, ← hnext]
    unfold ask
    split
    next hs => rw [hs]; rfl
    next hs => rw [hs]; rfl
  · intro event d hadvance
    obtain ⟨a, htake, hsource⟩ := hok event d hadvance
    obtain ⟨s, hnext, rfl⟩ := ask_eq_ok.mp htake
    rw [hnext]
    exact congrArg _ hsource

/-! ## The law -/

/-- Reading at the start of a node passes its attributes over and takes the texts that come first. -/
theorem readText_texts {node : Node} (hcurrent : c.current = some (.startNode node))
    (hentries : c.source.entries = texts.map .ofText ++ rest)
    (hrest : ∀ text, rest.head? ≠ some (.ofText text)) :
    ∃ d, SamePlace c d ∧ d.attributes = [] ∧ d.source = ⟨rest⟩ ∧
      readText c = haltAt (String.join texts) d := by
  have hcollects := collectText_texts (c := { c with attributes := [] }) hentries hrest ""
  rw [← readText_of_startNode hcurrent, String.empty_append] at hcollects
  exact ⟨Cursor.passing texts.tail rest { c with attributes := [] }, ⟨rfl, rfl, rfl⟩, rfl, rfl,
    hcollects⟩

/-- **Reading the text of a node.** At the start of a node, with any attributes waiting, let the
script give a run of texts, the longest there is, and then the rest. Reading takes the run and
nothing else. It gives the joined texts where the node ends or nothing is shown behind them, fails as
the script does where an error comes, and else with a misfit at the current path. The place is as it
was, no attribute waits any more, and the next advance takes the first entry of the rest. On an
attribute reading gives its value, anywhere else it fails, and both leave the cursor as it is. -/
theorem readText_contract (c : Cursor Script) :
    (∀ (node : Node) (texts : List String) (rest : List ScriptEntry),
      c.current = some (.startNode node) → c.source.entries = texts.map .ofText ++ rest →
      (∀ text, rest.head? ≠ some (.ofText text)) →
      ∃ d, SamePlace c d ∧ d.attributes = [] ∧ d.source.entries = rest ∧
        (rest.head? = some .nothing ∨ rest.head? = some (.event .endNode) →
          readText c = .ok (String.join texts) d) ∧
        (∀ e, rest.head? = some (.error e) → readText c = .error (.source e) d) ∧
        (rest.head? ≠ some .nothing → rest.head? ≠ some (.event .endNode) →
          (∀ e, rest.head? ≠ some (.error e)) →
          ∃ misfit, readText c = .error (.structural c.path misfit) d) ∧
        (advance d).left.source.entries = rest.tail ∧
        ∀ event f, advance d = .ok event f →
          (Source.next : EStateM SourceError Script Event) ⟨rest⟩ = .ok event f.source) ∧
      (∀ a, c.current = some (.attr a) → readText c = .ok a.value c) ∧
      ((∀ node, c.current ≠ some (.startNode node)) → (∀ a, c.current ≠ some (.attr a)) →
        ∃ misfit, readText c = .error (.structural c.path misfit) c) := by
  refine ⟨?_, ?_, ?_⟩
  · intro node texts rest hcurrent hentries hrest
    obtain ⟨d, hplace, hattributes, hsource, hreads⟩ := readText_texts hcurrent hentries hrest
    obtain ⟨hleft, hnone, hstays⟩ := left_haltAt (String.join texts) d
    obtain ⟨htakes, hgives⟩ := advance_takes (hnone.trans hattributes)
    have hrestLeft := hstays.trans hsource
    rw [hrestLeft] at htakes hgives
    refine ⟨_, hplace.trans hleft, hnone.trans hattributes, congrArg Script.entries hrestLeft, ?_,
      ?_, ?_, htakes, hgives⟩
    · intro hhead
      have hends : haltAt (String.join texts) d = .ok (String.join texts) d := by
        rw [haltAt, hsource]
        rcases hhead with hhead | hhead
        all_goals
          obtain ⟨more, rfl⟩ := List.head?_eq_some_iff.mp hhead
          rfl
      rw [hreads, hends]
      rfl
    · intro e hhead
      obtain ⟨more, rfl⟩ := List.head?_eq_some_iff.mp hhead
      have hends : haltAt (String.join texts) d = .error (.source e) d := by
        rw [haltAt, hsource]
      rw [hreads, hends]
      rfl
    · intro hnothing hend herror
      rw [hreads, ← hplace.path_eq]
      apply haltAt_misfit
      all_goals rwa [hsource]
  · intro a hcurrent
    rw [readText, hcurrent]
  · intro hstart hattr
    unfold readText
    cases hcurrent : c.current with
    | none => exact ⟨_, rfl⟩
    | some event =>
      cases event with
      | startNode node => exact absurd hcurrent (hstart node)
      | attr a => exact absurd hcurrent (hattr a)
      | startDocument | endDocument | endNode | text => exact ⟨_, rfl⟩

/-- A node with an attribute and two texts in it, and what comes behind them. -/
def inPieces (rest : List ScriptEntry) : Script :=
  ⟨.event (.startNode { name := "a", attributes := [⟨"id", "1"⟩] }) ::
    (["x", "y"].map .ofText ++ rest)⟩

/-- A caller over it who watches the node and has advanced to it. -/
def onPieces (rest : List ScriptEntry) : Cursor Script :=
  onFirst "a" (inPieces rest)

/-- Both texts are taken where the node ends behind them, where an error comes and where a node
opens. Its attribute can be read as well, and in front of the first event there is nothing to read. -/
theorem readText_contract_pieces :
    (∃ d, readText (onPieces [.event .endNode]) = .ok "xy" d ∧
        d.source.entries = [.event .endNode] ∧ d.attributes = []) ∧
      (∃ d, readText (onPieces [.error boom]) = .error (.source boom) d ∧
        (advance d).left.source.entries = []) ∧
      (∃ d misfit, readText (onPieces [.event (.startNode { name := "b" })]) =
        .error (.structural "/a" misfit) d) ∧
      (∃ c : Cursor Script, c = Operation.after [.advance] (onPieces []) ∧ readText c = .ok "1" c) ∧
      ∃ misfit, readText (new (inPieces [])) = .error (.structural "" misfit) (new (inPieces [])) := by
  have hcurrent : ∀ rest, (onPieces rest).current =
      some (.startNode { name := "a", attributes := [⟨"id", "1"⟩] }) := by
    intro rest
    cbv
  have hsource : ∀ rest, (onPieces rest).source.entries = ["x", "y"].map .ofText ++ rest := by
    intro rest
    cbv
  have hpath : ∀ rest, (onPieces rest).path = "/a" := by
    intro rest
    cbv
  refine ⟨?_, ?_, ?_, ?_, ?_⟩
  · obtain ⟨d, _, hattributes, hentries, hends, _⟩ := (readText_contract (onPieces _)).1 _ _ _
      (hcurrent _) (hsource [.event .endNode]) (by rintro _ ⟨⟩)
    exact ⟨d, hends (.inr rfl), hentries, hattributes⟩
  · obtain ⟨d, _, _, _, _, hfails, _, htakes, _⟩ := (readText_contract (onPieces _)).1 _ _ _
      (hcurrent _) (hsource [.error boom]) (by rintro _ ⟨⟩)
    exact ⟨d, hfails boom rfl, htakes⟩
  · obtain ⟨d, _, _, _, _, _, hmisfit, _⟩ := (readText_contract (onPieces _)).1 _ _ _
      (hcurrent _) (hsource [.event (.startNode { name := "b" })]) (by rintro _ ⟨⟩)
    obtain ⟨misfit, hreads⟩ := hmisfit (by rintro ⟨⟩) (by rintro ⟨⟩) (by rintro _ ⟨⟩)
    rw [hpath] at hreads
    exact ⟨d, misfit, hreads⟩
  · have hattr : (Operation.after [.advance] (onPieces [])).current = some (.attr ⟨"id", "1"⟩) := by
      cbv
    exact ⟨_, rfl, (readText_contract _).2.1 _ hattr⟩
  · exact (readText_contract _).2.2 (by rintro _ ⟨⟩) (by rintro _ ⟨⟩)

end Cursor

end DocWalk
