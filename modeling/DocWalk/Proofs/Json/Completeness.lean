import DocWalk.Proofs.Json.Runs

/-!
# The tokenizer reads every JSON text

A tokenizer in front of a value runs past it and gives its events, inside the node of an element or
a member that the open containers put around it. The open containers stand in the statement and do
not change on the way, so the induction is on the way the value is written, one law for each part of
the grammar.

What stands behind a value matters only to a number, which ends where no byte can belong to it: at
every comma, bracket, brace, blank, and at the end of the text.

**The law**: a text that writes a value is drained to that value's events between the two markers.
-/

set_option autoImplicit false

namespace DocWalk.Json

open Grammar

/-! ## What stands behind a value -/

namespace Scan

open Scanner

/-- Behind blanks a token of one character shows, and what is behind it is left. -/
theorem significant_token {s t : Scanner} {blanks chars : List Char} {c : Char}
    (h : s.Passes (blanks ++ c :: chars) t) (hb : Blanks blanks) (hc : c.toNat < 128)
    (hn : Ascii.isBlank (Ascii.byte c) = false) :
    ∃ u, significant s = .ok (some (Ascii.byte c)) u ∧ u.Passes (c :: chars) t ∧
      (u.drop 1).Passes chars t := by
  obtain ⟨u, hblanks, htoken⟩ := h.split
  obtain ⟨v, hpass, hrest⟩ := htoken.split_cons
  refine ⟨u, significant_pass_cons hblanks hb hc hn htoken, htoken, ?_⟩
  rw [hpass.eq_drop, Utf8.encodeChars_cons_ascii hc] at hrest
  exact hrest

theorem isNumberByte_blank {b : UInt8} (h : Ascii.isBlank b = true) : isNumberByte b = false := by
  simp only [Ascii.isBlank, Bool.or_eq_true, decide_eq_true_eq] at h
  rcases h with ((rfl | rfl) | rfl) | rfl <;> decide

/-- A number cannot go on with blanks, nor behind them where it cannot go on anyway. -/
theorem stops_of_blanks {s t : Scanner} {blanks : List Char} (h : s.Passes blanks t)
    (hb : Blanks blanks) (ht : t.Stops isNumberByte) : s.Stops isNumberByte := by
  cases blanks with
  | nil =>
    rw [← h.eq_of_nil]
    exact ht
  | cons c more =>
    have hc := hb c List.mem_cons_self
    apply h.stops (lt_of_isBlank hc)
    apply isNumberByte_blank
    rw [agree_isBlank.eq_of_ascii (lt_of_isBlank hc)]
    exact hc

/-- A closing bracket begins no scalar. -/
theorem scalar_closeBracket {s t : Scanner} {text : Option String} :
    scalar Ascii.closeBracket s ≠ .ok text t := by
  intro h
  rw [scalar, if_neg (by decide), if_neg (by decide), if_neg (by decide), if_neg (by decide),
    if_neg (by decide)] at h
  cases h

end Scan

namespace Tokenizer

open Scanner Scan

variable {s t : Scanner} {blanks chars : List Char}

/-! ## One turn at each token -/

theorem runs_openArray (frames : List Frame) (hb : Blanks blanks)
    (h : s.Passes (blanks ++ '[' :: chars) t) :
    ∃ u, Runs ⟨s, frames, [], .value⟩ (opening frames) ⟨u, .array :: frames, [], .firstElement⟩ ∧
      u.Passes chars t := by
  obtain ⟨u, hs, _, hrest⟩ := significant_token h hb (by decide) (by decide)
  refine ⟨_, runs_turned ?_, hrest⟩
  exact readValue_iff.mpr ⟨_, u, hs, .inr (.inl ⟨rfl, rfl⟩)⟩

theorem runs_openObject (frames : List Frame) (hb : Blanks blanks)
    (h : s.Passes (blanks ++ '{' :: chars) t) :
    ∃ u, Runs ⟨s, frames, [], .value⟩ (opening frames) ⟨u, .object :: frames, [], .firstKey⟩ ∧
      u.Passes chars t := by
  obtain ⟨u, hs, _, hrest⟩ := significant_token h hb (by decide) (by decide)
  refine ⟨_, runs_turned ?_, hrest⟩
  exact readValue_iff.mpr ⟨_, u, hs, .inl ⟨rfl, rfl⟩⟩

theorem runs_scalar (frames : List Frame) (hb : Blanks blanks) {v : Value} (hv : Scalar v chars)
    (h : s.Passes (blanks ++ chars) t) (ht : t.Stops isNumberByte) :
    Runs ⟨s, frames, [], .value⟩ (opening frames ++ v.events ++ closing frames)
      ⟨t, frames, [], .afterValue⟩ := by
  obtain ⟨u, hblanks, hscalar⟩ := h.split
  obtain ⟨b, text, hhead, hstarts, hread, hevents⟩ := scalar_pass hscalar hv ht
  obtain ⟨hblank, hbrace, hbracket, _⟩ := startsScalar_ne hstarts
  have hstops : u.Stops Ascii.isBlank := by
    rw [Stops, hhead]
    exact hblank
  have hs := significant_pass hblanks hb hstops
  rw [hhead] at hs
  rw [hevents]
  apply runs_turned
  exact readValue_iff.mpr ⟨b, u, hs, .inr (.inr ⟨hbrace, hbracket, text, t, hread, rfl⟩)⟩

theorem runs_closeEmptyArray (frames : List Frame) (hb : Blanks blanks)
    (h : s.Passes (blanks ++ [']']) t) :
    Runs ⟨s, .array :: frames, [], .firstElement⟩ (closing frames)
      ⟨t, frames, [], .afterValue⟩ := by
  obtain ⟨u, hs, _, hrest⟩ := significant_token h hb (by decide) (by decide)
  rw [hrest.eq_of_nil]
  apply runs_turned
  exact readFirstElement_iff.mpr ⟨_, u, hs, .inl ⟨rfl, frames, rfl, rfl⟩⟩

theorem runs_closeEmptyObject (frames : List Frame) (hb : Blanks blanks)
    (h : s.Passes (blanks ++ ['}']) t) :
    Runs ⟨s, .object :: frames, [], .firstKey⟩ (closing frames) ⟨t, frames, [], .afterValue⟩ := by
  obtain ⟨u, hs, _, hrest⟩ := significant_token h hb (by decide) (by decide)
  rw [hrest.eq_of_nil]
  apply runs_turned
  exact readKey_iff.mpr ⟨_, u, hs, .inl ⟨rfl, rfl, frames, rfl, rfl⟩⟩

theorem runs_comma (frame : Frame) (frames : List Frame) (hb : Blanks blanks)
    (h : s.Passes (blanks ++ ',' :: chars) t) :
    ∃ u, Runs ⟨s, frame :: frames, [], .afterValue⟩ [] ⟨u, frame :: frames, [], frame.afterComma⟩ ∧
      u.Passes chars t := by
  obtain ⟨u, hs, _, hrest⟩ := significant_token h hb (by decide) (by decide)
  refine ⟨_, runs_turned ?_, hrest⟩
  exact readAfterValue_iff.mpr ⟨_, u, hs, .inr ⟨frame, frames, rfl, .inl ⟨rfl, rfl⟩⟩⟩

theorem runs_close (frame : Frame) (frames : List Frame) (hb : Blanks blanks)
    (h : s.Passes (blanks ++ [frame.closer]) t) :
    Runs ⟨s, frame :: frames, [], .afterValue⟩ (closing frames) ⟨t, frames, [], .afterValue⟩ := by
  obtain ⟨u, hs, _, hrest⟩ := significant_token h hb frame.closer_lt frame.isBlank_closer
  rw [hrest.eq_of_nil]
  rw [← frame.closing_eq] at hs
  apply runs_turned
  exact readAfterValue_iff.mpr ⟨_, u, hs, .inr ⟨frame, frames, rfl, .inr ⟨rfl, rfl⟩⟩⟩

/-- A key is read with its colon, both where the object may end and behind a comma. -/
theorem runs_key (frames : List Frame) {key : String} {quoted after : List Char} {expect : Expect}
    (he : expect = .firstKey ∨ expect = .key) (hb : Blanks blanks) (hq : Quoted key quoted)
    (ha : Blanks after) (h : s.Passes (blanks ++ quoted ++ after ++ ':' :: chars) t) :
    ∃ u, Runs ⟨s, .object :: frames, [], expect⟩ [.startNode { name := key }]
        ⟨u, .object :: frames, [], .value⟩ ∧ u.Passes chars t := by
  rw [List.append_assoc, List.append_assoc] at h
  obtain ⟨u, hblanks, h⟩ := h.split
  obtain ⟨v, hquoted, h⟩ := h.split
  have hread := string_pass hquoted hq
  have hs : significant s = .ok (some Ascii.quote) u := by
    cases hq with
    | mk => exact significant_pass_cons hblanks hb (by decide) (by decide) hquoted
  obtain ⟨w, hcolon, _, hrest⟩ := significant_token h ha (by decide) (by decide)
  have hexpect : Scan.expect Ascii.colon .expectedColon v = .ok () (w.drop 1) :=
    EStateM.bind_eq_ok.mpr ⟨_, w, hcolon, rfl⟩
  refine ⟨w.drop 1, runs_turned ?_, hrest⟩
  rcases he with rfl | rfl
  · exact readKey_iff.mpr ⟨_, u, hs, .inr ⟨rfl, key, v, _, hread, hexpect, rfl⟩⟩
  · exact readKey_iff.mpr ⟨_, u, hs, .inr ⟨rfl, key, v, _, hread, hexpect, rfl⟩⟩

/-- In front of the first element the tokenizer only passes blanks, which the element's own turn
would pass as well. -/
theorem runs_firstElement {frames : List Frame} {events : List Event} {u : Tokenizer}
    (hs : s.OnText) (h : Runs ⟨s, frames, [], .value⟩ events u) (hu : u.expect ≠ .value) :
    Runs ⟨s, frames, [], .firstElement⟩ events u := by
  cases h with
  | rest => exact absurd rfl hu
  | give hp => cases hp
  | turn _ hstep hrest =>
    obtain ⟨_, v, hv, hpass, _, hstops⟩ := significant_ok hs
    have hagain : significant v = .ok v.rest.head? v :=
      significant_pass (passes_nil hpass.onText') nofun hstops
    obtain ⟨b, w, hw, hturn⟩ := readValue_iff.mp hstep
    -- The element's turn reads from where the blanks are passed already, and reads the same.
    have heq := hv.symm.trans hw
    simp only [EStateM.Result.ok.injEq] at heq
    obtain ⟨hhead, rfl⟩ := heq
    rw [hhead] at hagain
    have hne : some b ≠ some Ascii.closeBracket := by
      intro hb
      cases hb
      rcases hturn with ⟨hb, _⟩ | ⟨hb, _⟩ | ⟨_, _, text, x, hread, _⟩
      · exact absurd hb (by decide)
      · exact absurd hb (by decide)
      · exact scalar_closeBracket hread
    refine .turn rfl (readFirstElement_iff.mpr ⟨_, v, hw, .inr ⟨hne, rfl⟩⟩) ?_
    exact .turn rfl (readValue_iff.mpr ⟨b, v, hagain, hturn⟩) hrest

/-! ## Values -/

mutual

/-- Past a value from its first character to its last. -/
theorem runs_written {v : Value} {chars : List Char} (hv : Written v chars) {s t : Scanner}
    {blanks : List Char} (frames : List Frame) (hb : Blanks blanks)
    (h : s.Passes (blanks ++ chars) t) (ht : t.Stops isNumberByte) :
    Runs ⟨s, frames, [], .value⟩ (opening frames ++ v.events ++ closing frames)
      ⟨t, frames, [], .afterValue⟩ := by
  cases hv with
  | scalar hv => exact runs_scalar frames hb hv h ht
  | emptyArray hinner =>
    obtain ⟨u, hopen, hrest⟩ := runs_openArray frames hb h
    rw [Value.events, elementEvents, List.append_nil]
    exact hopen.trans (runs_closeEmptyArray frames hinner hrest)
  | array helements =>
    obtain ⟨u, hopen, hrest⟩ := runs_openArray frames hb h
    rw [Value.events, List.append_assoc]
    refine hopen.trans (runs_firstElement hrest.onText ?_ nofun)
    exact runs_elements helements frames hrest
  | emptyObject hinner =>
    obtain ⟨u, hopen, hrest⟩ := runs_openObject frames hb h
    rw [Value.events, memberEvents, List.append_nil]
    exact hopen.trans (runs_closeEmptyObject frames hinner hrest)
  | object hmembers =>
    obtain ⟨u, hopen, hrest⟩ := runs_openObject frames hb h
    rw [Value.events, List.append_assoc]
    exact hopen.trans (runs_members hmembers frames (.inl rfl) hrest)

/-- Past a value with blanks around it; those behind it stay. -/
theorem runs_spaced {v : Value} {chars : List Char} (hv : Spaced v chars) {s t : Scanner}
    (frames : List Frame) (h : s.Passes chars t) (ht : t.Stops isNumberByte) :
    ∃ after u, Runs ⟨s, frames, [], .value⟩ (opening frames ++ v.events ++ closing frames)
        ⟨u, frames, [], .afterValue⟩ ∧ Blanks after ∧ u.Passes after t := by
  cases hv with
  | @mk _ before written after hbefore hv hafter =>
    obtain ⟨u, hvalue, hrest⟩ := h.split
    have hu := stops_of_blanks hrest hafter ht
    exact ⟨after, u, runs_written hv frames hbefore hvalue hu, hafter, hrest⟩

/-- Past the elements of an array and its end. -/
theorem runs_elements {elements : List Value} {chars : List Char}
    (helements : Elements elements chars) {s t : Scanner} (frames : List Frame)
    (h : s.Passes (chars ++ [']']) t) :
    Runs ⟨s, .array :: frames, [], .value⟩ (elementEvents elements ++ closing frames)
      ⟨t, frames, [], .afterValue⟩ := by
  cases helements with
  | one hv =>
    obtain ⟨u, hvalue, hend⟩ := h.split
    have hu := hend.stops (p := isNumberByte) (by decide) (by decide)
    obtain ⟨after, w, hruns, hafter, hrest⟩ := runs_spaced hv (.array :: frames) hvalue hu
    exact hruns.trans (runs_close .array frames hafter (hrest.trans hend))
  | @more v others _ _ hv hothers =>
    rw [List.append_assoc] at h
    obtain ⟨u, hvalue, hend⟩ := h.split
    have hu := hend.stops (p := isNumberByte) (by decide) (by decide)
    obtain ⟨after, w, hruns, hafter, hrest⟩ := runs_spaced hv (.array :: frames) hvalue hu
    obtain ⟨x, hcomma, hrest⟩ := runs_comma .array frames hafter (hrest.trans hend)
    have hall := (hruns.trans hcomma).trans (runs_elements hothers frames hrest)
    simpa only [elementEvents, opening_array, closing_cons, List.append_assoc, List.cons_append,
      List.nil_append] using hall

/-- Past a member of an object; blanks behind it stay. -/
theorem runs_member {member : String × Value} {chars : List Char} (hm : Member member chars)
    {s t : Scanner} (frames : List Frame) {expect : Expect}
    (he : expect = .firstKey ∨ expect = .key) (h : s.Passes chars t) (ht : t.Stops isNumberByte) :
    ∃ after u, Runs ⟨s, .object :: frames, [], expect⟩
        (.startNode { name := member.1 } :: member.2.events ++ [.endNode])
        ⟨u, .object :: frames, [], .afterValue⟩ ∧ Blanks after ∧ u.Passes after t := by
  cases hm with
  | mk hbefore hquoted hafter hv =>
    obtain ⟨u, hkey, hrest⟩ := runs_key frames he hbefore hquoted hafter h
    obtain ⟨blanks, w, hruns, hblanks, hrest⟩ := runs_spaced hv (.object :: frames) hrest ht
    exact ⟨blanks, w, hkey.trans hruns, hblanks, hrest⟩

/-- Past the members of an object and its end. -/
theorem runs_members {members : List (String × Value)} {chars : List Char}
    (hmembers : Members members chars) {s t : Scanner} (frames : List Frame) {expect : Expect}
    (he : expect = .firstKey ∨ expect = .key) (h : s.Passes (chars ++ ['}']) t) :
    Runs ⟨s, .object :: frames, [], expect⟩ (memberEvents members ++ closing frames)
      ⟨t, frames, [], .afterValue⟩ := by
  cases hmembers with
  | one hm =>
    obtain ⟨u, hmember, hend⟩ := h.split
    have hu := hend.stops (p := isNumberByte) (by decide) (by decide)
    obtain ⟨after, w, hruns, hafter, hrest⟩ := runs_member hm frames he hmember hu
    exact hruns.trans (runs_close .object frames hafter (hrest.trans hend))
  | @more m others _ _ hm hothers =>
    rw [List.append_assoc] at h
    obtain ⟨u, hmember, hend⟩ := h.split
    have hu := hend.stops (p := isNumberByte) (by decide) (by decide)
    obtain ⟨after, w, hruns, hafter, hrest⟩ := runs_member hm frames he hmember hu
    obtain ⟨x, hcomma, hrest⟩ := runs_comma .object frames hafter (hrest.trans hend)
    have hall := (hruns.trans hcomma).trans (runs_members hothers frames (.inr rfl) hrest)
    simpa only [memberEvents, List.append_assoc, List.cons_append, List.nil_append] using hall

end

/-! ## Texts -/

/-- Behind the value at the root only blanks are left, and the tokenizer ends. -/
theorem runs_end {s : Scanner} {chars : List Char} {pos : Nat} (hb : Blanks chars)
    (h : s.Passes chars (facing [] pos)) :
    ∃ u, Runs ⟨s, [], [], .afterValue⟩ [] u ∧ u.Ended := by
  have hs := significant_pass h hb rfl
  refine ⟨_, .turn rfl (readAfterValue_iff.mpr ⟨_, _, hs, .inl ⟨rfl, rfl, rfl⟩⟩) (.rest _), rfl, ?_⟩
  intro event hmem
  exact List.mem_singleton.mp hmem

/-- A tokenizer on a text that writes a value runs to its end and gives the value's events. -/
theorem runs_ofText {v : Value} {text : String} (h : IsText v text) :
    ∃ u, Runs (ofText text) (.startDocument :: v.events) u ∧ u.Ended := by
  have hpass := Passes.mk text.toList [] 0
  rw [List.append_nil] at hpass
  obtain ⟨after, u, hvalue, hafter, hrest⟩ := runs_spaced h [] hpass rfl
  obtain ⟨w, hend, hended⟩ := runs_end hafter hrest
  have hstart : Runs (ofText text) [.startDocument] ⟨facing text.toList 0, [], [], .value⟩ :=
    runs_turned rfl
  refine ⟨w, ?_, hended⟩
  simpa only [opening, closing, List.head?_nil, reduceCtorEq, if_false, List.isEmpty_nil, if_true,
    List.nil_append, List.append_nil, List.cons_append] using
    (hstart.trans hvalue).trans hend

/-- A text that writes a value gives the start of the document and the events of the value. -/
theorem emits_ofText {v : Value} {text : String} (h : IsText v text) :
    Source.Emits (ofText text) (.startDocument :: v.events) := by
  obtain ⟨u, hruns, hended⟩ := runs_ofText h
  exact hruns.emits hended

/-- **Every JSON text is read as what it says.** A text that writes a value is drained without an
error, and what is given is the start of the document, the events of the value, and the end. -/
theorem drain_ofText_of_isText {v : Value} {text : String} (h : IsText v text) :
    ∃ given t, Source.drain (ofText text) = (given, .ok () t) ∧
      given.map Prod.fst = .startDocument :: v.events ++ [.endDocument] := by
  apply (emits_ofText h).drain
  intro hend
  cases hend with
  | tail _ hend => exact v.endDocument_not_mem hend

/-- One text with blanks of three kinds, two kinds of escape and a key that comes again. -/
theorem drain_ofText_escapes_and_blanks :
    IsText (.object [("k", .string "A\n"), ("k", .array [.number "-0.5e1", .null])])
        ("\t" ++ r#"{"k" : "\u0041\n", "k":[-0.5e1 ,null]}"# ++ "\n") ∧
      ∃ given t, Source.drain
          (ofText ("\t" ++ r#"{"k" : "\u0041\n", "k":[-0.5e1 ,null]}"# ++ "\n")) =
          (given, .ok () t) ∧
        given.map Prod.fst = .startDocument ::
          (Value.object [("k", .string "A\n"), ("k", .array [.number "-0.5e1", .null])]).events ++
          [.endDocument] := by
  have key : Quoted "k" ['"', 'k', '"'] := @Quoted.mk "k" ['k'] (.raw rfl .nil)
  have hex : Hex4 ['0', '0', '4', '1'] 0x41 := @Hex4.mk '0' '0' '4' '1' 0 0 4 1 rfl rfl rfl rfl
  have text : Quoted "A\n" ['"', '\\', 'u', '0', '0', '4', '1', '\\', 'n', '"'] :=
    @Quoted.mk "A\n" ['\\', 'u', '0', '0', '4', '1', '\\', 'n']
      (.escape (.unit hex (by decide)) (.escape (@Escape.short 'n' '\n' (by decide)) .nil))
  have number : Number ['-', '0', '.', '5', 'e', '1'] :=
    @Number.mk ['-'] ['0'] ['.', '5'] ['e', '1'] (by decide) .zero
      (.present ⟨by decide, List.all_eq_true.mp rfl⟩)
      (@Exponent.present 'e' [] ['1'] (by decide) (by decide)
        ⟨by decide, List.all_eq_true.mp rfl⟩)
  have array : Written (.array [.number "-0.5e1", .null]) "[-0.5e1 ,null]".toList :=
    .array (.more (@Spaced.mk _ [] _ [' '] nofun (.scalar (.number number)) (by decide))
      (.one (@Spaced.mk _ [] _ [] nofun (.scalar .null) nofun)))
  have object := Written.object (.more
    (@Member.mk "k" _ [] _ [' '] _ nofun key (by decide)
      (@Spaced.mk _ [' '] _ [] (by decide) (.scalar (.string text)) nofun))
    (.one (@Member.mk "k" _ [' '] _ [] _ (by decide) key nofun
      (@Spaced.mk _ [] _ [] nofun array nofun))))
  have isText := @Spaced.mk _ ['\t'] _ ['\n'] (by decide) object (by decide)
  exact ⟨isText, drain_ofText_of_isText isText⟩

end Tokenizer

end DocWalk.Json
