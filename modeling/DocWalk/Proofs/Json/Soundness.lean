import DocWalk.Proofs.Json.Runs

/-!
# The tokenizer reads nothing but JSON texts

A turn that does not fail has read some characters, and `Turn` says which: it is the tokenizer with
the grammar's words in place of the scanner. A place is what is awaited, inside which containers,
and in front of which characters.

A run that comes to the end is read from its end. `Closes frames chars` says that the characters
close the open containers, with further elements and members on the way, and leave only blanks;
`Completes` says what that means at each place. Nothing is left at the end of a run, so the end
completes, and a turn to a place that completes leaves from one that does. A container that is
closed this way has all its elements or members, which is where the value in it comes from.

**The law**: a text that is drained without an error writes a value.
-/

set_option autoImplicit false

namespace DocWalk.Json

open Grammar Scanner
open Utf8 (encodeChars)

/-- What a tokenizer awaits, inside which containers, and what it stands in front of. -/
structure Place where
  expect : Expect
  frames : List Frame
  chars : List Char

/-- A turn that reads what the grammar allows. -/
inductive Turn : Place → List Event → Place → Prop where
  | start {frames : List Frame} {chars : List Char} :
      Turn ⟨.start, frames, chars⟩ [.startDocument] ⟨.value, frames, chars⟩
  | openObject {frames : List Frame} {blanks rest : List Char} : Blanks blanks →
      Turn ⟨.value, frames, blanks ++ '{' :: rest⟩ (Tokenizer.opening frames)
        ⟨.firstKey, .object :: frames, rest⟩
  | openArray {frames : List Frame} {blanks rest : List Char} : Blanks blanks →
      Turn ⟨.value, frames, blanks ++ '[' :: rest⟩ (Tokenizer.opening frames)
        ⟨.firstElement, .array :: frames, rest⟩
  | scalar {frames : List Frame} {blanks chars rest : List Char} {v : Value} : Blanks blanks →
      Scalar v chars →
      Turn ⟨.value, frames, blanks ++ chars ++ rest⟩
        (Tokenizer.opening frames ++ v.events ++ Tokenizer.closing frames)
        ⟨.afterValue, frames, rest⟩
  | closeObject {frames : List Frame} {blanks rest : List Char} : Blanks blanks →
      Turn ⟨.firstKey, .object :: frames, blanks ++ '}' :: rest⟩ (Tokenizer.closing frames)
        ⟨.afterValue, frames, rest⟩
  | key {expect : Expect} {frames : List Frame} {key : String}
      {blanks quoted after rest : List Char} : expect = .firstKey ∨ expect = .key →
      Blanks blanks → Quoted key quoted → Blanks after →
      Turn ⟨expect, frames, blanks ++ quoted ++ after ++ ':' :: rest⟩
        [.startNode { name := key }] ⟨.value, frames, rest⟩
  | closeArray {frames : List Frame} {blanks rest : List Char} : Blanks blanks →
      Turn ⟨.firstElement, .array :: frames, blanks ++ ']' :: rest⟩ (Tokenizer.closing frames)
        ⟨.afterValue, frames, rest⟩
  | firstElement {frames : List Frame} {blanks rest : List Char} : Blanks blanks →
      Turn ⟨.firstElement, frames, blanks ++ rest⟩ [] ⟨.value, frames, rest⟩
  | comma {frame : Frame} {frames : List Frame} {blanks rest : List Char} : Blanks blanks →
      Turn ⟨.afterValue, frame :: frames, blanks ++ ',' :: rest⟩ []
        ⟨frame.afterComma, frame :: frames, rest⟩
  | close {frame : Frame} {frames : List Frame} {blanks rest : List Char} : Blanks blanks →
      Turn ⟨.afterValue, frame :: frames, blanks ++ frame.closer :: rest⟩
        (Tokenizer.closing frames) ⟨.afterValue, frames, rest⟩
  | finish {blanks : List Char} : Blanks blanks →
      Turn ⟨.afterValue, [], blanks⟩ [.endDocument] ⟨.finished, [], []⟩
  | finished {frames : List Frame} {chars : List Char} :
      Turn ⟨.finished, frames, chars⟩ [.endDocument] ⟨.finished, frames, chars⟩

namespace Tokenizer

open Scan

/-- The tokenizer stands at a place. -/
structure StandsAt (t : Tokenizer) (p : Place) : Prop where
  expect_eq : t.expect = p.expect
  frames_eq : t.frames = p.frames
  rest_eq : t.scanner.rest = encodeChars p.chars

end Tokenizer

namespace Scanner

/-- What is passed stands in front of what is left. -/
theorem Passes.chars_eq {s t : Scanner} {passed chars : List Char} (h : s.Passes passed t)
    (hs : s.rest = encodeChars chars) :
    ∃ rest, chars = passed ++ rest ∧ t.rest = encodeChars rest := by
  obtain ⟨rest, hrest⟩ := h.onText'
  refine ⟨rest, ?_, hrest⟩
  apply Utf8.encodeChars_injective
  rw [← hs, h.rest_eq, hrest, Utf8.encodeChars_append]

end Scanner

namespace Scan

/-- Looking behind blanks shows the first byte of what stands there. -/
theorem significant_chars {s t : Scanner} {b : Option UInt8} {chars : List Char}
    (hs : s.rest = encodeChars chars) (h : significant s = .ok b t) :
    ∃ blanks rest, chars = blanks ++ rest ∧ Blanks blanks ∧ t.rest = encodeChars rest ∧
      t.rest.head? = b := by
  obtain ⟨blanks, hb, hpass, hhead⟩ := significant_passes ⟨chars, hs⟩ h
  obtain ⟨rest, hchars, hrest⟩ := hpass.chars_eq hs
  exact ⟨blanks, rest, hchars, hb, hrest, hhead⟩

/-- Behind blanks stands the ASCII character whose byte shows. -/
theorem significant_char {s t : Scanner} {c : Char} {chars : List Char} (hc : c.toNat < 128)
    (hs : s.rest = encodeChars chars) (h : significant s = .ok (some (Ascii.byte c)) t) :
    ∃ blanks rest, chars = blanks ++ c :: rest ∧ Blanks blanks ∧
      (t.drop 1).rest = encodeChars rest := by
  obtain ⟨blanks, rest, hchars, hb, ht, hhead⟩ := significant_chars hs h
  rw [ht] at hhead
  obtain ⟨more, rfl⟩ := (Utf8.head?_encodeChars hc rest).mp hhead
  refine ⟨blanks, more, hchars, hb, ?_⟩
  rw [Scanner.drop, ht, Utf8.encodeChars_cons_ascii hc]
  rfl

end Scan

namespace Tokenizer

open Scan

/-! ## Turns that do not fail -/

theorem turn_of_readValue {t u : Tokenizer} {p : Place} (h : readValue t = .ok () u)
    (ht : t.StandsAt p) (hp : p.expect = .value) :
    ∃ events q, Turn p events q ∧ u.StandsAt q ∧ u.pending = t.pending ++ events := by
  obtain ⟨expect, frames, chars⟩ := p
  obtain ⟨_, hframes, hrest⟩ := ht
  cases hp
  obtain ⟨b, s, hs, hturn⟩ := readValue_iff.mp h
  rw [hframes] at hturn
  rcases hturn with ⟨rfl, rfl⟩ | ⟨rfl, rfl⟩ | ⟨_, _, text, s', hread, rfl⟩
  · obtain ⟨blanks, rest, hchars, hb, hdrop⟩ := significant_char (c := '{') (by decide) hrest hs
    cases hchars
    exact ⟨_, _, .openObject hb, ⟨rfl, rfl, hdrop⟩, rfl⟩
  · obtain ⟨blanks, rest, hchars, hb, hdrop⟩ := significant_char (c := '[') (by decide) hrest hs
    cases hchars
    exact ⟨_, _, .openArray hb, ⟨rfl, rfl, hdrop⟩, rfl⟩
  · obtain ⟨blanks, rest, hchars, hb, hs', hhead⟩ := significant_chars hrest hs
    obtain ⟨v, written, hv, hpass, hevents⟩ := scalar_ok ⟨rest, hs'⟩ hhead hread
    obtain ⟨behind, rfl, hbehind⟩ := hpass.chars_eq hs'
    rw [← List.append_assoc] at hchars
    cases hchars
    rw [← hevents]
    exact ⟨_, _, .scalar hb hv, ⟨rfl, rfl, hbehind⟩, rfl⟩

theorem turn_of_readKey {first : Bool} {t u : Tokenizer} {p : Place}
    (h : readKey first t = .ok () u) (ht : t.StandsAt p)
    (hp : p.expect = if first then .firstKey else .key) :
    ∃ events q, Turn p events q ∧ u.StandsAt q ∧ u.pending = t.pending ++ events := by
  obtain ⟨expect, frames, chars⟩ := p
  obtain ⟨_, hframes, hrest⟩ := ht
  obtain ⟨b, s, hs, hturn⟩ := readKey_iff.mp h
  rw [hframes] at hturn
  rcases hturn with ⟨rfl, rfl, outer, houter, rfl⟩ | ⟨rfl, key, s', s'', hread, hcolon, rfl⟩
  · obtain ⟨blanks, rest, hchars, hb, hdrop⟩ := significant_char (c := '}') (by decide) hrest hs
    cases hchars
    cases houter
    cases hp
    exact ⟨_, _, .closeObject hb, ⟨rfl, rfl, hdrop⟩, rfl⟩
  · obtain ⟨blanks, rest, hchars, hb, hs', hhead⟩ := significant_chars hrest hs
    obtain ⟨quoted, hq, hpass⟩ := string_ok ⟨rest, hs'⟩ hhead hread
    obtain ⟨behind, rfl, hbehind⟩ := hpass.chars_eq hs'
    obtain ⟨b, w, hw, hskip⟩ := EStateM.bind_eq_ok.mp hcolon
    split at hskip
    next hb' =>
      subst hb'
      cases hskip
      obtain ⟨after, rest, rfl, ha, hdrop⟩ := significant_char (c := ':') (by decide) hbehind hw
      rw [← List.append_assoc, ← List.append_assoc] at hchars
      cases hchars
      have he : expect = .firstKey ∨ expect = .key := by
        cases first with
        | true => exact .inl hp
        | false => exact .inr hp
      exact ⟨_, _, .key he hb hq ha, ⟨rfl, rfl, hdrop⟩, rfl⟩
    next => cases hskip

theorem turn_of_readFirstElement {t u : Tokenizer} {p : Place}
    (h : readFirstElement t = .ok () u) (ht : t.StandsAt p) (hp : p.expect = .firstElement) :
    ∃ events q, Turn p events q ∧ u.StandsAt q ∧ u.pending = t.pending ++ events := by
  obtain ⟨expect, frames, chars⟩ := p
  obtain ⟨_, hframes, hrest⟩ := ht
  cases hp
  obtain ⟨b, s, hs, hturn⟩ := readFirstElement_iff.mp h
  rw [hframes] at hturn
  rcases hturn with ⟨rfl, outer, houter, rfl⟩ | ⟨_, rfl⟩
  · obtain ⟨blanks, rest, hchars, hb, hdrop⟩ := significant_char (c := ']') (by decide) hrest hs
    cases hchars
    cases houter
    exact ⟨_, _, .closeArray hb, ⟨rfl, rfl, hdrop⟩, rfl⟩
  · obtain ⟨blanks, rest, hchars, hb, hs', _⟩ := significant_chars hrest hs
    cases hchars
    exact ⟨_, _, .firstElement hb, ⟨rfl, rfl, hs'⟩, rfl⟩

theorem turn_of_readAfterValue {t u : Tokenizer} {p : Place} (h : readAfterValue t = .ok () u)
    (ht : t.StandsAt p) (hp : p.expect = .afterValue) :
    ∃ events q, Turn p events q ∧ u.StandsAt q ∧ u.pending = t.pending ++ events := by
  obtain ⟨expect, frames, chars⟩ := p
  obtain ⟨_, hframes, hrest⟩ := ht
  cases hp
  obtain ⟨b, s, hs, hturn⟩ := readAfterValue_iff.mp h
  rw [hframes] at hturn
  rcases hturn with ⟨hroot, rfl, rfl⟩ | ⟨frame, outer, houter, ⟨rfl, rfl⟩ | ⟨rfl, rfl⟩⟩
  · obtain ⟨blanks, rest, hchars, hb, hs', hhead⟩ := significant_chars hrest hs
    rw [hs', List.head?_eq_none_iff] at hhead
    cases Utf8.encodeChars_eq_nil hhead
    rw [List.append_nil] at hchars
    cases hchars
    cases hroot
    exact ⟨_, _, .finish hb, ⟨rfl, rfl, hs'⟩, rfl⟩
  · obtain ⟨blanks, rest, hchars, hb, hdrop⟩ := significant_char (c := ',') (by decide) hrest hs
    cases hchars
    cases houter
    exact ⟨_, _, .comma hb, ⟨rfl, rfl, hdrop⟩, rfl⟩
  · rw [frame.closing_eq] at hs
    obtain ⟨blanks, rest, hchars, hb, hdrop⟩ := significant_char frame.closer_lt hrest hs
    cases hchars
    cases houter
    exact ⟨_, _, .close hb, ⟨rfl, rfl, hdrop⟩, rfl⟩

/-- A step that does not fail is a turn of the grammar. -/
theorem turn_of_step {t u : Tokenizer} {p : Place} (h : step t = .ok () u) (ht : t.StandsAt p) :
    ∃ events q, Turn p events q ∧ u.StandsAt q ∧ u.pending = t.pending ++ events := by
  have hexpect := ht.expect_eq
  unfold step at h
  split at h
  next he =>
    cases h
    obtain ⟨expect, frames, chars⟩ := p
    cases hexpect.symm.trans he
    exact ⟨_, _, .start, ⟨rfl, ht.frames_eq, ht.rest_eq⟩, rfl⟩
  next he => exact turn_of_readValue h ht (hexpect.symm.trans he)
  next he => exact turn_of_readKey h ht (hexpect.symm.trans he)
  next he => exact turn_of_readKey h ht (hexpect.symm.trans he)
  next he => exact turn_of_readFirstElement h ht (hexpect.symm.trans he)
  next he => exact turn_of_readAfterValue h ht (hexpect.symm.trans he)
  next he =>
    cases h
    obtain ⟨expect, frames, chars⟩ := p
    cases hexpect.symm.trans he
    exact ⟨_, _, .finished, ⟨he, ht.frames_eq, ht.rest_eq⟩, rfl⟩

end Tokenizer

/-! ## What completes a text -/

/-- A value with blanks in front of it. -/
inductive Led : Value → List Char → Prop where
  | mk {v : Value} {blanks written : List Char} : Blanks blanks → Written v written →
      Led v (blanks ++ written)

/-- A member with blanks in front of it and none behind. -/
inductive LedMember : String × Value → List Char → Prop where
  | mk {key : String} {v : Value} {before quoted after value : List Char} : Blanks before →
      Quoted key quoted → Blanks after → Led v value →
      LedMember (key, v) (before ++ quoted ++ after ++ ':' :: value)

theorem Led.spaced {v : Value} {chars blanks : List Char} (h : Led v chars) (hb : Blanks blanks) :
    Spaced v (chars ++ blanks) := by
  cases h with
  | mk hbefore hv => exact .mk hbefore hv hb

theorem Led.behind {v : Value} {chars blanks : List Char} (h : Led v chars) (hb : Blanks blanks) :
    Led v (blanks ++ chars) := by
  cases h with
  | mk hbefore hv =>
    rw [← List.append_assoc]
    refine .mk (fun c hc => ?_) hv
    rcases List.mem_append.mp hc with hc | hc
    · exact hb c hc
    · exact hbefore c hc

theorem LedMember.member {m : String × Value} {chars blanks : List Char} (h : LedMember m chars)
    (hb : Blanks blanks) : Member m (chars ++ blanks) := by
  cases h with
  | mk hbefore hq hafter hv =>
    rw [List.append_assoc]
    exact .mk hbefore hq hafter (hv.spaced hb)

/-- Characters behind a value close the open containers, innermost first, and end the text. -/
inductive Closes : List Frame → List Char → Prop where
  | root {blanks : List Char} : Blanks blanks → Closes [] blanks
  | close {frame : Frame} {outer : List Frame} {blanks rest : List Char} : Blanks blanks →
      Closes outer rest → Closes (frame :: outer) (blanks ++ frame.closer :: rest)
  | element {outer : List Frame} {blanks value rest : List Char} {v : Value} : Blanks blanks →
      Led v value → Closes (.array :: outer) rest →
      Closes (.array :: outer) (blanks ++ ',' :: (value ++ rest))
  | member {outer : List Frame} {blanks member rest : List Char} {m : String × Value} :
      Blanks blanks → LedMember m member → Closes (.object :: outer) rest →
      Closes (.object :: outer) (blanks ++ ',' :: (member ++ rest))

/-- An array that is closed behind an element has all its elements. -/
theorem Closes.elements {outer : List Frame} {chars : List Char}
    (h : Closes (.array :: outer) chars) {v : Value} {value : List Char} (hv : Led v value) :
    ∃ elements inner rest, value ++ chars = inner ++ ']' :: rest ∧ Elements elements inner ∧
      Closes outer rest := by
  generalize hframes : Frame.array :: outer = frames at h
  induction h generalizing v value with
  | root => cases hframes
  | @close frame _ blanks rest hb hrest _ =>
    cases hframes
    refine ⟨[v], value ++ blanks, rest, ?_, .one (hv.spaced hb), hrest⟩
    rw [List.append_assoc]
    rfl
  | @element _ blanks next rest w hb hw _ ih =>
    obtain ⟨elements, inner, rest, heq, helements, hrest⟩ := ih hw hframes
    refine ⟨v :: elements, value ++ blanks ++ ',' :: inner, rest, ?_,
      .more (hv.spaced hb) helements, hrest⟩
    rw [heq, List.append_assoc, List.append_assoc]
    rfl
  | member => cases hframes

/-- An object that is closed behind a member has all its members. -/
theorem Closes.members {outer : List Frame} {chars : List Char}
    (h : Closes (.object :: outer) chars) {m : String × Value} {member : List Char}
    (hm : LedMember m member) :
    ∃ members inner rest, member ++ chars = inner ++ '}' :: rest ∧ Members members inner ∧
      Closes outer rest := by
  generalize hframes : Frame.object :: outer = frames at h
  induction h generalizing m member with
  | root => cases hframes
  | @close frame _ blanks rest hb hrest _ =>
    cases hframes
    refine ⟨[m], member ++ blanks, rest, ?_, .one (hm.member hb), hrest⟩
    rw [List.append_assoc]
    rfl
  | element => cases hframes
  | @member _ blanks next rest n hb hn _ ih =>
    obtain ⟨members, inner, rest, heq, hmembers, hrest⟩ := ih hn hframes
    refine ⟨m :: members, member ++ blanks ++ ',' :: inner, rest, ?_,
      .more (hm.member hb) hmembers, hrest⟩
    rw [heq, List.append_assoc, List.append_assoc]
    rfl

/-- The characters at a place complete the text. -/
inductive Completes : Place → Prop where
  | start {frames : List Frame} {chars : List Char} : Completes ⟨.value, frames, chars⟩ →
      Completes ⟨.start, frames, chars⟩
  | value {frames : List Frame} {v : Value} {value rest : List Char} : Led v value →
      Closes frames rest → Completes ⟨.value, frames, value ++ rest⟩
  | noMember {outer : List Frame} {blanks rest : List Char} : Blanks blanks → Closes outer rest →
      Completes ⟨.firstKey, .object :: outer, blanks ++ '}' :: rest⟩
  | firstMember {outer : List Frame} {m : String × Value} {member rest : List Char} :
      LedMember m member → Closes (.object :: outer) rest →
      Completes ⟨.firstKey, .object :: outer, member ++ rest⟩
  | nextMember {outer : List Frame} {m : String × Value} {member rest : List Char} :
      LedMember m member → Closes (.object :: outer) rest →
      Completes ⟨.key, .object :: outer, member ++ rest⟩
  | noElement {outer : List Frame} {blanks rest : List Char} : Blanks blanks →
      Closes outer rest → Completes ⟨.firstElement, .array :: outer, blanks ++ ']' :: rest⟩
  | element {outer : List Frame} {v : Value} {value rest : List Char} : Led v value →
      Closes (.array :: outer) rest → Completes ⟨.firstElement, .array :: outer, value ++ rest⟩
  | afterValue {frames : List Frame} {chars : List Char} : Closes frames chars →
      Completes ⟨.afterValue, frames, chars⟩
  | finished {frames : List Frame} {chars : List Char} : Completes ⟨.finished, frames, chars⟩

/-- What is awaited fits the innermost container. -/
def Place.Fits (p : Place) : Prop :=
  match p.expect with
  | .firstKey | .key => p.frames.head? = some .object
  | .firstElement => p.frames.head? = some .array
  | .start => p.frames = []
  | .value | .afterValue | .finished => True

theorem Turn.fits {p q : Place} {events : List Event} (h : Turn p events q) : q.Fits := by
  cases h with
  | @comma frame =>
    cases frame with
    | object => rfl
    | array => trivial
  | openObject => rfl
  | openArray => rfl
  | start | scalar | closeObject | key | closeArray | firstElement | close | finish | finished =>
    trivial

/-- Behind the opening bracket of an array that completes stands the rest of an array. -/
theorem Completes.array {frames : List Frame} {chars : List Char}
    (h : Completes ⟨.firstElement, .array :: frames, chars⟩) :
    ∃ elements inner rest, chars = inner ++ ']' :: rest ∧
      Written (.array elements) ('[' :: inner ++ [']']) ∧ Closes frames rest := by
  cases h with
  | @noElement _ inner rest hinner hrest =>
    exact ⟨[], inner, rest, rfl, .emptyArray hinner, hrest⟩
  | element hv hrest =>
    obtain ⟨elements, inner, rest, heq, helements, hrest⟩ := hrest.elements hv
    exact ⟨elements, inner, rest, heq, .array helements, hrest⟩

/-- Behind the opening brace of an object that completes stands the rest of an object. -/
theorem Completes.object {frames : List Frame} {chars : List Char}
    (h : Completes ⟨.firstKey, .object :: frames, chars⟩) :
    ∃ members inner rest, chars = inner ++ '}' :: rest ∧
      Written (.object members) ('{' :: inner ++ ['}']) ∧ Closes frames rest := by
  cases h with
  | @noMember _ inner rest hinner hrest =>
    exact ⟨[], inner, rest, rfl, .emptyObject hinner, hrest⟩
  | firstMember hm hrest =>
    obtain ⟨members, inner, rest, heq, hmembers, hrest⟩ := hrest.members hm
    exact ⟨members, inner, rest, heq, .object hmembers, hrest⟩

/-- A container that is written from its opening to its closing completes as a value. -/
theorem Completes.container {frames : List Frame} {blanks inner rest : List Char} {v : Value}
    {opening closing : Char} (hb : Blanks blanks)
    (hv : Written v (opening :: inner ++ [closing])) (hrest : Closes frames rest) :
    Completes ⟨.value, frames, blanks ++ opening :: (inner ++ closing :: rest)⟩ := by
  have hvalue := Completes.value (.mk hb hv) hrest
  simpa only [List.cons_append, List.append_assoc, List.nil_append] using hvalue

/-- A turn to a place that completes leaves from one that does. -/
theorem Turn.completes {p q : Place} {events : List Event} (h : Turn p events q) (hp : p.Fits)
    (hq : Completes q) : Completes p := by
  cases h with
  | start => exact .start hq
  | openObject hb =>
    obtain ⟨members, inner, rest, rfl, hv, hrest⟩ := hq.object
    exact .container hb hv hrest
  | openArray hb =>
    obtain ⟨elements, inner, rest, rfl, hv, hrest⟩ := hq.array
    exact .container hb hv hrest
  | scalar hb hv =>
    cases hq with
    | afterValue hrest => exact .value (.mk hb (.scalar hv)) hrest
  | closeObject hb =>
    cases hq with
    | afterValue hrest => exact .noMember hb hrest
  | @key expect frames key blanks quoted after rest he hb hquoted hafter =>
    cases hq with
    | value hv hrest =>
      have hm := LedMember.mk hb hquoted hafter hv
      rw [← List.cons_append, ← List.append_assoc]
      rcases he with rfl | rfl
      · obtain ⟨outer, rfl⟩ := List.head?_eq_some_iff.mp hp
        exact .firstMember hm hrest
      · obtain ⟨outer, rfl⟩ := List.head?_eq_some_iff.mp hp
        exact .nextMember hm hrest
  | closeArray hb =>
    cases hq with
    | afterValue hrest => exact .noElement hb hrest
  | firstElement hb =>
    cases hq with
    | value hv hrest =>
      obtain ⟨outer, rfl⟩ := List.head?_eq_some_iff.mp hp
      rw [← List.append_assoc]
      exact .element (hv.behind hb) hrest
  | @comma frame _ _ _ hb =>
    apply Completes.afterValue
    cases frame with
    | object =>
      cases hq with
      | nextMember hm hrest => exact .member hb hm hrest
    | array =>
      cases hq with
      | value hv hrest => exact .element hb hv hrest
  | close hb =>
    cases hq with
    | afterValue hrest => exact .afterValue (.close hb hrest)
  | finish hb => exact .afterValue (.root hb)
  | finished => exact .finished

/-- The end of the document is read by the turns that finish only. -/
theorem Turn.finished_of_mem {p q : Place} {events : List Event} (h : Turn p events q)
    (hend : .endDocument ∈ events) : q.expect = .finished := by
  have hopening := Tokenizer.endDocument_not_mem_opening
  have hclosing := Tokenizer.endDocument_not_mem_closing
  cases h with
  | openObject => exact absurd hend (hopening _)
  | openArray => exact absurd hend (hopening _)
  | @scalar _ _ _ _ v =>
    rcases List.mem_append.mp hend with hend | hend
    · rcases List.mem_append.mp hend with hend | hend
      · exact absurd hend (hopening _)
      · exact absurd hend v.endDocument_not_mem
    · exact absurd hend (hclosing _)
  | closeObject => exact absurd hend (hclosing _)
  | closeArray => exact absurd hend (hclosing _)
  | close => exact absurd hend (hclosing _)
  | start => cases List.mem_singleton.mp hend
  | key => cases List.mem_singleton.mp hend
  | firstElement => cases hend
  | comma => cases hend
  | finish => rfl
  | finished => rfl

/-! ## Runs that come to the end -/

namespace Tokenizer

/-- A run to the end of the document starts at a place that completes. -/
theorem Runs.completes {t u : Tokenizer} {events : List Event} (h : Runs t events u) {p : Place}
    (ht : t.StandsAt p) (hp : p.Fits) (hpending : .endDocument ∈ t.pending → p.expect = .finished)
    (hend : .endDocument ∈ events) : Completes p := by
  -- On the run from its end: what is completed after a turn is completed before it.
  induction h generalizing p with
  | rest => cases hend
  | @give t u event more events hpend _ ih =>
    -- Only a tokenizer that is finished has the end of the document to give.
    by_cases hfinished : p.expect = .finished
    · obtain ⟨expect, frames, chars⟩ := p
      cases hfinished
      exact .finished
    · rw [hpend] at hpending
      rcases List.mem_cons.mp hend with rfl | hend
      · exact absurd (hpending List.mem_cons_self) hfinished
      · refine ih ⟨ht.expect_eq, ht.frames_eq, ht.rest_eq⟩ hp ?_ hend
        intro hmem
        exact hpending (List.mem_cons_of_mem _ hmem)
  | turn hpend hstep _ ih =>
    obtain ⟨read, q, hturn, hu, hread⟩ := turn_of_step hstep ht
    rw [hpend, List.nil_append] at hread
    apply hturn.completes hp
    refine ih hu hturn.fits ?_ hend
    rw [hread]
    exact hturn.finished_of_mem

/-- **Only JSON texts are read.** A text that is drained to the end of the document without an error
writes a value. -/
theorem isText_of_drain {text : String} {given : List (Source.Given Tokenizer)} {t : Tokenizer}
    (h : Source.drain (ofText text) = (given, .ok () t)) : ∃ v, IsText v text := by
  obtain ⟨hruns, hend⟩ := runs_of_drain h
  have hstart : (ofText text).StandsAt ⟨.start, [], text.toList⟩ := ⟨rfl, rfl, rfl⟩
  have hcompletes := hruns.completes hstart rfl nofun hend
  generalize hchars : text.toList = chars at hcompletes
  cases hcompletes with
  | start hvalue =>
    cases hvalue with
    | @value _ v value rest hv hrest =>
      cases hrest with
      | root hb =>
        refine ⟨v, ?_⟩
        rw [IsText, hchars]
        exact hv.spaced hb

/-- An array of one word, with a blank behind it, drained turn by turn. -/
theorem isText_of_drain_array :
    ∃ given t, Source.drain (ofText "[true ]") = (given, .ok () t) ∧ ∃ v, IsText v "[true ]" := by
  have start : Runs (ofText "[true ]") [.startDocument]
      ⟨facing "[true ]".toList 0, [], [], .value⟩ := runs_turned rfl
  have bracket : Runs ⟨facing "[true ]".toList 0, [], [], .value⟩ []
      ⟨facing "true ]".toList 1, [.array], [], .firstElement⟩ := runs_turned rfl
  have first : Runs ⟨facing "true ]".toList 1, [.array], [], .firstElement⟩ []
      ⟨facing "true ]".toList 1, [.array], [], .value⟩ := runs_turned rfl
  have word : Runs ⟨facing "true ]".toList 1, [.array], [], .value⟩
      [.startNode { name := "member" }, .text "true", .endNode]
      ⟨facing " ]".toList 5, [.array], [], .afterValue⟩ := runs_turned rfl
  have close : Runs ⟨facing " ]".toList 5, [.array], [], .afterValue⟩ []
      ⟨facing [] 7, [], [], .afterValue⟩ := runs_turned rfl
  have finish : Runs ⟨facing [] 7, [], [], .afterValue⟩ []
      ⟨facing [] 7, [], [.endDocument], .finished⟩ := .turn rfl rfl (.rest _)
  have hruns := start.trans (bracket.trans (first.trans (word.trans (close.trans finish))))
  obtain ⟨given, t, hdrain, _⟩ := (hruns.emits ⟨rfl, by simp⟩).drain (by decide)
  exact ⟨given, t, hdrain, isText_of_drain hdrain⟩

end Tokenizer

end DocWalk.Json
