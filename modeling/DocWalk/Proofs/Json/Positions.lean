import DocWalk.Proofs.Json.BrokenTokens
import DocWalk.Proofs.Json.Observation
import DocWalk.Proofs.Json.Progress

/-!
# Where a fault is told

The first fault of a text is told at a place up to which the text was fine. What was read before the
step that fails is made of whole turns, and a turn does not look at what stands behind what it reads
(`Turn.reads`). So whatever completes the place where the tokenizer stands completes the text behind
what was read: that is `Follows`, and every step keeps it. The step that fails has passed blanks, and
perhaps tokens and the beginning of one; `Refusal.breaks` says that the place can be completed behind
these, with a null for a value that is missing, an empty key for a key, and a closing bracket or brace
for each open container.

**The law** (`fault_position`): over every text that writes no value, draining ends with a fault whose
position is between two characters of the text, and what stands in front begins a text that writes a
value, unless the fault is that of an escape by number.
-/

set_option autoImplicit false

namespace DocWalk.Json

open Grammar Scanner
open Utf8 (encodeChars)
open Source (Queued)

namespace Scanner

/-- Characters between two scanners on a text are passed from the one to the other. -/
theorem Reaches.passes {s t : Scanner} {read rest : List Char} (h : s.Reaches t)
    (hs : s.rest = encodeChars (read ++ rest)) (ht : t.rest = encodeChars rest) :
    s.Passes read t := by
  have hsum := h.pos_add_length
  rw [hs, ht, Utf8.encodeChars_append, List.length_append] at hsum
  have hfrom : s = facing (read ++ rest) s.pos := by rw [facing, ← hs]
  have hto : t = facing rest (s.pos + (encodeChars read).length) := by
    rw [facing, ← ht, show s.pos + (encodeChars read).length = t.pos by omega]
  have hpass := Passes.mk read rest s.pos
  rwa [← hfrom, ← hto] at hpass

end Scanner

/-- A fault that a text breaks off with is told between two of its characters. -/
theorem Breaks.position_eq {token : List Char → Prop} {text : String} {fault : Fault}
    (h : Breaks token (Scanner.ofText text) fault) :
    ∃ front back : String, text = front ++ back ∧ front.utf8ByteSize = fault.position ∧
      (¬Spoiled fault.reason → ∃ tail : String, token (front ++ tail).toList) := by
  cases h with
  | @mk passed s hpass hpos hsound =>
    obtain ⟨back, hback, _⟩ := hpass.chars_eq (show (Scanner.ofText text).rest = _ from rfl)
    refine ⟨.ofList passed, .ofList back, ?_, ?_, fun hnot => ?_⟩
    · rw [← String.ofList_append, ← hback, String.ofList_toList]
    · rw [hpos, hpass.pos_eq, ← Utf8.length_encode, Utf8.encode, String.toList_ofList]
      exact (Nat.zero_add _).symm
    · obtain ⟨more, hmore⟩ := hsound hnot
      refine ⟨.ofList more, ?_⟩
      rwa [← String.ofList_append, String.toList_ofList]

theorem not_spoiled {reason : Reason}
    (h : reason.words ∉ ["invalid unicode escape", "unpaired surrogate"]) : ¬Spoiled reason := by
  rintro (rfl | rfl) <;> exact h (by decide)

/-! ## Completing a place -/

/-- Open containers can always be closed. -/
theorem exists_closes (frames : List Frame) : ∃ chars, Closes frames chars := by
  induction frames with
  | nil => exact ⟨[], .root nofun⟩
  | cons frame outer ih =>
    obtain ⟨rest, hrest⟩ := ih
    exact ⟨_, @Closes.close frame outer [] rest nofun hrest⟩

/-- Where a value is awaited, any value goes on to the end. -/
theorem exists_completes_value (frames : List Frame) :
    ∃ rest, ∀ v value, Led v value → Completes ⟨.value, frames, value ++ rest⟩ := by
  obtain ⟨rest, hrest⟩ := exists_closes frames
  exact ⟨rest, fun v value hv => .value hv hrest⟩

/-- Where a key is awaited, any member goes on to the end. -/
theorem exists_completes_member {expect : Expect} {frames : List Frame}
    (hexpect : expect = .firstKey ∨ expect = .key) (hfits : Fits expect frames) :
    ∃ rest, ∀ m member, LedMember m member → Completes ⟨expect, frames, member ++ rest⟩ := by
  have hhead : frames.head? = some .object := by
    rcases hexpect with rfl | rfl <;> exact hfits
  obtain ⟨outer, rfl⟩ := List.head?_eq_some_iff.mp hhead
  obtain ⟨rest, hrest⟩ := exists_closes (.object :: outer)
  refine ⟨rest, fun m member hm => ?_⟩
  rcases hexpect with rfl | rfl
  · exact .firstMember hm hrest
  · exact .nextMember hm hrest

theorem blanks_nil : Blanks [] :=
  List.forall_mem_nil _

theorem led_null {blanks : List Char} (hb : Blanks blanks) :
    Led .null (blanks ++ ['n', 'u', 'l', 'l']) :=
  .mk hb (.scalar .null)

/-- A member whose value is null. -/
theorem ledMember_null {key : String} {before quoted after : List Char} (hbefore : Blanks before)
    (hq : Quoted key quoted) (hafter : Blanks after) :
    LedMember (key, .null) (before ++ quoted ++ after ++ [':', 'n', 'u', 'l', 'l']) :=
  .mk hbefore hq hafter (led_null blanks_nil)

theorem quoted_empty : Quoted "" ['"', '"'] :=
  @Quoted.mk "" [] .nil

/-- A step that is refused breaks off what completes the place. -/
theorem Refusal.breaks {expect : Expect} {frames : List Frame} {s t : Scanner} {fault : Fault}
    (h : Refusal expect frames s fault t) (hs : s.OnText) (hfits : Fits expect frames) :
    Breaks (fun chars => Completes ⟨expect, frames, chars⟩) s fault := by
  cases h with
  | noValue hshown =>
    obtain ⟨blanks, hb, hpass, _⟩ := Scan.significant_passes hs hshown
    obtain ⟨rest, hrest⟩ := exists_completes_value frames
    refine .mk hpass rfl fun _ => ⟨['n', 'u', 'l', 'l'] ++ rest, ?_⟩
    rw [← List.append_assoc]
    exact hrest _ _ (led_null hb)
  | scalar hshown _ _ hscalar =>
    obtain ⟨blanks, hb, hpass, hhead⟩ := Scan.significant_passes hs hshown
    obtain ⟨rest, hrest⟩ := exists_completes_value frames
    refine (Scan.breaks_scalar hpass.onText' hhead hscalar).behind hpass ?_
    rintro chars ⟨v, hv⟩
    exact ⟨rest, hrest v _ (.mk hb (.scalar hv))⟩
  | noKey hexpect hshown _ =>
    obtain ⟨blanks, hb, hpass, _⟩ := Scan.significant_passes hs hshown
    have hkey : expect = .firstKey ∨ expect = .key := hexpect.imp_left And.left
    obtain ⟨rest, hrest⟩ := exists_completes_member hkey hfits
    have hmember := hrest _ _ (ledMember_null hb quoted_empty blanks_nil)
    rw [List.append_nil, List.append_assoc, List.append_assoc] at hmember
    exact .mk hpass rfl fun _ => ⟨_, hmember⟩
  | key hexpect hshown hstring =>
    obtain ⟨blanks, hb, hpass, hhead⟩ := Scan.significant_passes hs hshown
    obtain ⟨rest, hrest⟩ := exists_completes_member hexpect hfits
    refine (Scan.breaks_string hpass.onText' hhead hstring).behind hpass ?_
    rintro quoted ⟨text, hq⟩
    have hmember := hrest _ _ (ledMember_null hb hq blanks_nil)
    rw [List.append_nil, List.append_assoc] at hmember
    exact ⟨_, hmember⟩
  | colon hexpect hshown hstring hcolon =>
    obtain ⟨blanks, hb, hpass, hhead⟩ := Scan.significant_passes hs hshown
    obtain ⟨quoted, hq, hquoted⟩ := Scan.string_ok hpass.onText' hhead hstring
    obtain ⟨rest, hrest⟩ := exists_completes_member hexpect hfits
    refine (Scan.breaks_colon hquoted.onText' hcolon).behind (hpass.trans hquoted) ?_
    rintro chars ⟨after, hafter, rfl⟩
    have hmember := hrest _ _ (ledMember_null hb hq hafter)
    refine ⟨['n', 'u', 'l', 'l'] ++ rest, ?_⟩
    simpa only [List.append_assoc, List.cons_append, List.nil_append] using hmember
  | trailing hshown =>
    obtain ⟨blanks, hb, hpass, _⟩ := Scan.significant_passes hs hshown
    refine .mk hpass rfl fun _ => ⟨[], ?_⟩
    rw [List.append_nil]
    exact .afterValue (.root hb)
  | @separator frame outer _ _ _ hshown _ _ =>
    obtain ⟨blanks, hb, hpass, _⟩ := Scan.significant_passes hs hshown
    obtain ⟨rest, hrest⟩ := exists_closes outer
    exact .mk hpass rfl fun _ => ⟨frame.closer :: rest, .afterValue (.close hb hrest)⟩

theorem Refusal.expect_ne {expect : Expect} {frames : List Frame} {s t : Scanner} {fault : Fault}
    (h : Refusal expect frames s fault t) : expect ≠ .finished := by
  cases h with
  | noKey hexpect => rcases hexpect with ⟨rfl, _⟩ | rfl <;> exact nofun
  | key hexpect | colon hexpect => rcases hexpect with rfl | rfl <;> exact nofun
  | _ => exact nofun

/-! ## What was read before -/

/-- Between two places some characters are read, and the turn does not look behind them, unless it is at
the end. -/
def Reads (p : Place) (events : List Event) (q : Place) : Prop :=
  ∃ read, p.chars = read ++ q.chars ∧ (q.expect ≠ .finished → ∀ tail,
    Turn ⟨p.expect, p.frames, read ++ tail⟩ events ⟨q.expect, q.frames, tail⟩)

/-- A turn that reads up to a character, whatever stands behind it. -/
theorem Reads.of_cons {expect expect' : Expect} {frames frames' : List Frame} {events : List Event}
    {front : List Char} {c : Char}
    (h : ∀ tail, Turn ⟨expect, frames, front ++ c :: tail⟩ events ⟨expect', frames', tail⟩)
    (rest : List Char) :
    Reads ⟨expect, frames, front ++ c :: rest⟩ events ⟨expect', frames', rest⟩ := by
  refine ⟨front ++ [c], List.append_cons _ _ _, fun _ tail => ?_⟩
  rw [← List.append_cons]
  exact h tail

theorem Turn.reads {p q : Place} {events : List Event} (h : Turn p events q) : Reads p events q := by
  cases h with
  | start => exact ⟨[], rfl, fun _ _ => .start⟩
  | openObject hb => exact .of_cons (fun _ => .openObject hb) _
  | openArray hb => exact .of_cons (fun _ => .openArray hb) _
  | scalar hb hv => exact ⟨_, rfl, fun _ _ => .scalar hb hv⟩
  | closeObject hb => exact .of_cons (fun _ => .closeObject hb) _
  | key hexpect hb hq hafter => exact .of_cons (fun _ => .key hexpect hb hq hafter) _
  | closeArray hb => exact .of_cons (fun _ => .closeArray hb) _
  | firstElement hb => exact ⟨_, rfl, fun _ _ => .firstElement hb⟩
  | comma hb => exact .of_cons (fun _ => .comma hb) _
  | close hb => exact .of_cons (fun _ => .close hb) _
  | finish hb => exact ⟨_, (List.append_nil _).symm, fun hne => absurd rfl hne⟩
  | finished => exact ⟨[], rfl, fun hne => absurd rfl hne⟩

namespace Tokenizer

/-- What was read of a text is made of turns: behind it, whatever completes the place completes the
text. -/
structure Follows (text : String) (t : Tokenizer) : Prop where
  agrees : t.Agrees
  reads : ∃ front, (Scanner.ofText text).Passes front t.scanner ∧ (t.expect ≠ .finished → ∀ tail,
    Completes ⟨t.expect, t.frames, tail⟩ → Completes ⟨.start, [], front ++ tail⟩)

theorem follows_ofText (text : String) : (ofText text).Follows text :=
  ⟨rfl, [], passes_nil ⟨text.toList, rfl⟩, fun _ _ htail => htail⟩

theorem place_fits {t : Tokenizer} (h : t.Agrees) (chars : List Char) :
    Place.Fits ⟨t.expect, t.frames, chars⟩ := by
  obtain ⟨s, frames, pending, expect⟩ := t
  cases expect with
  | start | firstKey | key | firstElement => exact h
  | value | afterValue | finished => trivial

/-- At the end a step stays there. -/
theorem finished_of_step {t u : Tokenizer} (h : Tokenizer.step t = .ok () u)
    (ht : t.expect = .finished) : u.expect = .finished := by
  unfold Tokenizer.step at h
  rw [ht] at h
  cases h
  exact ht

theorem Follows.step {text : String} {t u : Tokenizer} (h : t.Follows text)
    (hstep : Tokenizer.step t = .ok () u) : u.Follows text := by
  obtain ⟨hagrees, front, hpass, hcompletes⟩ := h
  obtain ⟨chars, hchars⟩ := hpass.onText'
  have ht : t.StandsAt ⟨t.expect, t.frames, chars⟩ := ⟨rfl, rfl, hchars⟩
  obtain ⟨_, q, hturn, hu, _⟩ := turn_of_step hstep ht
  obtain ⟨read, hread, hreads⟩ := hturn.reads
  have hpassed : t.scanner.Passes read u.scanner :=
    (steps_of_step hstep).reaches.passes (hchars.trans (congrArg encodeChars hread)) hu.rest_eq
  obtain ⟨_, hmoves, _⟩ := moves_of_step hstep
  refine ⟨hmoves.fits hagrees, front ++ read, hpass.trans hpassed, fun hne tail htail => ?_⟩
  have hfront := hcompletes (mt (finished_of_step hstep) hne)
  rw [hu.expect_eq, hu.frames_eq] at htail
  rw [hu.expect_eq] at hne
  rw [List.append_assoc]
  exact hfront _ ((hreads hne tail).completes (place_fits hagrees _) htail)

theorem Follows.fill {text : String} {t u : Tokenizer} (h : t.Follows text)
    (hfill : Tokenizer.fill t = .ok () u) : u.Follows text := by
  fun_induction Tokenizer.fill t with
  | case1 t hp v hs ih => exact ih (h.step hs) hfill
  | case2 => cases hfill
  | case3 =>
    cases hfill
    exact h

/-- Where filling fails, the text breaks off. -/
theorem Follows.breaks_of_fill {text : String} {t u : Tokenizer} {fault : Fault} (h : t.Follows text)
    (hfill : Tokenizer.fill t = .error fault u) :
    Breaks (fun chars => Completes ⟨.start, [], chars⟩) (Scanner.ofText text) fault := by
  fun_induction Tokenizer.fill t with
  | case1 t hp v hs ih => exact ih (h.step hs) hfill
  | case2 t hp fault' v hs =>
    cases hfill
    obtain ⟨s, rfl, hrefusal⟩ := step_error hs h.agrees
    obtain ⟨hagrees, front, hpass, hcompletes⟩ := h
    exact (hrefusal.breaks hpass.onText' hagrees).inside hpass (hcompletes hrefusal.expect_ne)
  | case3 => cases hfill

/-- Where draining fails, the text breaks off. -/
theorem Follows.breaks_of_drain {text : String} {t u : Tokenizer} {fault : Fault}
    {given : List (Source.Given Tokenizer)} (h : t.Follows text)
    (hdrain : Source.drain t = (given, .error (.json fault) u)) :
    Breaks (fun chars => Completes ⟨.start, [], chars⟩) (Scanner.ofText text) fault := by
  fun_induction Source.drain t generalizing given with
  | case1 t e v hnext =>
    cases hdrain
    have hfill := (Queued.ask_error_iff .next).mp (Source.ask_next_error hnext)
    obtain ⟨_, hread, hfault⟩ := queued_fill_error.mp hfill
    cases hfault
    exact h.breaks_of_fill hread
  | case2 => cases hdrain
  | case3 t event v hnext hne _ more outcome hmore ih =>
    cases hdrain
    obtain ⟨w, rest, hfill, hpending, rfl⟩ := Queued.next_ok_iff.mp hnext
    obtain ⟨hagrees, hreads⟩ := h.fill (queued_fill_ok.mp hfill)
    exact ih ⟨hagrees, hreads⟩ hmore

/-- **The first fault of a text is told where the text breaks off.** A text that writes no value drains
to a fault; its position is between two characters of the text, and what stands in front of it begins a
text that writes a value, unless the fault is that of an escape by number. -/
theorem fault_position (text : String) (h : ¬∃ v, IsText v text) :
    ∃ given fault t, Source.drain (ofText text) = (given, .error (.json fault) t) ∧
      fault.position ≤ text.utf8ByteSize ∧
      ∃ front back : String, text = front ++ back ∧ front.utf8ByteSize = fault.position ∧
        (fault.reason.words ∉ ["invalid unicode escape", "unpaired surrogate"] →
          ∃ tail v, IsText v (front ++ tail)) := by
  cases hdrain : Source.drain (ofText text) with
  | mk given outcome =>
    cases outcome with
    | ok _ t => exact absurd ((answer_drain_iff text).mp (by rw [hdrain]; rfl)) h
    | error e t =>
      have hanswer : (Source.drain (ofText text)).2.answer = .error e := by rw [hdrain]; rfl
      obtain ⟨fault, rfl⟩ := fault_of_drain_error hanswer
      obtain ⟨front, back, htext, hlength, hbegins⟩ :=
        ((follows_ofText text).breaks_of_drain hdrain).position_eq
      refine ⟨given, fault, t, rfl, ?_, front, back, htext, hlength, fun hwords => ?_⟩
      · rw [← hlength, htext, String.utf8ByteSize_append]
        exact Nat.le_add_right _ _
      · obtain ⟨tail, htail⟩ := hbegins (not_spoiled hwords)
        exact ⟨tail, isText_of_completes htail⟩

/-- An array of a number that breaks off at a letter of two bytes. -/
def brokenNumber : String :=
  "[1.é]"

/-- Draining it fails behind the point. -/
theorem drain_brokenNumber : ∃ given t, Source.drain (ofText brokenNumber) =
    (given, .error (.json ⟨.invalidNumber, 3⟩) t) := by
  have hstarts : ∃ s t, (Source.next : EStateM SourceError Tokenizer Event) (ofText brokenNumber) =
      .ok .startDocument s ∧ (Source.next : EStateM SourceError Tokenizer Event) s =
        .error (.json ⟨.invalidNumber, 3⟩) t :=
    ⟨_, _, EStateM.Result.answer_eq_ok_iff.mp (by decide +kernel),
      EStateM.Result.answer_eq_error_iff.mp (by decide +kernel)⟩
  obtain ⟨s, t, hfirst, hsecond⟩ := hstarts
  refine ⟨[(.startDocument, s)], t, ?_⟩
  rw [Source.drain_next hfirst (by decide), Source.drain_error hsecond]

/-- It writes no value, and what stands in front of the letter begins a text that does. -/
theorem fault_position_brokenNumber :
    (¬∃ v, IsText v brokenNumber) ∧
      ∃ given t, Source.drain (ofText brokenNumber) =
          (given, .error (.json ⟨.invalidNumber, 3⟩) t) ∧
        3 ≤ brokenNumber.utf8ByteSize ∧
        ∃ front back : String, brokenNumber = front ++ back ∧ front.utf8ByteSize = 3 ∧
          ∃ tail v, IsText v (front ++ tail) := by
  obtain ⟨given, t, hdrain⟩ := drain_brokenNumber
  have hnone : ¬∃ v, IsText v brokenNumber := by
    intro hv
    have hanswer := (answer_drain_iff brokenNumber).mpr hv
    rw [hdrain] at hanswer
    cases hanswer
  obtain ⟨_, _, _, hfails, hle, front, back, htext, hlength, hbegins⟩ :=
    fault_position brokenNumber hnone
  cases hdrain.symm.trans hfails
  exact ⟨hnone, given, t, hdrain, hle, front, back, htext, hlength, hbegins (by decide)⟩

end Tokenizer

end DocWalk.Json
