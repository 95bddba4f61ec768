import DocWalk.Proofs.Json.Failures
import DocWalk.Proofs.Json.Progress
import DocWalk.Proofs.Json.SafeScanning

/-!
# Reading finds no breach

From a state whose scanner stands in a text, the tokenizer with checks mirrors the one without,
whatever it awaits. A string and a scalar are read only behind the byte that begins them, and a byte
is passed only where one was seen. So no state is left in which a check could find a breach,
whatever was asked before and whatever has failed.

**The law** (`ask_checked`): every request to the tokenizer of a text is served with checks as it is
without; no byte and no slice is taken outside the input, no slice is taken for a text that is none,
and the position only grows, up to the end of the text.
-/

set_option autoImplicit false

namespace DocWalk.Json.Checked

open Utf8 (encode)

variable {α β : Type} {input : List UInt8} {t u : Tokenizer}

/-- A tokenizer stands at a position of the input. -/
structure Stands (input : List UInt8) (t : Tokenizer) : Prop where
  scanner_eq : t.scanner = scannerAt input t.position
  le_length : t.position ≤ input.length

/-- Forward to a position of the input. -/
structure Goes (input : List UInt8) (t u : Tokenizer) : Prop where
  le : t.position ≤ u.position
  stands : Stands input u

theorem Goes.trans {v : Tokenizer} (h : Goes input t u) (k : Goes input u v) : Goes input t v :=
  ⟨Nat.le_trans h.le k.le, k.stands⟩

theorem Goes.of_scanner_eq (ht : Stands input t) (h : u.scanner = t.scanner) : Goes input t u := by
  have hpos : u.position = t.position := congrArg Scanner.pos h
  refine ⟨Nat.le_of_eq hpos.symm, ?_, hpos ▸ ht.le_length⟩
  rw [hpos, h, ht.scanner_eq]

/-- From a state, an operation with checks does what one of the tokenizer does. -/
abbrev Reads {ε : Type} (input : List UInt8) (m' : EStateM (Stop ε) Tokenizer α)
    (m : EStateM ε Tokenizer α) (t : Tokenizer) : Prop :=
  Mirrors id (Goes input) m' m t

theorem Reads.bind {m' : CheckedTokenize α} {m : Tokenize α} {f' : α → CheckedTokenize β}
    {f : α → Tokenize β} (hm : Reads input m' m t)
    (hf : ∀ a u, m t = .ok a u → Stands input u → Reads input (f' a) (f a) u) :
    Reads input (m' >>= f') (m >>= f) t :=
  Mirrors.bind Goes.trans hm fun a u hok hgoes => hf a u hok hgoes.stands

/-- What counts is what the operations do in the state. -/
theorem Reads.congr {ε : Type} {m' n' : EStateM (Stop ε) Tokenizer α} {m n : EStateM ε Tokenizer α}
    (ht : Stands input t) (h : Reads input n' n t) (hm' : m' t = n' t) (hm : m t = n t) :
    Reads input m' m t :=
  Mirrors.step Goes.trans hm' hm (.of_scanner_eq ht rfl) h

/-- What the scanner reads safely the tokenizer does. -/
theorem reads_scan {m' : CheckedScan α} {m : Scan α} (ht : Stands input t)
    (h : Safe input m' m t.position) : Reads input (scan input m') (Tokenizer.scan m) t := by
  cases h with
  | @of_ok a pos hm' hm honward =>
    refine .of_ok (a := a) (t := { t with scanner := scannerAt input pos }) ?_ ?_
      ⟨honward.1, rfl, honward.2⟩
    · rw [scan, hm']
    · rw [id, Tokenizer.scan, ht.scanner_eq, hm]
      rfl
  | @of_fault e pos hm' hm honward =>
    refine .of_fault (e := e) (t := { t with scanner := scannerAt input pos }) ?_ ?_
      ⟨honward.1, rfl, honward.2⟩
    · rw [scan, hm']
    · rw [id, Tokenizer.scan, ht.scanner_eq, hm]
      rfl

/-! ## What is done without reading -/

/-- An operation that leaves the scanner where it stands. -/
def Still (m : Tokenize α) : Prop :=
  EStateM.Leads (fun t u => u.scanner = t.scanner) m

theorem still_closeMember : Still Tokenizer.closeMember := by
  intro t
  rw [Tokenizer.closeMember_eq]
  rfl

theorem still_openElement : Still Tokenizer.openElement := by
  intro t
  rw [Tokenizer.openElement_eq]
  rfl

theorem still_queueText (text : Option String) : Still (Tokenizer.queueText text) := by
  intro t
  cases text <;> rfl

theorem still_closeContainer (frame : Frame) : Still (Tokenizer.closeContainer frame) := by
  intro t
  unfold Tokenizer.closeContainer
  split
  · rfl
  split
  · exact still_closeMember _
  · rfl

theorem reads_plain {m : Tokenize α} (hm : Still m) (ht : Stands input t) :
    Reads input (plain m) m t := by
  cases hread : m t with
  | ok a u =>
    exact .of_ok (EStateM.adaptExcept_eq_ok.mpr hread) hread
      (.of_scanner_eq ht (hm.of_ok hread))
  | error e u =>
    exact .of_fault (EStateM.adaptExcept_eq_error.mpr ⟨e, hread, rfl⟩) hread
      (.of_scanner_eq ht (hm.of_error hread))

/-! ## Tokens -/

/-- The byte that shows behind blanks is the one at the position. -/
theorem byte_of_significant {b : Option UInt8} (h : Tokenizer.scan Scan.significant t = .ok b u)
    (hu : Stands input u) : input[u.position]? = b := by
  obtain ⟨s, hs, rfl⟩ := Tokenizer.scan_eq_ok.mp h
  obtain ⟨_, _, _, hpeek⟩ := EStateM.bind_eq_ok.mp hs
  simp only [Scan.peek, EStateM.Result.ok.injEq] at hpeek
  obtain ⟨hb, rfl⟩ := hpeek
  rw [← head?_scannerAt, ← hu.scanner_eq]
  exact hb

theorem reads_significant (ht : Stands input t) :
    Reads input (scan input (significant input)) (Tokenizer.scan Scan.significant) t :=
  reads_scan ht (safe_significant ht.le_length)

theorem reads_fail (reason : Reason) (ht : Stands input t) :
    Reads (α := α) input (scan input (fail reason)) (Tokenizer.scan (Scan.fail reason)) t :=
  reads_scan ht (safe_fail ht.le_length reason)

/-- A byte that shows can be passed. -/
theorem reads_advance {b : UInt8} (ht : Stands input t) (hb : input[t.position]? = some b) :
    Reads input (scan input (advance input 1)) (Tokenizer.scan (Scan.skip 1)) t :=
  reads_scan ht (safe_advance (List.getElem?_eq_some_iff.mp hb).1)

theorem reads_passClosing {b : UInt8} (frame : Frame) (ht : Stands input t)
    (hb : input[t.position]? = some b) :
    Reads input (passClosing input frame) (Tokenizer.passClosing frame) t :=
  (reads_advance ht hb).bind fun _ _ _ hu => reads_plain (still_closeContainer frame) hu

theorem reads_readScalar {b : UInt8} (htext : (scannerAt input 0).OnText) (ht : Stands input t)
    (hb : input[t.position]? = some b) :
    Reads input (readScalar input b) (Tokenizer.readScalar b) t :=
  (reads_scan ht (safe_scalar htext hb)).bind fun text _ _ hu =>
    (reads_plain (still_queueText text) hu).bind fun _ _ _ hv => reads_plain still_closeMember hv

theorem reads_readValue (htext : (scannerAt input 0).OnText) (ht : Stands input t) :
    Reads input (readValue input) Tokenizer.readValue t := by
  refine (reads_plain still_openElement ht).bind fun _ u _ hu => ?_
  refine (reads_significant hu).bind fun shown v hshown hv => ?_
  have hbyte := byte_of_significant hshown hv
  cases shown with
  | none => exact reads_fail .unexpectedEnd hv
  | some b =>
    simp only
    split
    next => exact (reads_advance hv hbyte).bind fun _ _ _ hw => reads_plain (fun _ => rfl) hw
    split
    next => exact (reads_advance hv hbyte).bind fun _ _ _ hw => reads_plain (fun _ => rfl) hw
    next => exact reads_readScalar htext hv hbyte

theorem reads_readMember (htext : (scannerAt input 0).OnText) (ht : Stands input t)
    (hquote : input[t.position]? = some Ascii.quote) :
    Reads input (readMember input) Tokenizer.readMember t := by
  refine (reads_scan ht (safe_string htext hquote)).bind fun key u _ hu => ?_
  refine (reads_scan hu (safe_expect _ _ hu.le_length)).bind fun _ v _ hv => ?_
  exact (reads_plain (fun _ => rfl) hv).bind fun _ _ _ hw => reads_plain (fun _ => rfl) hw

theorem reads_readKey (first : Bool) (htext : (scannerAt input 0).OnText) (ht : Stands input t) :
    Reads input (readKey input first) (Tokenizer.readKey first) t := by
  refine (reads_significant ht).bind fun b u hb hu => ?_
  have hbyte := byte_of_significant hb hu
  split
  next hclose => exact reads_passClosing .object hu (hbyte.trans hclose.2)
  split
  next hquote => exact reads_readMember htext hu (hbyte.trans hquote)
  next => exact reads_fail .expectedKey hu

theorem reads_readFirstElement (ht : Stands input t) :
    Reads input (readFirstElement input) Tokenizer.readFirstElement t := by
  refine (reads_significant ht).bind fun b u hb hu => ?_
  split
  next hclose => exact reads_passClosing .array hu ((byte_of_significant hb hu).trans hclose)
  next => exact reads_plain (fun _ => rfl) hu

theorem reads_readSeparator (frame : Frame) {b : Option UInt8} (ht : Stands input t)
    (hb : input[t.position]? = b) :
    Reads input (readSeparator input frame b) (Tokenizer.readSeparator frame b) t := by
  unfold readSeparator Tokenizer.readSeparator
  split
  next hcomma =>
    exact (reads_advance ht (hb.trans hcomma)).bind fun _ _ _ hu => reads_plain (fun _ => rfl) hu
  split
  next hclose => exact reads_passClosing frame ht (hb.trans hclose)
  next => exact reads_fail frame.missing ht

theorem reads_readEnd (b : Option UInt8) (ht : Stands input t) :
    Reads input (readEnd input b) (Tokenizer.readEnd b) t := by
  unfold readEnd Tokenizer.readEnd
  split
  next => exact reads_fail .trailingCharacters ht
  next => exact (reads_plain (fun _ => rfl) ht).bind fun _ _ _ hu => reads_plain (fun _ => rfl) hu

theorem reads_readAfterValue (ht : Stands input t) :
    Reads input (readAfterValue input) Tokenizer.readAfterValue t := by
  refine (reads_significant ht).bind fun b u hb hu => ?_
  have hbyte := byte_of_significant hb hu
  cases hframes : u.frames with
  | nil => exact (reads_readEnd b hu).congr hu (by rw [hframes]) (by rw [hframes])
  | cons frame outer =>
    exact (reads_readSeparator frame hu hbyte).congr hu (by rw [hframes]) (by rw [hframes])

/-- A step is safe whatever is awaited. -/
theorem reads_step (htext : (scannerAt input 0).OnText) (ht : Stands input t) :
    Reads input (step input) Tokenizer.step t := by
  have hstart : Reads input
      (do plain (Tokenizer.queue .startDocument); plain (Tokenizer.await .value))
      (do Tokenizer.queue .startDocument; Tokenizer.await .value) t :=
    (reads_plain (fun _ => rfl) ht).bind fun _ _ _ hu => reads_plain (fun _ => rfl) hu
  have hfinished : Reads input (plain (Tokenizer.queue .endDocument))
      (Tokenizer.queue .endDocument) t := reads_plain (fun _ => rfl) ht
  cases hexpect : t.expect with
  | start => exact hstart.congr ht (by rw [step, hexpect]) (by rw [Tokenizer.step, hexpect])
  | value =>
    exact (reads_readValue htext ht).congr ht (by rw [step, hexpect])
      (by rw [Tokenizer.step, hexpect])
  | firstKey =>
    exact (reads_readKey true htext ht).congr ht (by rw [step, hexpect])
      (by rw [Tokenizer.step, hexpect])
  | key =>
    exact (reads_readKey false htext ht).congr ht (by rw [step, hexpect])
      (by rw [Tokenizer.step, hexpect])
  | firstElement =>
    exact (reads_readFirstElement ht).congr ht (by rw [step, hexpect])
      (by rw [Tokenizer.step, hexpect])
  | afterValue =>
    exact (reads_readAfterValue ht).congr ht (by rw [step, hexpect])
      (by rw [Tokenizer.step, hexpect])
  | finished => exact hfinished.congr ht (by rw [step, hexpect]) (by rw [Tokenizer.step, hexpect])

/-! ## Requests -/

theorem reads_fill (htext : (scannerAt input 0).OnText) (ht : Stands input t) :
    Reads input (fill input) Tokenizer.fill t := by
  induction heffort : t.effort using Nat.strongRecOn generalizing t with
  | _ effort ih =>
  by_cases hp : t.pending = []
  · cases reads_step htext ht with
    | @of_ok _ u hstep' hstep hgoes =>
      have hlt := Tokenizer.effort_lt_of_step hp hstep
      refine Mirrors.step Goes.trans ?_ (Tokenizer.fill_turn hp hstep) hgoes
        (ih u.effort (heffort ▸ hlt) hgoes.stands rfl)
      rw [fill, if_pos hp, hstep']
      exact if_pos hlt
    | of_fault hstep' hstep hgoes =>
      refine .of_fault ?_ (Tokenizer.fill_of_step_error hp hstep) hgoes
      rw [fill, if_pos hp, hstep']
  · refine .of_ok (a := ()) ?_ (Tokenizer.fill_of_pending hp) (.of_scanner_eq ht rfl)
    rw [fill, if_neg hp]

theorem reads_ask (request : Request) (htext : (scannerAt input 0).OnText) (ht : Stands input t) :
    Reads input (ask input request) (Source.ask request) t := by
  cases reads_fill htext ht with
  | @of_ok _ u hfill' hfill hgoes =>
    obtain ⟨event, rest, hpending⟩ := List.exists_cons_of_ne_nil (Tokenizer.fill_ok hfill).2
    have hhead : u.pending.head? = some event := congrArg List.head? hpending
    have hask := Source.Queued.ask_of_fill request (Tokenizer.queued_fill_ok.mpr hfill) hpending
    refine .of_ok ?_ hask (hgoes.trans (.of_scanner_eq hgoes.stands ?_))
    · rw [ask, hfill']
      cases request with
      | peek => exact congrArg (EStateM.Result.ok · u) hhead
      | next =>
        simp only [hhead]
        rfl
    · cases request <;> rfl
  | of_fault hfill' hfill hgoes =>
    have hfill := Tokenizer.queued_fill_error.mpr ⟨_, hfill, rfl⟩
    refine .of_fault ?_ ((Source.Queued.ask_error_iff request).mpr hfill) hgoes
    rw [ask, hfill']
    rfl

theorem stands_after (requests : List Request) (htext : (scannerAt input 0).OnText)
    (ht : Stands input t) : Stands input (Source.after requests t) := by
  apply Source.after_keeps _ requests ht
  intro t request ht
  exact (reads_ask request htext ht).leads_left.2.stands

theorem after_eq (requests : List Request) (htext : (scannerAt input 0).OnText)
    (ht : Stands input t) : after input requests t = Source.after requests t := by
  induction requests generalizing t with
  | nil => rfl
  | cons request rest ih =>
    obtain ⟨hleft, hgoes⟩ := (reads_ask request htext ht).leads_left
    show after input rest (ask input request t).left = _
    rw [hleft]
    exact ih hgoes.stands

/-- **Reading never leaves the text and never takes for a text what is none.** Whatever is asked of
the tokenizer of a text and whatever has failed, with checks it comes to the same state and serves
the next request in the same way; no check finds a breach, and the position grows, up to the end of
the text. -/
theorem ask_checked (text : String) (requests : List Request) (request : Request) :
    let t := Source.after requests (Tokenizer.ofText text)
    after (encode text) requests (Tokenizer.ofText text) = t ∧
      ask (encode text) request t = (Source.ask request).adaptExcept .fault t ∧
      (∀ found u, ask (encode text) request t ≠ .error (.breach found) u) ∧
      t.position ≤ (Source.ask request t).left.position ∧
      (Source.ask request t).left.position ≤ text.utf8ByteSize := by
  intro t
  have htext : (scannerAt (encode text) 0).OnText := ⟨text.toList, rfl⟩
  have hstart : Stands (encode text) (Tokenizer.ofText text) := ⟨rfl, Nat.zero_le _⟩
  have hstands : Stands (encode text) t := stands_after requests htext hstart
  have hreads := reads_ask request htext hstands
  have heq := hreads.eq_adaptExcept
  have hgoes := hreads.leads_left.2
  refine ⟨after_eq requests htext hstart, heq, ?_, hgoes.le, ?_⟩
  · intro found u hbreach
    obtain ⟨e, _, he⟩ := EStateM.adaptExcept_eq_error.mp (heq.symm.trans hbreach)
    cases he
  · rw [← Utf8.length_encode]
    exact hgoes.stands.le_length

end DocWalk.Json.Checked
