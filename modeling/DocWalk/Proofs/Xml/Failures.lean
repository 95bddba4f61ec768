import Mathlib.Algebra.GroupWithZero.Nat
import DocWalk.Proofs.Xml.Nesting

/-!
# What comes behind an error of an XML document

A token that fails to be read is gone, and the document goes on behind it. Its element may be open for
the reader and not for the content, and then its end tag closes a node that was never opened; so behind
an error more nodes may be closed than were opened, and never fewer without a word: each node that
is opened is closed, or told to be open where the document ends (`Accounted`).

Two kinds of faults are the last: markup that does not end drops what is left of the document, and an
element that is open at its end is only told there (`Fault.isLast`). Behind these nothing is read.

**The laws** (`Aftermath`): a document that has ended has accounted for every node it opened; behind a
fault of the last kinds each element still open is an error of its own, innermost first, and then there
is the end; and no error is fatal, for each takes bytes or an open element, and behind the last of them
there is an event (`Document.not_fatal`).
-/

set_option autoImplicit false

namespace DocWalk.Xml

open Source (Queued ask after answers given)

/-! ## Faults behind which nothing is read -/

/-- Whether nothing is read behind a fault. -/
def Fault.isLast : Fault → Bool
  | malformed _ | illFormed (.missingEndTag _) => true
  | illFormed .missingDoctypeName | illFormed (.unmatchedEndTag _)
  | illFormed (.mismatchedEndTag _ _) | badAttribute _ | encoding _ | reference _ => false

theorem isLast_of_readText {bytes : List UInt8} {fault : Fault}
    (h : readText bytes = .error fault) : fault.isLast = false := by
  unfold readText at h
  cases hdecode : Utf8.decode bytes with
  | error e =>
    rw [hdecode] at h
    cases h
    rfl
  | ok text =>
    rw [hdecode] at h
    replace h : ((Reference.resolveAll bytes.length 0 text.toList).mapError Fault.reference >>=
        fun chars => pure (String.ofList chars)) = Except.error fault := h
    cases hresolve : Reference.resolveAll bytes.length 0 text.toList with
    | error e =>
      rw [hresolve] at h
      cases h
      rfl
    | ok chars =>
      rw [hresolve] at h
      cases h

theorem isLast_of_readAttributes {total : Nat} {seen : List RawAttribute} {bytes : List UInt8}
    {fault : Fault} (h : readAttributes total seen bytes = .error fault) :
    fault.isLast = false := by
  fun_induction readAttributes total seen bytes with
  | case1 => cases h
  | case2 =>
    cases h
    rfl
  | case3 _ _ _ _ _ _ _ _ _ ih => exact ih h
  | case4 _ _ _ _ _ _ _ _ _ _ hread =>
    cases h
    exact isLast_of_readText hread
  | case5 _ _ _ _ _ _ _ _ _ _ _ ih => exact ih (Except.map_eq_error.mp h)

theorem isLast_of_node {tag : Tag} {fault : Fault} (h : tag.node = .error fault) :
    fault.isLast = false := by
  rw [Tag.node] at h
  cases hread : readAttributes tag.content.length [] (tag.content.drop tag.name.length) with
  | error e =>
    rw [hread] at h
    cases h
    exact isLast_of_readAttributes hread
  | ok attributes =>
    rw [hread] at h
    cases h

/-- A token whose text or attributes are bad is not the last. -/
theorem isLast_of_take {content : Content} {token : Token} {fault : Fault}
    (h : content.take token = .error fault) : fault.isLast = false := by
  cases token with
  | startTag tag | emptyElement tag => exact isLast_of_node (Except.map_eq_error.mp h)
  | text bytes => exact isLast_of_readText (Except.map_eq_error.mp h)
  | endTag | cdata | aside | finish => cases h

namespace Reader

/-- A fault takes bytes. Where the reading comes to the end of the bytes, or fails for good, nothing is
left of them. -/
def Leaves (r : Reader) : Reading → Prop
  | .ok token s => token = .finish → s.rest = []
  | .error fault s => s.rest.length < r.rest.length ∧ (fault.isLast → s.rest = [])

/-- Markup leaves what stands behind it, or a fault drops all of that. -/
def Spares (rest : List UInt8) : Reading → Prop
  | .ok token s => token ≠ .finish ∧ s.rest = rest
  | .error fault s => s.rest = [] ∨ fault.isLast = false ∧ s.rest = rest

theorem spares_of_mem {emit : List UInt8 → Reader → Reading} (h : emit ∈ emitters)
    (content : List UInt8) (r : Reader) : Spares r.rest (emit content r) := by
  simp only [emitters, List.mem_cons, List.not_mem_nil, or_false] at h
  rcases h with rfl | rfl | rfl | rfl | rfl | rfl
  · unfold emitEndTag
    dsimp only
    split
    · exact .inr ⟨rfl, rfl⟩
    · split
      · exact ⟨by simp, rfl⟩
      · exact .inr ⟨rfl, rfl⟩
  · unfold emitTag
    split <;> exact ⟨by simp, rfl⟩
  · unfold emitInstruction
    split
    · exact ⟨by simp, rfl⟩
    · exact .inl rfl
  · unfold emitComment
    split
    · exact ⟨by simp, rfl⟩
    · exact .inl rfl
  · unfold emitCData
    split
    · exact ⟨by simp, rfl⟩
    · exact .inl rfl
  · unfold emitDoctype
    split
    · split
      · exact .inr ⟨rfl, rfl⟩
      · exact ⟨by simp, rfl⟩
    · exact .inl rfl

theorem Spares.leaves {r : Reader} {rest : List UInt8} {reading : Reading}
    (h : Spares rest reading) (hlt : rest.length < r.rest.length) : r.Leaves reading := by
  cases reading with
  | ok token s => exact fun hfinish => absurd hfinish h.1
  | error fault s =>
    rcases h with hnil | ⟨hlast, hrest⟩
    · refine ⟨?_, fun _ => hnil⟩
      rw [hnil]
      exact Nat.lt_of_le_of_lt (Nat.zero_le _) hlt
    · refine ⟨?_, fun h => by cases hlast.symm.trans h⟩
      rw [hrest]
      exact hlt

theorem leaves_read (r : Reader) : r.Leaves r.read := by
  unfold read
  split
  next hrest => exact fun _ => hrest
  next b inside hr =>
    have hlength : r.rest.length = inside.length + 1 := congrArg List.length hr
    split
    · refine r.readMarkup_cases inside (fun _ _ => ⟨?_, fun _ => rfl⟩)
        fun emit hmem content rest pos hlt => (spares_of_mem hmem content _).leaves ?_
      · rw [hlength]
        exact Nat.succ_pos _
      · rw [hlength]
        exact Nat.lt_succ_of_lt hlt
    · exact fun h => by cases h

end Reader

/-! ## Nodes are closed or told to be open -/

/-- How many open elements a fault tells of. -/
def Fault.tells : Fault → Nat
  | illFormed (.missingEndTag _) => 1
  | malformed _ | illFormed .missingDoctypeName | illFormed (.unmatchedEndTag _)
  | illFormed (.mismatchedEndTag _ _) | badAttribute _ | encoding _ | reference _ => 0

/-- How many open elements an answer tells of. -/
def tellsOf : Request × Except SourceError (Option Event) → Nat
  | (_, .error (.xml fault)) => fault.tells
  | (_, .error (.json _)) | (_, .ok _) => 0

/-- How many elements answers tell to be open where the document ends. -/
def told (answers : List (Request × Except SourceError (Option Event))) : Nat :=
  (answers.map tellsOf).sum

/-- Each node that was opened, as far as the events are given or wait, is closed, told to be open, or
still open. -/
structure Accounted (given : List Event) (told : Nat) (d : Document) : Prop where
  opens_le : opens (given ++ d.content.pending) ≤
    closes (given ++ d.content.pending) + told + d.content.openNames.length
  /-- The end waits or is given only behind the last element. -/
  finished_of_mem : .endDocument ∈ given ++ d.content.pending → d.phase = .finished
  of_finished : d.phase = .finished →
    d.content.openNames = [] ∧ ∀ event ∈ d.content.pending, event = .endDocument

theorem opens_append (events more : List Event) :
    opens (events ++ more) = opens events + opens more :=
  List.countP_append

theorem closes_append (events more : List Event) :
    closes (events ++ more) = closes events + closes more :=
  List.countP_append

/-- What a piece opens is closed or open behind it. -/
theorem Content.opens_takePiece (content : Content) (piece : Piece) :
    ∃ added, (content.takePiece piece).pending = content.pending ++ added ∧
      .endDocument ∉ added ∧
      opens added + content.openNames.length ≤
        closes added + (content.takePiece piece).openNames.length := by
  by_cases hclosed : piece = .mark .closes ∧ content.openNames = []
  · -- The end tag of an element whose start tag was refused.
    obtain ⟨rfl, hnames⟩ := hclosed
    refine ⟨content.held.toList.map .text ++ [.endNode], ?_, ?_, ?_⟩
    · show content.release.pending ++ [.endNode] = _
      rw [pending_release, List.append_assoc]
    · simp
    · have htexts : opens (content.held.toList.map .text) = 0 :=
        List.countP_eq_zero.mpr (by simp [Event.isStartNode])
      rw [hnames, opens_append, htexts]
      exact Nat.zero_le _
  · have hopen : piece = .mark .closes → content.openNames ≠ [] :=
      fun hpiece hnames => hclosed ⟨hpiece, hnames⟩
    obtain ⟨added, hpending, htells⟩ := content.tells_takePiece piece hopen
    refine ⟨added, hpending, ?_, ?_⟩
    · intro hmem
      cases htells.ended_of_mem hmem
    · have hdepth := htells.depth_eq
      simp only [Stage.depth] at hdepth
      omega

namespace Accounted

variable {given : List Event} {told : Nat} {d e : Document}

/-- What is read before the end keeps the account, when what it opens is closed or open behind it. -/
theorem read (h : Accounted given told d) (added : List Event) (hd : d.phase ≠ .finished)
    (he : e.phase ≠ .finished) (hpending : e.content.pending = d.content.pending ++ added)
    (hend : .endDocument ∉ added)
    (hopens : opens added + d.content.openNames.length ≤
      closes added + e.content.openNames.length) : Accounted given told e := by
  refine ⟨?_, fun hmem => ?_, fun hphase => absurd hphase he⟩
  · have hle := h.opens_le
    rw [hpending, ← List.append_assoc, opens_append, closes_append]
    omega
  · rw [hpending, ← List.append_assoc] at hmem
    rcases List.mem_append.mp hmem with hmem | hmem
    · exact absurd (h.finished_of_mem hmem) hd
    · exact absurd hmem hend

theorem take (h : Accounted given told d) (hphase : d.phase = .reading) {token : Token}
    {content : Content} (hc : d.content.take token = .ok content) (reader : Reader) :
    Accounted given told { d with reader, content } := by
  rw [Content.take_eq] at hc
  obtain ⟨piece, _, rfl⟩ := Except.map_eq_ok.mp hc
  obtain ⟨added, hpending, hend, hopens⟩ := d.content.opens_takePiece piece
  have hne : d.phase ≠ .finished := by rw [hphase]; exact nofun
  exact h.read added hne hne hpending hend hopens

/-- The reader may go on without the content. -/
theorem withReader (h : Accounted given told d) (reader : Reader) :
    Accounted given told { d with reader } :=
  ⟨h.opens_le, h.finished_of_mem, h.of_finished⟩

theorem mono (h : Accounted given told d) {more : Nat} (hle : told ≤ more) :
    Accounted given more d := by
  refine ⟨?_, h.finished_of_mem, h.of_finished⟩
  have := h.opens_le
  omega

/-- Behind the last element the end is queued. -/
theorem queueEnd (h : Accounted given told d) (hnames : d.content.openNames = [])
    (hpending : d.content.pending = []) :
    Accounted given told { d with content := d.content.queue .endDocument, phase := .finished } := by
  have hcount : ∀ count : List Event → Nat, count = opens ∨ count = closes →
      count (given ++ (d.content.queue .endDocument).pending) = count given := by
    rintro count (rfl | rfl)
    · rw [Content.queue, hpending, opens_append]
      rfl
    · rw [Content.queue, hpending, closes_append]
      rfl
  have hle := h.opens_le
  rw [hpending, List.append_nil] at hle
  refine ⟨?_, fun _ => rfl, fun _ => ⟨hnames, ?_⟩⟩
  · rw [hcount opens (.inl rfl), hcount closes (.inr rfl)]
    exact hle
  · show ∀ event ∈ d.content.pending ++ [.endDocument], event = .endDocument
    rw [hpending]
    exact fun event hmem => List.mem_singleton.mp hmem

theorem fill_ok (h : Accounted given told d) (hfill : Document.fill d = .ok () e) :
    Accounted given told e := by
  fun_induction Document.fill d with
  | case1 =>
    cases hfill
    exact h
  | case2 d hp hphase =>
    cases hfill
    exact h.read [.startDocument] (by rw [hphase]; simp) (by simp) rfl (by simp) (Nat.le_refl _)
  | case3 d hp hphase =>
    cases hfill
    have hend := h.queueEnd (h.of_finished hphase).1 (Classical.not_not.mp hp)
    rwa [← hphase] at hend
  | case4 => cases hfill
  | case5 d hp hphase reader =>
    unfold Document.finish at hfill
    split at hfill
    · cases hfill
    next hnames =>
      cases hfill
      exact (h.withReader reader).queueEnd hnames (Classical.not_not.mp hp)
  | case6 => cases hfill
  | case7 d hp hphase token reader hr ht content hc ih => exact ih (h.take hphase hc reader) hfill

/-- An element that is open where the document ends is told. -/
theorem fill_error (h : Accounted given told d) {fault : Fault}
    (hfill : Document.fill d = .error fault e) :
    Accounted given (told + fault.tells) e := by
  fun_induction Document.fill d with
  | case1 | case2 | case3 => cases hfill
  | case4 d hp hphase fault' reader =>
    cases hfill
    exact (h.withReader reader).mono (Nat.le_add_right _ _)
  | case5 d hp hphase reader =>
    unfold Document.finish at hfill
    split at hfill
    next name outer hnames =>
      cases hfill
      refine ⟨?_, h.finished_of_mem, fun hfinished => ?_⟩
      · have hle := h.opens_le
        have hlength : d.content.openNames.length = outer.length + 1 := congrArg List.length hnames
        show opens (given ++ d.content.pending) ≤
          closes (given ++ d.content.pending) + (told + 1) + outer.length
        omega
      · cases hphase.symm.trans hfinished
    · cases hfill
  | case6 d hp hphase token reader =>
    cases hfill
    exact (h.withReader reader).mono (Nat.le_add_right _ _)
  | case7 d hp hphase token reader hr ht content hc ih => exact ih (h.take hphase hc reader) hfill

/-- To give an event changes the account of no node. -/
theorem dropFirst (h : Accounted given told d) {event : Event} {rest : List Event}
    (hpending : d.content.pending = event :: rest) :
    Accounted (given ++ [event]) told { d with content.pending := d.content.pending.tail } := by
  have hmove : given ++ [event] ++ d.content.pending.tail = given ++ d.content.pending := by
    rw [hpending, List.tail_cons, ← List.append_cons]
  refine ⟨?_, fun hmem => ?_, fun hphase => ?_⟩
  · show opens (given ++ [event] ++ d.content.pending.tail) ≤
      closes (given ++ [event] ++ d.content.pending.tail) + told + d.content.openNames.length
    rw [hmove]
    exact h.opens_le
  · apply h.finished_of_mem
    rw [← hmove]
    exact hmem
  · obtain ⟨hnames, hend⟩ := h.of_finished hphase
    exact ⟨hnames, fun event hmem => hend event (List.mem_of_mem_tail hmem)⟩

/-- Behind the end of the document nothing is open that was not told of. -/
theorem closed (h : Accounted given told d) (hend : .endDocument ∈ given) :
    opens given ≤ closes given + told := by
  have hphase := h.finished_of_mem (List.mem_append_left _ hend)
  obtain ⟨hnames, hpending⟩ := h.of_finished hphase
  have hopens : opens d.content.pending = 0 :=
    List.countP_eq_zero.mpr fun event hmem => by rw [hpending event hmem]; exact nofun
  have hcloses : closes d.content.pending = 0 :=
    List.countP_eq_zero.mpr fun event hmem => by rw [hpending event hmem]; exact nofun
  have hle := h.opens_le
  rw [opens_append, closes_append, hopens, hcloses, hnames] at hle
  exact hle

end Accounted

namespace Document

theorem queued_fill_error {d e : Document} {error : SourceError} :
    (Queued.fill : EStateM SourceError Document Unit) d = .error error e ↔
      ∃ fault, fill d = .error fault e ∧ error = .xml fault :=
  EStateM.adaptExcept_eq_error

/-- Whatever is asked, each node that was opened is accounted for. -/
theorem accounted_answers (requests : List Request) (bytes : List UInt8) :
    Accounted (given (answers requests (ofBytes bytes))) (told (answers requests (ofBytes bytes)))
      (after requests (ofBytes bytes)) := by
  refine Source.answers_keep (P := fun answers d => Accounted (given answers) (told answers) d)
    ?_ requests ⟨Nat.le_refl _, nofun, nofun⟩
  intro before d request h
  rw [given, told, List.filterMap_append, List.map_append, List.sum_append]
  rcases Queued.ask_cases request d with
    ⟨e, event, rest, hfill, hpending, hask⟩ | ⟨error, e, hfill, hask⟩
  · have he := h.fill_ok (queued_fill_ok.mp hfill)
    rw [hask]
    cases request with
    | peek =>
      rw [List.filterMap_cons_none rfl, List.filterMap_nil, List.append_nil]
      exact he
    | next => exact he.dropFirst hpending
  · obtain ⟨fault, hread, rfl⟩ := queued_fill_error.mp hfill
    rw [hask]
    have he := h.fill_error hread
    cases request
    all_goals
      rw [List.filterMap_cons_none rfl, List.filterMap_nil, List.append_nil]
      exact he

/-! ## Where nothing is left to read -/

/-- The answers of a document with nothing left to read: each element still open is an error of its
own, innermost first, and behind them there is the end. -/
def lastAnswers : List String → List Request → List (Except SourceError (Option Event))
  | _, [] => []
  | name :: outer, _ :: rest =>
    .error (.xml (.illFormed (.missingEndTag name))) :: lastAnswers outer rest
  | [], _ :: rest => .ok (some .endDocument) :: lastAnswers [] rest

/-- A document with nothing left to read, of which the start was given. -/
structure Spent (d : Document) : Prop where
  rest_nil : d.reader.rest = []
  started : d.phase ≠ .fresh
  pending_end : ∀ event ∈ d.content.pending, event = .endDocument
  closed : d.phase = .finished ∨ d.content.pending ≠ [] → d.content.openNames = []

theorem fill_spent {r : Reader} {content : Content} (hrest : r.rest = [])
    (hpending : content.pending = []) :
    fill ⟨r, content, .reading⟩ = finish ⟨r, content, .reading⟩ := by
  have hread : r.read = .ok .finish r := by
    rw [Reader.read, hrest]
  rw [fill, if_neg (not_not_intro hpending)]
  dsimp only
  split
  next hr => cases hread.symm.trans hr
  next hr =>
    cases hread.symm.trans hr
    rfl

/-- The innermost element that is open is told, and is open no more. -/
theorem Spent.ask_open {d : Document} (h : d.Spent) {name : String} {outer : List String}
    (hnames : d.content.openNames = name :: outer) (request : Request) :
    ∃ e, ask request d = .error (.xml (.illFormed (.missingEndTag name))) e ∧ e.Spent ∧
      e.content.openNames = outer := by
  have hopen : ¬(d.phase = .finished ∨ d.content.pending ≠ []) := by
    intro hclosed
    cases hnames.symm.trans (h.closed hclosed)
  obtain ⟨hphase, hpending⟩ := not_or.mp hopen
  obtain ⟨reader, ⟨pending, openNames, held, inContent⟩, phase⟩ := d
  obtain rfl : pending = [] := Classical.not_not.mp hpending
  obtain rfl : openNames = name :: outer := hnames
  obtain rfl : phase = .reading := by
    cases phase with
    | fresh => exact absurd rfl h.started
    | reading => rfl
    | finished => exact absurd rfl hphase
  refine ⟨⟨reader, ⟨[], outer, held, inContent⟩, .reading⟩, ?_, ?_, rfl⟩
  · exact (Queued.ask_error_iff request).mpr
      (queued_fill_error.mpr ⟨_, fill_spent h.rest_nil rfl, rfl⟩)
  · exact ⟨h.rest_nil, nofun, nofun, fun hclosed => absurd hclosed (by simp)⟩

/-- With no element open the end is ready. -/
theorem Spent.fill_closed {d : Document} (h : d.Spent) (hnames : d.content.openNames = []) :
    ∃ e rest, fill d = .ok () e ∧ e.content.pending = .endDocument :: rest ∧ e.Spent ∧
      e.content.openNames = [] := by
  cases hpending : d.content.pending with
  | cons event rest =>
    have hevent := h.pending_end event (hpending ▸ List.mem_cons_self)
    refine ⟨d, rest, fill_of_pending (by rw [hpending]; exact List.cons_ne_nil _ _), ?_, h, hnames⟩
    rw [hpending, hevent]
  | nil =>
    have hqueued : (d.content.queue .endDocument).pending = [.endDocument] := by
      rw [Content.queue, hpending]
      rfl
    have hspent : Spent { d with content := d.content.queue .endDocument, phase := .finished } := by
      refine ⟨h.rest_nil, by simp, ?_, fun _ => hnames⟩
      rw [hqueued]
      exact fun event hmem => List.mem_singleton.mp hmem
    refine ⟨_, [], ?_, hqueued, hspent, hnames⟩
    obtain ⟨reader, content, phase⟩ := d
    cases phase with
    | fresh => exact absurd rfl h.started
    | reading =>
      rw [fill_spent h.rest_nil hpending, finish]
      split
      next hopen => cases hnames.symm.trans hopen
      next => rfl
    | finished => rw [fill, if_neg (not_not_intro hpending)]

/-- With no element open there is the end. -/
theorem Spent.ask_closed {d : Document} (h : d.Spent) (hnames : d.content.openNames = [])
    (request : Request) :
    ∃ e, ask request d = .ok (some .endDocument) e ∧ e.Spent ∧ e.content.openNames = [] := by
  obtain ⟨e, rest, hfill, hpending, hspent, hclosed⟩ := h.fill_closed hnames
  refine ⟨_, Queued.ask_of_fill request (queued_fill_ok.mpr hfill) hpending, ?_⟩
  cases request with
  | peek => exact ⟨hspent, hclosed⟩
  | next =>
    refine ⟨⟨hspent.rest_nil, hspent.started, ?_, fun _ => hclosed⟩, hclosed⟩
    exact fun event hmem => hspent.pending_end event (List.mem_of_mem_tail hmem)

theorem Spent.answers {d : Document} (h : d.Spent) (requests : List Request) :
    (answers requests d).map Prod.snd = lastAnswers d.content.openNames requests := by
  induction requests generalizing d with
  | nil => cases d.content.openNames <;> rfl
  | cons request rest ih =>
    rw [Source.answers, List.map_cons]
    cases hnames : d.content.openNames with
    | nil =>
      obtain ⟨e, hask, hspent, hclosed⟩ := h.ask_closed hnames request
      rw [hask, EStateM.Result.left_ok, ih hspent, hclosed]
      rfl
    | cons name outer =>
      obtain ⟨e, hask, hspent, houter⟩ := h.ask_open hnames request
      rw [hask, EStateM.Result.left_error, ih hspent, houter]
      rfl

/-- Behind a fault of the last kinds nothing is left to read. -/
theorem spent_of_fill {d e : Document} {fault : Fault} (h : fill d = .error fault e)
    (hlast : fault.isLast) : e.Spent := by
  have hspent : ∀ {r : Reader} {content : Content}, r.rest = [] → content.pending = [] →
      Spent ⟨r, content, .reading⟩ := by
    intro r content hrest hpending
    refine ⟨hrest, nofun, ?_, fun hclosed => ?_⟩
    · rw [hpending]
      exact nofun
    · rcases hclosed with hclosed | hclosed
      · cases hclosed
      · exact absurd hpending hclosed
  fun_induction fill d with
  | case1 | case2 | case3 => cases h
  | case4 d hp hphase fault' reader hr =>
    cases h
    have hleaves := Reader.leaves_read d.reader
    rw [hr] at hleaves
    rw [hphase]
    exact hspent (hleaves.2 hlast) (Classical.not_not.mp hp)
  | case5 d hp hphase reader hr =>
    have hleaves := Reader.leaves_read d.reader
    rw [hr] at hleaves
    unfold finish at h
    split at h
    · cases h
      rw [hphase]
      exact hspent (hleaves rfl) (Classical.not_not.mp hp)
    · cases h
  | case6 d hp hphase token reader hr ht fault' hc =>
    cases h
    cases hlast.symm.trans (isLast_of_take hc)
  | case7 d hp hphase token reader hr ht content hc ih => exact ih h

/-! ## No error is the last answer -/

/-- A bound on the errors left: each takes bytes, or tells of an element that is open; and what opens
an element takes bytes. -/
def potential (d : Document) : Nat :=
  2 * d.reader.rest.length + d.content.openNames.length

theorem length_openNames_takePiece (content : Content) (piece : Piece) :
    (content.takePiece piece).openNames.length ≤ content.openNames.length + 1 := by
  cases piece with
  | mark mark =>
    cases mark with
    | opens node => exact Nat.le_refl _
    | empty node => exact Nat.le_succ _
    | closes =>
      show content.openNames.tail.length ≤ _
      rw [List.length_tail]
      omega
  | chunk chunk =>
    rw [Content.takePiece, Content.openNames_takeChunk]
    exact Nat.le_succ _
  | aside => exact Nat.le_succ _

theorem potential_lt {d e : Document} {fault : Fault} (h : fill d = .error fault e) :
    e.potential < d.potential := by
  fun_induction fill d with
  | case1 | case2 | case3 => cases h
  | case4 d hp hphase fault' reader hr =>
    cases h
    have hleaves := Reader.leaves_read d.reader
    rw [hr] at hleaves
    have hlt := hleaves.1
    simp only [potential]
    omega
  | case5 d hp hphase reader hr =>
    have hle : reader.rest.length ≤ d.reader.rest.length := by
      rcases Reader.read_ok hr with ⟨_, rfl⟩ | hlt
      · exact Nat.le_refl _
      · exact Nat.le_of_lt hlt
    unfold finish at h
    split at h
    next name outer hnames =>
      cases h
      have hlength : d.content.openNames.length = outer.length + 1 := congrArg List.length hnames
      simp only [potential]
      omega
    · cases h
  | case6 d hp hphase token reader hr ht =>
    cases h
    have := Reader.read_lt hr ht
    simp only [potential]
    omega
  | case7 d hp hphase token reader hr ht content hc ih =>
    rw [Content.take_eq] at hc
    obtain ⟨piece, _, rfl⟩ := Except.map_eq_ok.mp hc
    have hlt := ih h
    have hread := Reader.read_lt hr ht
    have hopens := length_openNames_takePiece d.content piece
    simp only [potential] at hlt ⊢
    omega

/-- Whoever asks on is given an event at last. -/
theorem not_fatal (d : Document) : ¬Source.Fatal d := by
  induction hn : d.potential using Nat.strong_induction_on generalizing d with
  | h n ih =>
    intro hfatal
    rcases Queued.ask_cases .next d with ⟨e, event, rest, _, _, hask⟩ | ⟨error, e, hfill, hask⟩
    · obtain ⟨error, herror⟩ := hfatal [] .next
      change (ask .next d).answer = _ at herror
      rw [hask] at herror
      cases herror
    · obtain ⟨fault, hread, _⟩ := queued_fill_error.mp hfill
      refine ih e.potential (hn ▸ potential_lt hread) e rfl fun more request => ?_
      have hlater := hfatal (.next :: more) request
      rw [after, List.foldl_cons, hask] at hlater
      exact hlater

end Document

/-- What may come behind the errors of a document, whatever a caller asks on. -/
structure Aftermath (bytes : List UInt8) : Prop where
  /-- Where the end was given, each node that was given was closed, or told to be open. -/
  accounted : ∀ requests,
    .endDocument ∈ given (answers requests (Document.ofBytes bytes)) →
      opens (given (answers requests (Document.ofBytes bytes))) ≤
        closes (given (answers requests (Document.ofBytes bytes))) +
          told (answers requests (Document.ofBytes bytes))
  /-- Behind a fault of the last kinds come the elements that are open, and the end. -/
  last : ∀ requests request fault d,
    ask request (after requests (Document.ofBytes bytes)) = .error (.xml fault) d →
      fault.isLast → ∀ more,
        (answers more d).map Prod.snd = Document.lastAnswers d.content.openNames more
  /-- No error is fatal. -/
  not_fatal : ∀ requests request error d,
    ask request (after requests (Document.ofBytes bytes)) = .error error d → ¬Source.Fatal d

theorem Document.aftermath (bytes : List UInt8) : Aftermath bytes := by
  constructor
  · intro requests hend
    exact (accounted_answers requests bytes).closed hend
  · intro requests request fault d h hlast more
    obtain ⟨_, hread, hfault⟩ := queued_fill_error.mp ((Queued.ask_error_iff request).mp h)
    cases hfault
    exact (spent_of_fill hread hlast).answers more
  · exact fun _ _ _ d _ => d.not_fatal

end DocWalk.Xml
