import DocWalk.Proofs.Source.Emission
import DocWalk.Xml.Document

/-!
# A document as the pieces it is read in

What a token says of a document is a `Piece`: a tag with its node, a text with its references
resolved, or something that is no event. `Reads` says in which pieces a reader reads all that is
left, with no error on the way. The content of the document is then a fold over them (`take_eq`),
and what a document is still to give is known from the end of that fold (`Yields`): the events
pending there, and the names of the elements still open there.

**The laws.** Whatever is asked, a document gives those events in order, and then ends when nothing is
open (`emits_of_reads`). Draining it gives them and the end, or fails for the innermost element that
is still open (`drain_of_reads`).
-/

set_option autoImplicit false

namespace DocWalk.Xml

/-- What a tag does, with the node of one that opens. -/
inductive Mark where
  | opens (node : Node)
  /-- An empty element. -/
  | empty (node : Node)
  | closes
  deriving DecidableEq, Repr, Inhabited

/-- A text between two pieces of markup, or a CDATA section. -/
structure Chunk where
  text : String
  cdata : Bool := false
  deriving DecidableEq, Repr, Inhabited

/-- What a token says. -/
inductive Piece where
  | mark (mark : Mark)
  | chunk (chunk : Chunk)
  /-- A comment, a processing instruction, a declaration or a document type. -/
  | aside
  deriving DecidableEq, Repr, Inhabited

/-- The piece that a token stands for, unless its attributes or references are bad. -/
def Token.piece : Token → Except Fault Piece
  | .startTag tag => tag.node.map fun node => .mark (.opens node)
  | .emptyElement tag => tag.node.map fun node => .mark (.empty node)
  | .endTag => .ok (.mark .closes)
  | .text bytes => (readText bytes).map fun text => .chunk { text }
  | .cdata bytes => .ok (.chunk { text := Utf8.decodeLossy bytes, cdata := true })
  | .aside | .finish => .ok .aside

/-- A reader reads what is left of its document in these pieces, without an error. -/
inductive Reads : Reader → List Piece → Prop where
  | done {r s : Reader} : r.read = .ok .finish s → Reads r []
  | piece {r s : Reader} {token : Token} {piece : Piece} {rest : List Piece} :
      r.read = .ok token s → token ≠ .finish → token.piece = .ok piece → Reads s rest →
      Reads r (piece :: rest)

/-- The names of the elements that are open behind some pieces, innermost first. -/
def unclosed (openNames : List String) : List Piece → List String
  | [] => openNames
  | .mark (.opens node) :: rest => unclosed (node.name :: openNames) rest
  | .mark .closes :: rest => unclosed openNames.tail rest
  | .mark (.empty _) :: rest | .chunk _ :: rest | .aside :: rest => unclosed openNames rest

/-! ## Pieces in a content -/

namespace Content

def takeMark (content : Content) : Mark → Content
  | .opens node => content.openNode node
  | .empty node => content.emptyNode node
  | .closes => content.closeNode

def takeChunk (content : Content) (chunk : Chunk) : Content :=
  if chunk.cdata then content.addText chunk.text else content.takeText chunk.text

def takePiece (content : Content) : Piece → Content
  | .mark mark => content.takeMark mark
  | .chunk chunk => content.takeChunk chunk
  | .aside => content

/-- A token is taken as its piece, and refused when it has none. -/
theorem take_eq (content : Content) (token : Token) :
    content.take token = token.piece.map content.takePiece := by
  cases token with
  | startTag tag => cases h : tag.node <;> simp only [take, Token.piece, h] <;> rfl
  | emptyElement tag => cases h : tag.node <;> simp only [take, Token.piece, h] <;> rfl
  | endTag => rfl
  | text bytes => cases h : readText bytes <;> simp only [take, Token.piece, h] <;> rfl
  | cdata bytes => rfl
  | aside => rfl
  | finish => rfl

/-- The same content with more events pending in front. -/
def behind (events : List Event) (content : Content) : Content :=
  { content with pending := events ++ content.pending }

theorem queue_behind (events : List Event) (content : Content) (event : Event) :
    (content.behind events).queue event = (content.queue event).behind events := by
  simp only [queue, behind, List.append_assoc]

theorem release_behind (events : List Event) (content : Content) :
    (content.behind events).release = content.release.behind events := by
  obtain ⟨pending, openNames, held, inContent⟩ := content
  cases held with
  | none => rfl
  | some blank => simp only [release, queue, behind, List.append_assoc]

theorem addText_behind (events : List Event) (content : Content) (text : String) :
    (content.behind events).addText text = (content.addText text).behind events := by
  rw [addText, release_behind, queue_behind]
  rfl

theorem hold_behind (events : List Event) (content : Content) (blank : String) :
    (content.behind events).hold blank = (content.hold blank).behind events := by
  obtain ⟨pending, openNames, held, inContent⟩ := content
  cases inContent <;> rfl

/-- A piece adds events at the end, whatever is pending in front. -/
theorem takePiece_behind (events : List Event) (content : Content) (piece : Piece) :
    (content.behind events).takePiece piece = (content.takePiece piece).behind events := by
  cases piece with
  | mark mark =>
    cases mark with
    | opens node =>
      rw [takePiece, takeMark, openNode, queue_behind]
      rfl
    | empty node =>
      rw [takePiece, takeMark, emptyNode, queue_behind, queue_behind]
      rfl
    | closes =>
      rw [takePiece, takeMark, closeNode, release_behind, queue_behind]
      rfl
  | chunk chunk =>
    rw [takePiece, takePiece, takeChunk, takeChunk, addText_behind, takeText, takeText,
      addText_behind, hold_behind]
    split
    · rfl
    · split <;> rfl
  | aside => rfl

theorem foldl_takePiece_behind (events : List Event) (pieces : List Piece) (content : Content) :
    pieces.foldl takePiece (content.behind events) =
      (pieces.foldl takePiece content).behind events := by
  induction pieces generalizing content with
  | nil => rfl
  | cons piece rest ih => rw [List.foldl_cons, takePiece_behind, ih, List.foldl_cons]

/-- What is pending comes first at the end too. -/
theorem pending_foldl_takePiece (pieces : List Piece) (content : Content) :
    (pieces.foldl takePiece content).pending =
      content.pending ++ (pieces.foldl takePiece { content with pending := [] }).pending := by
  have h := foldl_takePiece_behind content.pending pieces { content with pending := [] }
  rw [behind, List.append_nil] at h
  rw [h]
  rfl

@[simp] theorem openNames_release (content : Content) :
    content.release.openNames = content.openNames := by
  unfold release
  split <;> rfl

@[simp] theorem openNames_takeChunk (content : Content) (chunk : Chunk) :
    (content.takeChunk chunk).openNames = content.openNames := by
  have hadd : (content.addText chunk.text).openNames = content.openNames :=
    openNames_release content
  unfold takeChunk
  split
  · exact hadd
  unfold takeText
  split
  · unfold hold
    split <;> rfl
  · exact hadd

/-- The names open at the end are those that no tag closes. -/
theorem openNames_foldl_takePiece (pieces : List Piece) (content : Content) :
    (pieces.foldl takePiece content).openNames = unclosed content.openNames pieces := by
  induction pieces generalizing content with
  | nil => rfl
  | cons piece rest ih =>
    rw [List.foldl_cons, ih]
    cases piece with
    | mark mark => cases mark <;> rfl
    | chunk chunk => rw [takePiece, openNames_takeChunk, unclosed]
    | aside => rfl

end Content

/-! ## What a document is still to give -/

namespace Document

open Content

/-- A document that is read without an error up to this content. -/
def Yields (d : Document) (final : Content) : Prop :=
  d.phase = .reading ∧ ∃ pieces, Reads d.reader pieces ∧ pieces.foldl takePiece d.content = final

theorem Yields.pending_eq {d : Document} {final : Content} (h : Yields d final) :
    ∃ later, final.pending = d.content.pending ++ later := by
  obtain ⟨_, pieces, _, rfl⟩ := h
  exact ⟨_, pending_foldl_takePiece pieces d.content⟩

/-- Reading up to an event does not change what is still to be given, and reading without finding one
comes to the end. -/
theorem fill_of_reads {r : Reader} {pieces : List Piece} (h : Reads r pieces) (content : Content) :
    (∃ d, fill ⟨r, content, .reading⟩ = .ok () d ∧ d.content.pending ≠ [] ∧
        Yields d (pieces.foldl takePiece content)) ∨
      (pieces.foldl takePiece content).pending = [] ∧
        ∃ s, fill ⟨r, content, .reading⟩ = finish ⟨s, pieces.foldl takePiece content, .reading⟩ := by
  by_cases hpending : content.pending = []
  case neg => exact .inl ⟨_, fill_of_pending hpending, hpending, rfl, pieces, h, rfl⟩
  induction h generalizing content with
  | @done r s hread =>
    refine .inr ⟨hpending, s, ?_⟩
    rw [fill, if_neg (not_not_intro hpending)]
    dsimp only
    split
    next hr => cases hread.symm.trans hr
    next hr =>
      cases hread.symm.trans hr
      rfl
  | @piece r s token piece rest hread hne hpiece hrest ih =>
    have hfill : fill ⟨r, content, .reading⟩ = fill ⟨s, content.takePiece piece, .reading⟩ := by
      rw [fill, if_neg (not_not_intro hpending)]
      dsimp only
      split
      next hr => cases hread.symm.trans hr
      next hr =>
        cases hread.symm.trans hr
        rw [dif_neg hne, take_eq, hpiece]
        rfl
    rw [hfill]
    by_cases hnext : (content.takePiece piece).pending = []
    · exact ih _ hnext
    · exact .inl ⟨_, fill_of_pending hnext, hnext, rfl, rest, hrest, rfl⟩

theorem peek_of_fill {d e : Document} {event : Event} {more : List Event} (h : fill d = .ok () e)
    (hpending : e.content.pending = event :: more) : Document.peek d = .ok (some event) e := by
  unfold Document.peek
  rw [h]
  dsimp only
  rw [hpending, List.head?_cons]

theorem next_of_fill {d e : Document} {event : Event} {more : List Event} (h : fill d = .ok () e)
    (hpending : e.content.pending = event :: more) :
    Document.next d = .ok event { e with content.pending := more } := by
  unfold Document.next
  rw [h]
  dsimp only
  rw [hpending]
  rfl

section

variable {d : Document} {final : Content} {event : Event} {rest : List Event}

theorem Yields.fill_event (h : Yields d final) (hfinal : final.pending = event :: rest) :
    ∃ e more, fill d = .ok () e ∧ e.content.pending = event :: more ∧ Yields e final := by
  obtain ⟨reader, content, phase⟩ := d
  obtain ⟨rfl, pieces, hreads, rfl⟩ := h
  rcases fill_of_reads hreads content with ⟨e, hfill, hpending, hyields⟩ | ⟨hnil, _⟩
  · obtain ⟨later, hlater⟩ := hyields.pending_eq
    obtain ⟨first, more, hfirst⟩ := List.exists_cons_of_ne_nil hpending
    rw [hfinal, hfirst] at hlater
    obtain rfl : event = first := (List.cons.inj hlater).1
    exact ⟨e, more, hfill, hfirst, hyields⟩
  · cases hfinal.symm.trans hnil

theorem Yields.fill_end (h : Yields d final) (hfinal : final.pending = []) :
    ∃ reader, fill d = finish ⟨reader, final, .reading⟩ := by
  obtain ⟨reader, content, phase⟩ := d
  obtain ⟨rfl, pieces, hreads, rfl⟩ := h
  rcases fill_of_reads hreads content with ⟨e, _, hpending, hyields⟩ | ⟨_, hend⟩
  · obtain ⟨later, hlater⟩ := hyields.pending_eq
    rw [hfinal] at hlater
    exact absurd (List.append_eq_nil_iff.mp hlater.symm).1 hpending
  · exact hend

/-- What is given goes from the front of what was to be given. -/
theorem Yields.tail {more : List Event} (h : Yields d final)
    (hpending : d.content.pending = event :: more) (hfinal : final.pending = event :: rest) :
    Yields { d with content.pending := more } { final with pending := rest } := by
  obtain ⟨reader, ⟨pending, openNames, held, inContent⟩, phase⟩ := d
  obtain ⟨rfl, pieces, hreads, rfl⟩ := h
  obtain rfl : pending = event :: more := hpending
  refine ⟨rfl, pieces, hreads, ?_⟩
  have hfront := foldl_takePiece_behind [event] pieces ⟨more, openNames, held, inContent⟩
  rw [behind, List.cons_append, List.nil_append] at hfront
  dsimp only at hfinal ⊢
  rw [hfront, behind, List.cons_append, List.nil_append] at hfinal ⊢
  rw [← (List.cons.inj hfinal).2]

theorem Yields.next (h : Yields d final) (hfinal : final.pending = event :: rest) :
    ∃ e, Document.next d = .ok event e ∧ Yields e { final with pending := rest } := by
  obtain ⟨e, more, hfill, hpending, hyields⟩ := h.fill_event hfinal
  exact ⟨_, next_of_fill hfill hpending, hyields.tail hpending hfinal⟩

end

/-- A document in front of its events, with some of them given, or behind its end. -/
inductive Gives : Document → List Event → Prop where
  | fresh {r : Reader} {pieces : List Piece} : Reads r pieces → unclosed [] pieces = [] →
      Gives { reader := r } (.startDocument :: (pieces.foldl takePiece {}).pending)
  | reading {d : Document} {final : Content} : Yields d final → final.openNames = [] →
      Gives d final.pending
  | finished {d : Document} : d.phase = .finished →
      d.content.pending = [] ∨ d.content.pending = [.endDocument] → Gives d []

theorem yields_started {r : Reader} {pieces : List Piece} (h : Reads r pieces) :
    Yields { reader := r, phase := .reading } (pieces.foldl takePiece {}) :=
  ⟨rfl, pieces, h, rfl⟩

theorem fill_fresh (r : Reader) :
    fill { reader := r } =
      .ok () { reader := r, content := behind [.startDocument] {}, phase := .reading } := by
  rw [fill]
  rfl

theorem next_fresh (r : Reader) :
    Document.next { reader := r } = .ok .startDocument { reader := r, phase := .reading } :=
  next_of_fill (fill_fresh r) rfl

theorem finish_of_closed (r : Reader) {content : Content} (h : content.openNames = [])
    (hpending : content.pending = []) :
    finish ⟨r, content, .reading⟩ =
      .ok () ⟨r, { content with pending := [.endDocument] }, .finished⟩ := by
  obtain ⟨pending, openNames, held, inContent⟩ := content
  obtain rfl : openNames = [] := h
  obtain rfl : pending = [] := hpending
  rfl

/-- Behind its end a document has the end ready. -/
theorem Gives.fill_end {d : Document} {events : List Event} (h : Gives d events)
    (hevents : events = []) :
    ∃ e, fill d = .ok () e ∧ e.phase = .finished ∧ e.content.pending = [.endDocument] := by
  cases h with
  | fresh => cases hevents
  | reading hyields hclosed =>
    obtain ⟨reader, hfill⟩ := hyields.fill_end hevents
    rw [finish_of_closed reader hclosed hevents] at hfill
    exact ⟨_, hfill, rfl, rfl⟩
  | finished hphase hpending =>
    rcases hpending with hnil | hend
    · refine ⟨{ d with content := d.content.queue .endDocument }, ?_, hphase, ?_⟩
      · rw [fill, if_neg (not_not_intro hnil), hphase]
      · rw [queue, hnil]
        rfl
    · exact ⟨d, fill_of_pending (by rw [hend]; exact List.cons_ne_nil _ _), hphase, hend⟩

/-- In front of an event a document has that event ready. -/
theorem Gives.fill_event {d : Document} {event : Event} {events rest : List Event}
    (h : Gives d events) (hevents : events = event :: rest) :
    ∃ e more final, fill d = .ok () e ∧ e.content.pending = event :: more ∧ Yields e final ∧
      final.openNames = [] ∧ final.pending = event :: rest := by
  cases h with
  | @fresh r pieces hreads hclosed =>
    cases hevents
    refine ⟨_, [], behind [.startDocument] (pieces.foldl takePiece {}), fill_fresh r, rfl,
      ⟨rfl, pieces, hreads, foldl_takePiece_behind _ _ _⟩, ?_, rfl⟩
    exact (openNames_foldl_takePiece pieces {}).trans hclosed
  | @reading d final hyields hclosed =>
    obtain ⟨e, more, hfill, hpending, he⟩ := hyields.fill_event hevents
    exact ⟨e, more, final, hfill, hpending, he, hclosed, hevents⟩
  | finished => cases hevents

theorem emission_gives : Source.Emission Gives := by
  constructor
  · intro d events h
    cases events with
    | nil =>
      obtain ⟨e, hfill, hphase, hpending⟩ := h.fill_end rfl
      exact ⟨_, e, peek_of_fill hfill hpending, .ended, .finished hphase (.inr hpending)⟩
    | cons event rest =>
      obtain ⟨e, more, final, hfill, hpending, he, hclosed, hfinal⟩ := h.fill_event rfl
      exact ⟨_, e, peek_of_fill hfill hpending, .first, hfinal ▸ .reading he hclosed⟩
  · intro d events h
    cases events with
    | nil =>
      obtain ⟨e, hfill, hphase, hpending⟩ := h.fill_end rfl
      exact ⟨_, next_of_fill hfill hpending, .finished hphase (.inl rfl)⟩
    | cons event rest =>
      obtain ⟨e, more, final, hfill, hpending, he, hclosed, hfinal⟩ := h.fill_event rfl
      exact ⟨_, next_of_fill hfill hpending, .reading (he.tail hpending hfinal) hclosed⟩

/-- A document that is read without an error, with every element closed, gives the events of its
pieces between the markers, whatever is asked in which order. -/
theorem emits_of_reads {r : Reader} {pieces : List Piece} (h : Reads r pieces)
    (hclosed : unclosed [] pieces = []) :
    Source.Emits ({ reader := r } : Document)
      (.startDocument :: (pieces.foldl takePiece {}).pending) :=
  ⟨Gives, emission_gives, .fresh h hclosed⟩

/-! ## Draining a document -/

/-- How a document ends with elements of these names open, innermost first: the last events, and what
comes behind them. -/
def ending : List String → List Event × Except SourceError Unit
  | [] => ([.endDocument], .ok ())
  | name :: _ => ([], .error (.xml (.illFormed (.missingEndTag name))))

theorem next_unclosed {d : Document} {final : Content} {name : String} {outer : List String}
    (h : Yields d final) (hfinal : final.pending = []) (hopen : final.openNames = name :: outer) :
    ∃ e, Document.next d = .error (.xml (.illFormed (.missingEndTag name))) e := by
  obtain ⟨reader, hfill⟩ := h.fill_end hfinal
  refine ⟨⟨reader, { final with openNames := outer }, .reading⟩, ?_⟩
  unfold Document.next
  rw [hfill, finish]
  dsimp only
  rw [hopen]

theorem Yields.drain {d : Document} {final : Content} (h : Yields d final)
    (hend : .endDocument ∉ final.pending) :
    (Source.drain d).1.map Prod.fst = final.pending ++ (ending final.openNames).1 ∧
      (Source.drain d).2.answer = (ending final.openNames).2 := by
  obtain ⟨pending, openNames, held, inContent⟩ := final
  induction pending generalizing d with
  | nil =>
    cases openNames with
    | nil =>
      obtain ⟨t, hnext, _⟩ := emission_gives.next (Gives.reading h rfl)
      rw [Source.drain_end hnext]
      exact ⟨rfl, rfl⟩
    | cons name outer =>
      obtain ⟨t, hnext⟩ := next_unclosed h rfl rfl
      rw [Source.drain_error hnext]
      exact ⟨rfl, rfl⟩
  | cons event rest ih =>
    obtain ⟨hne, hrest⟩ := not_or.mp (mt List.mem_cons.mpr hend)
    obtain ⟨e, hnext, hyields⟩ := h.next rfl
    obtain ⟨hgiven, hanswer⟩ := ih hyields hrest
    rw [Source.drain_next hnext (Ne.symm hne)]
    exact ⟨congrArg (event :: ·) hgiven, hanswer⟩

/-- Draining a document that is read without an error gives the events of its pieces and the end, or
fails for the innermost element that is left open. -/
theorem drain_of_reads {r : Reader} {pieces : List Piece} (h : Reads r pieces)
    (hend : .endDocument ∉ (pieces.foldl takePiece {}).pending) :
    (Source.drain ({ reader := r } : Document)).1.map Prod.fst =
        .startDocument :: (pieces.foldl takePiece {}).pending ++ (ending (unclosed [] pieces)).1 ∧
      (Source.drain ({ reader := r } : Document)).2.answer = (ending (unclosed [] pieces)).2 := by
  obtain ⟨hgiven, hanswer⟩ := (yields_started h).drain hend
  rw [openNames_foldl_takePiece] at hgiven hanswer
  have hfirst : Event.startDocument ≠ .endDocument := nofun
  rw [Source.drain_next (next_fresh r) hfirst]
  exact ⟨congrArg (Event.startDocument :: ·) hgiven, hanswer⟩

end Document

end DocWalk.Xml
