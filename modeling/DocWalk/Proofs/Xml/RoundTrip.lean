import DocWalk.Proofs.Xml.Tags

/-!
# What is written is read back

The reader and the content of a document share the work on a tree. The reader finds the pieces of it
(`reads_written`): this is an induction on the tree, with what follows it and the elements open
around it left open, and it needs that a text is followed by a tag. The content makes events of the
pieces (`takes_pieces`), and it needs that no text is taken for indentation: a content that holds
nothing back adds the events of a tree and again holds nothing back.

**The law** (`drain_written`): draining the text of a tree gives the events of its content, whatever
stands in its values and texts.
-/

set_option autoImplicit false

namespace DocWalk.Xml

mutual

/-- The pieces that a markup is read in. -/
def Markup.pieces : Markup → List Piece
  | .text s => [.chunk { text := s }]
  | .empty name settings => [.mark (.empty (heading name settings))]
  | .element name settings children =>
    .mark (.opens (heading name settings)) :: piecesOf children ++ [.mark .closes]

def piecesOf : List Markup → List Piece
  | [] => []
  | m :: rest => m.pieces ++ piecesOf rest

end

/-! ## Reading -/

section

variable {rest : List UInt8} {openNames : List (List UInt8)} {pieces : List Piece}

theorem Reader.read_text {bytes : List UInt8} {pos : Nat} (hne : bytes ≠ [])
    (hless : Ascii.less ∉ bytes) :
    Reader.read ⟨bytes ++ Ascii.less :: rest, pos, openNames⟩ =
      .ok (.text bytes) ⟨Ascii.less :: rest, pos + bytes.length, openNames⟩ := by
  have htext : (bytes ++ Ascii.less :: rest).takeWhile (· ≠ Ascii.less) = bytes := by
    have hkeep : ∀ b ∈ bytes, decide (b ≠ Ascii.less) = true :=
      fun b hb => decide_eq_true fun heq => hless (heq ▸ hb)
    rw [List.takeWhile_append_of_pos hkeep]
    exact List.append_nil _
  obtain ⟨b, more, rfl⟩ := List.exists_cons_of_ne_nil hne
  have hb : b ≠ Ascii.less := fun heq => hless (heq ▸ List.mem_cons_self)
  rw [List.cons_append] at htext ⊢
  rw [read]
  dsimp only
  rw [if_neg hb, htext, ← List.cons_append, List.drop_left]

/-- A text goes up to the next tag. -/
theorem reads_escaped {s : String} (hs : s ≠ "") (hless : rest.head? = some Ascii.less)
    (hrest : ∀ pos, Reads ⟨rest, pos, openNames⟩ pieces) (pos : Nat) :
    Reads ⟨Utf8.encode (escaped s) ++ rest, pos, openNames⟩ (.chunk { text := s } :: pieces) := by
  obtain ⟨tail, rfl⟩ := List.head?_eq_some_iff.mp hless
  have hnone : Ascii.less ∉ Utf8.encode (escaped s) :=
    byte_not_mem_escaped (c := '<') (by decide) s
  refine .piece (Reader.read_text (encode_escaped_ne_nil hs) hnone) nofun ?_ (hrest _)
  rw [Token.piece, readText_escaped]
  rfl

theorem head?_written {m : Markup} (h : m.isText = false) (rest : List UInt8) :
    (Utf8.encode m.written ++ rest).head? = some Ascii.less := by
  cases m with
  | text => cases h
  | empty => simp only [Markup.written, Utf8.encode_append, List.append_assoc]; rfl
  | element => simp only [Markup.written, Utf8.encode_append, List.append_assoc]; rfl

theorem head?_writtenAll {ms : List Markup} (h : ∀ m ∈ ms.head?, m.isText = false)
    (hrest : rest.head? = some Ascii.less) :
    (Utf8.encode (writtenAll ms) ++ rest).head? = some Ascii.less := by
  cases ms with
  | nil => exact hrest
  | cons m more =>
    rw [writtenAll, Utf8.encode_append, List.append_assoc]
    exact head?_written (h m rfl) _

mutual

theorem reads_written : ∀ (m : Markup) {rest : List UInt8} {openNames : List (List UInt8)}
    {pieces : List Piece}, m.WellFormed → (m.isText → rest.head? = some Ascii.less) →
    (∀ pos, Reads ⟨rest, pos, openNames⟩ pieces) → ∀ pos,
    Reads ⟨Utf8.encode m.written ++ rest, pos, openNames⟩ (m.pieces ++ pieces)
  | .text s, rest, openNames, pieces, h, hless, hrest, pos => reads_escaped h (hless rfl) hrest pos
  | .empty name settings, rest, openNames, pieces, _, _, hrest, pos => by
    have hreads := reads_emptyTag name settings hrest pos
    simp only [tagContent, List.append_assoc] at hreads
    simp only [Markup.written, Utf8.encode_append, List.append_assoc]
    exact hreads
  | .element name settings children, rest, openNames, pieces, ⟨hapart, hchildren⟩, _, hrest, pos => by
    have hreads := reads_startTag name settings
      (reads_writtenAll children hapart.texts hchildren rfl (reads_endTag name.isKey hrest)) pos
    simp only [tagContent, List.append_assoc] at hreads
    simp only [Markup.written, Utf8.encode_append, Markup.pieces, List.append_assoc,
      List.cons_append]
    exact hreads

theorem reads_writtenAll : ∀ (ms : List Markup) {rest : List UInt8} {openNames : List (List UInt8)}
    {pieces : List Piece}, (ms.IsChain fun m next => !(m.isText && next.isText)) →
    WellFormedAll ms → rest.head? = some Ascii.less →
    (∀ pos, Reads ⟨rest, pos, openNames⟩ pieces) → ∀ pos,
    Reads ⟨Utf8.encode (writtenAll ms) ++ rest, pos, openNames⟩ (piecesOf ms ++ pieces)
  | [], rest, openNames, pieces, _, _, _, hrest, pos => hrest pos
  | m :: more, rest, openNames, pieces, hchain, ⟨hm, hmore⟩, hless, hrest, pos => by
    obtain ⟨hnext, hchain⟩ := List.isChain_cons.mp hchain
    have hhead : m.isText → (Utf8.encode (writtenAll more) ++ rest).head? = some Ascii.less := by
      intro htext
      refine head?_writtenAll (fun next hmem => ?_) hless
      have happart := hnext next hmem
      rw [htext, Bool.true_and, Bool.not_eq_true'] at happart
      exact happart
    have hreads := reads_written m hm hhead (reads_writtenAll more hchain hmore hless hrest) pos
    rw [writtenAll, Utf8.encode_append, piecesOf, List.append_assoc, List.append_assoc]
    exact hreads

end

end

/-! ## Events -/

open Content

mutual

/-- A content that holds nothing back takes a tree as its events. -/
theorem takes_pieces : ∀ (m : Markup) (content : Content), m.WellFormed → m.isBlank = false →
    content.held = none →
    ∃ inside, m.pieces.foldl takePiece content =
      { content with pending := content.pending ++ m.tree.flatten, inContent := inside }
  | .text s, content, _, hblank, hheld => by
    obtain ⟨pending, openNames, held, inContent⟩ := content
    obtain rfl : held = none := hheld
    have hs : isBlankText s = false := hblank
    refine ⟨true, ?_⟩
    simp [Markup.pieces, takePiece, takeChunk, takeText, hs, addText, release, queue, Markup.tree,
      Tree.flatten]
  | .empty name settings, content, _, _, hheld => by
    obtain ⟨pending, openNames, held, inContent⟩ := content
    obtain rfl : held = none := hheld
    refine ⟨false, ?_⟩
    simp [Markup.pieces, takePiece, takeMark, emptyNode, queue, Markup.tree, Tree.flatten,
      flattenAll]
  | .element name settings children, content, ⟨hapart, hchildren⟩, _, hheld => by
    obtain ⟨pending, openNames, held, inContent⟩ := content
    obtain rfl : held = none := hheld
    refine ⟨false, ?_⟩
    by_cases hblank : ∃ m ∈ children, m.isBlank
    · -- A blank text is held back, and the end tag behind it releases it.
      obtain ⟨m, hm, hblank⟩ := hblank
      obtain ⟨only, rfl⟩ := List.length_eq_one_iff.mp (hapart.blanks m hm hblank)
      obtain rfl := List.mem_singleton.mp hm
      cases m with
      | text s =>
        have hs : isBlankText s = true := hblank
        simp [Markup.pieces, piecesOf, takePiece, takeMark, takeChunk, takeText, hs, hold, openNode,
          closeNode, release, queue, Markup.tree, treesOf, Tree.flatten, flattenAll]
      | empty => cases hblank
      | element => cases hblank
    · have hsolid : ∀ m ∈ children, m.isBlank = false :=
        fun m hm => Bool.eq_false_iff.mpr fun h => hblank ⟨m, hm, h⟩
      obtain ⟨inside, hfold⟩ := takes_piecesOf children
        (takePiece ⟨pending, openNames, none, inContent⟩ (.mark (.opens (heading name settings))))
        hchildren hsolid rfl
      rw [Markup.pieces, List.cons_append, List.foldl_cons, List.foldl_append, hfold, Markup.tree,
        Tree.flatten]
      simp [takePiece, takeMark, openNode, closeNode, release, queue]

theorem takes_piecesOf : ∀ (ms : List Markup) (content : Content), WellFormedAll ms →
    (∀ m ∈ ms, m.isBlank = false) → content.held = none →
    ∃ inside, (piecesOf ms).foldl takePiece content =
      { content with pending := content.pending ++ flattenAll (treesOf ms), inContent := inside }
  | [], content, _, _, _ => ⟨content.inContent, by rw [treesOf, flattenAll, List.append_nil]; rfl⟩
  | m :: more, content, ⟨hm, hmore⟩, hsolid, hheld => by
    obtain ⟨before, hfold⟩ := takes_pieces m content hm (hsolid m List.mem_cons_self) hheld
    obtain ⟨inside, hrest⟩ := takes_piecesOf more
      { content with pending := content.pending ++ m.tree.flatten, inContent := before } hmore
      (fun next hnext => hsolid next (List.mem_cons_of_mem m hnext)) hheld
    refine ⟨inside, ?_⟩
    rw [piecesOf, List.foldl_append, hfold, hrest, treesOf, flattenAll]
    simp only [List.append_assoc]

end

/-! ## Whole documents -/

/-- The text of an element is read as the events of its content. -/
theorem Document.emits_written {root : Markup} (helement : root.isText = false)
    (h : root.WellFormed) :
    Source.Emits (Document.ofText root.written) (.startDocument :: root.tree.flatten) := by
  have hstart : Reader.ofBytes (Utf8.encode root.written) = { rest := Utf8.encode root.written } := by
    have hless := head?_written helement []
    rw [List.append_nil] at hless
    obtain ⟨tail, htail⟩ := List.head?_eq_some_iff.mp hless
    rw [htail]
    rfl
  have hreads : Reads (.ofBytes (Utf8.encode root.written)) root.pieces := by
    have hend : ∀ pos, Reads ⟨[], pos, []⟩ [] := fun _ => .done rfl
    have hall := reads_written root h (fun htext => by rw [helement] at htext; cases htext) hend 0
    rw [List.append_nil, List.append_nil] at hall
    rw [hstart]
    exact hall
  have hblank : root.isBlank = false := by
    cases root with
    | text => cases helement
    | empty => rfl
    | element => rfl
  obtain ⟨inside, hfold⟩ := takes_pieces root {} h hblank rfl
  have hclosed : unclosed [] root.pieces = [] := by
    have hnames := openNames_foldl_takePiece root.pieces {}
    rw [hfold] at hnames
    exact hnames.symm
  have hemits := emits_of_reads hreads hclosed
  rw [hfold] at hemits
  exact hemits

theorem endDocument_not_mem_flatten (tree : Tree) : .endDocument ∉ tree.flatten := by
  intro hmem
  have hvisited : .endDocument ∈ (Cursor.visits "" 0 tree).map Cursor.Visit.event := by
    rw [Cursor.map_event_visits]
    exact List.mem_flatMap_of_mem hmem List.mem_cons_self
  obtain ⟨visit, hvisit, hevent⟩ := List.mem_map.mp hvisited
  exact Cursor.event_ne_endDocument_visits "" 0 tree visit hvisit hevent

/-- **What is written is read back.** Draining the text of an element, with every value and text in it
escaped, gives the start of the document, then the events of the tree: each node with its local name
and with the attributes that declare no namespace, and each text as it was; and then the end. -/
theorem drain_written (root : Markup) (helement : root.isText = false) (h : root.WellFormed) :
    ∃ given t, Source.drain (Document.ofText root.written) = (given, .ok () t) ∧
      given.map Prod.fst = .startDocument :: root.tree.flatten ++ [.endDocument] := by
  refine (Document.emits_written helement h).drain ?_
  rintro (_ | ⟨_, hmem⟩)
  exact endDocument_not_mem_flatten root.tree hmem

/-- A document with a namespace, an escaped value, a blank leaf and a text beside elements. -/
def memo : Markup :=
  .element ⟨some ⟨"n", by decide⟩, ⟨"memo", by decide⟩⟩
    { list := [⟨⟨some ⟨"xmlns", by decide⟩, ⟨"n", by decide⟩⟩, "urn:n"⟩,
        ⟨⟨some ⟨"n", by decide⟩, ⟨"to", by decide⟩⟩, "<a & \"b\"/>"⟩] }
    [.element ⟨none, ⟨"sp", by decide⟩⟩ {} [.text " "], .empty ⟨none, ⟨"br", by decide⟩⟩ {},
      .text "x > y"]

/-- It is read back from its text. -/
theorem drain_written_memo :
    memo.written = "<n:memo xmlns:n=\"urn:n\" n:to=\"&lt;a &amp; &quot;b&quot;/&gt;\">" ++
        "<sp> </sp><br/>x &gt; y</n:memo>" ∧
      ∃ given t, Source.drain (Document.ofText memo.written) = (given, .ok () t) ∧
        given.map Prod.fst = [.startDocument, .startNode ⟨"memo", [⟨"to", "<a & \"b\"/>"⟩]⟩,
          .startNode { name := "sp" }, .text " ", .endNode, .startNode { name := "br" }, .endNode,
          .text "x > y", .endNode, .endDocument] :=
  ⟨by decide, drain_written memo rfl (by decide)⟩

end DocWalk.Xml
