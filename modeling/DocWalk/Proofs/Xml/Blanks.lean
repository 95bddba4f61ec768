import DocWalk.Proofs.Xml.Words
import Mathlib.Data.List.DropRight
import Mathlib.Data.List.SplitBy

/-!
# Which blank texts of a document are content

Tags part the texts of a document into runs; comments and the like do not part them. In a run the
texts from the first to the last that is solid are content. Blank texts in front of these are content
if the run stands behind a start tag, blank texts behind them if it stands in front of an end tag, and
a run that is all blank is content only between the two, which makes it the text of a leaf.

`rendered` states this rule with both ends of each run in view. A content decides token by token,
with the blank text held back and one bit.

**The law** (`drain_rendered`): both give the same events, for every document read without an error.
In particular all of the text of a leaf is given, however it is parted. The induction is on the pieces;
what a content holds back is the blank end of the run so far, without the blank start of it unless
a start tag stands in front (`Holds`).
-/

set_option autoImplicit false

namespace DocWalk.Xml

/-! ## The rule -/

/-- Whether a chunk is content wherever it stands: a CDATA section is, and a text with a byte that is
no blank. -/
def Chunk.isSolid (chunk : Chunk) : Bool :=
  chunk.cdata || (Utf8.encode chunk.text).any fun b => !Ascii.isBlank b

def Chunk.isBlank (chunk : Chunk) : Bool :=
  !chunk.isSolid

/-- The run of chunks in front of the first tag, and each tag with the run behind it. -/
def cut : List Piece → List Chunk × List (Mark × List Chunk)
  | [] => ([], [])
  | .mark mark :: rest => ([], (mark, (cut rest).1) :: (cut rest).2)
  | .chunk chunk :: rest => (chunk :: (cut rest).1, (cut rest).2)
  | .aside :: rest => cut rest

/-- The chunks of a run that are content, with a start tag in front of the run or not, and an end tag
behind it or not. -/
def kept (opened closed : Bool) (run : List Chunk) : List Chunk :=
  if run.any Chunk.isSolid then
    (if opened then run.takeWhile Chunk.isBlank else []) ++
      (run.dropWhile Chunk.isBlank).rdropWhile Chunk.isBlank ++
      (if closed then run.rtakeWhile Chunk.isBlank else [])
  else if opened && closed then run
  else []

/-- The texts of some chunks: blank chunks side by side are one text, and every other chunk is one. -/
def texts (chunks : List Chunk) : List String :=
  (chunks.splitBy fun first second => first.isBlank && second.isBlank).map fun group =>
    String.join (group.map Chunk.text)

def Mark.isOpening : Mark → Bool
  | .opens _ => true
  | .empty _ | .closes => false

def Mark.isClosing : Mark → Bool
  | .closes => true
  | .opens _ | .empty _ => false

/-- The events of a tag. -/
def Mark.events : Mark → List Event
  | .opens node => [.startNode node]
  | .empty node => [.startNode node, .endNode]
  | .closes => [.endNode]

/-- The events of a run of chunks and of the tags behind it, each with its run. -/
def layout (opened : Bool) (run : List Chunk) : List (Mark × List Chunk) → List Event
  | [] => (texts (kept opened false run)).map .text
  | (mark, next) :: rest =>
    (texts (kept opened mark.isClosing run)).map .text ++ mark.events ++
      layout mark.isOpening next rest

/-- The events of some pieces, from the start of a document to its end. -/
def rendered (pieces : List Piece) : List Event :=
  layout false (cut pieces).1 (cut pieces).2

/-! ## Chunks that are kept -/

/-- A run without the blank chunks at its start, unless a start tag stands in front of it. -/
def trimmed (opened : Bool) (run : List Chunk) : List Chunk :=
  if opened then run else run.dropWhile Chunk.isBlank

theorem isBlank_of_not_any {run : List Chunk} (h : ¬run.any Chunk.isSolid) :
    ∀ chunk ∈ run, chunk.isBlank = true := by
  intro chunk hchunk
  rw [Chunk.isBlank, Bool.not_eq_true', ← Bool.not_eq_true]
  exact fun hsolid => h (List.any_eq_true.mpr ⟨chunk, hchunk, hsolid⟩)

/-- A solid chunk hides what stands in front of it from the end of a run. -/
theorem rtakeWhile_append_cons {chunk : Chunk} (h : ¬chunk.isBlank) (front back : List Chunk) :
    (front ++ chunk :: back).rtakeWhile Chunk.isBlank = back.rtakeWhile Chunk.isBlank := by
  induction back using List.reverseRecOn with
  | nil => rw [List.rtakeWhile_concat_neg _ _ _ h, List.rtakeWhile_nil]
  | append_singleton back last ih =>
    rw [← List.cons_append, ← List.append_assoc, List.rtakeWhile_concat, List.rtakeWhile_concat, ih]

/-- From its first solid chunk on a run ends like the whole of it. -/
theorem rtakeWhile_dropWhile {run : List Chunk} (h : run.any Chunk.isSolid) :
    (run.dropWhile Chunk.isBlank).rtakeWhile Chunk.isBlank = run.rtakeWhile Chunk.isBlank := by
  have hsplit := List.takeWhile_append_dropWhile (p := Chunk.isBlank) (l := run)
  cases hrest : run.dropWhile Chunk.isBlank with
  | nil =>
    obtain ⟨chunk, hchunk, hsolid⟩ := List.any_eq_true.mp h
    have hblank := List.dropWhile_eq_nil_iff.mp hrest chunk hchunk
    rw [Chunk.isBlank, hsolid] at hblank
    cases hblank
  | cons chunk back =>
    have hblank : ¬chunk.isBlank := by
      have hhead := List.head?_dropWhile_not Chunk.isBlank run
      rw [hrest] at hhead
      exact Bool.eq_false_iff.mp hhead
    rw [hrest] at hsplit
    rw [← hsplit, rtakeWhile_append_cons hblank, ← List.nil_append (chunk :: back),
      rtakeWhile_append_cons hblank]

/-- The rule in two cuts: at the start of the run without a start tag, and at its end without an end
tag. -/
theorem kept_eq (opened closed : Bool) (run : List Chunk) :
    kept opened closed run =
      if closed then trimmed opened run else (trimmed opened run).rdropWhile Chunk.isBlank := by
  unfold kept
  split
  next hsolid =>
    have hend := rtakeWhile_dropWhile hsolid
    have hfront := List.takeWhile_append_dropWhile (p := Chunk.isBlank) (l := run)
    have hback := List.rdropWhile_append_rtakeWhile (p := Chunk.isBlank)
      (l := run.dropWhile Chunk.isBlank)
    rw [hend] at hback
    cases opened <;> cases closed <;>
      simp only [trimmed, Bool.false_eq_true, if_true, if_false, List.nil_append, List.append_nil,
        List.append_assoc, hback, hfront]
    have hwhole := List.rdropWhile_append_rtakeWhile (p := Chunk.isBlank) (l := run)
    apply List.append_cancel_right
    rw [List.append_assoc, hback, hfront, hwhole]
  next hsolid =>
    have hblank := isBlank_of_not_any hsolid
    have hdrop : run.dropWhile Chunk.isBlank = [] := List.dropWhile_eq_nil_iff.mpr hblank
    have hrdrop : run.rdropWhile Chunk.isBlank = [] := List.rdropWhile_eq_nil_iff.mpr hblank
    cases opened <;> cases closed <;> simp [trimmed, hdrop, hrdrop]

theorem trimmed_append {opened : Bool} {run : List Chunk} {chunk : Chunk}
    (h : opened || (run ++ [chunk]).any Chunk.isSolid) :
    trimmed opened (run ++ [chunk]) = trimmed opened run ++ [chunk] := by
  cases opened with
  | true => rfl
  | false =>
    simp only [trimmed, Bool.false_eq_true, if_false]
    rw [List.dropWhile_append]
    split
    next hnil =>
      have hblank := List.dropWhile_eq_nil_iff.mp (List.isEmpty_iff.mp hnil)
      rw [Bool.false_or, List.any_append, Bool.or_eq_true] at h
      rcases h with hrun | hchunk
      · obtain ⟨solid, hmem, hsolid⟩ := List.any_eq_true.mp hrun
        have hfalse := hblank solid hmem
        rw [Chunk.isBlank, hsolid] at hfalse
        cases hfalse
      · rw [List.any_cons, List.any_nil, Bool.or_false] at hchunk
        rw [List.isEmpty_iff.mp hnil, List.dropWhile_cons, Chunk.isBlank, hchunk]
        rfl
    next => rfl

theorem trimmed_eq_nil {opened : Bool} {run : List Chunk}
    (h : ¬(opened || run.any Chunk.isSolid)) : trimmed opened run = [] := by
  rw [Bool.or_eq_true, not_or] at h
  rw [trimmed, if_neg h.1]
  exact List.dropWhile_eq_nil_iff.mpr (isBlank_of_not_any h.2)

/-! ## Texts of chunks -/

theorem texts_append {front back : List Chunk}
    (h : ∀ chunk ∈ front.getLast?, chunk.isBlank → ∀ next ∈ back.head?, ¬next.isBlank) :
    texts (front ++ back) = texts front ++ texts back := by
  unfold texts
  rw [List.splitBy_append, List.map_append]
  intro chunk hchunk next hnext
  rw [Bool.and_eq_false_imp]
  exact fun hblank => Bool.eq_false_iff.mpr (h chunk hchunk hblank next hnext)

/-- A solid chunk is a text of its own. -/
theorem texts_append_solid {chunk : Chunk} (h : chunk.isSolid) (front : List Chunk) :
    texts (front ++ [chunk]) = texts front ++ [chunk.text] := by
  rw [texts_append]
  · exact congrArg (texts front ++ [·]) (String.empty_append)
  · rintro _ _ _ next hnext hblank
    cases hnext
    rw [Chunk.isBlank, h] at hblank
    cases hblank

/-- The blank text that some chunks make together, if there are any. -/
def joined : List Chunk → Option String
  | [] => none
  | run => some (String.join (run.map Chunk.text))

theorem joined_append (run : List Chunk) (chunk : Chunk) :
    joined (run ++ [chunk]) = some ((joined run).getD "" ++ chunk.text) := by
  cases run with
  | nil => rfl
  | cons first rest =>
    rw [joined, List.cons_append, joined, ← List.cons_append, List.map_append, String.join_append]
    · rfl
    · nofun
    · nofun

theorem texts_of_isBlank {run : List Chunk} (h : ∀ chunk ∈ run, chunk.isBlank) :
    texts run = (joined run).toList := by
  cases run with
  | nil => rfl
  | cons first rest =>
    rw [texts, List.splitBy_of_isChain (List.cons_ne_nil first rest)]
    · rfl
    · apply List.Pairwise.isChain
      apply List.pairwise_of_forall_mem_list
      intro chunk hchunk next hnext
      rw [h chunk hchunk, h next hnext]
      rfl

/-- The blank chunks at the end of a run are one more text. -/
theorem texts_eq_append (run : List Chunk) :
    texts run = texts (run.rdropWhile Chunk.isBlank) ++
      (joined (run.rtakeWhile Chunk.isBlank)).toList := by
  have hback : ∀ chunk ∈ run.rtakeWhile Chunk.isBlank, chunk.isBlank :=
    fun _ => List.mem_rtakeWhile_imp
  rw [← texts_of_isBlank hback, ← texts_append, List.rdropWhile_append_rtakeWhile]
  intro chunk hlast hblank
  obtain ⟨hne, rfl⟩ := List.mem_getLast?_eq_getLast hlast
  exact absurd hblank (List.rdropWhile_last_not _ _ hne)

/-- No text of the chunks is lost. -/
theorem join_texts (chunks : List Chunk) :
    String.join (texts chunks) = String.join (chunks.map Chunk.text) := by
  have hgroups : ∀ groups : List (List Chunk),
      String.join (groups.map fun group => String.join (group.map Chunk.text)) =
        String.join (groups.flatten.map Chunk.text) := by
    intro groups
    induction groups with
    | nil => rfl
    | cons group rest ih =>
      rw [List.map_cons, String.join_cons, ih, List.flatten_cons, List.map_append,
        String.join_append]
  rw [texts, hgroups, List.flatten_splitBy]

/-! ## What a content holds back -/

namespace Content

theorem pending_release (content : Content) :
    content.release.pending = content.pending ++ content.held.toList.map .text := by
  unfold release
  split
  next hheld => rw [hheld, Option.toList_none, List.map_nil, List.append_nil]
  next blank hheld => rw [hheld]; rfl

theorem held_release (content : Content) : content.release.held = none := by
  unfold release
  split
  next hheld => exact hheld
  next => rfl

theorem isBlankText_eq (text : String) :
    isBlankText text = (Utf8.encode text).all Ascii.isBlank :=
  (Utf8.all_encodeChars Utf8.agree_blank text.toList).symm

/-- A solid chunk is added and any other is held back, in content. -/
theorem takeChunk_eq (content : Content) (chunk : Chunk) :
    content.takeChunk chunk =
      if chunk.isSolid then content.addText chunk.text else content.hold chunk.text := by
  obtain ⟨text, cdata⟩ := chunk
  cases cdata with
  | true => rfl
  | false =>
    simp only [takeChunk, takeText, Chunk.isSolid, isBlankText_eq, Bool.false_or,
      Bool.false_eq_true, if_false]
    rw [← List.not_all_eq_any_not]
    cases (Utf8.encode text).all Ascii.isBlank <;> rfl

/-- A content within a run, behind the events in front of it: pending is what is kept of the run even
if no end tag follows, and held back is the rest that an end tag would keep. -/
structure Holds (content : Content) (front : List Event) (opened : Bool) (run : List Chunk) :
    Prop where
  pending_eq : content.pending = front ++ (texts (kept opened false run)).map .text
  held_eq : content.held = joined ((trimmed opened run).rtakeWhile Chunk.isBlank)
  inContent_eq : content.inContent = (opened || run.any Chunk.isSolid)

section

variable {content : Content} {front : List Event} {opened : Bool} {run : List Chunk}

/-- With what is held back, a content has all that an end tag would keep. -/
theorem Holds.release (h : Holds content front opened run) :
    content.release.pending = front ++ (texts (kept opened true run)).map .text := by
  rw [pending_release, h.pending_eq, h.held_eq, kept_eq, kept_eq, if_pos rfl,
    if_neg Bool.false_ne_true, texts_eq_append (trimmed opened run), List.map_append,
    List.append_assoc]

theorem Holds.addText {chunk : Chunk} (h : Holds content front opened run)
    (hsolid : chunk.isSolid) : Holds (content.addText chunk.text) front opened (run ++ [chunk]) := by
  have hblank : ¬chunk.isBlank := by
    rw [Chunk.isBlank, hsolid]
    exact Bool.false_ne_true
  have hany : (run ++ [chunk]).any Chunk.isSolid :=
    List.any_eq_true.mpr ⟨chunk, List.mem_append_right run (List.mem_singleton_self chunk), hsolid⟩
  have htrimmed : trimmed opened (run ++ [chunk]) = trimmed opened run ++ [chunk] :=
    trimmed_append (by rw [hany, Bool.or_true])
  constructor
  · show content.release.pending ++ [.text chunk.text] = _
    rw [h.release, kept_eq, kept_eq, if_pos rfl, if_neg Bool.false_ne_true, htrimmed,
      List.rdropWhile_concat_neg _ _ _ hblank, texts_append_solid hsolid, List.map_append,
      List.append_assoc]
    rfl
  · show content.release.held = _
    rw [held_release, htrimmed, List.rtakeWhile_concat_neg _ _ _ hblank]
    rfl
  · show true = _
    rw [hany, Bool.or_true]

theorem Holds.hold {chunk : Chunk} (h : Holds content front opened run)
    (hblank : chunk.isBlank) : Holds (content.hold chunk.text) front opened (run ++ [chunk]) := by
  have hany : (run ++ [chunk]).any Chunk.isSolid = run.any Chunk.isSolid := by
    rw [Chunk.isBlank, Bool.not_eq_true'] at hblank
    rw [List.any_append, List.any_cons, hblank, List.any_nil, Bool.or_false, Bool.or_false]
  by_cases hcontent : opened || run.any Chunk.isSolid
  · have htrimmed : trimmed opened (run ++ [chunk]) = trimmed opened run ++ [chunk] :=
      trimmed_append (by rw [hany, hcontent])
    rw [Content.hold, if_pos (h.inContent_eq.trans hcontent)]
    constructor
    · show content.pending = _
      rw [h.pending_eq, kept_eq, kept_eq, if_neg Bool.false_ne_true, if_neg Bool.false_ne_true,
        htrimmed, List.rdropWhile_concat_pos _ _ _ hblank]
    · show some (content.held.getD "" ++ chunk.text) = _
      rw [h.held_eq, htrimmed, List.rtakeWhile_concat_pos _ _ _ hblank, joined_append]
    · show content.inContent = _
      rw [h.inContent_eq, hany]
  · have htrimmed : trimmed opened run = [] := trimmed_eq_nil hcontent
    have htrimmed' : trimmed opened (run ++ [chunk]) = [] := trimmed_eq_nil (by rwa [hany])
    rw [Content.hold, if_neg (by rwa [h.inContent_eq])]
    constructor
    · rw [h.pending_eq, kept_eq, kept_eq, htrimmed, htrimmed']
    · rw [h.held_eq, htrimmed, htrimmed']
    · rw [h.inContent_eq, hany]

theorem Holds.takeChunk (h : Holds content front opened run) (chunk : Chunk) :
    Holds (content.takeChunk chunk) front opened (run ++ [chunk]) := by
  rw [takeChunk_eq]
  split
  next hsolid => exact h.addText hsolid
  next hsolid =>
    apply h.hold
    rw [Chunk.isBlank, Bool.eq_false_iff.mpr hsolid]
    rfl

/-- A tag ends a run and starts the next. -/
theorem Holds.takeMark (h : Holds content front opened run) (mark : Mark) :
    Holds (content.takeMark mark)
      (front ++ (texts (kept opened mark.isClosing run)).map .text ++ mark.events)
      mark.isOpening [] := by
  have hnil : ∀ events : List Event,
      events = events ++ (texts (kept mark.isOpening false [])).map .text := by
    intro events
    cases mark <;> exact (List.append_nil events).symm
  cases mark with
  | opens node =>
    refine ⟨?_, rfl, rfl⟩
    rw [← hnil, Mark.isClosing, ← h.pending_eq]
    rfl
  | empty node =>
    refine ⟨?_, rfl, rfl⟩
    rw [← hnil, Mark.isClosing, ← h.pending_eq]
    exact List.append_assoc content.pending [.startNode node] [.endNode]
  | closes =>
    refine ⟨?_, content.held_release, rfl⟩
    rw [← hnil, Mark.isClosing, ← h.release]
    rfl

/-- Token by token a content comes to the events that the rule gives from both ends of each run. -/
theorem Holds.pending_foldl (h : Holds content front opened run) (pieces : List Piece) :
    (pieces.foldl takePiece content).pending =
      front ++ layout opened (run ++ (cut pieces).1) (cut pieces).2 := by
  induction pieces generalizing content front opened run with
  | nil =>
    rw [cut, List.append_nil]
    exact h.pending_eq
  | cons piece rest ih =>
    cases piece with
    | mark mark =>
      rw [List.foldl_cons, takePiece, ih (h.takeMark mark), cut, layout, List.append_nil,
        List.nil_append, List.append_assoc, List.append_assoc, List.append_assoc]
    | chunk chunk =>
      rw [List.foldl_cons, takePiece, ih (h.takeChunk chunk), cut, List.append_assoc]
      rfl
    | aside => exact ih h

end

/-- The events of any pieces are those of the rule. -/
theorem pending_eq_rendered (pieces : List Piece) :
    (pieces.foldl takePiece {}).pending = rendered pieces := by
  have h : Holds {} [] false [] := ⟨rfl, rfl, rfl⟩
  exact h.pending_foldl pieces

end Content

/-! ## The text of a leaf -/

def Piece.chunk? : Piece → Option Chunk
  | .chunk c => some c
  | .mark _ | .aside => none

/-- The chunks among some pieces, on whichever side of a tag. -/
def chunks (pieces : List Piece) : List Chunk :=
  pieces.filterMap Piece.chunk?

theorem cut_append_mark (before : List Piece) (mark : Mark) (rest : List Piece) :
    cut (before ++ .mark mark :: rest) =
      ((cut before).1, (cut before).2 ++ (mark, (cut rest).1) :: (cut rest).2) := by
  induction before with
  | nil => rfl
  | cons piece before ih =>
    cases piece <;> simp only [List.cons_append, cut, ih]

/-- Pieces without a tag are one run. -/
theorem cut_eq_chunks {inner : List Piece} (h : ∀ mark, .mark mark ∉ inner) :
    cut inner = (chunks inner, []) := by
  induction inner with
  | nil => rfl
  | cons piece inner ih =>
    have hinner := ih fun mark hmark => h mark (List.mem_cons_of_mem piece hmark)
    cases piece with
    | mark mark => exact absurd List.mem_cons_self (h mark)
    | chunk chunk =>
      rw [cut, hinner]
      rfl
    | aside => exact hinner

/-- A tag parts the events as it parts the pieces: nothing in front of it bears on what is behind,
apart from the tag. -/
theorem layout_append (opened : Bool) (run next : List Chunk) (mark : Mark)
    (front back : List (Mark × List Chunk)) :
    layout opened run (front ++ (mark, next) :: back) =
      layout opened run (front ++ [(mark, [])]) ++ layout mark.isOpening next back := by
  induction front generalizing opened run with
  | nil =>
    have hnil : layout mark.isOpening [] [] = [] := by cases mark <;> rfl
    simp only [List.nil_append, layout, List.append_assoc]
    rw [show kept mark.isOpening false [] = [] by cases mark <;> rfl]
    rfl
  | cons first front ih =>
    rw [List.cons_append, layout, ih, List.cons_append, layout, List.append_assoc,
      List.append_assoc, List.append_assoc]

theorem rendered_append_mark (before : List Piece) (mark : Mark) (rest : List Piece) :
    rendered (before ++ .mark mark :: rest) =
      rendered (before ++ [.mark mark]) ++ layout mark.isOpening (cut rest).1 (cut rest).2 := by
  rw [rendered, rendered, cut_append_mark, cut_append_mark, layout_append]
  rfl

theorem kept_leaf (run : List Chunk) : kept true true run = run := by
  rw [kept_eq, if_pos rfl]
  rfl

/-- Between a start tag and the next end tag every chunk is kept. -/
theorem rendered_leaf {inner : List Piece} (before after : List Piece) (node : Node)
    (h : ∀ mark, .mark mark ∉ inner) :
    rendered (before ++ .mark (.opens node) :: (inner ++ .mark .closes :: after)) =
      rendered (before ++ [.mark (.opens node)]) ++
        ((texts (chunks inner)).map .text ++ .endNode :: rendered after) := by
  rw [rendered_append_mark, cut_append_mark, cut_eq_chunks h]
  congr 1
  rw [List.nil_append, layout, Mark.isOpening, Mark.isClosing, kept_leaf, List.append_assoc]
  rfl

/-! ## Draining -/

theorem endDocument_not_mem_layout (opened : Bool) (run : List Chunk)
    (marks : List (Mark × List Chunk)) : .endDocument ∉ layout opened run marks := by
  have htexts : ∀ shown : List String, Event.endDocument ∉ shown.map .text := by
    intro shown h
    obtain ⟨text, _, htext⟩ := List.mem_map.mp h
    cases htext
  induction marks generalizing opened run with
  | nil => exact htexts _
  | cons marked rest ih =>
    obtain ⟨mark, next⟩ := marked
    rw [layout, List.mem_append, List.mem_append]
    rintro ((h | h) | h)
    · exact htexts _ h
    · cases mark <;> simp [Mark.events] at h
    · exact ih _ _ h

/-- **The rule for blank texts.** Draining a document that is read without an error gives, between the
markers, the events that the rule gives for its pieces; if elements are left open, the innermost of
them is an error in the place of the end. And the rule keeps the text of every leaf: between a start
tag and an end tag with no tag between them stand the events of all chunks there, and their texts
are together all the text. -/
theorem drain_rendered {r : Reader} {pieces : List Piece} (h : Reads r pieces) :
    (Source.drain ({ reader := r } : Document)).1.map Prod.fst =
        .startDocument :: rendered pieces ++ (Document.ending (unclosed [] pieces)).1 ∧
      (Source.drain ({ reader := r } : Document)).2.answer =
        (Document.ending (unclosed [] pieces)).2 ∧
      ∀ before node inner after,
        pieces = before ++ .mark (.opens node) :: (inner ++ .mark .closes :: after) →
        (∀ mark, .mark mark ∉ inner) →
        rendered pieces = rendered (before ++ [.mark (.opens node)]) ++
            ((texts (chunks inner)).map .text ++ .endNode :: rendered after) ∧
          String.join (texts (chunks inner)) = String.join ((chunks inner).map Chunk.text) := by
  have hpending := Content.pending_eq_rendered pieces
  have hend : .endDocument ∉ (pieces.foldl Content.takePiece {}).pending := by
    rw [hpending]
    exact endDocument_not_mem_layout _ _ _
  obtain ⟨hgiven, hanswer⟩ := Document.drain_of_reads h hend
  rw [hpending] at hgiven
  refine ⟨hgiven, hanswer, ?_⟩
  rintro before node inner after rfl hinner
  exact ⟨rendered_leaf before after node hinner, join_texts _⟩

/-- A blank leaf parted by a comment, one with a CDATA section, and indentation between them. -/
def spacedText : String :=
  "<r> <a> <!----> </a> <b> <![CDATA[y]]> </b>z </r>"

def spacedPieces : List Piece :=
  [.mark (.opens { name := "r" }), .chunk { text := " " },
    .mark (.opens { name := "a" }), .chunk { text := " " }, .aside, .chunk { text := " " },
    .mark .closes, .chunk { text := " " },
    .mark (.opens { name := "b" }), .chunk { text := " " },
    .chunk { text := "y", cdata := true }, .chunk { text := " " }, .mark .closes,
    .chunk { text := "z " }, .mark .closes]

theorem reads_spacedText : Reads (.ofBytes (Utf8.encode spacedText)) spacedPieces := by
  have htag : ∀ name, IsWord name →
      Token.piece (.startTag ⟨Utf8.encode name⟩) = .ok (.mark (.opens { name })) := by
    intro name hname
    rw [Token.piece, Tag.node_of_word hname]
    rfl
  have htext : ∀ text, '&' ∉ text.toList →
      Token.piece (.text (Utf8.encode text)) = .ok (.chunk { text }) := by
    intro text hampersand
    rw [Token.piece, readText_encode hampersand]
    rfl
  have hblank := htext " " (by decide)
  have hcdata : Token.piece (.cdata (Utf8.encode "y")) = .ok (.chunk ⟨"y", true⟩) := by
    rw [Token.piece, Utf8.decodeLossy_encode]
  -- The characters are spelled out once, so that no step below decodes the text again.
  simp only [spacedText, Utf8.encode, String.reduceToList]
  refine .piece rfl Token.noConfusion (htag "r" (by decide)) (.piece rfl Token.noConfusion hblank ?_)
  refine .piece rfl Token.noConfusion (htag "a" (by decide)) (.piece rfl Token.noConfusion hblank ?_)
  refine .piece rfl Token.noConfusion rfl (.piece rfl Token.noConfusion hblank ?_)
  refine .piece rfl Token.noConfusion rfl (.piece rfl Token.noConfusion hblank ?_)
  refine .piece rfl Token.noConfusion (htag "b" (by decide)) (.piece rfl Token.noConfusion hblank ?_)
  refine .piece rfl Token.noConfusion hcdata (.piece rfl Token.noConfusion hblank ?_)
  refine .piece rfl Token.noConfusion rfl (.piece rfl Token.noConfusion (htext "z " (by decide)) ?_)
  exact .piece rfl Token.noConfusion rfl (.done rfl)

/-- Draining it drops the indentation, and keeps the blanks of both leaves. -/
theorem drain_rendered_spaced :
    (Source.drain (Document.ofText spacedText)).1.map Prod.fst =
        [.startDocument, .startNode { name := "r" }, .startNode { name := "a" }, .text "  ",
          .endNode, .startNode { name := "b" }, .text " ", .text "y", .text " ", .endNode,
          .text "z ", .endNode, .endDocument] ∧
      (Source.drain (Document.ofText spacedText)).2.answer = .ok () ∧
      String.join (texts [{ text := " " }, { text := "y", cdata := true }, { text := " " }]) =
        " y " := by
  obtain ⟨hgiven, hanswer, hleaf⟩ := drain_rendered reads_spacedText
  have hkept := hleaf (spacedPieces.take 8) { name := "b" }
    [.chunk { text := " " }, .chunk { text := "y", cdata := true }, .chunk { text := " " }]
    [.chunk { text := "z " }, .mark .closes] rfl (by intro mark hmark; simp at hmark)
  exact ⟨hgiven, hanswer, hkept.2⟩

end DocWalk.Xml
