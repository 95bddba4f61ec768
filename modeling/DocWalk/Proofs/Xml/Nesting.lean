import DocWalk.Proofs.Source.Contract
import DocWalk.Proofs.Xml.Blanks

/-!
# How deep a document stands

A document keeps the open elements twice: its reader keeps their names as they are written, to check
end tags with, and its content keeps the names of the nodes it has opened. A start tag adds to both and
an end tag takes from both, and a reader gives no end tag that has no start tag
(`Reader.nests_of_read`). So up to the first error both are of one length, and that is the number
of nodes that are open behind the pending events.

**The law** (`Document.contract`): a document keeps the contract of a source. What a token adds is told
from the number of open nodes before it to the number behind it (`Content.tells_takePiece`).
-/

set_option autoImplicit false

namespace DocWalk.Xml

/-- What a token does to the names of the open elements. -/
def Token.Nests (before after : List (List UInt8)) : Token → Prop
  | .startTag tag => after = tag.name :: before
  | .endTag => ∃ name, before = name :: after
  | .emptyElement _ | .text _ | .cdata _ | .aside | .finish => after = before

namespace Reader

/-- A way to go on behind markup that keeps the names of the open elements as its token says. -/
def Nests (emit : List UInt8 → Reader → Reading) : Prop :=
  ∀ content r token s, emit content r = .ok token s → token.Nests r.openNames s.openNames

theorem nests_emitEndTag : Nests emitEndTag := by
  intro content r token s h
  unfold emitEndTag at h
  simp only at h
  split at h
  · cases h
  next expected outer hnames =>
    split at h <;> cases h
    exact ⟨expected, hnames⟩

theorem nests_emitTag : Nests emitTag := by
  intro content r token s h
  unfold emitTag at h
  split at h <;> cases h <;> rfl

theorem nests_emitInstruction : Nests emitInstruction := by
  intro content r token s h
  unfold emitInstruction at h
  split at h <;> cases h
  rfl

theorem nests_emitComment : Nests emitComment := by
  intro content r token s h
  unfold emitComment at h
  split at h <;> cases h
  rfl

theorem nests_emitCData : Nests emitCData := by
  intro content r token s h
  unfold emitCData at h
  split at h <;> cases h
  rfl

theorem nests_emitDoctype : Nests emitDoctype := by
  intro content r token s h
  unfold emitDoctype at h
  split at h
  · split at h <;> cases h
    rfl
  · cases h

/-- The ways to go on behind markup. -/
def emitters : List (List UInt8 → Reader → Reading) :=
  [emitEndTag, emitTag, emitInstruction, emitComment, emitCData, emitDoctype]

theorem nests_of_mem {emit : List UInt8 → Reader → Reading} (h : emit ∈ emitters) :
    Nests emit := by
  simp only [emitters, List.mem_cons, List.not_mem_nil, or_false] at h
  rcases h with rfl | rfl | rfl | rfl | rfl | rfl
  · exact nests_emitEndTag
  · exact nests_emitTag
  · exact nests_emitInstruction
  · exact nests_emitComment
  · exact nests_emitCData
  · exact nests_emitDoctype

/-- Markup drops the rest of the document, or goes on in one of these ways behind its end. -/
theorem readMarkup_cases {P : Reading → Prop} (r : Reader) (inside : List UInt8)
    (habandon : ∀ pos fault, P (r.abandon pos fault))
    (hemit : ∀ emit ∈ emitters, ∀ content rest pos, rest.length < inside.length →
      P (emit content { r with rest, pos })) :
    P (r.readMarkup inside) := by
  have hupTo : ∀ {σ : Type} (ending : Ending σ) (unclosed : SyntaxFault),
      ∀ emit ∈ emitters, P (r.readUpTo ending unclosed inside emit) := by
    intro σ ending unclosed emit hmem
    unfold readUpTo
    split
    · exact habandon _ _
    next content rest hsplit =>
      apply hemit emit hmem
      rw [Ending.splitFrom_eq hsplit, List.length_append, List.length_cons]
      omega
  unfold readMarkup readBang
  repeat' split
  all_goals
    first
    | exact habandon _ _
    | exact hupTo _ _ _ (by simp [emitters])

variable {r s : Reader} {token : Token}

/-- A start tag opens an element, an end tag closes one that is open, and nothing else that is read
does either. -/
theorem nests_of_read (h : r.read = .ok token s) : token.Nests r.openNames s.openNames := by
  unfold read at h
  split at h
  · cases h
    rfl
  · split at h
    next b inside _ _ =>
      exact r.readMarkup_cases (P := fun reading => ∀ token s, reading = .ok token s →
          token.Nests r.openNames s.openNames) inside
        (fun _ _ _ _ h => by cases h)
        (fun emit hmem content rest pos _ => nests_of_mem hmem content { r with rest, pos })
        token s h
    · cases h
      rfl

end Reader

/-! ## What a piece tells -/

namespace Content

variable {content taken : Content}

/-- A piece tells from the number of open nodes to the number behind it, unless it closes a node where
none is open. -/
theorem tells_takePiece (content : Content) (piece : Piece)
    (h : piece = .mark .closes → content.openNames ≠ []) :
    ∃ added, (content.takePiece piece).pending = content.pending ++ added ∧
      Tells (.inside content.openNames.length) added
        (.inside (content.takePiece piece).openNames.length) := by
  cases piece with
  | mark mark =>
    cases mark with
    | opens node =>
      exact ⟨[.startNode node], rfl, .single (Stage.tell_startNode _ _)⟩
    | empty node =>
      have htells : Tells (.inside content.openNames.length) [.startNode node, .endNode]
          (.inside content.openNames.length) := .cons (Stage.tell_startNode _ _) (.single rfl)
      exact ⟨_, List.append_assoc _ _ _, htells⟩
    | closes =>
      obtain ⟨name, outer, hnames⟩ := List.exists_cons_of_ne_nil (h rfl)
      refine ⟨content.held.toList.map .text ++ [.endNode], ?_, ?_⟩
      · show content.release.pending ++ [.endNode] = _
        rw [pending_release, List.append_assoc]
      · show Tells _ _ (.inside content.openNames.tail.length)
        rw [hnames]
        exact (Tells.texts _ _).append (.single rfl)
  | chunk chunk =>
    rw [takePiece, openNames_takeChunk, takeChunk_eq]
    split
    · refine ⟨(content.held.toList ++ [chunk.text]).map .text, ?_, .texts _ _⟩
      show content.release.pending ++ [.text chunk.text] = _
      rw [pending_release, List.append_assoc, List.map_append]
      rfl
    · refine ⟨[], ?_, .nil _⟩
      unfold hold
      split <;> exact (List.append_nil _).symm
  | aside => exact ⟨[], (List.append_nil _).symm, .nil _⟩

/-- A piece opens and closes nodes as its token opens and closes elements. -/
theorem length_takePiece {token : Token} {piece : Piece} (hpiece : token.piece = .ok piece)
    {before after : List (List UInt8)} (hnests : token.Nests before after)
    (hlength : content.openNames.length = before.length) :
    (content.takePiece piece).openNames.length = after.length ∧
      (piece = .mark .closes → content.openNames ≠ []) := by
  cases token with
  | startTag tag =>
    obtain ⟨node, _, rfl⟩ := Except.map_eq_ok.mp hpiece
    cases hnests
    exact ⟨congrArg (· + 1) hlength, fun h => by cases h⟩
  | emptyElement tag =>
    obtain ⟨node, _, rfl⟩ := Except.map_eq_ok.mp hpiece
    cases hnests
    exact ⟨hlength, fun h => by cases h⟩
  | endTag =>
    cases hpiece
    obtain ⟨name, rfl⟩ := hnests
    constructor
    · show content.openNames.tail.length = after.length
      rw [List.length_tail, hlength, List.length_cons, Nat.add_sub_cancel]
    · intro _ hnil
      rw [hnil] at hlength
      cases hlength
  | text bytes =>
    obtain ⟨text, _, rfl⟩ := Except.map_eq_ok.mp hpiece
    cases hnests
    rw [takePiece, openNames_takeChunk]
    exact ⟨hlength, fun h => by cases h⟩
  | cdata bytes =>
    cases hpiece
    cases hnests
    rw [takePiece, openNames_takeChunk]
    exact ⟨hlength, fun h => by cases h⟩
  | aside | finish =>
    cases hpiece
    cases hnests
    exact ⟨hlength, fun h => by cases h⟩

/-- A token that is taken tells what its piece tells. -/
theorem tells_take {token : Token} (h : content.take token = .ok taken)
    {before after : List (List UInt8)} (hnests : token.Nests before after)
    (hlength : content.openNames.length = before.length) :
    taken.openNames.length = after.length ∧
      ∃ added, taken.pending = content.pending ++ added ∧
        Tells (.inside content.openNames.length) added (.inside taken.openNames.length) := by
  rw [take_eq] at h
  obtain ⟨piece, hpiece, rfl⟩ := Except.map_eq_ok.mp h
  obtain ⟨hafter, hopen⟩ := length_takePiece hpiece hnests hlength
  exact ⟨hafter, content.tells_takePiece piece hopen⟩

end Content

namespace Document

/-- How far the document is told behind the pending events. -/
def stage (d : Document) : Stage :=
  match d.phase with
  | .fresh => .fresh
  | .reading => .inside d.content.openNames.length
  | .finished => .ended

/-- The reader and the content of a document have as many elements open. -/
structure InStep (d : Document) : Prop where
  same_depth : d.content.openNames.length = d.reader.openNames.length
  fresh : d.phase = .fresh → d.content.openNames = []

theorem tells_finish {d e : Document} (h : finish d = .ok () e) (hphase : d.phase = .reading)
    (hd : d.InStep) :
    e.InStep ∧ ∃ added, e.content.pending = d.content.pending ++ added ∧
      Tells d.stage added e.stage := by
  unfold finish at h
  split at h
  · cases h
  next hnames =>
    cases h
    refine ⟨⟨hd.same_depth, fun h => by cases h⟩, [.endDocument], rfl, .single ?_⟩
    rw [stage, hphase, hnames]
    rfl

/-- What is read until an event is pending is told from the stage before to the stage behind it. -/
theorem tells_fill {d e : Document} (h : fill d = .ok () e) (hd : d.InStep) :
    e.InStep ∧ ∃ added, e.content.pending = d.content.pending ++ added ∧
      Tells d.stage added e.stage := by
  fun_induction fill d with
  | case1 d =>
    cases h
    exact ⟨hd, [], (List.append_nil _).symm, .nil _⟩
  | case2 d hp hphase =>
    cases h
    refine ⟨⟨hd.same_depth, fun h => by cases h⟩, [.startDocument], rfl, .single ?_⟩
    show d.stage.tell _ = some (.inside d.content.openNames.length)
    rw [stage, hphase, hd.fresh hphase]
    rfl
  | case3 d hp hphase =>
    cases h
    refine ⟨⟨hd.same_depth, fun hfresh => ?_⟩, [.endDocument], rfl, .single ?_⟩
    · cases hphase.symm.trans hfresh
    · rw [stage, stage, hphase]
      rfl
  | case4 => cases h
  | case5 d hp hphase reader hr =>
    have hnests : reader.openNames = d.reader.openNames := Reader.nests_of_read hr
    apply tells_finish h hphase
    refine ⟨?_, hd.fresh⟩
    show d.content.openNames.length = reader.openNames.length
    rw [hnests]
    exact hd.same_depth
  | case6 => cases h
  | case7 d hp hphase token reader hr ht content hc ih =>
    obtain ⟨hlength, added, hpending, htells⟩ :=
      Content.tells_take hc (Reader.nests_of_read hr) hd.same_depth
    obtain ⟨he, more, hmore, hrest⟩ :=
      ih h ⟨hlength, fun hfresh => by cases hphase.symm.trans hfresh⟩
    refine ⟨he, added ++ more, ?_, ?_⟩
    · rw [hmore, hpending, List.append_assoc]
    · have hstage : stage { d with reader, content } = .inside content.openNames.length := by
        rw [stage, hphase]
      rw [hstage] at hrest
      rw [stage, hphase]
      exact htells.append hrest

instance : Source.Queued Document where
  fill := EStateM.adaptExcept .xml fill
  pending d := d.content.pending
  dropFirst d := { d with content.pending := d.content.pending.tail }
  pending_dropFirst _ := rfl
  fill_ok h := (fill_ok (EStateM.adaptExcept_eq_ok.mp h)).2
  fill_of_pending h := EStateM.adaptExcept_eq_ok.mpr (fill_of_pending h)
  peek_eq d := by
    show peek d = _
    unfold peek EStateM.adaptExcept
    cases fill d <;> rfl
  next_eq d := by
    show next d = _
    unfold next EStateM.adaptExcept
    cases fill d <;> rfl

theorem queued_fill_ok {d e : Document} :
    (Source.Queued.fill : EStateM SourceError Document Unit) d = .ok () e ↔ fill d = .ok () e :=
  EStateM.adaptExcept_eq_ok

theorem ordered : Source.Ordered position stage InStep where
  fill := by
    intro d e hd h
    exact tells_fill (queued_fill_ok.mp h) hd
  dropFirst := fun hd => ⟨⟨hd.same_depth, hd.fresh⟩, rfl, rfl⟩
  ended := by
    intro d hd
    have hphase : d.phase = .finished := by
      unfold stage at hd
      split at hd
      · cases hd
      · cases hd
      next hphase => exact hphase
    by_cases hp : d.content.pending = []
    · refine ⟨{ d with content := d.content.queue .endDocument }, queued_fill_ok.mpr ?_, rfl⟩
      rw [fill, if_neg (not_not_intro hp), hphase]
    · exact ⟨d, queued_fill_ok.mpr (fill_of_pending hp), rfl⟩

/-- **A document keeps the contract of a source**, whatever its bytes. -/
theorem contract (bytes : List UInt8) : Source.Contract position (ofBytes bytes) :=
  ordered.contract ⟨⟨rfl, fun _ => rfl⟩, .nil _⟩ ⟨_, queued_fill_ok.mpr (fill_fresh _)⟩

end Document

end DocWalk.Xml
