import DocWalk.Source
import DocWalk.Xml.Attributes

/-!
# XML tokens as events

An empty element is a node that opens and closes. A comment or an instruction is no event. Text is an
event, with one rule for text that is all blank: between the tags of a leaf it is content, and next
to the tag of a child it is indentation, which is dropped. A blank text is therefore held back behind
a start tag or other text, until what comes next decides: other text and an end tag release it, and
a start tag drops it. Pieces that are held together are one text.

A CDATA section is content, blank or not.
-/

set_option autoImplicit false

namespace DocWalk.Xml

/-- The events of the tokens read so far that were not given yet, and what the blank rule needs. -/
structure Content where
  pending : List Event := []
  /-- Names of the open nodes, innermost first. -/
  openNames : List String := []
  /-- Blank text of which it is not known yet whether it is content. -/
  held : Option String := none
  /-- Whether the last event was the start of a node or text. -/
  inContent : Bool := false
  deriving DecidableEq, Repr, Inhabited

namespace Content

/-- Adds an event behind the pending ones. -/
def queue (content : Content) (event : Event) : Content :=
  { content with pending := content.pending ++ [event] }

/-- Blank text that was held back is content. -/
def release (content : Content) : Content :=
  match content.held with
  | none => content
  | some blank => { content.queue (.text blank) with held := none }

/-- Opens a node. -/
def openNode (content : Content) (node : Node) : Content :=
  { content.queue (.startNode node) with
    openNames := node.name :: content.openNames, held := none, inContent := true }

/-- Opens and closes a node. -/
def emptyNode (content : Content) (node : Node) : Content :=
  { (content.queue (.startNode node)).queue .endNode with held := none, inContent := false }

/-- Closes the innermost node. -/
def closeNode (content : Content) : Content :=
  { content.release.queue .endNode with
    openNames := content.openNames.tail, inContent := false }

/-- Adds text that is content. -/
def addText (content : Content) (text : String) : Content :=
  { content.release.queue (.text text) with inContent := true }

/-- Whether a text is all blank, by the blanks of the format. -/
def isBlankText (text : String) : Bool :=
  text.toList.all fun c => c = ' ' || c = '\t' || c = '\n' || c = '\r'

/-- Holds blank text back, in content. -/
def hold (content : Content) (blank : String) : Content :=
  if content.inContent then { content with held := some (content.held.getD "" ++ blank) }
  else content

/-- Adds or holds back text. -/
def takeText (content : Content) (text : String) : Content :=
  if isBlankText text then content.hold text else content.addText text

/-- Takes a token. The end of the document changes nothing. -/
def take (content : Content) : Token → Except Fault Content
  | .startTag tag => tag.node.map content.openNode
  | .emptyElement tag => tag.node.map content.emptyNode
  | .endTag => .ok content.closeNode
  | .text bytes => (readText bytes).map content.takeText
  | .cdata bytes => .ok (content.addText (Utf8.decodeLossy bytes))
  | .aside | .finish => .ok content

/-! ## A token adds at most two events -/

open Source (worth worth_append worth_singleton_le)

/-- The events pending, and the one that text held back may become. -/
def owed (content : Content) : Nat :=
  worth content.pending + content.held.toList.length

theorem worth_queue_le (content : Content) (event : Event) :
    worth (content.queue event).pending ≤ worth content.pending + 1 := by
  simp only [queue, worth_append]
  exact Nat.add_le_add_left (worth_singleton_le event) _

theorem worth_release_le (content : Content) : worth content.release.pending ≤ content.owed := by
  unfold release owed
  split
  next h => simp
  next blank h =>
    simp only [h]
    exact worth_queue_le content _

theorem owed_take_le {content taken : Content} {token : Token}
    (h : content.take token = .ok taken) : taken.owed ≤ content.owed + 2 := by
  have hr := worth_release_le content
  have hadd : ∀ text, (content.addText text).owed ≤ content.owed + 2 := by
    intro text
    have hq := worth_queue_le content.release (.text text)
    have hh : content.release.held = none := by
      unfold release
      split <;> simp_all
    simp only [addText, owed] at hr hq ⊢
    simp only [queue, hh] at hq ⊢
    simp at hq ⊢
    omega
  cases token with
  | startTag tag =>
    simp only [take] at h
    cases hn : tag.node with
    | error fault =>
      rw [hn] at h
      cases h
    | ok node =>
      rw [hn] at h
      cases h
      have := worth_queue_le content (.startNode node)
      simp only [openNode, owed]
      simp
      omega
  | emptyElement tag =>
    simp only [take] at h
    cases hn : tag.node with
    | error fault =>
      rw [hn] at h
      cases h
    | ok node =>
      rw [hn] at h
      cases h
      have h₁ := worth_queue_le content (.startNode node)
      have h₂ := worth_queue_le (content.queue (.startNode node)) .endNode
      simp only [emptyNode, owed]
      simp
      omega
  | endTag =>
    cases h
    have hq := worth_queue_le content.release .endNode
    have hh : content.release.held = none := by
      unfold release
      split <;> simp_all
    simp only [closeNode, owed] at hr hq ⊢
    simp only [queue, hh] at hq ⊢
    simp at hq ⊢
    omega
  | text bytes =>
    simp only [take] at h
    cases hn : readText bytes with
    | error fault =>
      rw [hn] at h
      cases h
    | ok text =>
      rw [hn] at h
      cases h
      unfold takeText
      split
      · unfold hold
        split
        · simp only [owed]
          simp
          omega
        · omega
      · exact hadd text
  | cdata bytes =>
    cases h
    exact hadd _
  | aside | finish =>
    cases h
    omega

end Content

end DocWalk.Xml
