import DocWalk.Xml.Content

/-!
# XML documents as sources

An XML document is read token by token until an event is pending. A token that fails to be read, or
whose text or attributes do, is gone, and the document goes on behind it. At the end of the bytes each
element that is still open is an error of its own, innermost first; only then the document ends.
-/

set_option autoImplicit false

namespace DocWalk.Xml

/-- How far a document has come. -/
inductive Phase where
  /-- Nothing was given yet. -/
  | fresh
  | reading
  | finished
  deriving DecidableEq, Repr, Inhabited

/-- An XML document on its way to events. -/
structure Document where
  reader : Reader
  content : Content := {}
  phase : Phase := .fresh
  deriving DecidableEq, Repr, Inhabited

namespace Document

open Source (worth worth_append worth_cons)

/-- A document at its start. -/
def ofBytes (bytes : List UInt8) : Document :=
  { reader := .ofBytes bytes }

/-- A document given as a text. -/
def ofText (text : String) : Document :=
  ofBytes (Utf8.encode text)

/-- The byte offset of the document's reader. -/
def position (d : Document) : Nat :=
  d.reader.pos

/-- At the end of the bytes: an error for the innermost open element, or else the end. -/
def finish (d : Document) : EStateM.Result Fault Document Unit :=
  match d.content.openNames with
  | name :: outer =>
    .error (.illFormed (.missingEndTag name)) { d with content.openNames := outer }
  | [] => .ok () { d with content := d.content.queue .endDocument, phase := .finished }

/-- Reads tokens until an event is pending. -/
def fill (d : Document) : EStateM.Result Fault Document Unit :=
  if d.content.pending ≠ [] then .ok () d
  else
    match d.phase with
    | .fresh => .ok () { d with content := d.content.queue .startDocument, phase := .reading }
    | .finished => .ok () { d with content := d.content.queue .endDocument }
    | .reading =>
      match _hr : d.reader.read with
      | .error fault reader => .error fault { d with reader }
      | .ok token reader =>
        if _ht : token = .finish then finish { d with reader }
        else
          match d.content.take token with
          | .error fault => .error fault { d with reader }
          | .ok content => fill { d with reader, content }
termination_by d.reader.rest.length
decreasing_by exact Reader.read_lt _hr _ht

/-- Looks at the first pending event, once there is one. -/
def peek : EStateM SourceError Document (Option Event) := fun d =>
  match fill d with
  | .ok () d => .ok d.content.pending.head? d
  | .error fault d => .error (.xml fault) d

/-- Takes the first pending event, once there is one. -/
def next : EStateM SourceError Document Event := fun d =>
  match fill d with
  | .ok () d =>
    .ok (d.content.pending.head?.getD .endDocument)
      { d with content.pending := d.content.pending.tail }
  | .error fault d => .error (.xml fault) d

/-! ## The document comes to an end -/

/-- A bound on the events left before the end: what the content owes, two for each byte, and the start
of the document. -/
def remaining (d : Document) : Nat :=
  d.content.owed + 2 * d.reader.rest.length + if d.phase = .fresh then 1 else 0

theorem owed_queue_endDocument (content : Content) :
    (content.queue .endDocument).owed = content.owed := by
  simp [Content.owed, Content.queue, worth]

theorem finish_ok {d e : Document} (h : finish d = .ok () e) :
    e.remaining ≤ d.remaining ∧ e.content.pending ≠ [] := by
  unfold finish at h
  split at h
  · cases h
  · cases h
    refine ⟨?_, by simp [Content.queue]⟩
    simp only [remaining, owed_queue_endDocument]
    simp

theorem fill_ok {d e : Document} (h : fill d = .ok () e) :
    e.remaining ≤ d.remaining ∧ e.content.pending ≠ [] := by
  fun_induction fill d with
  | case1 d hp =>
    cases h
    exact ⟨Nat.le_refl _, hp⟩
  | case2 d hp hf =>
    cases h
    refine ⟨?_, by simp [Content.queue]⟩
    have := d.content.worth_queue_le .startDocument
    simp only [remaining, Content.owed, hf]
    simp [Content.queue] at this ⊢
    omega
  | case3 d hp hf =>
    cases h
    refine ⟨?_, by simp [Content.queue]⟩
    simp only [remaining, owed_queue_endDocument]
    omega
  | case4 => cases h
  | case5 d hp hf reader hr =>
    obtain ⟨h₁, h₂⟩ := finish_ok h
    refine ⟨Nat.le_trans h₁ ?_, h₂⟩
    have : reader.rest.length ≤ d.reader.rest.length := by
      rcases Reader.read_ok hr with ⟨_, rfl⟩ | hlt
      · exact Nat.le_refl _
      · exact Nat.le_of_lt hlt
    simp only [remaining]
    omega
  | case6 => cases h
  | case7 d hp hf token reader hr ht content hc ih =>
    obtain ⟨h₁, h₂⟩ := ih h
    refine ⟨Nat.le_trans h₁ ?_, h₂⟩
    have := Content.owed_take_le hc
    have := Reader.read_lt hr ht
    simp only [remaining]
    omega

theorem fill_of_pending {d : Document} (h : d.content.pending ≠ []) : fill d = .ok () d := by
  rw [fill, if_pos h]

instance : FiniteSource Document where
  peek := peek
  next := next
  remaining := remaining
  next_lt := by
    intro d e event h he
    change next d = _ at h
    unfold next at h
    split at h
    next f hf =>
      obtain ⟨hle, hne⟩ := fill_ok hf
      cases h
      match hp : f.content.pending with
      | [] => exact absurd hp hne
      | first :: rest =>
        simp only [hp, List.head?_cons, Option.getD_some] at he
        simp only [remaining, Content.owed, hp, List.tail_cons] at hle ⊢
        rw [worth_cons he] at hle
        omega
    next => cases h
  peek_le := by
    intro d e shown h
    change peek d = _ at h
    unfold peek at h
    split at h
    next f hf =>
      cases h
      exact (fill_ok hf).1
    next => cases h
  next_of_peek := by
    intro d e event h
    change peek d = _ at h
    unfold peek at h
    split at h
    next f hf =>
      simp only [EStateM.Result.ok.injEq] at h
      obtain ⟨hp, rfl⟩ := h
      refine ⟨{ f with content.pending := f.content.pending.tail }, ?_⟩
      unfold next
      rw [fill_of_pending (fill_ok hf).2]
      simp [hp]
    next => cases h

end Document

end DocWalk.Xml
