import DocWalk.Json.Scanner
import DocWalk.Source

/-!
# JSON as events

The tokenizer shows a JSON text in the events of a document: a member of an object is a node named by
its key, an element of an array is a node named `member`, a scalar is one text, and null is no text
at all. The value at the root opens no node, so an object with one member is a document with one
root.

The node of an array's element opens before the element is looked at. When the element then fails to
be read, its node stays among the pending events, and each further try opens one more.

`step_advances` is what ends the tokenizer's loops: a step that adds no event takes a byte, or turns
from the first element of an array to its value, and the events of all steps are paid for by bytes.
-/

set_option autoImplicit false

namespace DocWalk.Json

/-- The name of the node of an array's element. -/
def memberName : String := "member"

/-- An open container. -/
inductive Frame where
  | object
  | array
  deriving DecidableEq, Repr, Inhabited

/-- What the tokenizer expects to come next. -/
inductive Expect where
  /-- Nothing was given yet. -/
  | start
  /-- A value. -/
  | value
  /-- The first key of an object, or its end. -/
  | firstKey
  /-- A key behind a comma. -/
  | key
  /-- The first element of an array, or its end. -/
  | firstElement
  /-- A comma or the end of a container; at the root the end of the text. -/
  | afterValue
  /-- Nothing. -/
  | finished
  deriving DecidableEq, Repr, Inhabited

namespace Frame

/-- The byte that closes a container. -/
def closing : Frame → UInt8
  | object => Ascii.closeBrace
  | array => Ascii.closeBracket

/-- What comes behind a comma in a container. -/
def afterComma : Frame → Expect
  | object => .key
  | array => .value

/-- The reason when neither a comma nor the end of the container comes. -/
def missing : Frame → Reason
  | object => .expectedCommaOrBrace
  | array => .expectedCommaOrBracket

end Frame

/-- A JSON text on its way to events. -/
structure Tokenizer where
  scanner : Scanner
  /-- The open containers, innermost first. -/
  frames : List Frame := []
  /-- Events that were read and not yet given. -/
  pending : List Event := []
  expect : Expect := .start
  deriving DecidableEq, Repr, Inhabited

/-- An operation of the tokenizer. -/
abbrev Tokenize := EStateM Fault Tokenizer

namespace Tokenizer

open Source (worth worth_append worth_singleton_le worth_cons)

/-- A tokenizer at the start of a text. -/
def ofText (text : String) : Tokenizer :=
  { scanner := .ofText text }

/-- The byte offset of the tokenizer in its text. -/
def position (t : Tokenizer) : Nat :=
  t.scanner.pos

/-- Lets the scanner read. -/
def scan {α : Type} (m : Scan α) : Tokenize α := fun t =>
  match m t.scanner with
  | .ok a s => .ok a { t with scanner := s }
  | .error fault s => .error fault { t with scanner := s }

/-- Adds an event behind the pending ones. -/
def queue (event : Event) : Tokenize Unit := fun t =>
  .ok () { t with pending := t.pending ++ [event] }

/-- Sets what comes next. -/
def await (expect : Expect) : Tokenize Unit := fun t =>
  .ok () { t with expect }

/-- Enters a container. -/
def openFrame (frame : Frame) (expect : Expect) : Tokenize Unit := fun t =>
  .ok () { t with frames := frame :: t.frames, expect }

/-- Opens the node of an element, inside an array. -/
def openElement : Tokenize Unit := fun t =>
  if t.frames.head? = some .array then queue (.startNode { name := memberName }) t else .ok () t

/-- A value is complete: closes the node around it, unless it stands at the root. -/
def closeMember : Tokenize Unit := fun t =>
  if t.frames.isEmpty then await .afterValue t
  else (do queue .endNode; await .afterValue : Tokenize Unit) t

/-- Leaves the innermost container, which must be of the kind given. -/
def closeContainer (frame : Frame) : Tokenize Unit := fun t =>
  match t.frames with
  | [] => scan (.fail .mismatchedBracket) t
  | innermost :: outer =>
    if innermost = frame then closeMember { t with frames := outer }
    else scan (.fail .mismatchedBracket) { t with frames := outer }

/-- Passes the closing byte of a container. -/
def passClosing (frame : Frame) : Tokenize Unit := do
  scan (.skip 1)
  closeContainer frame

/-- Adds the text of a scalar, if it has one. -/
def queueText : Option String → Tokenize Unit
  | some text => queue (.text text)
  | none => pure ()

/-- Reads a scalar that starts with a byte. -/
def readScalar (b : UInt8) : Tokenize Unit := do
  let text ← scan (.scalar b)
  queueText text
  closeMember

/-- Reads a value; of a container only its opening byte. -/
def readValue : Tokenize Unit := do
  openElement
  match ← scan .significant with
  | none => scan (.fail .unexpectedEnd)
  | some b =>
    if b = Ascii.openBrace then
      scan (.skip 1)
      openFrame .object .firstKey
    else if b = Ascii.openBracket then
      scan (.skip 1)
      openFrame .array .firstElement
    else readScalar b

/-- Reads a key and its colon, and opens the node of the member. -/
def readMember : Tokenize Unit := do
  let key ← scan .string
  scan (.expect Ascii.colon .expectedColon)
  queue (.startNode { name := key })
  await .value

/-- Reads a key; in front of the first one the object may end. -/
def readKey (first : Bool) : Tokenize Unit := do
  let b ← scan .significant
  if first ∧ b = some Ascii.closeBrace then passClosing .object
  else if b = some Ascii.quote then readMember
  else scan (.fail .expectedKey)

/-- Finds the first element of an array, or its end. -/
def readFirstElement : Tokenize Unit := do
  let b ← scan .significant
  if b = some Ascii.closeBracket then passClosing .array
  else await .value

/-- Reads what stands behind a value in a container. -/
def readSeparator (frame : Frame) (b : Option UInt8) : Tokenize Unit := do
  if b = some Ascii.comma then
    scan (.skip 1)
    await frame.afterComma
  else if b = some frame.closing then passClosing frame
  else scan (.fail frame.missing)

/-- Ends the document, behind which nothing may stand. -/
def readEnd (b : Option UInt8) : Tokenize Unit := do
  if b.isSome then scan (.fail .trailingCharacters)
  else
    queue .endDocument
    await .finished

/-- Reads what stands behind a value. -/
def readAfterValue : Tokenize Unit := do
  let b ← scan .significant
  fun t => match t.frames with
    | [] => readEnd b t
    | frame :: _ => readSeparator frame b t

/-- Reads one token. -/
def step : Tokenize Unit := fun t =>
  match t.expect with
  | .start => (do queue .startDocument; await .value : Tokenize Unit) t
  | .value => readValue t
  | .firstKey => readKey true t
  | .key => readKey false t
  | .firstElement => readFirstElement t
  | .afterValue => readAfterValue t
  | .finished => queue .endDocument t

/-! ## Steps come to an end -/

/-- A bound on the events left before the end: the pending ones, four for each byte, and the start of
the document. -/
def remaining (t : Tokenizer) : Nat :=
  worth t.pending + 4 * t.scanner.rest.length + if t.expect = .start then 1 else 0

/-- Steps left before an event is pending: at most two for each byte. -/
def effort (t : Tokenizer) : Nat :=
  if t.pending.isEmpty then
    2 * t.scanner.rest.length + 1 + if t.expect = .firstElement then 1 else 0
  else 0

theorem scan_eq_ok {α : Type} {m : Scan α} {t u : Tokenizer} {a : α} :
    scan m t = .ok a u ↔ ∃ s, m t.scanner = .ok a s ∧ u = { t with scanner := s } := by
  unfold scan
  cases m t.scanner <;> simp [and_assoc, eq_comm]

/-- What an operation may change behind the bytes it takes: it adds events worth at most `n`, and
then nothing is awaited that is awaited at the start only. -/
structure Adds (n : Nat) (t u : Tokenizer) : Prop where
  worth_le : worth u.pending ≤ worth t.pending + n
  expect_ne : u.expect ≠ .start
  expect_ne' : u.expect ≠ .firstElement

theorem adds_closeMember {t u : Tokenizer} (h : closeMember t = .ok () u) :
    u.scanner = t.scanner ∧ Adds 1 t u := by
  unfold closeMember at h
  split at h
  · cases h
    exact ⟨rfl, by simp, by simp, by simp⟩
  · cases h
    refine ⟨rfl, ?_, by simp, by simp⟩
    rw [worth_append]
    exact Nat.add_le_add_left (worth_singleton_le _) _

theorem adds_closeContainer {frame : Frame} {t u : Tokenizer}
    (h : closeContainer frame t = .ok () u) : u.scanner = t.scanner ∧ Adds 1 t u := by
  unfold closeContainer at h
  split at h
  · cases h
  split at h
  · obtain ⟨hs, hw, he, he'⟩ := adds_closeMember h
    exact ⟨hs, hw, he, he'⟩
  · cases h

/-- A byte that was seen behind blanks can be taken. -/
theorem significant_some {s t : Scanner} {b : UInt8} (h : Scan.significant s = .ok (some b) t) :
    t.rest.length ≤ s.rest.length ∧ (t.drop 1).rest.length < t.rest.length := by
  obtain ⟨_, t', h₁, h₂⟩ := EStateM.bind_eq_ok.mp h
  have hle := Scan.length_le_of_forward (Scan.forward_skipWhile _) h₁
  unfold Scan.peek at h₂
  simp only [EStateM.Result.ok.injEq] at h₂
  obtain ⟨hb, rfl⟩ := h₂
  match hr : t'.rest with
  | [] => simp [hr] at hb
  | c :: more =>
    refine ⟨hr ▸ hle, ?_⟩
    rw [← hr]
    exact Scanner.length_drop_one_lt hr

theorem significant_le {s t : Scanner} {b : Option UInt8} (h : Scan.significant s = .ok b t) :
    t.rest.length ≤ s.rest.length :=
  Scan.length_le_of_forward Scan.forward_significant h

theorem adds_passClosing {frame : Frame} {t u : Tokenizer} (h : passClosing frame t = .ok () u) :
    u.scanner = t.scanner.drop 1 ∧ Adds 1 t u := by
  obtain ⟨_, t', h₁, h₂⟩ := EStateM.bind_eq_ok.mp h
  obtain ⟨s, hs, rfl⟩ := scan_eq_ok.mp h₁
  cases hs
  obtain ⟨hs, hw, he, he'⟩ := adds_closeContainer h₂
  exact ⟨hs, hw, he, he'⟩

theorem adds_readScalar {b : UInt8} {t u : Tokenizer} (h : readScalar b t = .ok () u) :
    u.scanner.rest.length < t.scanner.rest.length ∧ Adds 2 t u := by
  obtain ⟨text, t', h₁, h₂⟩ := EStateM.bind_eq_ok.mp h
  obtain ⟨s, hs, rfl⟩ := scan_eq_ok.mp h₁
  have hlt := Scan.takes_scalar b _ _ _ hs
  obtain ⟨_, t', h₃, h₄⟩ := EStateM.bind_eq_ok.mp h₂
  obtain ⟨hs, hw, he, he'⟩ := adds_closeMember h₄
  cases text with
  | none =>
    obtain ⟨_, rfl⟩ := EStateM.pure_eq_ok.mp h₃
    exact ⟨hs ▸ hlt, Nat.le_trans hw (Nat.le_succ _), he, he'⟩
  | some text =>
    cases h₃
    refine ⟨hs ▸ hlt, ?_, he, he'⟩
    have hw' := worth_singleton_le (.text text)
    simp only [worth_append] at hw ⊢
    omega

/-- A step keeps within the bound, and one that leaves no event pending takes from the effort. -/
def Advances (t u : Tokenizer) : Prop :=
  u.remaining ≤ t.remaining ∧ (u.pending = [] → u.effort < 2 * t.scanner.rest.length + 1 +
    if t.expect = .firstElement then 1 else 0)

theorem Adds.advances {n : Nat} {t u : Tokenizer} (h : Adds n t u) (hn : n ≤ 4)
    (hlt : u.scanner.rest.length < t.scanner.rest.length) : Advances t u := by
  obtain ⟨hw, he, he'⟩ := h
  constructor
  · simp only [remaining, he, if_false]
    omega
  · intro hp
    simp only [effort, hp, List.isEmpty_nil, if_true, he', if_false]
    omega

theorem advances_readValue {t u : Tokenizer} (h : readValue t = .ok () u) : Advances t u := by
  obtain ⟨_, t₁, h₁, h⟩ := EStateM.bind_eq_ok.mp h
  obtain ⟨b, t₂, h₂, h⟩ := EStateM.bind_eq_ok.mp h
  obtain ⟨s, hs, rfl⟩ := scan_eq_ok.mp h₂
  have hw : t₁.scanner = t.scanner ∧ worth t₁.pending ≤ worth t.pending + 1 := by
    unfold openElement at h₁
    split at h₁
    · cases h₁
      refine ⟨rfl, ?_⟩
      rw [worth_append]
      exact Nat.add_le_add_left (worth_singleton_le _) _
    · cases h₁
      exact ⟨rfl, Nat.le_succ _⟩
  obtain ⟨ht, hw⟩ := hw
  rw [ht] at hs
  cases b with
  | none =>
    obtain ⟨_, hf, _⟩ := scan_eq_ok.mp h
    cases hf
  | some b =>
    obtain ⟨hle, hlt⟩ := significant_some hs
    simp only at h
    split at h
    · obtain ⟨_, t₃, h₃, h⟩ := EStateM.bind_eq_ok.mp h
      obtain ⟨_, h₃, rfl⟩ := scan_eq_ok.mp h₃
      cases h₃
      cases h
      refine ⟨?_, fun hp => ?_⟩
      · simp only [remaining]
        simp
        omega
      · have hp : t₁.pending = [] := hp
        simp [effort, hp]
        omega
    split at h
    · obtain ⟨_, t₃, h₃, h⟩ := EStateM.bind_eq_ok.mp h
      obtain ⟨_, h₃, rfl⟩ := scan_eq_ok.mp h₃
      cases h₃
      cases h
      refine ⟨?_, fun hp => ?_⟩
      · simp only [remaining]
        simp
        omega
      · have hp : t₁.pending = [] := hp
        simp [effort, hp]
        omega
    · obtain ⟨hlt', hw', he, he'⟩ := adds_readScalar h
      have hadds : Adds 3 t u := ⟨by simp only at hw'; omega, he, he'⟩
      exact hadds.advances (by omega) (by simp only at hlt'; omega)

theorem advances_readMember {t u : Tokenizer} (h : readMember t = .ok () u) : Advances t u := by
  obtain ⟨key, t₁, h₁, h⟩ := EStateM.bind_eq_ok.mp h
  obtain ⟨s₁, hs₁, rfl⟩ := scan_eq_ok.mp h₁
  obtain ⟨_, t₂, h₂, h⟩ := EStateM.bind_eq_ok.mp h
  obtain ⟨s₂, hs₂, rfl⟩ := scan_eq_ok.mp h₂
  have hlt := Scan.takes_string _ _ _ hs₁
  have hle := Scan.length_le_of_forward (Scan.forward_expect _ _) hs₂
  have hu : u = ⟨s₂, t.frames, t.pending ++ [.startNode { name := key }], .value⟩ := by
    cases h
    rfl
  have hadds : Adds 1 t u := by
    subst hu
    exact ⟨by rw [worth_append]; exact Nat.add_le_add_left (worth_singleton_le _) _, by simp,
      by simp⟩
  exact hadds.advances (by omega) (by rw [hu]; exact Nat.lt_of_le_of_lt hle hlt)

/-- What advances behind blanks advances. -/
theorem Advances.behind {t u : Tokenizer} {s : Scanner}
    (hle : s.rest.length ≤ t.scanner.rest.length) (h : Advances { t with scanner := s } u) :
    Advances t u := by
  obtain ⟨h₁, h₂⟩ := h
  refine ⟨?_, fun hp => ?_⟩
  · simp only [remaining] at h₁ ⊢
    omega
  · have := h₂ hp
    simp only at this
    omega

theorem advances_passClosing {frame : Frame} {t u : Tokenizer}
    (hlt : (t.scanner.drop 1).rest.length < t.scanner.rest.length)
    (h : passClosing frame t = .ok () u) : Advances t u := by
  obtain ⟨hs, hadds⟩ := adds_passClosing h
  exact hadds.advances (by omega) (hs ▸ hlt)

theorem advances_readKey {first : Bool} {t u : Tokenizer} (h : readKey first t = .ok () u) :
    Advances t u := by
  obtain ⟨b, t₁, h₁, h⟩ := EStateM.bind_eq_ok.mp h
  obtain ⟨s, hs, rfl⟩ := scan_eq_ok.mp h₁
  refine Advances.behind (significant_le hs) ?_
  split at h
  next hb => exact advances_passClosing (significant_some (hb.2 ▸ hs)).2 h
  split at h
  · exact advances_readMember h
  · obtain ⟨_, hf, _⟩ := scan_eq_ok.mp h
    cases hf

theorem advances_readSeparator {frame : Frame} {b : Option UInt8} {t u : Tokenizer}
    (hlt : b ≠ none → (t.scanner.drop 1).rest.length < t.scanner.rest.length)
    (h : readSeparator frame b t = .ok () u) : Advances t u := by
  unfold readSeparator at h
  split at h
  next hb =>
    obtain ⟨_, t₁, h₁, h⟩ := EStateM.bind_eq_ok.mp h
    obtain ⟨_, hs, rfl⟩ := scan_eq_ok.mp h₁
    cases hs
    cases h
    have hadds : Adds 0 t { t with scanner := t.scanner.drop 1, expect := frame.afterComma } :=
      ⟨Nat.le_refl _, by cases frame <;> simp [Frame.afterComma],
        by cases frame <;> simp [Frame.afterComma]⟩
    exact hadds.advances (by omega) (hlt (by simp [hb]))
  split at h
  next hb => exact advances_passClosing (hlt (by simp [hb])) h
  · obtain ⟨_, hf, _⟩ := scan_eq_ok.mp h
    cases hf

theorem advances_readEnd {b : Option UInt8} {t u : Tokenizer} (h : readEnd b t = .ok () u) :
    Advances t u := by
  unfold readEnd at h
  split at h
  · obtain ⟨_, hf, _⟩ := scan_eq_ok.mp h
    cases hf
  · cases h
    refine ⟨?_, fun hp => by simp at hp⟩
    simp only [remaining, worth_append]
    simp [worth]

theorem advances_readAfterValue {t u : Tokenizer} (h : readAfterValue t = .ok () u) :
    Advances t u := by
  obtain ⟨b, t₁, h₁, h⟩ := EStateM.bind_eq_ok.mp h
  obtain ⟨s, hs, rfl⟩ := scan_eq_ok.mp h₁
  refine Advances.behind (significant_le hs) ?_
  split at h
  · exact advances_readEnd h
  · refine advances_readSeparator (fun hb => ?_) h
    cases b with
    | none => exact absurd rfl hb
    | some b => exact (significant_some hs).2

/-- A step that does not fail keeps within the bound on events, and takes from the effort unless it
leaves an event pending. -/
theorem step_advances {t u : Tokenizer} (h : step t = .ok () u) : Advances t u := by
  unfold step at h
  split at h
  next he =>
    cases h
    refine ⟨?_, fun hp => by simp at hp⟩
    simp only [remaining, worth_append, he]
    simp [worth]
    omega
  · exact advances_readValue h
  · exact advances_readKey h
  · exact advances_readKey h
  next he =>
    obtain ⟨b, t₁, h₁, h⟩ := EStateM.bind_eq_ok.mp h
    obtain ⟨s, hs, rfl⟩ := scan_eq_ok.mp h₁
    have hle := significant_le hs
    split at h
    next hb =>
      exact .behind hle (advances_passClosing (significant_some (hb ▸ hs)).2 h)
    next =>
      cases h
      refine ⟨?_, fun hp => ?_⟩
      · simp only [remaining]
        simp
        omega
      · have hp : t.pending = [] := hp
        simp [effort, hp, he]
        omega
  · exact advances_readAfterValue h
  · cases h
    refine ⟨?_, fun hp => by simp at hp⟩
    simp only [remaining, worth_append]
    simp [worth]

/-! ## Giving events -/

/-- Reads tokens until an event is pending. -/
def fill (t : Tokenizer) : EStateM.Result Fault Tokenizer Unit :=
  if _hp : t.pending = [] then
    match _hs : step t with
    | .ok () u => fill u
    | .error fault u => .error fault u
  else .ok () t
termination_by t.effort
decreasing_by
  have h := (step_advances _hs).2
  by_cases hu : u.pending = []
  · have := h hu
    simp only [effort, _hp, List.isEmpty_nil, if_true] at this ⊢
    exact this
  · simp only [effort, List.isEmpty_iff, hu, _hp, if_true, if_false]
    omega

/-- Looks at the first pending event, once there is one. -/
def peek : EStateM SourceError Tokenizer (Option Event) := fun t =>
  match fill t with
  | .ok () u => .ok u.pending.head? u
  | .error fault u => .error (.json fault) u

/-- Takes the first pending event, once there is one. -/
def next : EStateM SourceError Tokenizer Event := fun t =>
  match fill t with
  | .ok () u => .ok (u.pending.head?.getD .endDocument) { u with pending := u.pending.tail }
  | .error fault u => .error (.json fault) u

theorem fill_of_pending {t : Tokenizer} (h : t.pending ≠ []) : fill t = .ok () t := by
  rw [fill, dif_neg h]

theorem fill_ok {t u : Tokenizer} (h : fill t = .ok () u) :
    u.remaining ≤ t.remaining ∧ u.pending ≠ [] := by
  fun_induction fill t with
  | case1 t hp t' hs ih =>
    obtain ⟨h₁, h₂⟩ := ih h
    exact ⟨Nat.le_trans h₁ (step_advances hs).1, h₂⟩
  | case2 => cases h
  | case3 t hp =>
    cases h
    exact ⟨Nat.le_refl _, hp⟩

instance : FiniteSource Tokenizer where
  peek := peek
  next := next
  remaining := remaining
  next_lt := by
    intro t u event h he
    change next t = _ at h
    unfold next at h
    split at h
    next v hv =>
      obtain ⟨hle, hne⟩ := fill_ok hv
      cases h
      match hp : v.pending with
      | [] => exact absurd hp hne
      | first :: rest =>
        simp only [hp, List.head?_cons, Option.getD_some] at he
        simp only [remaining, hp, List.tail_cons] at hle ⊢
        rw [worth_cons he] at hle
        omega
    next => cases h
  peek_le := by
    intro t u shown h
    change peek t = _ at h
    unfold peek at h
    split at h
    next v hv =>
      cases h
      exact (fill_ok hv).1
    next => cases h
  next_of_peek := by
    intro t u event h
    change peek t = _ at h
    unfold peek at h
    split at h
    next v hv =>
      simp only [EStateM.Result.ok.injEq] at h
      obtain ⟨hp, rfl⟩ := h
      refine ⟨{ v with pending := v.pending.tail }, ?_⟩
      unfold next
      rw [fill_of_pending (fill_ok hv).2]
      simp [hp]
    next => cases h

end Tokenizer

end DocWalk.Json
