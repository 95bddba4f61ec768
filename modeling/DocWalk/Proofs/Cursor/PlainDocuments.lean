import DocWalk.Proofs.Cursor.Interchange
import DocWalk.Proofs.Json.Completeness
import DocWalk.Proofs.Xml.RoundTrip

/-!
# One document in two formats

A plain document is a tree of named nodes with a word in each leaf. It is written in XML with an
element for each node, and in JSON with a member for each node, and both readers make the same events
of it: an element is read without a held blank or an attribute, and a member is a node named by its
key.

**The law** (`answers_xml_eq_json`): a cursor over the one and a cursor over the other answer every
sequence of operations alike. It says more than that both show the same walk, since operations look
ahead, take and skip in any order and go on behind errors.
-/

set_option autoImplicit false

namespace DocWalk

/-- A small letter, and small letters and digits behind it. -/
structure Name where
  text : String
  isName : ∃ first rest, text.toList = first :: rest ∧ first.isLower ∧
    ∀ c ∈ rest, c.isLower || c.isDigit

theorem Name.isWord (name : Name) : IsWord name.text := by
  obtain ⟨text, first, rest, htext, hfirst, hrest⟩ := name
  constructor
  · rw [htext]
    exact List.cons_ne_nil first rest
  · intro c hc
    rw [htext] at hc
    have hlower : c.isLower || c.isDigit := by
      rcases List.mem_cons.mp hc with rfl | hc
      · rw [hfirst, Bool.true_or]
      · exact hrest c hc
    show (c.isUpper || c.isLower || c.isDigit) = true
    rw [Bool.or_assoc, hlower, Bool.or_true]

/-- A node with a text or with nodes in it. -/
inductive Plain where
  | leaf (name : Name) (text : Word)
  | branch (name : Name) (children : List Plain)

mutual

/-- A node as an XML element. -/
def Plain.xml : Plain → String
  | .leaf name text => "<" ++ name.text ++ ">" ++ text.text ++ "</" ++ name.text ++ ">"
  | .branch name children =>
    "<" ++ name.text ++ ">" ++ xmlAll children ++ "</" ++ name.text ++ ">"

def xmlAll : List Plain → String
  | [] => ""
  | t :: rest => t.xml ++ xmlAll rest

end

mutual

/-- A node as a member of a JSON object. -/
def Plain.member : Plain → String
  | .leaf name text => "\"" ++ name.text ++ "\": \"" ++ text.text ++ "\""
  | .branch name children => "\"" ++ name.text ++ r#"": {"# ++ membersAll children ++ r"}"

/-- Members with commas between them. -/
def membersAll : List Plain → String
  | [] => ""
  | t :: rest => t.member ++ (if rest.isEmpty then "" else ", ") ++ membersAll rest

end

/-- A node as the one member of a JSON object. -/
def Plain.json (t : Plain) : String :=
  r"{" ++ t.member ++ r"}"

mutual

/-- The events of a node. -/
def Plain.events : Plain → List Event
  | .leaf name text => [.startNode { name := name.text }, .text text.text, .endNode]
  | .branch name children => .startNode { name := name.text } :: eventsAll children ++ [.endNode]

def eventsAll : List Plain → List Event
  | [] => []
  | t :: rest => t.events ++ eventsAll rest

end

/-! ## The JSON text -/

namespace Json

open Grammar

mutual

/-- The key and the value of a node. -/
def keyed : Plain → String × Value
  | .leaf name text => (name.text, .string text.text)
  | .branch name children => (name.text, .object (keyedAll children))

def keyedAll : List Plain → List (String × Value)
  | [] => []
  | t :: rest => keyed t :: keyedAll rest

end

/-- A letter or a digit stands for itself. -/
theorem isUnescaped_of_isAlphanum {c : Char} (h : c.isAlphanum) : isUnescaped c := by
  by_cases hc : c.toNat < 128
  · have hascii : ∀ n < 128, (Char.ofNat n).isAlphanum → isUnescaped (Char.ofNat n) := by decide
    exact Utf8.forall_ascii (P := fun c => c.isAlphanum → isUnescaped c) hascii c hc h
  · rw [isAlphanum_eq_false (Nat.not_lt.mp hc)] at h
    cases h

theorem content_of_alphanum {chars : List Char} (h : ∀ c ∈ chars, c.isAlphanum) :
    Content chars chars := by
  induction chars with
  | nil => exact .nil
  | cons c rest ih =>
    exact .raw (isUnescaped_of_isAlphanum (h c List.mem_cons_self))
      (ih fun c hc => h c (List.mem_cons_of_mem _ hc))

theorem quoted_of_isWord {word : String} (h : IsWord word) :
    Quoted word ('"' :: word.toList ++ ['"']) :=
  .mk (content_of_alphanum h.alphanum)

/-- A word as a key, with a blank in front of the value. -/
theorem member_of_written {key : String} {v : Value} {chars : List Char} (hkey : IsWord key)
    (h : Written v chars) :
    Member (key, v) ('"' :: key.toList ++ '"' :: ':' :: ' ' :: chars) := by
  have hspaced := @Spaced.mk v [' '] chars [] (by decide) h (by decide)
  have hmember := @Member.mk key v [] _ [] _ (by decide) (quoted_of_isWord hkey) (by decide) hspaced
  simpa only [List.nil_append, List.append_nil, List.cons_append, List.append_assoc] using hmember

theorem member_blank {m : String × Value} {chars : List Char} (h : Member m chars) :
    Member m (' ' :: chars) := by
  cases h with
  | @mk key v before quoted after chars hbefore hquoted hafter hspaced =>
    have hblank : Blanks (' ' :: before) := List.forall_mem_cons.mpr ⟨rfl, hbefore⟩
    exact .mk hblank hquoted hafter hspaced

theorem members_blank {members : List (String × Value)} {chars : List Char}
    (h : Members members chars) : Members members (' ' :: chars) := by
  cases h with
  | one hm => exact .one (member_blank hm)
  | more hm hrest => exact .more (member_blank hm) hrest

theorem written_of_members {ts : List Plain}
    (h : ts ≠ [] → Members (keyedAll ts) (membersAll ts).toList) :
    Written (.object (keyedAll ts)) ('{' :: (membersAll ts).toList ++ ['}']) := by
  cases ts with
  | nil => exact .emptyObject nofun
  | cons t rest => exact .object (h (List.cons_ne_nil t rest))

mutual

theorem member_keyed : ∀ t : Plain, Member (keyed t) t.member.toList
  | .leaf name text => by
    have hmember := member_of_written name.isWord (.scalar (.string (quoted_of_isWord text.isWord)))
    rw [keyed]
    simpa [Plain.member] using hmember
  | .branch name children => by
    have hwritten := written_of_members (members_keyedAll children)
    have hmember := member_of_written name.isWord hwritten
    rw [keyed]
    simpa [Plain.member] using hmember

theorem members_keyedAll : ∀ ts : List Plain, ts ≠ [] →
    Members (keyedAll ts) (membersAll ts).toList
  | [], h => absurd rfl h
  | t :: rest, _ => by
    by_cases hrest : rest = []
    · have hmember := Members.one (member_keyed t)
      simpa [hrest, keyedAll, membersAll] using hmember
    · have hmembers := Members.more (member_keyed t) (members_blank (members_keyedAll rest hrest))
      simpa [hrest, keyedAll, membersAll] using hmembers

end

theorem isText_json (t : Plain) : IsText (.object [keyed t]) t.json := by
  have hwritten := Written.object (.one (member_keyed t))
  have hspaced := @Spaced.mk _ [] _ [] nofun hwritten nofun
  simpa [IsText, Plain.json] using hspaced

mutual

theorem events_keyed : ∀ t : Plain, memberEvents [keyed t] = t.events
  | .leaf name text => rfl
  | .branch name children => by
    have hchildren := events_keyedAll children
    simp only [keyed, memberEvents, Value.events, hchildren, Plain.events]

theorem events_keyedAll : ∀ ts : List Plain, memberEvents (keyedAll ts) = eventsAll ts
  | [] => rfl
  | t :: rest => by
    have ht := events_keyed t
    have hrest := events_keyedAll rest
    simp only [memberEvents] at ht
    rw [keyedAll, memberEvents, hrest, eventsAll, ← ht]
    simp only [List.cons_append, List.append_assoc, List.nil_append]

end

/-- The JSON text of a node is read as its events. -/
theorem Tokenizer.emits_json (t : Plain) :
    Source.Emits (Tokenizer.ofText t.json) (.startDocument :: t.events) := by
  obtain ⟨u, hruns, hended⟩ := runs_ofText (isText_json t)
  rw [Value.events, events_keyed] at hruns
  exact hruns.emits hended

end Json

/-! ## The XML text -/

namespace Xml

mutual

/-- A node as an element without attributes. -/
def markup : Plain → Markup
  | .leaf name text =>
    .element ⟨none, ⟨name.text, name.isWord⟩⟩ ⟨[], List.nodup_nil⟩ [.text text.text]
  | .branch name children =>
    .element ⟨none, ⟨name.text, name.isWord⟩⟩ ⟨[], List.nodup_nil⟩ (markups children)

def markups : List Plain → List Markup
  | [] => []
  | t :: rest => markup t :: markups rest

end

mutual

theorem written_markup : ∀ t : Plain, (markup t).written = t.xml
  | .leaf name text => by
    have htext := escaped_of_word text.isWord
    simp only [markup, Markup.written, writtenAll, writtenSettings, QName.text, htext,
      String.append_empty, Plain.xml]
  | .branch name children => by
    have hchildren := writtenAll_markups children
    simp only [markup, Markup.written, writtenSettings, QName.text, hchildren, String.append_empty,
      Plain.xml]

theorem writtenAll_markups : ∀ ts : List Plain, writtenAll (markups ts) = xmlAll ts
  | [] => rfl
  | t :: rest => by rw [markups, writtenAll, written_markup, writtenAll_markups, xmlAll]

end

mutual

theorem flatten_markup : ∀ t : Plain, (markup t).tree.flatten = t.events
  | .leaf name text => rfl
  | .branch name children => by
    have hchildren := flattenAll_markups children
    simp only [markup, Markup.tree, Tree.flatten, hchildren, Plain.events]
    rfl

theorem flattenAll_markups : ∀ ts : List Plain, flattenAll (treesOf (markups ts)) = eventsAll ts
  | [] => rfl
  | t :: rest => by rw [markups, treesOf, flattenAll, flatten_markup, flattenAll_markups, eventsAll]

end

theorem isText_markups {ts : List Plain} : ∀ m ∈ markups ts, m.isText = false ∧ m.isBlank = false := by
  induction ts with
  | nil => exact fun _ h => absurd h List.not_mem_nil
  | cons t rest ih =>
    intro m hm
    rcases List.mem_cons.mp hm with rfl | hm
    · cases t <;> exact ⟨rfl, rfl⟩
    · exact ih m hm

mutual

theorem wellFormed_markup : ∀ t : Plain, (markup t).WellFormed
  | .leaf name text => by
    have hne : text.text ≠ "" := fun h => text.isWord.ne_nil (by rw [h]; rfl)
    exact ⟨⟨.singleton _, fun _ _ _ => rfl⟩, hne, trivial⟩
  | .branch name children => by
    have hkind := @isText_markups children
    refine ⟨⟨?_, ?_⟩, wellFormedAll_markups children⟩
    · apply List.isChain_iff_forall_rel_of_append_cons_cons.mpr
      intro m next before after hsplit
      have hm : m ∈ markups children := by simp [hsplit]
      rw [(hkind m hm).1]
      rfl
    · intro m hm hblank
      cases hblank.symm.trans (hkind m hm).2

theorem wellFormedAll_markups : ∀ ts : List Plain, WellFormedAll (markups ts)
  | [] => trivial
  | t :: rest => ⟨wellFormed_markup t, wellFormedAll_markups rest⟩

end

/-- The XML text of a node is read as its events. -/
theorem Document.emits_xml (t : Plain) :
    Source.Emits (Document.ofText t.xml) (.startDocument :: t.events) := by
  have helement : (markup t).isText = false := by cases t <;> rfl
  have hemits := emits_written helement (wellFormed_markup t)
  rwa [written_markup, flatten_markup] at hemits

theorem Document.peek_ne_none (d e : Document) :
    (Source.peek : EStateM SourceError Document _) d ≠ .ok none e := by
  show Document.peek d ≠ .ok none e
  intro h
  unfold Document.peek at h
  split at h
  next f hfill =>
    have hpending := (fill_ok hfill).2
    cases hp : f.content.pending with
    | nil => exact hpending hp
    | cons => rw [hp] at h; cases h
  next => cases h

end Xml

theorem Json.Tokenizer.peek_ne_none (t u : Json.Tokenizer) :
    (Source.peek : EStateM SourceError Json.Tokenizer _) t ≠ .ok none u := by
  show Tokenizer.peek t ≠ .ok none u
  intro h
  unfold Tokenizer.peek at h
  split at h
  next v hfill =>
    have hpending := (fill_ok hfill).2
    cases hp : v.pending with
    | nil => exact hpending hp
    | cons => rw [hp] at h; cases h
  next => cases h

/-! ## Interchange -/

open Cursor

/-- **The two readers are interchangeable.** For every plain document, a cursor over its XML text and
a cursor over its JSON text, with the same configuration and headers, give the same answers and errors
to every sequence of operations. -/
theorem answers_xml_eq_json (t : Plain) (config : Config)
    (headers : Option (List (String × String))) (operations : List Operation) :
    Operation.answers operations (Cursor.new (Xml.Document.ofText t.xml) config headers) =
      Operation.answers operations (Cursor.new (Json.Tokenizer.ofText t.json) config headers) :=
  answers_eq_of_emits Xml.Document.peek_ne_none Json.Tokenizer.peek_ne_none
    (Xml.Document.emits_xml t) (Json.Tokenizer.emits_json t) config headers operations

end DocWalk
