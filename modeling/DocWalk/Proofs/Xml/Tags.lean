import DocWalk.Proofs.Xml.Markup

/-!
# Reading tags

A tag is written with a name and with settings, and a reader takes its content as a whole up to its
end: no greater-than sign is left in an escaped value, and every quote that is opened is closed
(`InTag`). Its node is then read from this content, setting by setting (`readAttributes_written`). A
value may have any bytes but a quote in it, so a slash or an equals sign there means nothing.

**The laws** (`reads_startTag`, `reads_emptyTag`, `reads_endTag`): each tag is read as one piece, with
the node that was written, whatever follows it.
-/

set_option autoImplicit false

namespace DocWalk

theorem Word.ne_colon (word : Word) :
    ∀ b ∈ Utf8.encode word.text, decide (b ≠ Ascii.colon) = true :=
  fun _ hb => decide_eq_true (word.isWord.ne_of_mem hb rfl)

namespace Xml

/-! ## Names -/

/-- Bytes that may stand in a name: of letters and digits, and colons. -/
structure IsKey (key : List UInt8) : Prop where
  ne_nil : key ≠ []
  plain : ∀ b ∈ key, Ascii.isAlphanum b = true ∨ b = Ascii.colon

namespace IsKey

variable {key : List UInt8}

/-- A byte of a name is no sign but the colon. -/
theorem ne_of_mem (h : IsKey key) {b : UInt8} (hb : b ∈ key) {other : UInt8}
    (hother : Ascii.isAlphanum other = false) (hcolon : other ≠ Ascii.colon) : b ≠ other := by
  rintro rfl
  rcases h.plain b hb with halphanum | heq
  · cases hother.symm.trans halphanum
  · exact hcolon heq

theorem isBlank_eq_false (h : IsKey key) {b : UInt8} (hb : b ∈ key) : Ascii.isBlank b = false := by
  simp only [Ascii.isBlank, Bool.or_eq_false_iff, decide_eq_false_iff_not]
  exact ⟨⟨⟨h.ne_of_mem hb rfl (by decide), h.ne_of_mem hb rfl (by decide)⟩,
    h.ne_of_mem hb rfl (by decide)⟩, h.ne_of_mem hb rfl (by decide)⟩

end IsKey

/-- A key declares a namespace when `xmlns` stands in front of its first colon. -/
theorem isNamespace_eq (key : List UInt8) :
    isNamespace key = decide (key.takeWhile (· ≠ Ascii.colon) = Ascii.bytes "xmlns") := by
  have hword : ∀ b ∈ Ascii.bytes "xmlns", decide (b ≠ Ascii.colon) = true :=
    List.all_eq_true.mp rfl
  rw [isNamespace, Bool.eq_iff_iff, Bool.or_eq_true, decide_eq_true_eq, decide_eq_true_eq,
    List.isPrefixOf_iff_prefix]
  constructor
  · rintro (rfl | ⟨rest, rfl⟩)
    · exact List.takeWhile_eq_self_iff.mpr hword
    · rw [List.append_assoc, List.takeWhile_append_of_pos hword]
      exact List.append_nil _
  · intro htake
    have hsplit := List.takeWhile_append_dropWhile (p := (· ≠ Ascii.colon)) (l := key)
    rw [htake] at hsplit
    cases hdrop : key.dropWhile (· ≠ Ascii.colon) with
    | nil =>
      rw [hdrop, List.append_nil] at hsplit
      exact .inl hsplit.symm
    | cons b rest =>
      have hcolon := List.head?_dropWhile_not (· ≠ Ascii.colon) key
      rw [hdrop] at hcolon
      have hb : b = Ascii.colon := by simpa using hcolon
      rw [hdrop, hb] at hsplit
      exact .inr ⟨rest, by rw [← hsplit, List.append_assoc]; rfl⟩

namespace QName

variable (name : QName)

theorem encode_text : Utf8.encode name.text =
    match name.label with
    | none => Utf8.encode name.base.text
    | some label => Utf8.encode label.text ++ Ascii.colon :: Utf8.encode name.base.text := by
  obtain ⟨label, base⟩ := name
  cases label with
  | none => rfl
  | some label =>
    rw [text, Utf8.encode_append, Utf8.encode_append, List.append_assoc]
    rfl

theorem isKey : IsKey (Utf8.encode name.text) := by
  obtain ⟨label, base⟩ := name
  rw [encode_text]
  cases label with
  | none => exact ⟨base.isWord.encode_ne_nil, fun b hb => .inl (base.isWord.isAlphanum_of_mem hb)⟩
  | some label =>
    refine ⟨List.append_ne_nil_of_right_ne_nil _ (List.cons_ne_nil _ _), fun b hb => ?_⟩
    rcases List.mem_append.mp hb with hb | hb
    · exact .inl (label.isWord.isAlphanum_of_mem hb)
    · rcases List.mem_cons.mp hb with rfl | hb
      · exact .inr rfl
      · exact .inl (base.isWord.isAlphanum_of_mem hb)

theorem localName_encode : localName (Utf8.encode name.text) = Utf8.encode name.base.text := by
  obtain ⟨label, base⟩ := name
  rw [encode_text]
  cases label with
  | none => exact localName_of_word base.isWord
  | some label =>
    dsimp only
    rw [localName, List.dropWhile_append_of_pos label.ne_colon]
    rfl

theorem takeWhile_encode :
    (Utf8.encode name.text).takeWhile (· ≠ Ascii.colon) = Utf8.encode name.front.text := by
  obtain ⟨label, base⟩ := name
  rw [encode_text]
  cases label with
  | none => exact List.takeWhile_eq_self_iff.mpr base.ne_colon
  | some label =>
    dsimp only
    rw [List.takeWhile_append_of_pos label.ne_colon]
    exact List.append_nil _

end QName

/-- A setting declares a namespace for a reader when it does as it is written. -/
theorem Setting.isNamespace_encode (s : Setting) :
    isNamespace (Utf8.encode s.name.text) = s.isDeclaration := by
  rw [isNamespace_eq, s.name.takeWhile_encode, isDeclaration, decide_eq_decide]
  exact ⟨fun h => Utf8.encode_injective h, fun h => by rw [h]; rfl⟩

/-! ## The content of a tag -/

/-- Markup ends where its ending closes it, when there is no greater-than sign before. -/
theorem Ending.splitFrom_append {σ : Type} {ending : Ending σ} {content : List UInt8} {state : σ}
    (h : Ascii.greater ∉ content) (hcloses : ending.closes (content.foldl ending.step state))
    (rest : List UInt8) :
    ending.splitFrom state (content ++ Ascii.greater :: rest) = some (content, rest) := by
  induction content generalizing state with
  | nil => rw [List.nil_append, splitFrom, if_pos ⟨rfl, hcloses⟩]
  | cons b content ih =>
    obtain ⟨hb, hcontent⟩ := not_or.mp (mt List.mem_cons.mpr h)
    rw [List.cons_append, splitFrom, if_neg (fun hgreater => hb hgreater.1.symm),
      ih hcontent hcloses]
    rfl

/-- Bytes that may stand in a tag: no greater-than sign is among them, and no quote stays open. -/
structure InTag (content : List UInt8) : Prop where
  not_greater : Ascii.greater ∉ content
  closed : content.foldl Ending.tag.step none = none

namespace InTag

theorem append {content more : List UInt8} (h : InTag content) (k : InTag more) :
    InTag (content ++ more) := by
  constructor
  · exact fun hmem => (List.mem_append.mp hmem).elim h.not_greater k.not_greater
  · rw [List.foldl_append, h.closed, k.closed]

theorem of_unquoted {content : List UInt8}
    (h : ∀ b ∈ content, b ≠ Ascii.greater ∧ b ≠ Ascii.quote ∧ b ≠ Ascii.apostrophe) :
    InTag content := by
  refine ⟨fun hmem => (h _ hmem).1 rfl, ?_⟩
  induction content with
  | nil => rfl
  | cons b content ih =>
    obtain ⟨_, hquote, hapostrophe⟩ := h b List.mem_cons_self
    have hstep : Ending.tag.step none b = none := if_neg (not_or.mpr ⟨hquote, hapostrophe⟩)
    rw [List.foldl_cons, hstep, ih fun b hb => h b (List.mem_cons_of_mem _ hb)]

theorem single {b : UInt8} (h : b ≠ Ascii.greater ∧ b ≠ Ascii.quote ∧ b ≠ Ascii.apostrophe) :
    InTag [b] :=
  .of_unquoted (List.forall_mem_singleton.mpr h)

theorem quoted {value : List UInt8} (hgreater : Ascii.greater ∉ value)
    (hquote : Ascii.quote ∉ value) : InTag (Ascii.quote :: (value ++ [Ascii.quote])) := by
  constructor
  · have hne : Ascii.greater ≠ Ascii.quote := by decide
    simp [hgreater, hne]
  · have hopen : value.foldl Ending.tag.step (some Ascii.quote) = some Ascii.quote := by
      induction value with
      | nil => rfl
      | cons b value ih =>
        simp only [List.mem_cons, not_or] at hgreater hquote
        have hstep : Ending.tag.step (some Ascii.quote) b = some Ascii.quote :=
          if_neg (Ne.symm hquote.1)
        rw [List.foldl_cons, hstep, ih hgreater.2 hquote.2]
    rw [List.foldl_cons, List.foldl_append]
    show [Ascii.quote].foldl _ (value.foldl Ending.tag.step (some Ascii.quote)) = none
    rw [hopen]
    rfl

end InTag

theorem IsKey.inTag {key : List UInt8} (h : IsKey key) : InTag key :=
  .of_unquoted fun _ hb => ⟨h.ne_of_mem hb rfl (by decide), h.ne_of_mem hb rfl (by decide),
    h.ne_of_mem hb rfl (by decide)⟩

/-- The bytes of a setting, with `rest` behind it. -/
theorem Setting.encode_written (s : Setting) (rest : List UInt8) :
    Utf8.encode s.written ++ rest =
      Ascii.space :: (Utf8.encode s.name.text ++ Ascii.equals :: Ascii.quote ::
        (Utf8.encode (escaped s.value) ++ Ascii.quote :: rest)) := by
  have hspace : Utf8.encode " " = [Ascii.space] := rfl
  have hopen : Utf8.encode "=\"" = [Ascii.equals, Ascii.quote] := rfl
  have hclose : Utf8.encode "\"" = [Ascii.quote] := rfl
  simp only [written, Utf8.encode_append, hspace, hopen, hclose, List.append_assoc,
    List.cons_append, List.nil_append]

theorem Setting.inTag (s : Setting) : InTag (Utf8.encode s.written) := by
  have hvalue : InTag (Ascii.quote :: (Utf8.encode (escaped s.value) ++ [Ascii.quote])) :=
    .quoted (byte_not_mem_escaped (c := '>') (by decide) s.value)
      (byte_not_mem_escaped (c := '"') (by decide) s.value)
  have hspace : InTag [Ascii.space] := .single (by decide)
  have hequals : InTag [Ascii.equals] := .single (by decide)
  have hall := (hspace.append s.name.isKey.inTag).append (hequals.append hvalue)
  have hbytes := s.encode_written []
  rw [List.append_nil] at hbytes
  rw [hbytes]
  simpa only [List.append_assoc, List.cons_append, List.nil_append] using hall

theorem inTag_settings (settings : List Setting) :
    InTag (Utf8.encode (writtenSettings settings)) := by
  induction settings with
  | nil => exact ⟨List.not_mem_nil, rfl⟩
  | cons s rest ih =>
    rw [writtenSettings, Utf8.encode_append]
    exact s.inTag.append ih

/-! ## The node of a tag -/

namespace RawAttribute

variable (total : Nat) {seen : List RawAttribute} {first : UInt8} {key value rest : List UInt8}

theorem readValue_quoted (h : Ascii.quote ∉ value) :
    readValue total (Ascii.quote :: (value ++ Ascii.quote :: rest)) = .ok (value, rest) := by
  have htake : (value ++ Ascii.quote :: rest).takeWhile (· ≠ Ascii.quote) = value := by
    have hkeep : ∀ b ∈ value, decide (b ≠ Ascii.quote) = true :=
      fun b hb => decide_eq_true fun heq => h (heq ▸ hb)
    rw [List.takeWhile_append_of_pos hkeep]
    exact List.append_nil _
  have hdrop : (value ++ Ascii.quote :: rest).drop (value.length + 1) = rest := by
    rw [← List.drop_drop, List.drop_left]
    rfl
  rw [readValue]
  show (if _ then _ else _) = _
  rw [if_pos (.inl rfl)]
  dsimp only
  rw [htake, hdrop, if_neg]
  rw [List.length_append, List.length_cons]
  omega

/-- An attribute is read up to its closing quote, when its name is new. -/
theorem readFrom_key (hkey : IsKey (first :: key)) (hvalue : Ascii.quote ∉ value)
    (hseen : ∀ raw ∈ seen, raw.key ≠ first :: key) (rest : List UInt8) :
    ∃ offset, readFrom total seen first
        (key ++ Ascii.equals :: Ascii.quote :: (value ++ Ascii.quote :: rest)) =
      .ok (⟨first :: key, offset, value⟩, rest) := by
  generalize hmore : key ++ Ascii.equals :: Ascii.quote :: (value ++ Ascii.quote :: rest) = more
  have htake : more.takeWhile (fun b => b ≠ Ascii.equals && !Ascii.isBlank b) = key := by
    rw [← hmore, List.takeWhile_append_of_pos]
    · exact List.append_nil _
    · intro b hb
      have hmem := List.mem_cons_of_mem first hb
      rw [hkey.isBlank_eq_false hmem, decide_eq_true (hkey.ne_of_mem hmem rfl (by decide))]
      rfl
  have hdrop : skipBlanks (more.drop key.length) =
      Ascii.equals :: Ascii.quote :: (value ++ Ascii.quote :: rest) := by
    rw [← hmore, List.drop_left]
    rfl
  have hfind : seen.find? (·.key = first :: key) = none :=
    List.find?_eq_none.mpr fun raw hraw => by simpa using hseen raw hraw
  refine ⟨total - (more.length + 1), ?_⟩
  rw [readFrom]
  simp only [htake, List.length_cons, Nat.add_sub_cancel, hdrop, if_true, hfind,
    readValue_quoted total hvalue]

end RawAttribute

section

variable (total : Nat) {seen : List RawAttribute}

theorem readAttributes_of_read {bytes rest behind : List UInt8} {first : UInt8}
    {raw : RawAttribute} (hskip : RawAttribute.skipBlanks bytes = first :: rest)
    (hread : RawAttribute.readFrom total seen first rest = .ok (raw, behind)) :
    readAttributes total seen bytes =
      if isNamespace raw.key then readAttributes total (seen ++ [raw]) behind
      else
        readText raw.value >>= fun value =>
          (readAttributes total (seen ++ [raw]) behind).map
            (⟨Utf8.decodeLossy (localName raw.key), value⟩ :: ·) := by
  rw [readAttributes]
  split
  next hnil => cases hnil.symm.trans hskip
  next hcons =>
    cases hcons.symm.trans hskip
    split
    next herror => cases herror.symm.trans hread
    next hok =>
      cases hok.symm.trans hread
      split
      · rfl
      · cases readText raw.value <;> rfl

/-- A setting is read, and the settings behind it with it among those before them. -/
theorem readAttributes_setting {s : Setting}
    (hseen : ∀ raw ∈ seen, raw.key ≠ Utf8.encode s.name.text) (rest : List UInt8) :
    ∃ raw : RawAttribute, raw.key = Utf8.encode s.name.text ∧
      readAttributes total seen (Utf8.encode s.written ++ rest) =
        (readAttributes total (seen ++ [raw]) rest).map (s.attribute?.toList ++ ·) := by
  have hkey := s.name.isKey
  have hquote := byte_not_mem_escaped (c := '"') (by decide) s.value
  obtain ⟨first, key, hname⟩ := List.exists_cons_of_ne_nil hkey.ne_nil
  have hskip : RawAttribute.skipBlanks (Utf8.encode s.written ++ rest) = first :: (key ++
      Ascii.equals :: Ascii.quote :: (Utf8.encode (escaped s.value) ++ Ascii.quote :: rest)) := by
    have hfirst : ¬Ascii.isBlank first = true := by
      rw [hkey.isBlank_eq_false (hname ▸ List.mem_cons_self)]
      exact Bool.false_ne_true
    rw [s.encode_written, hname, RawAttribute.skipBlanks, List.dropWhile_cons_of_pos rfl,
      List.cons_append, List.dropWhile_cons_of_neg hfirst]
  rw [hname] at hkey hseen
  obtain ⟨offset, hread⟩ := RawAttribute.readFrom_key total hkey hquote hseen rest
  refine ⟨⟨first :: key, offset, Utf8.encode (escaped s.value)⟩, hname.symm, ?_⟩
  rw [readAttributes_of_read total hskip hread, ← hname, s.isNamespace_encode, readText_escaped,
    s.name.localName_encode, Utf8.decodeLossy_encode, Setting.attribute?]
  split
  · cases readAttributes total _ rest <;> rfl
  · rfl

/-- The attributes of a tag are those that were written, in order and with their values. -/
theorem readAttributes_written (settings : List Setting)
    (hdistinct : (settings.map (·.name.text)).Nodup)
    (hseen : ∀ raw ∈ seen, ∀ s ∈ settings, raw.key ≠ Utf8.encode s.name.text) :
    readAttributes total seen (Utf8.encode (writtenSettings settings)) =
      .ok (settings.filterMap Setting.attribute?) := by
  induction settings generalizing seen with
  | nil =>
    rw [readAttributes]
    rfl
  | cons s rest ih =>
    rw [List.map_cons, List.nodup_cons] at hdistinct
    obtain ⟨hs, hrest⟩ := hdistinct
    obtain ⟨raw, hraw, hread⟩ := readAttributes_setting total
      (fun raw hraw => hseen raw hraw s List.mem_cons_self) (Utf8.encode (writtenSettings rest))
    have hnext : ∀ r ∈ seen ++ [raw], ∀ next ∈ rest, r.key ≠ Utf8.encode next.name.text := by
      intro r hr next hnext
      rcases List.mem_append.mp hr with hr | hr
      · exact hseen r hr next (List.mem_cons_of_mem s hnext)
      · obtain rfl := List.mem_singleton.mp hr
        rw [hraw]
        intro heq
        exact hs (Utf8.encode_injective heq ▸ List.mem_map_of_mem hnext)
    rw [writtenSettings, Utf8.encode_append, hread, ih hrest hnext, List.filterMap_cons]
    cases s.attribute? <;> rfl

end

/-- What stands in a tag, up to the slash of an empty element. -/
def tagContent (name : QName) (settings : Settings) : List UInt8 :=
  Utf8.encode name.text ++ Utf8.encode (writtenSettings settings.list)

variable (name : QName) (settings : Settings)

theorem Tag.name_tagContent : Tag.name ⟨tagContent name settings⟩ = Utf8.encode name.text := by
  have hname : ∀ b ∈ Utf8.encode name.text, (!Ascii.isBlank b) = true := by
    intro b hb
    rw [name.isKey.isBlank_eq_false hb]
    rfl
  rw [Tag.name, tagContent, List.takeWhile_append_of_pos hname]
  cases settings.list with
  | nil => exact List.append_nil _
  | cons s rest =>
    rw [writtenSettings, Utf8.encode_append, s.encode_written, List.takeWhile_cons_of_neg (by decide),
      List.append_nil]

theorem Tag.node_tagContent : Tag.node ⟨tagContent name settings⟩ = .ok (heading name settings) := by
  rw [Tag.node, Tag.name_tagContent, tagContent, List.drop_left,
    readAttributes_written _ settings.list settings.distinct (fun _ h => absurd h List.not_mem_nil),
    name.localName_encode,
    Utf8.decodeLossy_encode]
  rfl

theorem inTag_tagContent : InTag (tagContent name settings) :=
  name.isKey.inTag.append (inTag_settings settings.list)

/-- The settings of a tag end with a quote. -/
theorem getLast?_settings (settings : List Setting) :
    ∀ b ∈ (Utf8.encode (writtenSettings settings)).getLast?, b = Ascii.quote := by
  induction settings with
  | nil => nofun
  | cons s rest ih =>
    rw [writtenSettings, Utf8.encode_append, List.getLast?_append]
    cases hlast : (Utf8.encode (writtenSettings rest)).getLast? with
    | some b =>
      rw [hlast] at ih
      exact ih
    | none =>
      have hbytes : Utf8.encode s.written = Utf8.encode (" " ++ s.name.text ++ "=\"" ++
          escaped s.value) ++ [Ascii.quote] := Utf8.encode_append _ _
      intro b hb
      rw [Option.none_or, hbytes, List.getLast?_concat] at hb
      exact (Option.some.inj hb).symm

theorem getLast?_tagContent : (tagContent name settings).getLast? ≠ some Ascii.slash := by
  intro hslash
  rw [tagContent, List.getLast?_append, Option.or_eq_some_iff] at hslash
  rcases hslash with hslash | ⟨_, hslash⟩
  · cases getLast?_settings settings.list _ hslash
  · exact name.isKey.ne_of_mem (List.mem_of_getLast? hslash) rfl (by decide) rfl

/-! ## Reading a tag -/

section

variable {rest : List UInt8} {pos : Nat} {openNames : List (List UInt8)} {pieces : List Piece}

/-- A tag goes up to its end, with `behind` between its settings and the sign. -/
theorem Reader.read_tag {behind : List UInt8} (h : InTag behind) (rest : List UInt8) (pos : Nat)
    (openNames : List (List UInt8)) :
    Reader.read ⟨Ascii.less :: (tagContent name settings ++ behind ++ Ascii.greater :: rest), pos,
        openNames⟩ =
      emitTag (tagContent name settings ++ behind)
        ⟨rest, pos + (tagContent name settings ++ behind).length + 2, openNames⟩ := by
  have hin := (inTag_tagContent name settings).append h
  have hsplit : Ending.tag.split (tagContent name settings ++ behind ++ Ascii.greater :: rest) =
      some (tagContent name settings ++ behind, rest) :=
    Ending.splitFrom_append hin.not_greater (Option.isNone_iff_eq_none.mpr hin.closed) rest
  obtain ⟨first, key, hname⟩ := List.exists_cons_of_ne_nil name.isKey.ne_nil
  have hfirst : first ∈ Utf8.encode name.text := hname ▸ List.mem_cons_self
  have hmarkup : ∀ r : Reader,
      r.readMarkup (tagContent name settings ++ behind ++ Ascii.greater :: rest) =
        r.readUpTo .tag .unclosedTag (tagContent name settings ++ behind ++ Ascii.greater :: rest)
          emitTag := by
    intro r
    rw [tagContent, hname, List.cons_append, List.cons_append, List.cons_append, readMarkup,
      if_neg (name.isKey.ne_of_mem hfirst rfl (by decide)),
      if_neg (name.isKey.ne_of_mem hfirst rfl (by decide)),
      if_neg (name.isKey.ne_of_mem hfirst rfl (by decide))]
  rw [read]
  dsimp only
  rw [if_pos rfl, hmarkup, readUpTo, hsplit]

theorem Reader.read_startTag :
    Reader.read ⟨Ascii.less :: (tagContent name settings ++ Ascii.greater :: rest), pos, openNames⟩ =
      .ok (.startTag ⟨tagContent name settings⟩)
        ⟨rest, pos + (tagContent name settings).length + 2,
          Utf8.encode name.text :: openNames⟩ := by
  have hnone : InTag [] := .of_unquoted nofun
  have hread := read_tag name settings hnone rest pos openNames
  rw [List.append_nil] at hread
  rw [hread, emitTag, if_neg (getLast?_tagContent name settings)]
  dsimp only
  rw [Tag.name_tagContent]

theorem Reader.read_emptyTag :
    Reader.read ⟨Ascii.less :: (tagContent name settings ++ Ascii.slash :: Ascii.greater :: rest),
        pos, openNames⟩ =
      .ok (.emptyElement ⟨tagContent name settings⟩)
        ⟨rest, pos + (tagContent name settings ++ [Ascii.slash]).length + 2, openNames⟩ := by
  have hslash : InTag [Ascii.slash] := .single (by decide)
  have hread := read_tag name settings hslash rest pos openNames
  rw [List.append_assoc, List.singleton_append] at hread
  rw [hread, emitTag, List.getLast?_concat, if_pos rfl, List.dropLast_concat]

theorem reads_startTag
    (hrest : ∀ pos, Reads ⟨rest, pos, Utf8.encode name.text :: openNames⟩ pieces) (pos : Nat) :
    Reads ⟨Ascii.less :: (tagContent name settings ++ Ascii.greater :: rest), pos, openNames⟩
      (.mark (.opens (heading name settings)) :: pieces) := by
  refine .piece (Reader.read_startTag name settings) nofun ?_ (hrest _)
  rw [Token.piece, Tag.node_tagContent]
  rfl

theorem reads_emptyTag (hrest : ∀ pos, Reads ⟨rest, pos, openNames⟩ pieces) (pos : Nat) :
    Reads ⟨Ascii.less :: (tagContent name settings ++ Ascii.slash :: Ascii.greater :: rest), pos,
      openNames⟩ (.mark (.empty (heading name settings)) :: pieces) := by
  refine .piece (Reader.read_emptyTag name settings) nofun ?_ (hrest _)
  rw [Token.piece, Tag.node_tagContent]
  rfl

theorem Reader.trimName_of_key {key : List UInt8} (h : IsKey key) : trimName key = key := by
  have hdrop : key.reverse.dropWhile Ascii.isBlank = key.reverse := by
    rw [List.dropWhile_eq_self_iff]
    intro hlength hblank
    have hmem := List.mem_reverse.mp (List.getElem_mem hlength)
    cases hblank.symm.trans (h.isBlank_eq_false hmem)
  rw [trimName, hdrop, List.reverse_reverse, ite_self]

theorem Reader.read_endTag {key : List UInt8} (h : IsKey key) :
    Reader.read ⟨Ascii.less :: Ascii.slash :: (key ++ Ascii.greater :: rest), pos,
        key :: openNames⟩ =
      .ok .endTag ⟨rest, pos + (key.length + 1) + 2, openNames⟩ := by
  have hin : InTag ([Ascii.slash] ++ key) := (InTag.single (by decide)).append h.inTag
  have hsplit : Ending.tag.split (Ascii.slash :: (key ++ Ascii.greater :: rest)) =
      some (Ascii.slash :: key, rest) :=
    Ending.splitFrom_append hin.not_greater (Option.isNone_iff_eq_none.mpr hin.closed) rest
  rw [read]
  dsimp only
  rw [if_pos rfl, readMarkup, if_neg (by decide), if_neg (by decide), if_pos rfl, readUpTo, hsplit]
  dsimp only
  rw [emitEndTag, List.drop_succ_cons, List.drop_zero, trimName_of_key h]
  dsimp only
  rw [if_pos rfl]
  rfl

theorem reads_endTag {key : List UInt8} (h : IsKey key)
    (hrest : ∀ pos, Reads ⟨rest, pos, openNames⟩ pieces) (pos : Nat) :
    Reads ⟨Ascii.less :: Ascii.slash :: (key ++ Ascii.greater :: rest), pos, key :: openNames⟩
      (.mark .closes :: pieces) :=
  .piece (Reader.read_endTag h) nofun rfl (hrest _)

end

end Xml

end DocWalk
