import DocWalk.Proofs.Xml.Words
import Mathlib.Data.List.Basic

/-!
# Texts with their markup characters escaped

Five characters may mean something to a reader, and each has a name by which it can be referred to.
`escaped` writes a text with references in their place.

**The law** (`readText_escaped`): the text is read back, whatever it is. What is written has none of the
characters that end a text or a quoted value (`not_mem_escaped`), so a reader takes it as a whole.
-/

set_option autoImplicit false

namespace DocWalk

namespace Utf8

/-- An ASCII byte among the bytes of a text is a character of it. -/
theorem byte_mem_encodeChars {c : Char} (hc : c.toNat < 128) {chars : List Char}
    (h : Ascii.byte c ∈ encodeChars chars) : c ∈ chars := by
  obtain ⟨d, hd, hmem⟩ := List.mem_flatMap.mp h
  rwa [eq_of_byte_mem hc hmem]

end Utf8

namespace Xml

/-- The name of a character that is written as a reference. -/
def entityName? : Char → Option String
  | '<' => some "lt"
  | '>' => some "gt"
  | '&' => some "amp"
  | '"' => some "quot"
  | '\'' => some "apos"
  | _ => none

/-- A character as it is written: itself, or a reference to it. -/
def escapedChar (c : Char) : List Char :=
  match entityName? c with
  | some name => '&' :: name.toList ++ [';']
  | none => [c]

/-- A text with its markup characters escaped. -/
def escaped (text : String) : String :=
  .ofList (text.toList.flatMap escapedChar)

/-- A name that is written resolves to its character, and holds no sign of a reference. -/
theorem entityName?_some {c : Char} {name : String} (h : entityName? c = some name) :
    IsWord name ∧ ∀ start, Reference.resolve start name.toList = .ok c := by
  unfold entityName? at h
  split at h
  all_goals
    cases h
    try exact ⟨by decide, fun _ => rfl⟩

theorem entityName?_of_isAlphanum {c : Char} (h : c.isAlphanum) : entityName? c = none := by
  unfold entityName?
  split
  all_goals
    first
    | rfl
    | cases h

theorem toList_escaped (text : String) :
    (escaped text).toList = text.toList.flatMap escapedChar :=
  String.toList_ofList

/-- A word is written as it is. -/
theorem escaped_of_word {word : String} (h : IsWord word) : escaped word = word := by
  have hself : ∀ c ∈ word.toList, escapedChar c = [c] := by
    intro c hc
    rw [escapedChar, entityName?_of_isAlphanum (h.alphanum c hc)]
  rw [escaped, List.flatMap_congr hself, List.flatMap_singleton', String.ofList_toList]

/-- What is written has none of the characters that a reader looks for. -/
theorem not_mem_escaped {c : Char} (hc : c ∈ ['<', '>', '"', '\'']) (text : String) :
    c ∉ (escaped text).toList := by
  simp only [List.mem_cons, List.not_mem_nil, or_false] at hc
  rw [toList_escaped, List.mem_flatMap]
  rintro ⟨d, _, hmem⟩
  unfold escapedChar at hmem
  split at hmem
  next name hname =>
    have hword : c ∉ name.toList := by
      intro hin
      have halphanum := (entityName?_some hname).1.alphanum c hin
      rcases hc with rfl | rfl | rfl | rfl <;> cases halphanum
    simp only [List.cons_append, List.mem_cons, List.mem_append, List.not_mem_nil, or_false] at hmem
    rcases hmem with rfl | hin | rfl
    · rcases hc with hc | hc | hc | hc <;> cases hc
    · exact hword hin
    · rcases hc with hc | hc | hc | hc <;> cases hc
  next hname =>
    obtain rfl := List.mem_singleton.mp hmem
    rcases hc with rfl | rfl | rfl | rfl <;> cases hname

theorem byte_not_mem_escaped {c : Char} (hc : c ∈ ['<', '>', '"', '\'']) (text : String) :
    Ascii.byte c ∉ Utf8.encode (escaped text) := by
  have hascii : c.toNat < 128 := by
    simp only [List.mem_cons, List.not_mem_nil, or_false] at hc
    rcases hc with rfl | rfl | rfl | rfl <;> decide
  exact fun h => not_mem_escaped hc text (Utf8.byte_mem_encodeChars hascii h)

theorem encode_escaped_ne_nil {text : String} (h : text ≠ "") :
    Utf8.encode (escaped text) ≠ [] := by
  intro hnil
  have hchars := Utf8.encodeChars_eq_nil hnil
  rw [toList_escaped, List.flatMap_eq_nil_iff] at hchars
  cases htext : text.toList with
  | nil => exact h (String.toList_eq_nil_iff.mp htext)
  | cons c rest =>
    have hc := hchars c (by rw [htext]; exact List.mem_cons_self)
    unfold escapedChar at hc
    split at hc <;> cases hc

/-! ## Reading references -/

namespace Reference

/-- A reference by a name of letters and digits is read up to its semicolon. -/
theorem resolveAll_cons {total offset : Nat} {name : List Char} {c : Char}
    (hname : ∀ d ∈ name, d.isAlphanum) (hresolve : ∀ start, resolve start name = .ok c)
    (rest : List Char) :
    resolveAll total offset ('&' :: (name ++ ';' :: rest)) =
      (resolveAll total (offset + 2 + Utf8.byteLength name) rest).map (c :: ·) := by
  have htake : (name ++ ';' :: rest).takeWhile (fun d => d ≠ '&' && d ≠ ';') = name := by
    rw [List.takeWhile_append_of_pos]
    · exact List.append_nil _
    · intro d hd
      have halphanum := hname d hd
      rw [Bool.and_eq_true, decide_eq_true_eq, decide_eq_true_eq]
      constructor <;> rintro rfl <;> cases halphanum
  have hdrop : (name ++ ';' :: rest).drop (name.length + 1) = rest := by
    rw [← List.drop_drop, List.drop_left]
    rfl
  rw [resolveAll, if_pos rfl]
  simp only [htake, List.drop_left, hresolve, hdrop]

theorem resolveAll_escaped (total : Nat) (chars : List Char) (offset : Nat) :
    resolveAll total offset (chars.flatMap escapedChar) = .ok chars := by
  induction chars generalizing offset with
  | nil => rw [List.flatMap_nil, resolveAll]
  | cons c rest ih =>
    rw [List.flatMap_cons, escapedChar]
    split
    next name hname =>
      obtain ⟨hword, hresolve⟩ := entityName?_some hname
      rw [List.cons_append, List.cons_append, List.append_assoc, List.singleton_append,
        resolveAll_cons hword.alphanum hresolve, ih]
      rfl
    next hname =>
      have hc : c ≠ '&' := by
        rintro rfl
        cases hname
      rw [List.singleton_append, resolveAll, if_neg hc, ih]
      rfl

end Reference

/-- **An escaped text is read back**, whatever it is. -/
theorem readText_escaped (text : String) : readText (Utf8.encode (escaped text)) = .ok text := by
  rw [readText, Utf8.decode_encode]
  show ((Reference.resolveAll _ 0 (escaped text).toList).mapError Fault.reference >>= fun chars =>
    pure (String.ofList chars)) = _
  rw [toList_escaped, Reference.resolveAll_escaped]
  exact congrArg Except.ok String.ofList_toList

end Xml

end DocWalk
