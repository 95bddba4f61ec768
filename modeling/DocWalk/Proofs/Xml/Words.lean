import DocWalk.Proofs.Text.Characters
import DocWalk.Proofs.Xml.Reading
import Mathlib.Data.List.TakeWhile

/-!
# Words in a document

A word is made of ASCII letters and digits, and no byte of it means anything to a reader. As what
stands in a tag it makes a node without attributes (`Tag.node_of_word`); as a text it stands for
itself, as any text does that has no ampersand (`readText_encode`).
-/

set_option autoImplicit false

namespace DocWalk

/-- The byte of a letter or a digit. -/
def Ascii.isAlphanum (b : UInt8) : Bool :=
  (0x41 ≤ b && b ≤ 0x5A) || (0x61 ≤ b && b ≤ 0x7A) || (0x30 ≤ b && b ≤ 0x39)

/-- Letters and digits are ASCII characters. -/
theorem isAlphanum_eq_false {c : Char} (h : 128 ≤ c.toNat) : c.isAlphanum = false := by
  have hlarge : ∀ bound : Char, bound.toNat < 128 → decide (c.val ≤ bound.val) = false :=
    fun bound hbound => decide_eq_false fun hle =>
      Nat.not_lt.mpr h (Nat.lt_of_le_of_lt (UInt32.le_iff_toNat_le.mp hle) hbound)
  delta Char.isAlphanum Char.isAlpha Char.isUpper Char.isLower Char.isDigit
  rw [Bool.decide_and, hlarge 'Z' (by decide), hlarge 'z' (by decide), hlarge '9' (by decide)]
  simp only [Bool.and_false, Bool.or_false]

theorem Utf8.agree_isAlphanum : Utf8.Agree Ascii.isAlphanum Char.isAlphanum := by
  refine .of_ascii false (by decide) (fun b hb => ?_) (fun c hc => isAlphanum_eq_false hc)
  have hlarge : ∀ bound : UInt8, bound.toNat < 128 → decide (b ≤ bound) = false :=
    fun bound hbound => decide_eq_false fun hle =>
      Nat.not_lt.mpr hb (Nat.lt_of_le_of_lt (UInt8.le_iff_toNat_le.mp hle) hbound)
  rw [Ascii.isAlphanum, hlarge 0x5A (by decide), hlarge 0x7A (by decide), hlarge 0x39 (by decide)]
  simp only [Bool.and_false, Bool.or_false]

/-- A text that is not empty and made of letters and digits. -/
structure IsWord (text : String) : Prop where
  ne_nil : text.toList ≠ []
  alphanum : ∀ c ∈ text.toList, c.isAlphanum

instance (text : String) : Decidable (IsWord text) :=
  decidable_of_iff (text.toList ≠ [] ∧ text.toList.all Char.isAlphanum = true)
    ⟨fun ⟨h, k⟩ => ⟨h, List.all_eq_true.mp k⟩, fun ⟨h, k⟩ => ⟨h, List.all_eq_true.mpr k⟩⟩

/-- Letters and digits. -/
structure Word where
  text : String
  isWord : IsWord text

namespace IsWord

variable {text : String}

theorem encode_ne_nil (h : IsWord text) : Utf8.encode text ≠ [] :=
  fun hnil => h.ne_nil (Utf8.encodeChars_eq_nil hnil)

theorem isAlphanum_of_mem (h : IsWord text) {b : UInt8} (hb : b ∈ Utf8.encode text) :
    Ascii.isAlphanum b = true := by
  have hall := Utf8.all_encodeChars Utf8.agree_isAlphanum text.toList
  rw [List.all_eq_true.mpr h.alphanum] at hall
  exact List.all_eq_true.mp hall b hb

/-- A byte of a word is no byte that is not of a letter or a digit. -/
theorem ne_of_mem (h : IsWord text) {b : UInt8} (hb : b ∈ Utf8.encode text) {other : UInt8}
    (hother : Ascii.isAlphanum other = false) : b ≠ other := by
  rintro rfl
  cases hother.symm.trans (h.isAlphanum_of_mem hb)

theorem isBlank_eq_false (h : IsWord text) {b : UInt8} (hb : b ∈ Utf8.encode text) :
    Ascii.isBlank b = false := by
  simp only [Ascii.isBlank, Bool.or_eq_false_iff, decide_eq_false_iff_not]
  exact ⟨⟨⟨h.ne_of_mem hb rfl, h.ne_of_mem hb rfl⟩, h.ne_of_mem hb rfl⟩, h.ne_of_mem hb rfl⟩

end IsWord

namespace Xml

/-! ## The text of a word -/

theorem Reference.resolveAll_of_not_mem {chars : List Char} (h : '&' ∉ chars) (total offset : Nat) :
    Reference.resolveAll total offset chars = .ok chars := by
  induction chars generalizing offset with
  | nil => rw [resolveAll]
  | cons c rest ih =>
    obtain ⟨hc, hrest⟩ := not_or.mp (mt List.mem_cons.mpr h)
    rw [resolveAll, if_neg (Ne.symm hc), ih hrest]
    rfl

/-- A text without an ampersand stands for itself. -/
theorem readText_encode {text : String} (h : '&' ∉ text.toList) :
    readText (Utf8.encode text) = .ok text := by
  rw [readText, Utf8.decode_encode]
  show ((Reference.resolveAll _ 0 text.toList).mapError Fault.reference >>= fun chars =>
    pure (String.ofList chars)) = _
  rw [Reference.resolveAll_of_not_mem h]
  exact congrArg Except.ok String.ofList_toList

/-! ## The tag of a word -/

section

variable {word : String}

theorem Tag.name_of_word (h : IsWord word) : Tag.name ⟨Utf8.encode word⟩ = Utf8.encode word := by
  rw [Tag.name, List.takeWhile_eq_self_iff]
  intro b hb
  rw [h.isBlank_eq_false hb]
  rfl

theorem localName_of_word (h : IsWord word) : localName (Utf8.encode word) = Utf8.encode word := by
  have hdrop : (Utf8.encode word).dropWhile (· ≠ Ascii.colon) = [] := by
    rw [List.dropWhile_eq_nil_iff]
    exact fun b hb => decide_eq_true (h.ne_of_mem hb rfl)
  rw [localName, hdrop]

/-- A tag that is a word has no attributes. -/
theorem Tag.node_of_word (h : IsWord word) : Tag.node ⟨Utf8.encode word⟩ = .ok { name := word } := by
  rw [Tag.node, Tag.name_of_word h, localName_of_word h, List.drop_length, readAttributes]
  exact congrArg (fun name => Except.ok ({ name } : Node)) (Utf8.decodeLossy_encode word)

end

end Xml

end DocWalk
