import DocWalk.Proofs.Path.Components
import DocWalk.Proofs.Text.Characters

/-!
# The levels of a pattern, counted in bytes

Levels are counted in one pass over the bytes of a pattern: wherever a byte is a slash, the byte behind
it is looked at, and what comes in front of the first slash is looked at apart. Nothing is divided, and
no character is read. The count is right for all texts since a slash and an at sign are one byte each,
and no byte of another character is one of the two.

**The law** (`compile_counts_nodeSteps`) is what a caller of `compile` may rely on: the count of bytes is
the number of components that are node steps, so it adds up where two patterns are joined by a slash,
and the text compiled is what comes behind the first byte of what a path must end with.
-/

set_option autoImplicit false

namespace DocWalk.Pattern

open DocWalk.Path

/-- Whether the byte at an index is a slash, and the byte behind it no at sign. -/
def separatesAt (bytes : List UInt8) (index : Nat) : Bool :=
  bytes[index]? = some (Ascii.byte '/') && bytes[index + 1]? ≠ some (Ascii.byte '@')

/-- Number of slashes with no at sign behind them, each found by its index. -/
def byteSeparators (bytes : List UInt8) : Nat :=
  (List.range bytes.length).countP (separatesAt bytes)

/-- Levels counted in the bytes of a pattern. -/
def byteLevels (bytes : List UInt8) : Nat :=
  if bytes.head? = some (Ascii.byte '@') then byteSeparators bytes else byteSeparators bytes + 1

/-! ## Bytes and characters -/

theorem byteSeparators_cons (b : UInt8) (bytes : List UInt8) :
    byteSeparators (b :: bytes) =
      (if b = Ascii.byte '/' ∧ bytes.head? ≠ some (Ascii.byte '@') then 1 else 0) +
        byteSeparators bytes := by
  have hbehind : separatesAt (b :: bytes) ∘ Nat.succ = separatesAt bytes := rfl
  have hhere : separatesAt (b :: bytes) 0 ↔
      b = Ascii.byte '/' ∧ bytes.head? ≠ some (Ascii.byte '@') := by
    simp [separatesAt, List.head?_eq_getElem?]
  rw [byteSeparators, List.length_cons, List.range_succ_eq_map, List.countP_cons, List.countP_map,
    hbehind, Nat.add_comm, byteSeparators]
  simp only [hhere]

/-- Bytes in front that hold no slash count for nothing. -/
theorem byteSeparators_append {front : List UInt8} (h : Ascii.byte '/' ∉ front)
    (bytes : List UInt8) : byteSeparators (front ++ bytes) = byteSeparators bytes := by
  induction front with
  | nil => rfl
  | cons b front ih =>
    rw [List.mem_cons, not_or] at h
    rw [List.cons_append, byteSeparators_cons, if_neg fun hslash => h.1 hslash.1.symm, ih h.2,
      Nat.zero_add]

/-- An at sign comes first in the bytes where it comes first in the characters. -/
theorem head?_encodeChars_iff (chars : List Char) :
    (Utf8.encodeChars chars).head? = some (Ascii.byte '@') ↔ chars.head? = some '@' := by
  rw [Utf8.head?_encodeChars (by decide), List.head?_eq_some_iff]

theorem byteSeparators_encodeChars (chars : List Char) :
    byteSeparators (Utf8.encodeChars chars) = nodeSeparators chars := by
  induction chars with
  | nil => rfl
  | cons c rest ih =>
    by_cases hc : c = '/'
    · subst hc
      rw [Utf8.encodeChars_cons_ascii (by decide), byteSeparators_cons, ih, nodeSeparators]
      simp only [ne_eq, head?_encodeChars_iff]
    · -- None of its bytes is a slash, be they one or four.
      have hslash : Ascii.byte '/' ∉ String.utf8EncodeChar c :=
        fun hmem => hc (Utf8.eq_of_byte_mem (by decide) hmem).symm
      rw [Utf8.encodeChars_cons, byteSeparators_append hslash, ih, nodeSeparators,
        if_neg fun h => hc h.1, Nat.zero_add]

/-- **Bytes are counted as characters are.** -/
theorem byteLevels_encode (text : String) : byteLevels (Utf8.encode text) = levels text.toList := by
  rw [byteLevels, levels, Utf8.encode, byteSeparators_encodeChars]
  simp only [head?_encodeChars_iff]
  split
  · rw [Nat.add_zero]
  · rfl

/-- Empty components count, and an attribute step does not. -/
example : byteLevels (Utf8.encode "é//@id/") = 3 := by decide

/-! ## What compiling gives -/

/-- Levels add up where patterns are joined. -/
theorem levels_append_slash (before behind : List Char) :
    levels (before ++ '/' :: behind) = levels before + levels behind := by
  rw [levels_eq_countP, components_append_slash, List.countP_append, ← levels_eq_countP,
    ← levels_eq_countP]

theorem steps_compile_append_slash (p q : String) :
    (compile (p ++ "/" ++ q)).steps = (compile p).steps + (compile q).steps := by
  have hchars : (p ++ "/" ++ q).toList = p.toList ++ '/' :: q.toList := by
    rw [String.toList_append, String.toList_append, List.append_assoc]
    rfl
  rw [compile, hchars, levels_append_slash]
  rfl

/-- The text of a pattern comes behind the first byte of what a path must end with. -/
theorem encode_anchored (pattern : Pattern) :
    Utf8.encode pattern.anchored = Ascii.byte '/' :: Utf8.encode pattern.text := by
  rw [anchored, Utf8.encode_append]
  rfl

/-- **Compiling counts node steps.** The steps of a pattern, counted over its bytes, are its components
that start with no at sign; the pattern gives back its text, which is also what is left of the text to
end with when its first byte is taken off; and the steps of two patterns add up where a slash joins
them. -/
theorem compile_counts_nodeSteps (p : String) :
    (compile p).steps = (components p.toList).countP isNodeStep ∧
      (compile p).steps = byteLevels (Utf8.encode p) ∧
      (compile p).text = p ∧
      Utf8.decode ((Utf8.encode (compile p).anchored).drop 1) = .ok p ∧
      ∀ q, (compile (p ++ "/" ++ q)).steps = (compile p).steps + (compile q).steps := by
  refine ⟨levels_eq_countP p.toList, (byteLevels_encode p).symm, rfl, ?_,
    steps_compile_append_slash p⟩
  rw [encode_anchored, List.drop_one, List.tail_cons]
  exact Utf8.decode_encode p

end DocWalk.Pattern
