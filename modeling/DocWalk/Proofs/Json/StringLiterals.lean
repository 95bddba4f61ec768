import DocWalk.Proofs.Json.Strings
import Mathlib.Data.List.Basic

/-!
# Strings as they stand in a text

A quote is one byte, and a character of its own wherever it is found, so reading may begin at any
quote of a text. What is read from there depends on nothing but the literal that stands there.

**The law** (`string_literals`): at a quote of a text a string is read exactly when a literal begins
there, and then what is read is the text that the literal denotes and the scanner is left right
behind its closing quote. So every way to write a text is read as that text.
-/

set_option autoImplicit false

namespace DocWalk.Json.Scan

open Grammar Scanner
open Utf8 (encode encodeChars)

theorem onText_ofText (text : String) : (Scanner.ofText text).OnText :=
  ⟨text.toList, rfl⟩

/-- Behind so many bytes of a text the scanner has the others left. -/
theorem drop_ofText {text : String} {pos : Nat} (h : pos ≤ (encode text).length) :
    (Scanner.ofText text).drop pos = ⟨(encode text).drop pos, pos⟩ := by
  simp only [Scanner.ofText, drop, List.length_take, Nat.zero_add, Nat.min_eq_left h]

/-- What a scanner on a text passes is told in bytes and in their number. -/
theorem passes_iff {s t : Scanner} (hs : s.OnText) {chars : List Char} :
    s.Passes chars t ↔
      s.rest = encodeChars chars ++ t.rest ∧ t.pos = s.pos + (encodeChars chars).length := by
  constructor
  · intro h
    exact ⟨h.rest_eq, h.pos_eq⟩
  · rintro ⟨hrest, hpos⟩
    obtain ⟨all, hall⟩ := hs
    obtain ⟨back, rfl, hback⟩ := Utf8.eq_append_of_encodeChars (hall.symm.trans hrest)
    have hpass := Passes.mk chars back s.pos
    have hfrom : facing (chars ++ back) s.pos = s := by rw [facing, ← hall]
    have hto : facing back (s.pos + (encodeChars chars).length) = t := by
      rw [facing, ← hback, ← hpos]
    rwa [hfrom, hto] at hpass

/-- In front of a quote a string is read exactly when a text in quotes stands there. -/
theorem string_eq_ok_iff {s t : Scanner} {meant : String} (hs : s.OnText)
    (hquote : s.rest.head? = some Ascii.quote) :
    string s = .ok meant t ↔ ∃ written, Quoted meant written ∧ s.Passes written t :=
  ⟨string_ok hs hquote, fun ⟨_, hq, hpass⟩ => string_pass hpass hq⟩

/-- **At a quote of a text a string is read exactly when a literal begins there**: what is read is
the text that the literal denotes, and the scanner is left behind its closing quote. Every literal
of a text is read as that text, whatever stands around it. -/
theorem string_literals :
    (∀ (text : String) (pos : Nat), (encode text)[pos]? = some Ascii.quote → ∀ meant t,
      string ((Scanner.ofText text).drop pos) = .ok meant t ↔
        ∃ written, Quoted meant written ∧ (encode text).drop pos = encodeChars written ++ t.rest ∧
          t.pos = pos + (encodeChars written).length) ∧
      ∀ meant written, Quoted meant written → ∀ front back : String,
        string ((Scanner.ofText (front ++ .ofList written ++ back)).drop front.utf8ByteSize) =
          .ok meant ⟨encode back, front.utf8ByteSize + (encodeChars written).length⟩ := by
  constructor
  · intro text pos hquote meant t
    have hlt : pos < (encode text).length := (List.getElem?_eq_some_iff.mp hquote).1
    have hdrop := drop_ofText (Nat.le_of_lt hlt)
    have hhead : ((Scanner.ofText text).drop pos).rest.head? = some Ascii.quote := by
      rw [hdrop, List.head?_drop, hquote]
    have hs : ((Scanner.ofText text).drop pos).OnText :=
      (onText_ofText text).of_reaches (reaches_drop _ _) (by decide) hhead
    rw [string_eq_ok_iff hs hhead]
    simp only [passes_iff hs]
    rw [hdrop]
  · intro meant written hq front back
    have hscanner : (Scanner.ofText (front ++ .ofList written ++ back)).drop front.utf8ByteSize =
        facing (written ++ back.toList) front.utf8ByteSize := by
      have hdrop := drop_facing front.toList (written ++ back.toList) 0
      rw [Nat.zero_add] at hdrop
      rw [← Utf8.length_encode, encode, ← hdrop]
      simp only [Scanner.ofText, facing, encode, String.toList_append, String.toList_ofList,
        List.append_assoc]
    rw [hscanner]
    exact string_pass (.mk written back.toList _) hq

/-- A text with a literal at its second character, of which the first is of two bytes: a character
beyond the first plane in two escapes, a short escape and a character that stands for itself. -/
def mixedLiteral : String :=
  "é\"\\uD83d\\uDE00\\/é\"]"

/-- The literal in it is read as the three characters it denotes, half of a pair makes no literal,
and a line feed that is escaped is read as one. -/
theorem string_literals_mixed :
    ((encode mixedLiteral)[2]? = some Ascii.quote ∧
      string ((Scanner.ofText mixedLiteral).drop 2) = .ok "😀/é" ⟨[Ascii.closeBracket], 20⟩) ∧
      ((encode "\"\\uD83d\"")[0]? = some Ascii.quote ∧
        ¬∃ meant written, Quoted meant written ∧
          (encode "\"\\uD83d\"").drop 0 = encodeChars written) ∧
      Quoted "\n" ['"', '\\', 'n', '"'] ∧
        string ((Scanner.ofText ("é" ++ .ofList ['"', '\\', 'n', '"'] ++ "y")).drop 2) =
          .ok "\n" ⟨[Ascii.byte 'y'], 6⟩ := by
  have hquote : (encode mixedLiteral)[2]? = some Ascii.quote := by decide +kernel
  have hhalf : (encode "\"\\uD83d\"")[0]? = some Ascii.quote := by decide +kernel
  refine ⟨⟨hquote, ?_⟩, ⟨hhalf, ?_⟩, ?_⟩
  · have hhigh : Hex4 ['D', '8', '3', 'd'] (((13 * 16 + 8) * 16 + 3) * 16 + 13) := .mk rfl rfl rfl rfl
    have hlow : Hex4 ['D', 'E', '0', '0'] (((13 * 16 + 14) * 16 + 0) * 16 + 0) := .mk rfl rfl rfl rfl
    have hpair := Escape.pair hhigh hlow (by decide) (by decide) (by decide) (by decide)
    have hslash : Escape '/' ['/'] := .short (by decide)
    have hcontent := Content.escape hpair (.escape hslash (.raw (c := 'é') (by decide) .nil))
    have hq : Quoted "😀/é" _ := .mk hcontent
    exact (string_literals.1 mixedLiteral 2 hquote _ _).mpr
      ⟨_, hq, by decide +kernel, by decide +kernel⟩
  · rintro ⟨meant, written, hq, hrest⟩
    have hread := (string_literals.1 "\"\\uD83d\"" 0 hhalf meant
      ⟨[], 0 + (encodeChars written).length⟩).mpr
        ⟨written, hq, by rw [hrest, List.append_nil], rfl⟩
    have hrefused : (string ((Scanner.ofText "\"\\uD83d\"").drop 0)).answer =
        .error ⟨.unpairedSurrogate, 7⟩ := by decide +kernel
    rw [hread] at hrefused
    cases hrefused
  · have hq : Quoted "\n" ['"', '\\', 'n', '"'] :=
      @Quoted.mk "\n" ['\\', 'n'] (.escape (@Escape.short 'n' '\n' (by decide)) .nil)
    exact ⟨hq, string_literals.2 _ _ hq "é" "y"⟩

end DocWalk.Json.Scan
