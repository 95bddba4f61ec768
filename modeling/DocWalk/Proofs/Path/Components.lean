import DocWalk.Path.Pattern

/-!
# Components of a path

Slashes divide a text into components, empty ones among them; a component that starts with an at sign
is an attribute step, any other a node step. The anchored test compares a text and a number only. This
module says what these two are in terms of components.

**The laws**: a text behind a slash ends a path just where its components are the last ones of the path
(`suffix_slashed_iff`), and the levels of a pattern are its node steps (`levels_eq_countP`).
-/

set_option autoImplicit false

namespace DocWalk.Path

/-- What slashes divide a text into. -/
def components (text : List Char) : List (List Char) :=
  text.splitOn '/'

/-- Components one behind the other, with a slash before each. -/
def slashedParts (parts : List (List Char)) : List Char :=
  parts.flatMap ('/' :: ·)

/-- Whether a component is a node step, and no attribute step. -/
def isNodeStep (component : List Char) : Bool :=
  component.head? ≠ some '@'

/-! ## Dividing and joining -/

theorem components_ne_nil (text : List Char) : components text ≠ [] :=
  List.splitOn_ne_nil '/' text

theorem components_of_not_mem {text : List Char} (h : '/' ∉ text) : components text = [text] :=
  List.splitOn_eq_singleton h

/-- A slash divides. -/
theorem components_append_slash (before behind : List Char) :
    components (before ++ '/' :: behind) = components before ++ components behind :=
  List.splitOn_append_cons_self before behind

theorem components_slash (behind : List Char) :
    components ('/' :: behind) = [] :: components behind :=
  components_append_slash [] behind

/-- Any other character goes to the front of the first component. -/
theorem components_cons {c : Char} (hc : c ≠ '/') {text first : List Char}
    {others : List (List Char)} (h : components text = first :: others) :
    components (c :: text) = (c :: first) :: others := by
  unfold components at h ⊢
  rw [List.splitOn_cons_eq_if_modifyHead, h, if_neg (by simpa using hc), List.modifyHead_cons]

@[simp] theorem slashedParts_nil : slashedParts [] = [] := rfl

theorem slashedParts_cons (part : List Char) (rest : List (List Char)) :
    slashedParts (part :: rest) = '/' :: (part ++ slashedParts rest) := rfl

theorem slashedParts_singleton (part : List Char) : slashedParts [part] = '/' :: part :=
  congrArg _ (List.append_nil part)

theorem slashedParts_append (parts others : List (List Char)) :
    slashedParts (parts ++ others) = slashedParts parts ++ slashedParts others :=
  List.flatMap_append

theorem components_append_slashedParts (text : List Char) (parts : List (List Char)) :
    components (text ++ slashedParts parts) = components text ++ parts.flatMap components := by
  induction parts generalizing text with
  | nil => rw [slashedParts_nil, List.append_nil, List.flatMap_nil, List.append_nil]
  | cons part rest ih =>
    rw [slashedParts_cons, components_append_slash, ih, List.flatMap_cons]

theorem components_slashedParts (parts : List (List Char)) :
    components (slashedParts parts) = [] :: parts.flatMap components :=
  components_append_slashedParts [] parts

/-- Components without slashes stay as they are. -/
theorem flatMap_components {parts : List (List Char)} (h : ∀ part ∈ parts, '/' ∉ part) :
    parts.flatMap components = parts := by
  induction parts with
  | nil => rfl
  | cons part rest ih =>
    obtain ⟨hpart, hrest⟩ := List.forall_mem_cons.mp h
    rw [List.flatMap_cons, components_of_not_mem hpart, ih hrest, List.singleton_append]

/-- With a slash in front, components joined by slashes have one before each. -/
theorem slash_intercalate {parts : List (List Char)} (h : parts ≠ []) :
    '/' :: ['/'].intercalate parts = slashedParts parts := by
  induction parts with
  | nil => exact absurd rfl h
  | cons part rest ih =>
    cases rest with
    | nil => rw [List.intercalate_singleton, slashedParts_singleton]
    | cons next others =>
      rw [List.intercalate_cons_cons, slashedParts_cons, ← ih (List.cons_ne_nil _ _),
        List.append_assoc, List.singleton_append]

/-- Joining by slashes is undone part by part. -/
theorem components_intercalate {parts : List (List Char)} (h : parts ≠ []) :
    components (['/'].intercalate parts) = parts.flatMap components := by
  have hslash := congrArg components (slash_intercalate h)
  rw [components_slash, components_slashedParts] at hslash
  exact List.tail_eq_of_cons_eq hslash

/-- Dividing at slashes is undone by joining. -/
theorem slashedParts_components (text : List Char) :
    slashedParts (components text) = '/' :: text := by
  rw [← slash_intercalate (components_ne_nil text), components, List.intercalate_splitOn]

/-- A text behind a slash ends a path just where its components are the last ones of the path. -/
theorem suffix_slashed_iff {parts : List (List Char)} (h : ∀ part ∈ parts, '/' ∉ part)
    (text : List Char) : '/' :: text <:+ slashedParts parts ↔ components text <:+ parts := by
  constructor
  · rintro ⟨front, hfront⟩
    have hparts := congrArg components hfront
    rw [components_append_slash, components_slashedParts, flatMap_components h] at hparts
    obtain ⟨first, others, hfirst⟩ := List.exists_cons_of_ne_nil (components_ne_nil front)
    rw [hfirst] at hparts
    exact ⟨others, List.tail_eq_of_cons_eq hparts⟩
  · rintro ⟨front, rfl⟩
    rw [slashedParts_append, slashedParts_components]
    exact List.suffix_append _ _

/-! ## Levels -/

open Pattern (nodeSeparators levels)

/-- The first component starts with an at sign where the text does. -/
theorem exists_components_cons (text : List Char) :
    ∃ first others, components text = first :: others ∧
      (isNodeStep first ↔ text.head? ≠ some '@') := by
  cases text with
  | nil => exact ⟨[], [], rfl, by decide⟩
  | cons c rest =>
    by_cases hc : c = '/'
    · subst hc
      exact ⟨[], components rest, components_slash rest, by simp [isNodeStep]⟩
    · obtain ⟨first, others, hfirst⟩ := List.exists_cons_of_ne_nil (components_ne_nil rest)
      exact ⟨c :: first, others, components_cons hc hfirst, by simp [isNodeStep]⟩

/-- The slashes that lead to a node are the node steps behind the first component. -/
theorem nodeSeparators_eq_countP (text : List Char) :
    nodeSeparators text = (components text).tail.countP isNodeStep := by
  induction text with
  | nil => rfl
  | cons c rest ih =>
    obtain ⟨first, others, hfirst, hnode⟩ := exists_components_cons rest
    rw [hfirst, List.tail_cons] at ih
    by_cases hc : c = '/'
    · subst hc
      rw [components_slash, List.tail_cons, hfirst, List.countP_cons, nodeSeparators, ih,
        Nat.add_comm]
      simp only [hnode, true_and]
    · rw [components_cons hc hfirst, List.tail_cons, nodeSeparators, if_neg (fun h => hc h.1), ih,
        Nat.zero_add]

/-- **The levels of a pattern are its node steps.** -/
theorem levels_eq_countP (text : List Char) :
    levels text = (components text).countP isNodeStep := by
  obtain ⟨first, others, hfirst, hnode⟩ := exists_components_cons text
  rw [levels, nodeSeparators_eq_countP, hfirst, List.tail_cons, List.countP_cons]
  by_cases hhead : text.head? = some '@'
  · rw [if_pos hhead, if_neg (by rw [hnode]; exact not_not_intro hhead)]
  · rw [if_neg hhead, if_pos (hnode.mpr hhead)]

end DocWalk.Path
