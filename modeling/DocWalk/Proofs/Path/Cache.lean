import DocWalk.Path.Cache
import Mathlib.Data.List.Dedup
import Mathlib.Data.List.Induction

/-!
# A cache remembers what compiling gives

A cache answers the anchored test from a pattern it keeps, or compiles the text. As long as all it
keeps was compiled from its text (`Faithful`) the two are one: the answer is that of the compiled
pattern, whatever was asked before and whatever has left since.

**The law** (`after_eq`) says what a cache keeps after any queries: of the texts asked so far, each
once and the latest first (`recent`), as many as it has room for.
-/

set_option autoImplicit false

namespace DocWalk.PatternCache

/-- Every pattern kept is what its text compiles to. -/
def Faithful (cache : PatternCache) : Prop :=
  ∀ pattern ∈ cache.entries, pattern = .compile pattern.text

theorem faithful_empty (capacity : Nat) : Faithful { capacity } :=
  nofun

namespace Faithful

variable {cache : PatternCache}

theorem use (h : cache.Faithful) (text : String) : (cache.use (.compile text)).Faithful := by
  intro pattern hmem
  rcases List.mem_cons.mp (List.mem_of_mem_take hmem) with rfl | hmem
  · rfl
  · exact h pattern (List.mem_filter.mp hmem).1

/-- What is found of a text is what the text compiles to. -/
theorem getD_find? (h : cache.Faithful) (text : String) :
    (cache.find? text).getD (.compile text) = .compile text := by
  cases hfind : cache.find? text with
  | none => rfl
  | some pattern =>
    have htext : pattern.text = text := by simpa using List.find?_some hfind
    rw [Option.getD_some, h pattern (List.mem_of_find?_eq_some hfind), htext]

/-- **A faithful cache answers as compiling does**, and stays faithful. -/
theorem holds_eq (h : cache.Faithful) (text : String) (here : Position) (anchor : Nat) :
    cache.holds text here anchor =
      ((Pattern.compile text).holds here anchor, cache.use (.compile text)) := by
  rw [holds, h.getD_find?]

end Faithful

/-! ## What is kept -/

/-- An anchored test that is asked of a cache. -/
structure Query where
  text : String
  here : Position
  anchor : Nat
  deriving DecidableEq, Repr

/-- The answer of a cache, and the cache behind it. -/
def ask (cache : PatternCache) (query : Query) : Bool × PatternCache :=
  cache.holds query.text query.here query.anchor

/-- The cache behind one query after another. -/
def after (cache : PatternCache) (queries : List Query) : PatternCache :=
  queries.foldl (fun cache query => (cache.ask query).2) cache

theorem after_concat (cache : PatternCache) (queries : List Query) (query : Query) :
    cache.after (queries ++ [query]) = ((cache.after queries).ask query).2 := by
  rw [after, List.foldl_concat, after]

/-- Each text once, the latest first. -/
def recent (texts : List String) : List String :=
  texts.foldl (fun earlier text => text :: earlier.filter (· ≠ text)) []

theorem recent_concat (texts : List String) (text : String) :
    recent (texts ++ [text]) = text :: (recent texts).filter (· ≠ text) := by
  rw [recent, List.foldl_concat, recent]

theorem nodup_recent (texts : List String) : (recent texts).Nodup := by
  induction texts using List.reverseRecOn with
  | nil => exact .nil
  | append_singleton texts text ih =>
    rw [recent_concat]
    exact .cons (by simp) (ih.filter _)

theorem mem_recent {text : String} {texts : List String} : text ∈ recent texts ↔ text ∈ texts := by
  induction texts using List.reverseRecOn with
  | nil => rfl
  | append_singleton texts last ih =>
    rw [recent_concat, List.mem_cons, List.mem_filter, ih, List.mem_append, List.mem_singleton]
    by_cases h : text = last <;> simp [h]

/-- As many texts as are distinct. -/
theorem length_recent (texts : List String) : (recent texts).length = texts.dedup.length := by
  apply List.Perm.length_eq
  apply (List.perm_ext_iff_of_nodup (nodup_recent texts) texts.nodup_dedup).mpr
  intro text
  rw [mem_recent, List.mem_dedup]

/-- A text that is put in front pushes out one more at most, so nothing that has left is missed. -/
theorem take_filter_take {texts : List String} (h : texts.Nodup) (text : String) (n : Nat) :
    ((texts.take (n + 1)).filter (· ≠ text)).take n = (texts.filter (· ≠ text)).take n := by
  -- On the texts, as far as the one that moves: it comes once, so behind it nothing is filtered out.
  induction texts generalizing n with
  | nil => rfl
  | cons first rest ih =>
    obtain ⟨hfirst, hrest⟩ := List.nodup_cons.mp h
    rw [List.take_succ_cons]
    by_cases heq : first = text
    · subst heq
      have hothers : ∀ other ∈ rest, other ≠ first := fun other hother heq => hfirst (heq ▸ hother)
      have hkept : rest.filter (· ≠ first) = rest := by simpa using hothers
      have htaken : (rest.take n).filter (· ≠ first) = rest.take n := by
        simpa using fun other hother => hothers other (List.mem_of_mem_take hother)
      rw [List.filter_cons_of_neg (by simp), List.filter_cons_of_neg (by simp), hkept, htaken,
        List.take_take, Nat.min_self]
    · rw [List.filter_cons_of_pos (by simpa using heq),
        List.filter_cons_of_pos (by simpa using heq)]
      cases n with
      | zero => rfl
      | succ n => rw [List.take_succ_cons, List.take_succ_cons, ih hrest]

/-- The cache that keeps the first of the texts, as many as it has room for. -/
def keeping (capacity : Nat) (texts : List String) : PatternCache :=
  ⟨capacity, (texts.take capacity).map .compile⟩

theorem faithful_keeping (capacity : Nat) (texts : List String) :
    (keeping capacity texts).Faithful := by
  intro pattern hmem
  obtain ⟨text, _, rfl⟩ := List.mem_map.mp hmem
  rfl

theorem size_keeping (capacity : Nat) (texts : List String) :
    (keeping capacity texts).size = min capacity texts.length := by
  rw [size, keeping, List.length_map, List.length_take]

theorem use_keeping (capacity : Nat) {texts : List String} (h : texts.Nodup) (text : String) :
    (keeping capacity texts).use (.compile text) =
      keeping capacity (text :: texts.filter (· ≠ text)) := by
  have hfilter : ((texts.take capacity).map Pattern.compile).filter (·.text ≠ text) =
      ((texts.take capacity).filter (· ≠ text)).map .compile := by
    rw [List.filter_map]
    rfl
  have hentries : (keeping capacity texts).entries = (texts.take capacity).map .compile := rfl
  have hcapacity : (keeping capacity texts).capacity = capacity := rfl
  have htext : (Pattern.compile text).text = text := rfl
  rw [use, hentries, hcapacity, htext, hfilter, keeping]
  cases capacity with
  | zero => rfl
  | succ n =>
    rw [List.take_succ_cons, ← List.map_take, take_filter_take h, List.take_succ_cons, List.map_cons]

/-- **What a cache keeps** after any queries: the texts asked most recently, compiled. -/
theorem after_eq (capacity : Nat) (queries : List Query) :
    ({ capacity } : PatternCache).after queries =
      keeping capacity (recent (queries.map (·.text))) := by
  induction queries using List.reverseRecOn with
  | nil =>
    have hnone : keeping capacity [] = { capacity } := by rw [keeping, List.take_nil, List.map_nil]
    exact hnone.symm
  | append_singleton queries query ih =>
    rw [after_concat, ih, ask, (faithful_keeping capacity _).holds_eq,
      use_keeping capacity (nodup_recent _), List.map_append, List.map_singleton, recent_concat]

/-- A new cache answers as compiling does, whatever was asked before. -/
theorem ask_after (capacity : Nat) (queries : List Query) (query : Query) :
    ((({ capacity } : PatternCache).after queries).ask query).1 =
      (Pattern.compile query.text).holds query.here query.anchor := by
  rw [after_eq, ask, (faithful_keeping capacity _).holds_eq]

/-- It keeps as many patterns as distinct texts were asked, up to its capacity. -/
theorem size_after (capacity : Nat) (queries : List Query) :
    (({ capacity } : PatternCache).after queries).size =
      min capacity (queries.map (·.text)).dedup.length := by
  rw [after_eq, size_keeping, length_recent]

end DocWalk.PatternCache
