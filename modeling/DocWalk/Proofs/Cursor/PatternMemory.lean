import DocWalk.Proofs.Cursor.Congruence
import DocWalk.Proofs.Cursor.Settings
import DocWalk.Source.Scripted

/-!
# Remembered patterns are not seen

A cursor remembers patterns it has compiled so as not to compile them again. How many it may remember
changes how often it compiles, and no answer: cursors that differ in nothing else are interchangeable
(`Remembering.interchangeable`), since what each of them remembers was compiled.

**The law** (`patterns_unseen`) says so of a cache by itself, together with how many patterns it
keeps, and of whole sessions over any source.
-/

set_option autoImplicit false

namespace DocWalk.Cursor

open PatternCache

variable {σ : Type}

/-- Two cursors that differ in the patterns they remember, and in how many that may be. -/
structure Remembering (c d : Cursor σ) : Prop where
  source_eq : c.source = d.source
  kept_eq : d.kept = c.kept
  maxDepth_eq : d.config.maxDepth = c.config.maxDepth
  left : c.patterns.Faithful
  right : d.patterns.Faithful

theorem Remembering.new (source : σ) (config : Config) (headers : Option (List (String × String)))
    (capacity : Nat) (positive : 0 < capacity) :
    Remembering (new source config headers)
      (new source (config.withCacheCapacity capacity positive) headers) where
  source_eq := rfl
  kept_eq := rfl
  maxDepth_eq := rfl
  left := faithful_empty _
  right := faithful_empty _

theorem Remembering.withSources {c d : Cursor σ} (h : Remembering c d) {s t : σ} (hst : s = t) :
    Remembering { c with source := s } { d with source := t } where
  source_eq := hst
  kept_eq := h.kept_eq
  maxDepth_eq := h.maxDepth_eq
  left := h.left
  right := h.right

theorem Remembering.position_eq {c d : Cursor σ} (h : Remembering c d) :
    d.position = c.position :=
  congrArg (fun k : Kept => (⟨k.path, k.names.length⟩ : Position)) h.kept_eq

theorem Remembering.interchangeable [Source σ] :
    Interchangeable (Remembering : Cursor σ → Cursor σ → Prop) where
  kept_eq h := h.kept_eq
  keep h k := ⟨h.source_eq, rfl, h.maxDepth_eq, h.left, h.right⟩
  peek := agree_ask (.refl _) Remembering.source_eq Remembering.withSources
  next := agree_ask (.refl _) Remembering.source_eq Remembering.withSources
  testAt_eq h pattern anchor := by
    rw [testAt_eq h.left, testAt_eq h.right, h.position_eq]
  testAt h pattern anchor := by
    rw [testAt_eq h.left, testAt_eq h.right]
    exact ⟨h.source_eq, h.kept_eq, h.maxDepth_eq, h.left.use pattern, h.right.use pattern⟩
  maxDepth_eq h := h.maxDepth_eq

/-- Over a finite source every operation is answered the same, whatever the capacity. -/
theorem answers_withCacheCapacity [FiniteSource σ] (source : σ) (config : Config)
    (headers : Option (List (String × String))) (capacity : Nat) (positive : 0 < capacity)
    (operations : List Operation) :
    Operation.answers operations (new source config headers) =
      Operation.answers operations
        (new source (config.withCacheCapacity capacity positive) headers) :=
  Remembering.interchangeable.answers_eq operations (.new source config headers capacity positive)

/-- **Remembered patterns are not seen.** Whatever was asked of a new cache, it answers each query as
the compiled pattern does, and keeps as many patterns as distinct texts were asked, up to its
capacity. A session with a cursor, over any source, is a session with the cursor of another capacity,
answer by answer, and at the end of it the two answer every anchored test alike. -/
theorem patterns_unseen [Source σ] :
    (∀ (capacity : Nat) (earlier : List Query) (query : Query),
        ((({ capacity } : PatternCache).after earlier).ask query).1 =
            (Pattern.compile query.text).holds query.here query.anchor ∧
          ((({ capacity } : PatternCache).after earlier).ask query).2.size =
            min capacity ((earlier ++ [query]).map (·.text)).dedup.length) ∧
      ∀ (source : σ) (config : Config) (headers : Option (List (String × String)))
        (capacity : Nat) (positive : 0 < capacity) log last,
        Session (new source config headers) log last →
          ∃ last', Session (new source (config.withCacheCapacity capacity positive) headers) log
              last' ∧
            ∀ pattern anchor, (last'.testAt pattern anchor).1 = (last.testAt pattern anchor).1 := by
  constructor
  · intro capacity earlier query
    have hsize := size_after capacity (earlier ++ [query])
    rw [after_concat] at hsize
    exact ⟨ask_after capacity earlier query, hsize⟩
  · intro source config headers capacity positive log last hsession
    have hnew := Remembering.new source config headers capacity positive
    obtain ⟨last', hsession', hlast⟩ := hsession.transfer Remembering.interchangeable hnew
    exact ⟨last', hsession', fun pattern anchor =>
      Remembering.interchangeable.testAt_eq hlast pattern anchor⟩

/-- A document with one node. -/
def letterScript : Script :=
  ⟨[.event .startDocument, .event (.startNode ⟨"letter", [⟨"to", "me"⟩]⟩), .event .endNode]⟩

/-- Goes to the node, and tests it for a name, another name and the first one again. -/
def testTwice : List Operation :=
  [.advance, .advance, .testAt "letter" 0, .testAt "@to" 0, .testAt "letter" 0]

/-- A cache with room for two patterns keeps two of three, and a cursor that remembers one pattern
at a time answers as one that remembers them all. -/
theorem patterns_unseen_letter :
    (({ capacity := 2 } : PatternCache).after
          [⟨"a", ⟨"/a", 1⟩, 0⟩, ⟨"b", ⟨"/a", 1⟩, 0⟩, ⟨"a/b", ⟨"/a", 1⟩, 0⟩]).size = 2 ∧
      ∃ last', Session (new letterScript (Config.withCacheCapacity {} 1 Nat.one_pos))
          (testTwice.zip (Operation.answers testTwice (new letterScript))) last' ∧
        (last'.testAt "letter" 0).1 = true := by
  obtain ⟨hcache, hcursor⟩ := patterns_unseen (σ := Script)
  refine ⟨?_, ?_⟩
  · exact (hcache 2 [⟨"a", ⟨"/a", 1⟩, 0⟩, ⟨"b", ⟨"/a", 1⟩, 0⟩] ⟨"a/b", ⟨"/a", 1⟩, 0⟩).2
  · obtain ⟨last', hsession, htests⟩ := hcursor letterScript {} none 1 Nat.one_pos _ _
      (session_answers testTwice (new letterScript))
    exact ⟨last', hsession, (htests "letter" 0).trans (by decide)⟩

end DocWalk.Cursor
