import DocWalk.Path.Pattern

/-!
# Recently used patterns

A cache keeps compiled patterns, most recently used first, and never more than its capacity. A
pattern asked for again moves to the front; a new one is put in front, and the one unused for longest
leaves when there is no room.
-/

set_option autoImplicit false

namespace DocWalk

/-- Compiled patterns, most recently used first. -/
structure PatternCache where
  capacity : Nat
  entries : List Pattern := []
  deriving DecidableEq, Repr

namespace PatternCache

/-- Number of patterns kept. -/
def size (cache : PatternCache) : Nat :=
  cache.entries.length

/-- Whether no pattern is kept. -/
def isEmpty (cache : PatternCache) : Bool :=
  cache.entries.isEmpty

/-- The compiled pattern of that text, if it is kept. -/
def find? (cache : PatternCache) (text : String) : Option Pattern :=
  cache.entries.find? (·.text = text)

/-- Puts a pattern in front, drops its older copy, and drops the last pattern beyond the capacity. -/
def use (cache : PatternCache) (pattern : Pattern) : PatternCache :=
  { cache with
    entries := (pattern :: cache.entries.filter (·.text ≠ pattern.text)).take cache.capacity }

/-- The anchored test of a pattern's text, compiled only when it is not kept. -/
def holds (cache : PatternCache) (text : String) (here : Position) (anchor : Nat) :
    Bool × PatternCache :=
  let pattern := (cache.find? text).getD (.compile text)
  (pattern.holds here anchor, cache.use pattern)

end PatternCache

end DocWalk
