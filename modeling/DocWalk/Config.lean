/-!
# Settings of a traversal
-/

set_option autoImplicit false

namespace DocWalk

/-- What a caller may set before a traversal. -/
structure Config where
  /-- The deepest nesting allowed; none allows any. -/
  maxDepth : Option Nat := none
  /-- How many compiled patterns are kept. -/
  cacheCapacity : Nat := 64
  cacheCapacity_pos : 0 < cacheCapacity := by decide
  deriving DecidableEq, Repr

namespace Config

/-- Limits the nesting. -/
def withMaxDepth (config : Config) (limit : Nat) : Config :=
  { config with maxDepth := some limit }

/-- Sets how many compiled patterns are kept. -/
def withCacheCapacity (config : Config) (capacity : Nat) (positive : 0 < capacity) : Config :=
  { config with cacheCapacity := capacity, cacheCapacity_pos := positive }

end Config

end DocWalk
