import DocWalk.Path

/-!
# Anchored patterns

A pattern such as `b/c` or `b/@id` is read from the node at some depth, its anchor. Every step leads
one level down, save an attribute step, which stays on the node that owns the attribute. A position
satisfies the pattern when it lies exactly that many levels below the anchor and its path ends with a
slash and the pattern, so a name that comes again on another level is not taken for the one meant.
-/

set_option autoImplicit false

namespace DocWalk

/-- A pattern with the number of levels it leads down. -/
structure Pattern where
  text : String
  steps : Nat
  deriving DecidableEq, Repr, Inhabited

namespace Pattern

/-- Slashes that lead to a node: those not followed by an at sign. -/
def nodeSeparators : List Char → Nat
  | [] => 0
  | c :: rest => (if c = '/' ∧ rest.head? ≠ some '@' then 1 else 0) + nodeSeparators rest

/-- Levels a pattern leads down: one for each slash before a node, and one for a first step that is
a node. -/
def levels (pattern : List Char) : Nat :=
  nodeSeparators pattern + if pattern.head? = some '@' then 0 else 1

/-- Counts the levels of a pattern once. -/
def compile (text : String) : Pattern :=
  ⟨text, levels text.toList⟩

/-- What the path of a position must end with. -/
def anchored (pattern : Pattern) : String :=
  "/" ++ pattern.text

/-- Whether so many levels below the anchor lead to the depth. Levels are counted in words of 64 bits,
so a sum that is too large for one begins again at zero. -/
def reaches (anchor levels depth : Nat) : Bool :=
  UInt64.ofNat anchor + UInt64.ofNat levels = UInt64.ofNat depth

/-- Whether the position satisfies the pattern read from depth `anchor`. -/
def holds (pattern : Pattern) (here : Position) (anchor : Nat) : Bool :=
  pattern.text = Path.currentNode
    || (reaches anchor pattern.steps here.depth && Path.endsWith here.path pattern.anchored)

end Pattern

end DocWalk
