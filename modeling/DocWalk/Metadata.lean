import DocWalk.Path.Pattern
import DocWalk.Notice

/-!
# Metadata

An expression names a place, as a pattern read from an anchor, and a key. Text found at the place is
kept under the key; the last text found wins. A text that comes in pieces is captured with its first
piece and extended with the others.
-/

set_option autoImplicit false

namespace DocWalk

/-- A place to watch and the key for what stands there. -/
structure Expression where
  pattern : Pattern
  anchor : Nat
  key : String
  deriving DecidableEq, Repr, Inhabited

namespace Expression

/-- The expression for a pattern's text. -/
def of (pattern : String) (anchor : Nat) (key : String) : Expression :=
  ⟨.compile pattern, anchor, key⟩

/-- Whether the position is the place meant. -/
def holds (expression : Expression) (here : Position) : Bool :=
  expression.pattern.holds here expression.anchor

end Expression

/-- Texts kept under keys, each key once, in the order in which the keys first came. -/
structure Captured where
  entries : List (String × String) := []
  deriving DecidableEq, Repr, Inhabited

namespace Captured

/-- The text kept under a key. -/
def get? (captured : Captured) (key : String) : Option String :=
  captured.entries.lookup key

/-- Changes the entry of a key, or adds one at the end. -/
def alterEntry (key : String) (change : Option String → String) :
    List (String × String) → List (String × String)
  | [] => [(key, change none)]
  | (k, text) :: rest =>
    if k = key then (k, change (some text)) :: rest else (k, text) :: alterEntry key change rest

/-- Keeps a text under a key, in place of any other. -/
def put (captured : Captured) (key text : String) : Captured :=
  ⟨alterEntry key (fun _ => text) captured.entries⟩

/-- Writes a text behind the one kept under a key. -/
def append (captured : Captured) (key text : String) : Captured :=
  ⟨alterEntry key (fun kept => kept.getD "" ++ text) captured.entries⟩

end Captured

/-- The registered expressions, in order, and what they caught. -/
structure Registry where
  expressions : List Expression := []
  captured : Captured := {}
  deriving DecidableEq, Repr, Inhabited

namespace Registry

/-- Watches one more place. -/
def register (registry : Registry) (expression : Expression) : Registry :=
  { registry with expressions := registry.expressions ++ [expression] }

/-- Whether nothing is watched. -/
def isEmpty (registry : Registry) : Bool :=
  registry.expressions.isEmpty

/-- The expressions that mean this position, in the order of registration. -/
def watching (registry : Registry) (here : Position) : List Expression :=
  registry.expressions.filter (·.holds here)

/-- Keeps the text under the key of every expression that means this position. -/
def capture (registry : Registry) (here : Position) (text : String) : Registry :=
  { registry with
    captured := (registry.watching here).foldl (fun kept e => kept.put e.key text) registry.captured }

/-- Writes the text behind what is kept under those keys, once for each expression. -/
def extend (registry : Registry) (here : Position) (text : String) : Registry :=
  { registry with
    captured :=
      (registry.watching here).foldl (fun kept e => kept.append e.key text) registry.captured }

/-- The notices of a capture at this position. -/
def captureNotices (registry : Registry) (here : Position) : List Notice :=
  (registry.watching here).map fun e => .captured e.key here.path

end Registry

end DocWalk
