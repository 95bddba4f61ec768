/-!
# Paths of open nodes

The joined form of the open nodes puts a slash before each name, outermost first: `/a/b/c`. On an
attribute the form goes on with `/@` and the attribute's name. This module holds the joined form,
the position made of it, and the loose test of a position by the end of its path.
-/

set_option autoImplicit false

namespace DocWalk

/-- A place in a document: the joined path and the number of open nodes. -/
structure Position where
  path : String
  depth : Nat
  deriving DecidableEq, Repr, Inhabited

namespace Path

/-- The joined form of open nodes, given innermost first. -/
def join : List String → String
  | [] => ""
  | name :: outer => join outer ++ "/" ++ name

/-- The joined form on an attribute of the innermost open node. -/
def joinAttribute (names : List String) (name : String) : String :=
  join names ++ "/@" ++ name

/-- Whether the text ends with `tail`. -/
def endsWith (text tail : String) : Bool :=
  tail.toList.isSuffixOf text.toList

/-- The pattern that stands for wherever the cursor is. -/
def currentNode : String := "."

/-- The loose test: the pattern for any position, or the end of the path. -/
def matchesSuffix (path pattern : String) : Bool :=
  pattern = currentNode || endsWith path pattern

end Path

end DocWalk
