import DocWalk.Primitive.Error
import DocWalk.Source

/-!
# Errors of a traversal

Three families: the events do not have the shape that a call expects, a text is not the value wanted,
and the source itself fails. The first two tell the path at which they arose.
-/

set_option autoImplicit false

namespace DocWalk

/-- How events fail to have the expected shape. -/
inductive Misfit where
  /-- A node ends that was not opened. -/
  | unopenedEnd
  /-- Text is asked for before there is a position. -/
  | textBeforeFirst
  /-- Text is asked for at an event that has none. -/
  | noTextAt (event : Event)
  /-- Something else stands where text was read. -/
  | unexpectedInText (found : Event)
  /-- There is no node to skip here. -/
  | skipElsewhere
  /-- The document ends inside the node that is skipped. -/
  | endedInsideNode
  deriving DecidableEq, Repr

/-- The words for a misfit. -/
def Misfit.message : Misfit → String
  | unopenedEnd => "end of node without an open node"
  | textBeforeFirst => "cannot read text before the first event"
  | noTextAt event => "cannot read text at " ++ event.describe
  | unexpectedInText found => "expected text or end of node, found " ++ found.describe
  | skipElsewhere => "skip requires a start of node position"
  | endedInsideNode => "document ended inside node"

/-- Why a traversal fails. -/
inductive WalkError where
  | structural (path : String) (misfit : Misfit)
  | decode (path : String) (error : FormatError)
  /-- A node at that path would lie deeper than the limit. -/
  | tooDeep (path : String) (limit : Nat)
  | source (error : SourceError)
  deriving DecidableEq, Repr

namespace WalkError

/-- The words for an error. -/
def message : WalkError → String
  | structural path misfit => "structural error at '" ++ path ++ "': " ++ misfit.message
  | decode path _ => "cannot decode value at '" ++ path ++ "'"
  | tooDeep path limit =>
    "depth limit of " ++ toString limit ++ " exceeded at '" ++ path ++ "'"
  | source error => error.message

/-- The path at which the error arose, if it is known. -/
def path? : WalkError → Option String
  | structural path _ | decode path _ | tooDeep path _ => some path
  | source _ => none

end WalkError

end DocWalk
