/-!
# Notices

A traversal reports a few turns of its work to whoever keeps a log. A notice says what happened; it
never changes what happens next.
-/

set_option autoImplicit false

namespace DocWalk

/-- How much attention a notice asks for. -/
inductive Notice.Level where
  | trace
  | debug
  deriving DecidableEq, Repr

/-- One turn worth a line in a log. -/
inductive Notice where
  /-- A text was stored under a key, at that path. -/
  | captured (key path : String)
  /-- Something else than text stood where text was read. -/
  | unexpectedInText (path found : String)
  /-- A node would have lain too deep; the path is that of the node around it. -/
  | tooDeep (limit : Nat) (path : String)
  /-- A date did not have milliseconds and is read again without. -/
  | dateWithoutMillis (text : String)
  deriving DecidableEq, Repr

namespace Notice

/-- The level of a notice. -/
def level : Notice → Level
  | captured .. | dateWithoutMillis .. => .trace
  | unexpectedInText .. | tooDeep .. => .debug

/-- The line a log shows. -/
def message : Notice → String
  | captured .. => "captured metadata"
  | unexpectedInText .. => "unexpected event while reading text"
  | tooDeep .. => "depth limit exceeded"
  | dateWithoutMillis .. => "retrying date without milliseconds"

end Notice

end DocWalk
