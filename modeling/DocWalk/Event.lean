/-!
# Document events

A document, whatever its format, is read as one flat sequence of events: nodes open and close, text
stands between them, and a marker stands at either end. This module holds that vocabulary.

Attributes travel inside the event that opens their node. A cursor hands them out one by one, as
events of their own, before the node's content.
-/

set_option autoImplicit false

namespace DocWalk

/-- A named value of a node. -/
structure Attribute where
  /-- The local name, without a namespace label. -/
  name : String
  /-- The value, with every reference resolved. -/
  value : String
  deriving DecidableEq, Repr, Inhabited

/-- What is known of a node when it opens. -/
structure Node where
  /-- The local name, without a namespace label. -/
  name : String
  /-- The attributes, in document order. -/
  attributes : List Attribute := []
  deriving DecidableEq, Repr, Inhabited

/-- The value of the first attribute of that name. -/
def Node.attribute? (node : Node) (name : String) : Option String :=
  (node.attributes.find? (·.name = name)).map (·.value)

/-- One step of a document. -/
inductive Event where
  | startDocument
  | endDocument
  /-- A node opens. -/
  | startNode (node : Node)
  /-- The innermost open node closes. -/
  | endNode
  /-- Text of the innermost open node. -/
  | text (text : String)
  /-- An attribute of the node opened last. -/
  | attr (value : Attribute)
  deriving DecidableEq, Repr, Inhabited

namespace Event

/-- Whether this is the marker before the document. -/
def isStartDocument : Event → Bool
  | startDocument => true
  | _ => false

/-- Whether this is the marker after the document. -/
def isEndDocument : Event → Bool
  | endDocument => true
  | _ => false

/-- Whether a node opens here. -/
def isStartNode : Event → Bool
  | startNode _ => true
  | _ => false

/-- Whether a node closes here. -/
def isEndNode : Event → Bool
  | endNode => true
  | _ => false

/-- Whether this is text. -/
def isText : Event → Bool
  | text _ => true
  | _ => false

/-- Whether this is an attribute. -/
def isAttribute : Event → Bool
  | attr _ => true
  | _ => false

/-- The node that opens here, if one does. -/
def node? : Event → Option Node
  | startNode node => some node
  | _ => none

/-- The text that stands here, if this is text. -/
def text? : Event → Option String
  | text t => some t
  | _ => none

/-- The words a diagnostic uses for the event. -/
def describe : Event → String
  | startDocument => "start of document"
  | endDocument => "end of document"
  | startNode node => "start of node '" ++ node.name ++ "'"
  | endNode => "end of node"
  | text _ => "text"
  | attr a => "attribute '" ++ a.name ++ "'"

end Event

end DocWalk
