import DocWalk.Proofs.Cursor.DepthFirst
import DocWalk.Proofs.Xml.Escapes
import Mathlib.Data.List.Chain

/-!
# Trees written as XML

A `Markup` is a tree as an author writes it. Names have their namespace labels, a start tag may
declare namespaces among its attributes, and an element with nothing in it is written in one tag or in
two. `written` is its text, and `tree` is what of it is content: local names, the attributes that
declare nothing, and the texts as they were before they were escaped.

A text beside another would be one text with it, an empty one would not be there, and a blank one
beside an element would be indentation. `WellFormed` leaves these out, and nothing else.
-/

set_option autoImplicit false

namespace DocWalk.Xml

/-- A name, with the label of a namespace in front of it or without one. XML asks both to start with
a letter; a reader takes a digit there too. -/
structure QName where
  label : Option Word := none
  base : Word

namespace QName

/-- The name as it is written. -/
def text (name : QName) : String :=
  match name.label with
  | none => name.base.text
  | some label => label.text ++ ":" ++ name.base.text

/-- What stands in front of the colon, or all of a name without one. -/
def front (name : QName) : Word :=
  name.label.getD name.base

end QName

/-- What is set in a tag behind its name. -/
structure Setting where
  name : QName
  value : String

namespace Setting

/-- Whether this declares a namespace, the default one by `xmlns` or another by a label behind it. -/
def isDeclaration (s : Setting) : Bool :=
  s.name.front.text = "xmlns"

/-- The attribute of the node that this is, unless it declares a namespace. -/
def attribute? (s : Setting) : Option Attribute :=
  if s.isDeclaration then none else some ⟨s.name.base.text, s.value⟩

def written (s : Setting) : String :=
  " " ++ s.name.text ++ "=\"" ++ escaped s.value ++ "\""

end Setting

def writtenSettings : List Setting → String
  | [] => ""
  | s :: rest => s.written ++ writtenSettings rest

/-- What is set in one tag. No two settings have one name. -/
structure Settings where
  list : List Setting := []
  distinct : (list.map (·.name.text)).Nodup := by decide

/-- A text, or an element with what is in it. -/
inductive Markup where
  | text (text : String)
  /-- An element of one tag. -/
  | empty (name : QName) (settings : Settings)
  | element (name : QName) (settings : Settings) (children : List Markup)

/-- The node that a tag opens. -/
def heading (name : QName) (settings : Settings) : Node :=
  ⟨name.base.text, settings.list.filterMap Setting.attribute?⟩

mutual

def Markup.written : Markup → String
  | .text text => escaped text
  | .empty name settings => "<" ++ name.text ++ writtenSettings settings.list ++ "/>"
  | .element name settings children =>
    "<" ++ name.text ++ writtenSettings settings.list ++ ">" ++ writtenAll children ++
      "</" ++ name.text ++ ">"

def writtenAll : List Markup → String
  | [] => ""
  | m :: rest => m.written ++ writtenAll rest

end

mutual

/-- The content of a markup. -/
def Markup.tree : Markup → Tree
  | .text text => .text text
  | .empty name settings => .node (heading name settings) []
  | .element name settings children => .node (heading name settings) (treesOf children)

def treesOf : List Markup → List Tree
  | [] => []
  | m :: rest => m.tree :: treesOf rest

end

namespace Markup

def isText : Markup → Bool
  | .text _ => true
  | .empty _ _ | .element _ _ _ => false

/-- Whether this is a text that is all blank. -/
def isBlank : Markup → Bool
  | .text s => Content.isBlankText s
  | .empty _ _ | .element _ _ _ => false

/-- No two texts stand side by side, and a blank text stands alone. -/
structure Apart (children : List Markup) : Prop where
  texts : children.IsChain fun m next => !(m.isText && next.isText)
  blanks : ∀ m ∈ children, m.isBlank → children.length = 1

instance (children : List Markup) : Decidable (Apart children) :=
  decidable_of_iff (_ ∧ _) ⟨fun ⟨h, k⟩ => ⟨h, k⟩, fun h => ⟨h.texts, h.blanks⟩⟩

end Markup

mutual

/-- Every text is there, and apart from the others in its element. -/
def Markup.WellFormed : Markup → Prop
  | .text text => text ≠ ""
  | .empty _ _ => True
  | .element _ _ children => Markup.Apart children ∧ WellFormedAll children

def WellFormedAll : List Markup → Prop
  | [] => True
  | m :: rest => m.WellFormed ∧ WellFormedAll rest

end

mutual

instance Markup.decidableWellFormed : ∀ m : Markup, Decidable m.WellFormed
  | .text s => inferInstanceAs (Decidable (s ≠ ""))
  | .empty _ _ => inferInstanceAs (Decidable True)
  | .element _ _ children =>
    have := decidableWellFormedAll children
    inferInstanceAs (Decidable (Markup.Apart children ∧ WellFormedAll children))

instance decidableWellFormedAll : ∀ ms : List Markup, Decidable (WellFormedAll ms)
  | [] => inferInstanceAs (Decidable True)
  | m :: rest =>
    have := m.decidableWellFormed
    have := decidableWellFormedAll rest
    inferInstanceAs (Decidable (m.WellFormed ∧ WellFormedAll rest))

end

end DocWalk.Xml
