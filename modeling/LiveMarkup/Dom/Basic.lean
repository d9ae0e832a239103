import LiveMarkup.Text.Blank
import LiveMarkup.Tree.Forest

/-!
# The document tree

The nodes of a live document are elements, texts, comments and documents, kept in one forest. A
container groups a run of siblings without an element around them: it has two comments as markers
and a fragment, a document of its own, for the time when it is mounted nowhere.

* `Dom.insertBefore` puts a node before a child of its parent-to-be, or last; the one thing that
  can go wrong is a reference that is no child there (`NotAChild`);
* `Dom.setText` replaces the text of a text node, or all children of an element by one text.
-/

namespace LiveMarkup

/-- What a node of the document tree is. -/
inductive Dom.Label where
  | document
  | element (tag : String) (attributes : List (String × String))
  | text (content : String)
  | comment (content : String)
  deriving Repr, DecidableEq, Inhabited

namespace Dom.Label

/-- The tag of an element. -/
def tag? : Label → Option String
  | element tag _ => some tag
  | _ => none

/-- The attributes of an element, in the order in which they were first set. -/
def attributes : Label → List (String × String)
  | element _ attributes => attributes
  | _ => []

/-- Gives an element other attributes. -/
def withAttributes (attributes : List (String × String)) : Label → Label
  | element tag _ => element tag attributes
  | l => l

/-- Whether a node is an element. -/
def isElement (l : Label) : Bool :=
  l.tag?.isSome

/-- Whether a node is a comment. -/
def isComment : Label → Bool
  | comment _ => true
  | _ => false

/-- The text that a node holds itself. -/
def ownText : Label → String
  | text content => content
  | _ => ""

/-- How a node is called in messages. -/
def describe : Label → String
  | document => "#document"
  | element tag _ => "<" ++ tag ++ ">"
  | text _ => "#text"
  | comment _ => "#comment"

end Dom.Label

/-! ## Attributes by name -/

namespace Attributes

/-- The value of an attribute. -/
def get? (name : String) : List (String × String) → Option String
  | [] => none
  | (other, value) :: rest => if other == name then some value else get? name rest

/-- Sets an attribute, which keeps its place if it is there already. -/
def set (name value : String) : List (String × String) → List (String × String)
  | [] => [(name, value)]
  | (other, old) :: rest =>
    if other == name then (other, value) :: rest else (other, old) :: set name value rest

/-- Takes an attribute away. -/
def erase (name : String) (attributes : List (String × String)) : List (String × String) :=
  attributes.filter fun (other, _) => !(other == name)

end Attributes

/-! ## The tree -/

/-- The name of a container. -/
abbrev ContainerId := Nat

/-- A run of siblings between two markers, or the content of a fragment while it is not live. -/
structure Container where
  start : NodeId
  finish : NodeId
  fragment : NodeId
  live : Bool := false
  deriving Repr, DecidableEq, Inhabited

/-- The nodes and containers of a live document. -/
structure Dom where
  nodes : Forest Dom.Label := {}
  containers : Array Container := #[]

/-- A reference is no child of the node it should be in. -/
structure NotAChild where
  node : String
  parent : String
  deriving Repr, DecidableEq, Inhabited

namespace Dom

/-- What a node is. -/
def label (d : Dom) (n : NodeId) : Label :=
  (d.nodes.label? n).getD .document

/-- How a node is called in messages. -/
def describe (d : Dom) (n : NodeId) : String :=
  (d.label n).describe

/-! ### Making nodes -/

/-- Makes a node. -/
def create (d : Dom) (l : Label) : Dom × NodeId :=
  let (nodes, n) := d.nodes.create l
  ({ d with nodes }, n)

/-- Makes an element; its tag is in lower case. -/
def createElement (d : Dom) (tag : String) : Dom × NodeId :=
  d.create (.element (Text.lowerAscii tag) [])

/-! ### Structure -/

/-- The parent of a node. -/
def parent? (d : Dom) (n : NodeId) : Option NodeId :=
  d.nodes.parent? n

/-- The children of a node. -/
def children (d : Dom) (n : NodeId) : List NodeId :=
  d.nodes.children n

/-- What is below a node, in document order. -/
def descendants (d : Dom) (n : NodeId) : List NodeId :=
  d.nodes.descendants n

/-- Takes a node out of its parent. -/
def remove (d : Dom) (n : NodeId) : Dom :=
  { d with nodes := d.nodes.remove n }

/-- Makes a node the last child of another, wherever it was before. -/
def append (d : Dom) (parent child : NodeId) : Dom :=
  { d with nodes := d.nodes.append parent child }

/-- Puts a node before a child of another, or last, wherever it was before. -/
def insertBefore (d : Dom) (parent child : NodeId) (reference : Option NodeId) :
    Except NotAChild Dom :=
  match d.nodes.insertBefore? parent child reference with
  | some nodes => .ok { d with nodes }
  | none => .error ⟨(reference.map d.describe).getD "", d.describe parent⟩

/-- Puts several nodes, in order, before one child of a node, or last. -/
def insertAll (parent : NodeId) (reference : Option NodeId) :
    List NodeId → Dom → Except NotAChild Dom
  | [], d => .ok d
  | child :: rest, d => do
    let d ← d.insertBefore parent child reference
    insertAll parent reference rest d

/-! ### Attributes and texts -/

/-- The attributes of a node. -/
def attributes (d : Dom) (n : NodeId) : List (String × String) :=
  (d.label n).attributes

/-- The value of an attribute of a node. -/
def attribute? (d : Dom) (n : NodeId) (name : String) : Option String :=
  Attributes.get? name (d.attributes n)

/-- Gives a node other attributes; only elements have any. -/
def withAttributes (d : Dom) (n : NodeId) (attributes : List (String × String)) : Dom :=
  { d with nodes := d.nodes.setLabel n ((d.label n).withAttributes attributes) }

/-- Sets an attribute of an element. -/
def setAttribute (d : Dom) (n : NodeId) (name value : String) : Dom :=
  d.withAttributes n (Attributes.set name value (d.attributes n))

/-- Takes an attribute away from an element. -/
def removeAttribute (d : Dom) (n : NodeId) (name : String) : Dom :=
  d.withAttributes n (Attributes.erase name (d.attributes n))

/-- The text of a node: its own, or all texts below it. -/
def text (d : Dom) (n : NodeId) : String :=
  match d.label n with
  | .text content => content
  | .comment _ => ""
  | _ => String.join ((d.descendants n).map fun m => (d.label m).ownText)

/-- Replaces the content of a text, or all children of an element by one text. -/
def setText (d : Dom) (n : NodeId) (content : String) : Dom :=
  match d.label n with
  | .text _ => { d with nodes := d.nodes.setLabel n (.text content) }
  | .element _ _ =>
    let d := (d.children n).foldl remove d
    if content.isEmpty then d
    else
      let (d, t) := d.create (.text content)
      d.append n t
  | _ => d

end Dom

end LiveMarkup
