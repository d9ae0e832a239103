import LiveMarkup.Source.Location

/-!
# Template nodes

A template is read into a list of nodes: elements with their attributes as written, texts, and
the interpolations inside texts.
-/

namespace LiveMarkup

namespace Template

/-- An attribute as written in the markup, with its place. -/
structure Attribute where
  name : String
  value : String
  range : Range
  deriving Repr, DecidableEq, Inhabited

/-- A node of a template. A raw interpolation is an expression, the other kind a reference. -/
inductive Node where
  | element (tag : String) (attributes : List Attribute) (children : List Node) (range : Range)
  | text (value : String)
  | interpolation (code : String) (raw : Bool)
  deriving Repr, Inhabited

end Template

/-- A markup text together with the nodes read from it. -/
structure Template where
  raw : String
  nodes : List Template.Node

end LiveMarkup
