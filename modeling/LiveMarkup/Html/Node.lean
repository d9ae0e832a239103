/-!
# Nodes of a parsed fragment

What the fragment parser builds: elements with their attributes and children, texts, and comments,
which keep the texts around them apart. The children of a template element are its contents.
-/

namespace LiveMarkup.Html

/-- The three vocabularies that elements come from. -/
inductive Vocabulary where
  | html
  | math
  | svg
  deriving Repr, DecidableEq, Inhabited

/-- The name of an element. -/
structure ElementName where
  vocabulary : Vocabulary := .html
  name : String
  deriving Repr, DecidableEq, Inhabited

/-- The attributes of an element, in order. -/
abbrev Attributes := List (String × String)

/-- A node of a parsed fragment. -/
inductive Node where
  | element (name : ElementName) (attributes : Attributes) (children : List Node)
  | text (chars : List Char)
  | comment
  deriving Repr, Inhabited

end LiveMarkup.Html
