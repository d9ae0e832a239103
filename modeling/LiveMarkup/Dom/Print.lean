import LiveMarkup.Dom.Basic

/-!
# The markup of a tree

How nodes are written: elements with their attributes in order, void elements without content and
end tag, texts and attribute values with the characters that need it replaced by references.
Documents write their children alone.

* `Dom.outerHtml` is the markup of a node, `Dom.innerHtml` that of its children.
-/

namespace LiveMarkup

namespace Dom

/-- The elements that have neither content nor an end tag. -/
def voidTags : List String :=
  ["area", "base", "br", "col", "embed", "hr", "img", "input", "link", "meta", "source", "track",
    "wbr"]

/-- A character of a text as written. -/
def escapeText : Char → List Char
  | '&' => "&amp;".toList
  | '<' => "&lt;".toList
  | '>' => "&gt;".toList
  | c => [c]

/-- A character of an attribute value as written. -/
def escapeQuoted : Char → List Char
  | '&' => "&amp;".toList
  | '"' => "&quot;".toList
  | c => [c]

/-- An attribute as written. -/
def attributeHtml (name value : String) : String :=
  " " ++ name ++ "=\"" ++ String.ofList (value.toList.flatMap escapeQuoted) ++ "\""

/-- The start tag of an element. -/
def startTag (tag : String) (attributes : List (String × String)) : String :=
  "<" ++ tag ++ String.join (attributes.map fun (name, value) => attributeHtml name value) ++ ">"

/-- The markup of a node, down to a depth. -/
def htmlTo (d : Dom) : Nat → NodeId → String
  | 0, _ => ""
  | depth + 1, n =>
    match d.label n with
    | .document => String.join ((d.children n).map (htmlTo d depth))
    | .text content => String.ofList (content.toList.flatMap escapeText)
    | .comment content => "<!--" ++ content ++ "-->"
    | .element tag attributes =>
      if voidTags.contains tag then startTag tag attributes
      else
        startTag tag attributes ++ String.join ((d.children n).map (htmlTo d depth)) ++
          "</" ++ tag ++ ">"

/-- The markup of a node. -/
def outerHtml (d : Dom) (n : NodeId) : String :=
  d.htmlTo (d.nodes.size + 1) n

/-- The markup of the children of a node. -/
def innerHtml (d : Dom) (n : NodeId) : String :=
  String.join ((d.children n).map d.outerHtml)

end Dom

end LiveMarkup
