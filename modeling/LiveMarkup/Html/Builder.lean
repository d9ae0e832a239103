import LiveMarkup.Html.ElementClass
import LiveMarkup.Html.Token
import LiveMarkup.Tree.Forest

/-!
# A fragment under construction

The state of the construction of a fragment: the nodes made so far, the open elements, the
formatting elements that are to be opened again, and the insertion mode. The open elements are
listed from the innermost to the root, which is always the last.

* `Builder.place` is where new content goes: into the innermost open element, or in front of a
  table that must not hold it;
* `Builder.insertText` joins a text that stands just before that place;
* `Builder.popThrough` and `Builder.popDownTo` close open elements, with or without the one found.
-/

namespace LiveMarkup.Html

/-- What is being read. -/
inductive Mode where
  | body
  | text
  | table
  | tableText
  | caption
  | columnGroup
  | tableBody
  | row
  | cell
  | select
  | selectInTable
  | template
  deriving Repr, DecidableEq, Inhabited

/-- A node under construction. The contents of a template element are a node of their own. -/
inductive Part where
  | element (name : ElementName) (attributes : Attributes) (contents : Option NodeId)
  | text (chars : List Char)
  | comment
  | contents
  deriving Repr, Inhabited

/-- A formatting element with the tag it was made for, or a mark that ends searches. -/
inductive Formatting where
  | marker
  | element (node : NodeId) (tag : Tag)
  deriving Repr, Inhabited

/-- The state of the construction of a fragment. -/
structure Builder where
  parts : Forest Part
  opened : List NodeId
  formatting : List Formatting := []
  mode : Mode := .body
  returnTo : Mode := .body
  templateModes : List Mode := []
  form : Option NodeId := none
  fostering : Bool := false
  dropLineFeed : Bool := false
  tableText : List (Bool × List Char) := []
  content : Content := .markup

namespace Builder

/-- The root of the fragment. -/
def root : NodeId := 0

/-- The construction before the first token. -/
def start : Builder where
  parts := (Forest.create ⟨#[]⟩ (.element { name := "html" } [] none)).1
  opened := [root]

/-- The name of an element. -/
def nameOf (b : Builder) (n : NodeId) : ElementName :=
  match b.parts.label? n with
  | some (.element name _ _) => name
  | _ => { name := "" }

/-- The innermost open element. -/
def current (b : Builder) : NodeId :=
  b.opened.head?.getD root

/-- The name of the innermost open element. -/
def currentName (b : Builder) : ElementName :=
  b.nameOf b.current

/-- Whether the innermost open element is the one of a name. -/
def currentIs (b : Builder) (name : String) : Bool :=
  b.currentName.isHtml name

/-- Whether an open element has a name. -/
def hasOpen (b : Builder) (name : String) : Bool :=
  b.opened.any fun n => (b.nameOf n).isHtml name

/-- Whether one of some open elements satisfies a test before one ends the search. -/
def reaches (b : Builder) (found : NodeId → Bool) (ends : ElementName → Bool) :
    List NodeId → Bool
  | [] => false
  | n :: rest => found n || (!ends (b.nameOf n) && reaches b found ends rest)

/-- Whether an open element that satisfies a test is in scope. -/
def inScope (b : Builder) (ends : ElementName → Bool) (found : ElementName → Bool) : Bool :=
  b.reaches (fun n => found (b.nameOf n)) ends b.opened

/-- Whether an open element of a name is in scope. -/
def inScopeNamed (b : Builder) (ends : ElementName → Bool) (name : String) : Bool :=
  b.inScope ends fun e => e.isHtml name

/-- Closes the innermost open element. -/
def pop (b : Builder) : Builder :=
  { b with opened := b.opened.tail }

/-- Closes elements up to and with the first that satisfies a test. -/
def popThrough (b : Builder) (p : ElementName → Bool) : Builder :=
  { b with opened := (b.opened.dropWhile fun n => !p (b.nameOf n)).tail }

/-- Closes elements up to and with the first of a name. -/
def popThroughNamed (b : Builder) (name : String) : Builder :=
  b.popThrough fun e => e.isHtml name

/-- Closes elements before the first that satisfies a test. -/
def popDownTo (b : Builder) (p : ElementName → Bool) : Builder :=
  { b with opened := b.opened.dropWhile fun n => !p (b.nameOf n) }

/-- Closes elements as long as they satisfy a test. -/
def popWhile (b : Builder) (p : ElementName → Bool) : Builder :=
  { b with opened := b.opened.dropWhile fun n => p (b.nameOf n) }

/-- Closes the elements whose end tags may be left out, except those of a name. -/
def closeImplied (b : Builder) (except : String) : Builder :=
  b.popWhile fun e => e.mayEnd && !e.isHtml except

/-- Closes the elements whose end tags may be left out. -/
def closeAllImplied (b : Builder) : Builder :=
  b.popWhile ElementName.mayEnd

/-- Closes a paragraph. -/
def closeParagraph (b : Builder) : Builder :=
  (b.closeImplied "p").popThroughNamed "p"

/-- Closes an open paragraph, if one is in scope. -/
def closeOpenParagraph (b : Builder) : Builder :=
  if b.inScopeNamed ElementName.endsButtonScope "p" then b.closeParagraph else b

/-- Takes an element out of the open elements, wherever it is. -/
def dropOpen (b : Builder) (n : NodeId) : Builder :=
  { b with opened := b.opened.erase n }

/-- Makes an element that stands nowhere yet. -/
def createElement (b : Builder) (name : ElementName) (attributes : Attributes) :
    Builder × NodeId :=
  if name.isHtml "template" then
    let (parts, contents) := b.parts.create .contents
    let (parts, n) := parts.create (.element name attributes (some contents))
    ({ b with parts }, n)
  else
    let (parts, n) := b.parts.create (.element name attributes none)
    ({ b with parts }, n)

/-- Where something is put: last in a node, or in front of a node that has a parent. -/
inductive Place where
  | last (parent : NodeId)
  | before (sibling : NodeId)

/-- The node that takes the content of an element. -/
def contentsOf (b : Builder) (n : NodeId) : NodeId :=
  match b.parts.label? n with
  | some (.element _ _ (some contents)) => contents
  | _ => n

/-- The place for content that a table must not hold. -/
def fosterPlace (b : Builder) : List NodeId → Place
  | [] => .last root
  | n :: below =>
    if (b.nameOf n).isHtml "template" then .last (b.contentsOf n)
    else if (b.nameOf n).isHtml "table" then
      if (b.parts.parent? n).isSome then .before n else .last (below.head?.getD root)
    else fosterPlace b below

/-- The place for content that is meant for a node. -/
def placeIn (b : Builder) (target : NodeId) : Place :=
  if b.fostering && (b.nameOf target).isTablePart then b.fosterPlace b.opened
  else .last (b.contentsOf target)

/-- The place for new content. -/
def place (b : Builder) : Place :=
  b.placeIn b.current

/-- Puts a node in a place. -/
def put (b : Builder) (n : NodeId) : Place → Builder
  | .last parent => { b with parts := b.parts.append parent n }
  | .before sibling =>
    match b.parts.parent? sibling with
    | some parent =>
      { b with parts := (b.parts.insertBefore? parent n (some sibling)).getD b.parts }
    | none => b

/-- The node just before a place. -/
def neighbour? (b : Builder) : Place → Option NodeId
  | .last parent => (b.parts.children parent).getLast?
  | .before sibling => b.parts.previous? sibling

/-- Adds text, to the text just before its place if there is one. -/
def insertText (b : Builder) (chars : List Char) : Builder :=
  let place := b.place
  let make : Unit → Builder := fun _ =>
    let (parts, n) := b.parts.create (.text chars)
    { b with parts }.put n place
  match b.neighbour? place with
  | none => make ()
  | some n =>
    match b.parts.label? n with
    | some (.text before) => { b with parts := b.parts.setLabel n (.text (before ++ chars)) }
    | _ => make ()

/-- Adds a comment. -/
def insertComment (b : Builder) : Builder :=
  let place := b.place
  let (parts, n) := b.parts.create .comment
  { b with parts }.put n place

/-- Adds an element without opening it. -/
def insertClosed (b : Builder) (name : ElementName) (attributes : Attributes) :
    Builder × NodeId :=
  let place := b.place
  let (b, n) := b.createElement name attributes
  (b.put n place, n)

/-- Adds an element and opens it. -/
def insertElement (b : Builder) (name : ElementName) (attributes : Attributes) :
    Builder × NodeId :=
  let (b, n) := b.insertClosed name attributes
  ({ b with opened := n :: b.opened }, n)

/-- Opens the element of a tag. -/
def openTag (b : Builder) (tag : Tag) : Builder :=
  (b.insertElement { name := tag.name } tag.attributes).1

/-- Opens an element that no tag was written for. -/
def openImplied (b : Builder) (name : String) : Builder :=
  (b.insertElement { name } []).1

/-- Adds the element of a tag that has no content. -/
def addVoid (b : Builder) (tag : Tag) : Builder :=
  (b.insertClosed { name := tag.name } tag.attributes).1

/-- Changes the mode. -/
def enter (b : Builder) (mode : Mode) : Builder :=
  { b with mode }

/-- Opens the element of a tag whose content is text of a kind. -/
def openText (b : Builder) (tag : Tag) (content : Content) : Builder :=
  let b := b.openTag tag
  { b with returnTo := b.mode, mode := .text, content }

/-- Adds a mark to the formatting elements. -/
def pushMarker (b : Builder) : Builder :=
  { b with formatting := .marker :: b.formatting }

/-- The formatting elements after the last mark. -/
def afterMarker : List Formatting → List (NodeId × Tag)
  | [] => []
  | .marker :: _ => []
  | .element n tag :: rest => (n, tag) :: afterMarker rest

/-- The formatting elements without those after the last mark and without that mark. -/
def beforeMarker : List Formatting → List Formatting
  | [] => []
  | .marker :: rest => rest
  | .element _ _ :: rest => beforeMarker rest

/-- Forgets the formatting elements after the last mark. -/
def clearFormatting (b : Builder) : Builder :=
  { b with formatting := beforeMarker b.formatting }

/-- Closes a cell. -/
def closeCell (b : Builder) : Builder :=
  (b.closeAllImplied.popThrough ElementName.isCell).clearFormatting

/-- The mode for a selection among some open elements. -/
def selectMode (b : Builder) : List NodeId → Mode
  | [] => .select
  | n :: rest =>
    if (b.nameOf n).isHtml "template" then .select
    else if (b.nameOf n).isHtml "table" then .selectInTable
    else selectMode b rest

/-- The mode that some open elements call for. The root stands for the body of a page. -/
def modeFor (b : Builder) : List NodeId → Mode
  | [] => .body
  | [_] => .body
  | n :: below =>
    let e := b.nameOf n
    if e.vocabulary != .html then modeFor b below
    else
      match e.name with
      | "select" => b.selectMode below
      | "td" => .cell
      | "th" => .cell
      | "tr" => .row
      | "tbody" => .tableBody
      | "thead" => .tableBody
      | "tfoot" => .tableBody
      | "caption" => .caption
      | "colgroup" => .columnGroup
      | "table" => .table
      | "template" => b.templateModes.head?.getD .body
      | _ => modeFor b below

/-- The mode that the open elements call for. -/
def resetMode (b : Builder) : Builder :=
  b.enter (b.modeFor b.opened)

end Builder

end LiveMarkup.Html
