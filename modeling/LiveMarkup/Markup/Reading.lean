import LiveMarkup.Html.Fragment
import LiveMarkup.Markup.Interpolation
import LiveMarkup.Markup.Options
import LiveMarkup.Markup.StartTag

/-!
# Reading a template

A template is parsed as a fragment, and each element is given the place of its start tag: the
elements in document order take the next start tag of their name. An element without a start tag
of its own takes none and has the empty range at the start.

* `StartTag.claim` finds the next start tag of a name, and leaves those after it;
* `Template.read` is the whole reading.
-/

namespace LiveMarkup

/-- Takes the next start tag of a name. If there is none, all stay for later elements. -/
def StartTag.claim (name : String) (tags : List StartTag) : Option StartTag × List StartTag :=
  match tags.dropWhile fun t => t.tag != name with
  | [] => (none, tags)
  | t :: later => (some t, later)

namespace Template

/-- The range between two byte offsets. -/
def rangeIn (markup : String) (start stop : Nat) : Range :=
  ⟨start, stop, Location.ofOffset markup start⟩

/-- The range of the start tag of an element. -/
def elementRange (markup : String) : Option StartTag → Range
  | some t => rangeIn markup t.start t.stop
  | none => {}

/-- An attribute with its place in the start tag; failing that it has the range of the element. -/
def placeAttribute (markup : String) (options : Options) (tag : Option StartTag) (name : String)
    (value : String) : Attribute :=
  match tag.bind fun t => t.attributes.find? fun a => Text.sameAscii a.name name with
  | some a => ⟨if options.restoreCase then a.name else name, value, rangeIn markup a.start a.stop⟩
  | none => ⟨name, value, elementRange markup tag⟩

mutual

/-- The template nodes of a node of the fragment, and the start tags left for later elements. -/
def ofNode (markup : String) (options : Options) (tags : List StartTag) :
    Html.Node → List Node × List StartTag
  | .element name attributes children =>
    let (tag, tags) := StartTag.claim name.name tags
    let attributes := attributes.map fun (n, v) => placeAttribute markup options tag n v
    let (children, tags) := ofNodes markup options tags children
    ([.element name.name attributes children (elementRange markup tag)], tags)
  | .text chars =>
    if !options.keepBlanks && chars.all Text.isBlank then ([], tags)
    else (Interpolation.splitChars chars, tags)
  | .comment => ([], tags)

/-- The template nodes of a list of nodes. -/
def ofNodes (markup : String) (options : Options) (tags : List StartTag) :
    List Html.Node → List Node × List StartTag
  | [] => ([], tags)
  | node :: rest =>
    let (first, tags) := ofNode markup options tags node
    let (others, tags) := ofNodes markup options tags rest
    (first ++ others, tags)

end

/-- Reads a template. -/
def read (markup : String) (options : Options) : Template :=
  ⟨markup, (ofNodes markup options (StartTag.scan markup) (Html.fragment markup)).1⟩

end Template

end LiveMarkup
