import LiveMarkup.Html.Node

/-!
# Classes of elements

The sets of elements that the construction of a fragment distinguishes: those that end a search of
the open elements, those whose end tags may be left out, and the places where markup of one
vocabulary may stand inside another.
-/

namespace LiveMarkup.Html

namespace ElementName

/-- Whether an element is the one of a name in the main vocabulary. -/
def isHtml (e : ElementName) (name : String) : Bool :=
  e.vocabulary == .html && e.name == name

/-- Whether an element is one of some names in the main vocabulary. -/
def isAmong (e : ElementName) (names : List String) : Bool :=
  e.vocabulary == .html && names.contains e.name

/-- The formula elements whose text is markup. -/
def isMathText (e : ElementName) : Bool :=
  e.vocabulary == .math && ["mi", "mo", "mn", "ms", "mtext"].contains e.name

/-- The drawing elements whose content is markup. -/
def isSvgMarkup (e : ElementName) : Bool :=
  e.vocabulary == .svg && ["foreignObject", "desc", "title"].contains e.name

/-- The elements that end most searches for an open element. -/
def endsScope (e : ElementName) : Bool :=
  e.isAmong ["applet", "caption", "html", "table", "td", "th", "marquee", "object", "template"] ||
    e.isMathText || e.isSvgMarkup

/-- The elements that end the search for a list item. -/
def endsListScope (e : ElementName) : Bool :=
  e.endsScope || e.isAmong ["ol", "ul"]

/-- The elements that end the search for a paragraph. -/
def endsButtonScope (e : ElementName) : Bool :=
  e.endsScope || e.isHtml "button"

/-- The elements that end the search for a part of a table. -/
def endsTableScope (e : ElementName) : Bool :=
  e.isAmong ["html", "table", "template"]

/-- The elements that end the search for a selection. -/
def endsSelectScope (e : ElementName) : Bool :=
  !e.isAmong ["optgroup", "option"]

/-- The elements that may contain sections of a table. -/
def holdsSections (e : ElementName) : Bool :=
  e.endsTableScope

/-- The elements that may contain rows. -/
def holdsRows (e : ElementName) : Bool :=
  e.isAmong ["tbody", "tfoot", "thead", "template", "html"]

/-- The elements that may contain cells. -/
def holdsCells (e : ElementName) : Bool :=
  e.isAmong ["tr", "template", "html"]

/-- The parts of a table in which no other content may stand. -/
def isTablePart (e : ElementName) : Bool :=
  e.isAmong ["table", "tbody", "tfoot", "thead", "tr"]

/-- The two kinds of cells. -/
def isCell (e : ElementName) : Bool :=
  e.isAmong ["td", "th"]

/-- The headings. -/
def isHeading (e : ElementName) : Bool :=
  e.isAmong ["h1", "h2", "h3", "h4", "h5", "h6"]

/-- The elements whose end tags may be left out. -/
def mayEnd (e : ElementName) : Bool :=
  e.isAmong ["dd", "dt", "li", "option", "optgroup", "p", "rb", "rp", "rt", "rtc"]

/-- The elements that the end of a template closes. -/
def mayEndInTemplate (e : ElementName) : Bool :=
  e.mayEnd ||
    e.isAmong ["caption", "colgroup", "tbody", "td", "tfoot", "th", "thead", "tr"]

/-- The elements that an unknown end tag does not reach across. -/
def isSpecial (e : ElementName) : Bool :=
  e.isAmong
    ["address", "applet", "area", "article", "aside", "base", "basefont", "bgsound", "blockquote",
      "body", "br", "button", "caption", "center", "col", "colgroup", "dd", "details", "dir",
      "div", "dl", "dt", "embed", "fieldset", "figcaption", "figure", "footer", "form", "frame",
      "frameset", "h1", "h2", "h3", "h4", "h5", "h6", "head", "header", "hgroup", "hr", "html",
      "iframe", "img", "input", "isindex", "li", "link", "listing", "main", "marquee", "menu",
      "meta", "nav", "noembed", "noframes", "noscript", "object", "ol", "p", "param", "plaintext",
      "pre", "script", "section", "select", "source", "style", "summary", "table", "tbody", "td",
      "template", "textarea", "tfoot", "th", "thead", "title", "tr", "track", "ul", "wbr", "xmp"]

end ElementName

end LiveMarkup.Html
