import LiveMarkup.Html.Node
import LiveMarkup.Html.Token

/-!
# Markup of other vocabularies

Drawings and formulas inside a text keep the capital letters of some names, which the reading of
tags has made small. A few attributes lose the part before the colon.
-/

namespace LiveMarkup.Html.Foreign

/-- The element names of drawings that have capital letters. -/
def svgElements : List String :=
  ["altGlyph", "altGlyphDef", "altGlyphItem", "animateColor", "animateMotion", "animateTransform",
    "clipPath", "feBlend", "feColorMatrix", "feComponentTransfer", "feComposite",
    "feConvolveMatrix", "feDiffuseLighting", "feDisplacementMap", "feDistantLight",
    "feDropShadow", "feFlood", "feFuncA", "feFuncB", "feFuncG", "feFuncR", "feGaussianBlur",
    "feImage", "feMerge", "feMergeNode", "feMorphology", "feOffset", "fePointLight",
    "feSpecularLighting", "feSpotLight", "feTile", "feTurbulence", "foreignObject", "glyphRef",
    "linearGradient", "radialGradient", "textPath"]

/-- The attribute names of drawings that have capital letters. -/
def svgAttributes : List String :=
  ["attributeName", "attributeType", "baseFrequency", "baseProfile", "calcMode", "clipPathUnits",
    "diffuseConstant", "edgeMode", "filterUnits", "glyphRef", "gradientTransform",
    "gradientUnits", "kernelMatrix", "kernelUnitLength", "keyPoints", "keySplines", "keyTimes",
    "lengthAdjust", "limitingConeAngle", "markerHeight", "markerUnits", "markerWidth",
    "maskContentUnits", "maskUnits", "numOctaves", "pathLength", "patternContentUnits",
    "patternTransform", "patternUnits", "pointsAtX", "pointsAtY", "pointsAtZ", "preserveAlpha",
    "preserveAspectRatio", "primitiveUnits", "refX", "refY", "repeatCount", "repeatDur",
    "requiredExtensions", "requiredFeatures", "specularConstant", "specularExponent",
    "spreadMethod", "startOffset", "stdDeviation", "stitchTiles", "surfaceScale",
    "systemLanguage", "tableValues", "targetX", "targetY", "textLength", "viewBox", "viewTarget",
    "xChannelSelector", "yChannelSelector", "zoomAndPan"]

/-- The attributes that lose the part before the colon. -/
def qualifiedAttributes : List (String × String) :=
  [("xlink:actuate", "actuate"), ("xlink:arcrole", "arcrole"), ("xlink:href", "href"),
    ("xlink:role", "role"), ("xlink:show", "show"), ("xlink:title", "title"),
    ("xlink:type", "type"), ("xml:lang", "lang"), ("xml:space", "space"),
    ("xmlns:xlink", "xlink")]

/-- The spelling with capital letters of a name in small letters. -/
def respell (names : List String) (name : String) : String :=
  (names.find? fun spelled => Text.lowerAscii spelled == name).getD name

/-- The element name in a vocabulary. -/
def elementName (vocabulary : Vocabulary) (name : String) : String :=
  if vocabulary == .svg then respell svgElements name else name

/-- The attribute name in a vocabulary. -/
def attributeName (vocabulary : Vocabulary) (name : String) : String :=
  let name :=
    match vocabulary with
    | .math => respell ["definitionURL"] name
    | .svg => respell svgAttributes name
    | .html => name
  ((qualifiedAttributes.find? (·.1 == name)).map (·.2)).getD name

/-- The attributes of a tag in a vocabulary. -/
def attributes (vocabulary : Vocabulary) (tag : Tag) : Attributes :=
  tag.attributes.map fun (name, value) => (attributeName vocabulary name, value)

/-- The start tags that end foreign markup. -/
def breakoutTags : List String :=
  ["b", "big", "blockquote", "body", "br", "center", "code", "dd", "div", "dl", "dt", "em",
    "embed", "h1", "h2", "h3", "h4", "h5", "h6", "head", "hr", "i", "img", "li", "listing",
    "menu", "meta", "nobr", "ol", "p", "pre", "ruby", "s", "small", "span", "strong", "strike",
    "sub", "sup", "table", "tt", "u", "ul", "var"]

/-- Whether a token ends foreign markup. Of the end tags only those of a paragraph and of a line
break do: with nothing to close they stand for an element of their own. -/
def breaksOut : Token → Bool
  | .startTag tag =>
    breakoutTags.contains tag.name ||
      (tag.name == "font" &&
        tag.attributes.any fun (name, _) => ["color", "face", "size"].contains name)
  | .endTag name => name == "br" || name == "p"
  | _ => false

end LiveMarkup.Html.Foreign
