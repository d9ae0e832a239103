import LiveMarkup.Json.Record
import LiveMarkup.Markup.Node
import LiveMarkup.Source.Diagnostic

/-!
# Templates and diagnostics as JSON
-/

namespace LiveMarkup

/-- The written form of a location. -/
def Location.toValue (l : Location) : Value :=
  .object [("line", .nat l.line), ("column", .nat l.column)]

/-- The written form of a range. -/
def Range.toValue (r : Range) : Value :=
  .object [("start", .nat r.start), ("end", .nat r.stop), ("location", r.location.toValue)]

namespace Template

/-- The written form of an attribute. -/
def Attribute.toValue (a : Attribute) : Value :=
  .object [("name", .string a.name), ("value", .string a.value), ("range", a.range.toValue)]

mutual

/-- The written form of a node. -/
def Node.toValue : Node → Value
  | .element tag attributes children range =>
    .object
      [("type", .string "element"), ("tag", .string tag),
        ("attributes", .array (attributes.map Attribute.toValue)),
        ("children", .array (Node.toValues children)), ("range", range.toValue)]
  | .text value => .object [("type", .string "text"), ("value", .string value)]
  | .interpolation code raw =>
    .object [("type", .string "interpolation"), ("code", .string code), ("raw", .bool raw)]

/-- The written forms of a list of nodes. -/
def Node.toValues : List Node → List Value
  | [] => []
  | node :: rest => node.toValue :: Node.toValues rest

end

end Template

namespace Diagnostic

/-- The written form of a diagnostic. -/
def toValue (d : Diagnostic) : Value :=
  .object
    [("code", .string d.rule.code), ("message", .string d.message),
      ("guarantee", .string d.rule.guarantee), ("file", .string d.file),
      ("line", .nat d.location.line), ("column", .nat d.location.column),
      ("offset", .nat d.offset), ("markup", .ofString? d.markup),
      ("context", .ofString? d.context), ("hints", .array (d.hints.map .string))]

end Diagnostic

end LiveMarkup
