import LiveMarkup.Attribute.Classified
import LiveMarkup.Markup.Codec
import LiveMarkup.Program.Codec

/-!
# Classified attributes as JSON
-/

namespace LiveMarkup

namespace Attribute

/-- The marks of the spelling of an attribute. -/
def modifiers (a : Attribute) : List String :=
  (if a.dashed then ["prefix"] else []) ++ if a.isExpression then ["expression"] else []

/-- The written form of an attribute. -/
def toValue (a : Attribute) : Value :=
  .object
    [("name", .string a.name), ("rawName", .string a.spelling), ("value", .string a.value),
      ("modifiers", .array (a.modifiers.map .string)), ("range", a.range.toValue)]

end Attribute

namespace Directive

/-- The type of a target and the fields that describe it. -/
def describe : Target → String × List (String × Value)
  | .property name => ("property", [("property", .string name)])
  | .className name => ("class", [("class", .string name)])
  | .classList => ("class-list", [])
  | .style name unit => ("style", [("property", .string name), ("unit", .ofString? unit)])
  | .styleMap => ("style-map", [])
  | .attr name => ("attribute", [("name", .string name)])
  | .attributeMap => ("attribute-map", [])

/-- The written form of a binding. -/
def toValue (d : Directive) : Value :=
  let (type, fields) := describe d.target
  .tagged "type" type (("attr", d.written.toValue) :: fields)

end Directive

namespace Command

/-- The fields that describe what a command asks for. -/
def Kind.fields : Kind → List (String × Value)
  | .condition source => [("condition", source.toValue)]
  | .loop l => [("binding", l.toValue)]
  | .switch value => [("value", value.toValue)]
  | .arm (.case value) => [("value", value)]
  | .arm .default => []

/-- The written form of a command. -/
def toValue (c : Command) : Value :=
  .tagged "type" c.name (("attr", c.written.toValue) :: c.kind.fields)

/-- The written form of the arm that a command makes; null if it makes none. -/
def armToValue (c : Command) : Value :=
  match c.arm? with
  | none => .null
  | some .default => .string "default"
  | some (.case value) => .object [("case", value)]

end Command

namespace Classified

/-- The written form of what an attribute means. A command is shown with what it makes of an
instruction inside it. -/
def toValue (inner : Instruction) : Classified → Value
  | plain a =>
    .tagged "class" "static"
      [("generator", .object [("attr", a.toValue)]), ("operation", (plainOperation a).toValue)]
  | event a =>
    .tagged "class" "event"
      [("generator", .object [("attr", a.toValue)]), ("operation", (eventOperation a).toValue)]
  | directive d =>
    .tagged "class" "directive"
      [("generator", d.toValue), ("operation", d.operation.toValue),
        ("isProperty", .bool d.isProperty), ("source", d.written.source.toValue),
        ("prefixed", .bool d.written.dashed)]
  | command c =>
    .tagged "class" "command"
      [("generator", c.toValue), ("name", .string c.name), ("priority", .nat c.priority),
        ("isWrapper", .bool c.isWrapper), ("attribute", .string c.written.spelling),
        ("arm", c.armToValue), ("wrapped", (c.wrap inner).toValue)]

end Classified

end LiveMarkup
