import LiveMarkup.Attribute.Basic
import LiveMarkup.Program.Instruction

/-!
# Bindings of an element

A binding keeps an aspect of an element up to date. Its name says which: `class.x` a class,
`style.p.u` a style property with a unit, `attr.n` an attribute, `class...`, `style...` and
`attr...` all of them at once, and any other name a property. In the dashed spelling the dots are
dashes, and only the known units count as units.

* `Directive.read` finds the target of a binding or reports what is wrong with its name.
-/

namespace LiveMarkup

/-- A binding with its target. -/
structure Directive where
  written : Attribute
  target : Target
  deriving Repr, DecidableEq, Inhabited

namespace Directive

/-- The three groups of targets that have a name of their own. -/
inductive Group where
  | className
  | style
  | attr
  deriving Repr, DecidableEq

/-- The word that a group is written with. -/
def Group.word : Group → String
  | className => "class"
  | style => "style"
  | attr => "attr"

/-- The target that stands for all of a group. -/
def Group.whole : Group → Target
  | className => .classList
  | style => .styleMap
  | attr => .attributeMap

/-- An ASCII letter, a digit or a dash. -/
def isNameRest (c : Char) : Bool :=
  c.isAlphanum || c == '-'

/-- Whether a text may be the name of a class. -/
def isClassName (cs : List Char) : Bool :=
  match (Text.after? ['-'] cs).getD cs with
  | [] => false
  | c :: rest => (c.isAlpha || c == '_') && rest.all fun d => isNameRest d || d == '_'

/-- Whether a text may be the name of a style property. -/
def isStyleProperty (cs : List Char) : Bool :=
  match cs.dropWhile (· == '-') with
  | [] => false
  | c :: rest => (cs.takeWhile (· == '-')).length ≤ 3 && c.isAlpha && rest.all isNameRest

/-- Whether a text may be the unit of a style property. -/
def isStyleUnit (cs : List Char) : Bool :=
  cs == ['%'] || (!cs.isEmpty && cs.all Char.isAlpha)

/-- Whether a text may be the name of an attribute. -/
def isAttributeName (cs : List Char) : Bool :=
  !cs.isEmpty && cs.all fun c => !(Text.isBlank c || ['"', '\'', '>', '/', '='].contains c)

/-- The units that the dashed spelling knows. -/
def units : List String :=
  ["px", "em", "rem", "%", "vh", "vw", "vmin", "vmax", "pt", "pc", "cm", "mm", "in", "ex", "ch",
    "s", "ms", "deg", "rad", "turn", "fr"]

/-- Splits a style name into property and unit: at the first dot, or in the dashed spelling at the
last dash if a known unit follows it. -/
def splitUnit (dashed : Bool) (cs : List Char) : List Char × Option (List Char) :=
  if dashed then
    let unit := (cs.reverse.takeWhile (· != '-')).reverse
    let property := cs.take (cs.length - unit.length - 1)
    if unit.length < cs.length && !property.isEmpty && units.contains (String.ofList unit) then
      (property, some unit)
    else (cs, none)
  else
    match Text.cut ['.'] cs with
    | some (property, unit) => (property, some unit)
    | none => (cs, none)

/-- What stands between the parts of a name. -/
def separator (dashed : Bool) : Char :=
  if dashed then '-' else '.'

/-- The message for a name that cannot be what it should be. -/
def notValid (cs : List Char) (what : String) : String :=
  "`" ++ String.ofList cs ++ "` is not a valid " ++ what ++ "."

/-- The target that a name stands for in a group, or what is wrong with it. -/
def targetIn (dashed : Bool) (cs : List Char) : Group → Except String Target
  | .className =>
    if isClassName cs then .ok (.className (String.ofList cs))
    else .error (notValid cs "class name")
  | .style =>
    let (property, unit) := splitUnit dashed cs
    if !isStyleProperty property then .error (notValid property "style property")
    else
      match unit with
      | none => .ok (.style (String.ofList property) none)
      | some unit =>
        if isStyleUnit unit then
          .ok (.style (String.ofList property) (some (String.ofList unit)))
        else .error (notValid unit "style unit")
  | .attr =>
    if isAttributeName cs then .ok (.attr (String.ofList cs))
    else .error (notValid cs "attribute name")

/-- The target of a name, looked up in the groups in order. -/
def targetAmong (dashed : Bool) (cs : List Char) : List Group → Except String Target
  | [] =>
    if cs.all Text.isBlank then .error "Binding names no property."
    else .ok (.property (String.ofList cs))
  | group :: rest =>
    let sep := separator dashed
    match Text.after? (group.word.toList ++ [sep]) cs with
    | some name => if name == [sep, sep] then .ok group.whole else targetIn dashed name group
    | none => targetAmong dashed cs rest

/-- The target of a name. -/
def targetOf (dashed : Bool) (name : String) : Except String Target :=
  targetAmong dashed name.toList [.className, .style, .attr]

/-- Reads a binding. -/
def read (a : Attribute) (origin : Origin) : Except Diagnostic Directive :=
  match targetOf a.dashed a.name with
  | .ok target => .ok ⟨a, target⟩
  | .error message => .error (a.complain origin .directive message)

/-- Whether a binding is one of a property. -/
def isProperty (d : Directive) : Bool :=
  match d.target with
  | .property _ => true
  | _ => false

/-- What the binding does to its element. -/
def operation (d : Directive) : Operation :=
  .bind d.target d.written.source

end Directive

end LiveMarkup
