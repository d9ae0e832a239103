import LiveMarkup.Data.Aspect
import LiveMarkup.Dom.Style
import LiveMarkup.Live.State

/-!
# Writing aspects

How a value is written to an aspect of a node. A map writes only what changed since its last value
and takes away only what that one had written.

* `Aspect.write` changes the tree and gives the aspect with what is written now remembered;
* `Aspect.ofProperty` and `Aspect.ofTarget` choose the aspect for a property or a binding.
-/

namespace LiveMarkup

/-- Writes the text that a value stands for to an attribute, or takes the attribute away. -/
def Dom.writeAttribute (d : Dom) (n : NodeId) (name : String) (value : Value) : Dom :=
  match value.attributeText? with
  | some text => d.setAttribute n name text
  | none => d.removeAttribute n name

namespace Live.Aspect

/-- The aspect that a property is; those that the tree does not show belong to the host. -/
def ofProperty (name : String) : Aspect :=
  if name == "className" then attributeText "class"
  else if name == "id" then attributeText "id"
  else if name == "textContent" then text
  else property name

/-- The aspect that a binding keeps up to date. -/
def ofTarget : Target → Aspect
  | .property name => ofProperty (canonicalProperty name)
  | .className name => className name
  | .classList => classList []
  | .style name unit => style name unit
  | .styleMap => styleMap []
  | .attr name => attr name
  | .attributeMap => attributeMap []

/-- The aspect of a kind of binding, by the name of the kind; any other kind is the text. -/
def ofKind (kind name : String) (unit : Option String) : Aspect :=
  match kind with
  | "property" => ofProperty (canonicalProperty name)
  | "attribute" => attr name
  | "attribute-map" => attributeMap []
  | "class" => className name
  | "class-list" => classList []
  | "style" => style name unit
  | "style-map" => styleMap []
  | _ => text

/-! ## Differences between maps -/

/-- The names that the next map does not have any more. -/
def gone (applied next : List (String × α)) : List String :=
  (applied.map (·.1)).filter fun name => (Fields.get? name next).isNone

/-- The entries of the next map that are new or changed. -/
def changed [BEq α] (applied next : List (String × α)) : List (String × α) :=
  next.filter fun (name, value) => !((Fields.get? name applied).any (· == value))

/-- Takes away what is gone and writes what is new or changed. -/
def writeMap [BEq α] (erase : Dom → String → Dom) (write : Dom → String → α → Dom)
    (applied next : List (String × α)) (d : Dom) : Dom :=
  (changed applied next).foldl (fun d (name, value) => write d name value)
    ((gone applied next).foldl erase d)

/-! ## Writing -/

/-- The classes that a value turns on, as a map. -/
def classMap (value : Value) : List (String × Unit) :=
  value.classNames.map fun name => (name, ())

/-- The style properties that a value sets or clears. -/
def styleTexts (value : Value) : List (String × Option String) :=
  (value.fields?.getD []).map fun (name, v) => (name, v.styleText? none)

/-- Writes a value to an aspect of a node, and remembers it where that is needed. -/
def write (d : Dom) (n : NodeId) (value : Value) : Aspect → Dom × Aspect
  | text => (d.setText n value.display, text)
  | attributeText name => (d.setAttribute n name value.display, attributeText name)
  | attr name => (d.writeAttribute n name value, attr name)
  | attributeMap applied =>
    let next := value.fields?.getD []
    (writeMap (fun d name => d.removeAttribute n name)
      (fun d name v => d.writeAttribute n name v) applied next d, attributeMap next)
  | className name => (d.toggleClass n name value.truthy, className name)
  | classList applied =>
    let next := classMap value
    (writeMap (fun d name => d.toggleClass n name false)
      (fun d name () => d.toggleClass n name true) applied next d, classList next)
  | style name unit => (d.setStyle n name (value.styleText? unit), style name unit)
  | styleMap applied =>
    let next := styleTexts value
    (writeMap (fun d name => d.setStyle n name none)
      (fun d name v => d.setStyle n name v) applied next d, styleMap next)
  | property name => (d, property name)

end Live.Aspect

end LiveMarkup
