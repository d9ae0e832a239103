import LiveMarkup.Json.Printer
import LiveMarkup.Text.Blank

/-!
# What values mean for aspects of elements

A value bound to an aspect of an element stands for class names, for the text of a style property
or an attribute, or for a property of the host.

* `Value.classNames` are the classes a value turns on, in order without repetition;
* `Value.styleText?` and `Value.attributeText?` are the texts to write, or nothing to take away.
-/

namespace LiveMarkup

/-- Puts names in order without repetition. -/
def sortNames (names : List String) : List String :=
  (Fields.ofList (names.map fun name => (name, ()))).map (·.1)

namespace Value

/-- The classes that a value turns on: the words of a text, or of the texts of an array, or the
names that an object gives a true value. -/
def classNames : Value → List String
  | string s => sortNames (Text.wordsOf s)
  | array items => sortNames ((items.filterMap string?).flatMap Text.wordsOf)
  | object fields => (fields.filter fun (_, v) => v.truthy).map (·.1)
  | _ => []

/-- The text of a style property: numbers get a unit; null, false and the empty text clear it. -/
def styleText? (unit : Option String) : Value → Option String
  | null => none
  | bool false => none
  | string s => if s.isEmpty then none else some s
  | number n => some (n.text ++ unit.getD "")
  | v => some v.display

/-- The text of an attribute: null and false take it away, true makes it empty. -/
def attributeText? : Value → Option String
  | null => none
  | bool b => if b then some "" else none
  | v => some v.display

end Value

/-- The properties whose names have a spelling of their own. -/
def knownProperties : List String :=
  ["className", "id", "textContent", "value", "checked", "disabled", "hidden", "title", "tabIndex",
    "selected", "placeholder", "readOnly", "htmlFor"]

/-- The spelling of a property name; the case of its letters does not matter. -/
def canonicalProperty (name : String) : String :=
  (knownProperties.find? fun known => Text.sameAscii known name).getD name

end LiveMarkup
