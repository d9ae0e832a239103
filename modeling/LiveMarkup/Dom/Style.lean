import LiveMarkup.Dom.Basic

/-!
# Class lists and inline styles

The `class` attribute holds names between blanks, the `style` attribute holds declarations
`name: value` between semicolons. Both are read anew at every change and printed back whole.

* `Style.set` changes, adds or takes away one declaration;
* `Dom.toggleClass` adds or takes away one class; nothing is printed if it is as wanted already.
-/

namespace LiveMarkup

namespace Style

/-- The declaration that a text stands for: a name that is not empty, a colon and a value. -/
def declaration? (text : List Char) : Option (String × String) :=
  match Text.cut [':'] text with
  | none => none
  | some (name, value) =>
    let name := Text.trim name
    if name.isEmpty then none else some (String.ofList name, String.ofList (Text.trim value))

/-- The declarations of a text; fragments that are none are passed over. -/
def declarations (text : String) : List (String × String) :=
  (Text.pieces (· == ';') text.toList).filterMap declaration?

/-- The text of declarations. -/
def print (declarations : List (String × String)) : String :=
  "; ".intercalate (declarations.map fun (name, value) => name ++ ": " ++ value)

/-- Takes away the first declaration of a name. -/
def eraseFirst (name : String) : List (String × String) → List (String × String)
  | [] => []
  | (other, value) :: rest =>
    if other == name then rest else (other, value) :: eraseFirst name rest

/-- Changes the first declaration of a name, adds one at the end, or takes it away. -/
def set (name : String) (value : Option String) (declarations : List (String × String)) :
    List (String × String) :=
  match value with
  | some value => Attributes.set name value declarations
  | none => eraseFirst name declarations

end Style

namespace Dom

/-! ### Classes -/

/-- The classes of a node. -/
def classes (d : Dom) (n : NodeId) : List String :=
  ((d.attribute? n "class").map Text.wordsOf).getD []

/-- Adds a class to a node or takes it away. -/
def toggleClass (d : Dom) (n : NodeId) (name : String) (on : Bool) : Dom :=
  let classes := d.classes n
  if on == classes.contains name then d
  else
    let classes := if on then classes ++ [name] else classes.filter fun c => !(c == name)
    d.setAttribute n "class" (" ".intercalate classes)

/-! ### Styles -/

/-- The style declarations of a node. -/
def styles (d : Dom) (n : NodeId) : List (String × String) :=
  ((d.attribute? n "style").map Style.declarations).getD []

/-- The value of a style property of a node. -/
def style? (d : Dom) (n : NodeId) (property : String) : Option String :=
  Attributes.get? property (d.styles n)

/-- Sets or clears a style property. The attribute goes when no declaration is left. -/
def setStyle (d : Dom) (n : NodeId) (property : String) (value : Option String) : Dom :=
  if value.isNone && (d.style? n property).isNone then d
  else
    match Style.set property value (d.styles n) with
    | [] => d.removeAttribute n "style"
    | declarations => d.setAttribute n "style" (Style.print declarations)

end Dom

end LiveMarkup
