import LiveMarkup.Attribute.Command
import LiveMarkup.Attribute.Directive
import LiveMarkup.Attribute.Spelling

/-!
# Classification of attributes

Each attribute of the markup is a binding, a command, an event or, if it has none of their
spellings, a plain attribute.

* `Classified.ofAttribute` tries the spellings in this order;
* `Command.checkUnique` refuses two commands of one name on an element.
-/

namespace LiveMarkup

/-- What an attribute means. -/
inductive Classified where
  | plain (written : Attribute)
  | directive (directive : Directive)
  | command (command : Command)
  | event (written : Attribute)

namespace Classified

/-- What a plain attribute does to its element. -/
def plainOperation (a : Attribute) : Operation :=
  .setAttribute a.spelling a.value

/-- What an event attribute does to its element. -/
def eventOperation (a : Attribute) : Operation :=
  .listen (Text.trimmed a.name) a.value

/-- An event has a name. -/
def readEvent (a : Attribute) (origin : Origin) : Except Diagnostic Classified :=
  if Text.isAllBlank a.name then
    .error (a.complain origin .event "Event hookup names no event.")
  else .ok (.event a)

/-- Classifies an attribute of the markup. -/
def ofAttribute (registry : Registry) (origin : Origin) (a : Template.Attribute) :
    Except Diagnostic Classified :=
  match Spelling.read? .binding a.name with
  | some s => (Directive.read (s.apply a) origin).map .directive
  | none =>
    match Spelling.read? .command a.name with
    | some s => (registry.read (s.apply a) origin).map .command
    | none =>
      match Spelling.read? .event a.name with
      | some s => readEvent (s.apply a) origin
      | none => .ok (.plain ((⟨a.name.toList, false, false⟩ : Spelling).apply a))

end Classified

/-- Refuses the first name that occurs twice among some names with ranges. -/
def Command.checkUnique (origin : Origin) (seen : List String) :
    List (String × Range) → Except Diagnostic Unit
  | [] => .ok ()
  | (name, range) :: rest =>
    if seen.contains name then
      .error
        (.about .duplicateCommand
          ("Command `" ++ name ++ "` appears more than once on the same element.") origin range)
    else checkUnique origin (name :: seen) rest

end LiveMarkup
