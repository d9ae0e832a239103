import LiveMarkup.Attribute.Basic
import LiveMarkup.Markup.Node

/-!
# Spellings of attributes

Bindings, commands and events have two spellings each, one with brackets or a star and one with a
word and a dash:

* `[name]` or `bind-name` is a binding, `[$name]` or `bind-exp-name` one to an expression;
* `*name` or `cmd-name` is a command, `*$name` or `cmd-exp-name` one with an expression;
* `(name)` or `on-name` is an event.

No name has a line feed in it. A command has a name; where the mark of an expression would leave
none, the mark is the name.
-/

namespace LiveMarkup

/-- The kinds of attributes that have a spelling of their own. -/
inductive Spelling.Form where
  | binding
  | command
  | event
  deriving Repr, DecidableEq

/-- What a spelling says: the bare name and the two marks. -/
structure Spelling where
  name : List Char
  dashed : Bool
  isExpression : Bool
  deriving Repr, DecidableEq

namespace Spelling

/-- What stands between an opening and a closing character. -/
def between? (opening closing : Char) : List Char → Option (List Char)
  | [] => none
  | c :: cs => if c == opening && cs.getLast? == some closing then some cs.dropLast else none

/-- Reads the mark of an expression in front of a name, if the name may be what is left. -/
def readMark (mark : List Char) (mayBeEmpty : Bool) (dashed : Bool) (cs : List Char) :
    Option Spelling :=
  match Text.after? mark cs with
  | some rest =>
    if mayBeEmpty || !rest.isEmpty then some ⟨rest, dashed, true⟩ else some ⟨cs, dashed, false⟩
  | none => if mayBeEmpty || !cs.isEmpty then some ⟨cs, dashed, false⟩ else none

/-- The mark of an expression in the spelling with brackets. -/
def dollar : List Char := ['$']

/-- The mark of an expression in the spelling with a dash. -/
def exp : List Char := ['e', 'x', 'p', '-']

/-- Reads the spelling with brackets or a star. -/
def readBracket? (cs : List Char) : Form → Option Spelling
  | .binding => (between? '[' ']' cs).bind (readMark dollar true false)
  | .command => (Text.after? ['*'] cs).bind (readMark dollar false false)
  | .event => (between? '(' ')' cs).map fun name => ⟨name, false, false⟩

/-- Reads the spelling with a word and a dash. -/
def readDashed? (cs : List Char) : Form → Option Spelling
  | .binding => (Text.after? "bind-".toList cs).bind (readMark exp true true)
  | .command => (Text.after? "cmd-".toList cs).bind (readMark exp false true)
  | .event => (Text.after? "on-".toList cs).map fun name => ⟨name, true, false⟩

/-- Reads a name in one of the two spellings of a form. -/
def read? (form : Form) (name : String) : Option Spelling :=
  let cs := name.toList
  if cs.contains '\n' then none else (readBracket? cs form).or (readDashed? cs form)

/-- The attribute that a spelling says. -/
def apply (s : Spelling) (a : Template.Attribute) : Attribute where
  name := String.ofList s.name
  spelling := a.name
  value := a.value
  dashed := s.dashed
  isExpression := s.isExpression
  range := a.range

end Spelling

end LiveMarkup
