import LiveMarkup.Attribute.Basic
import LiveMarkup.Json.Parser
import LiveMarkup.Program.Instruction

/-!
# Commands of an element

A command decides whether, how often or in which case its element is there. Commands are read by
the parsers of a registry, the first that accepts the name.

* `Registry.standard` knows `if`, `for`, `switch`, `switch-case` and `switch-default`;
* `Command.wrap` puts an instruction inside the condition or loop of a command.
-/

namespace LiveMarkup

/-- How an element takes part in the switch around it. -/
inductive Arm where
  | case (value : Value)
  | default

/-- What a command asks for. -/
inductive Command.Kind where
  | condition (source : ValueSource)
  | loop (loop : Loop)
  | switch (value : ValueSource)
  | arm (arm : Arm)

/-- A command with the attribute it is written as. -/
structure Command where
  written : Attribute
  kind : Command.Kind

namespace Command

/-- The name of a command. -/
def name (c : Command) : String :=
  match c.kind with
  | .condition _ => "if"
  | .loop _ => "for"
  | .switch _ => "switch"
  | .arm (.case _) => "switch-case"
  | .arm .default => "switch-default"

/-- The rank of a command; of two around one element the one of higher rank is outside. -/
def priority (c : Command) : Nat :=
  match c.kind with
  | .condition _ => 200
  | .loop _ => 100
  | .switch _ => 0
  | .arm _ => 300

/-- Whether a command puts its element inside another instruction. -/
def isWrapper (c : Command) : Bool :=
  match c.kind with
  | .condition _ => true
  | .loop _ => true
  | .switch _ => false
  | .arm _ => false

/-- The part of an element in the switch around it. -/
def arm? (c : Command) : Option Arm :=
  match c.kind with
  | .arm arm => some arm
  | _ => none

/-- The value that a switch looks at. -/
def switched? (c : Command) : Option ValueSource :=
  match c.kind with
  | .switch value => some value
  | _ => none

/-- Puts an instruction inside a command. -/
def wrap (c : Command) (inner : Instruction) : Instruction :=
  match c.kind with
  | .condition source => .conditional source inner
  | .loop loop => .forLoop loop inner
  | .switch _ => inner
  | .arm _ => inner

end Command

/-- A parser of commands: its name, the command names it accepts, and how it reads one. -/
structure CommandParser where
  name : String
  accepts : String → Bool
  read : Attribute → Origin → Except Diagnostic Command

namespace CommandParser

/-- The parser of conditions. -/
def condition : CommandParser where
  name := "if"
  accepts := (· == "if")
  read := fun a _ => .ok ⟨a, .condition a.source⟩

/-- The diagnostic for a loop expression that cannot be read. -/
def loopDiagnostic (a : Attribute) (origin : Origin) (e : Loop.SyntaxError) : Diagnostic :=
  let rule :=
    match e with
    | .malformed _ _ => Rule.loopSyntax
    | .unknownVariable _ _ => Rule.loopVariable
  (a.complain origin rule e.message).withHint "let item of items; index as i"

/-- The parser of loops. -/
def loop : CommandParser where
  name := "for"
  accepts := (· == "for")
  read := fun a origin =>
    match Loop.parse a.isExpression a.value with
    | .ok loop => .ok ⟨a, .loop loop⟩
    | .error e => .error (loopDiagnostic a origin e)

/-- The parser of switches. -/
def switch : CommandParser where
  name := "switch"
  accepts := (· == "switch")
  read := fun a _ => .ok ⟨a, .switch a.source⟩

/-- The value of a case: JSON, or else the text itself. -/
def caseValue (text : String) : Value :=
  let text := Text.trimmed text
  (Json.parse? text).getD (.string text)

/-- The parser of the cases of a switch. -/
def switchCase : CommandParser where
  name := "switch-case"
  accepts := (· == "switch-case")
  read := fun a _ => .ok ⟨a, .arm (.case (caseValue a.value))⟩

/-- The parser of the default of a switch. -/
def switchDefault : CommandParser where
  name := "switch-default"
  accepts := (· == "switch-default")
  read := fun a _ => .ok ⟨a, .arm .default⟩

end CommandParser

/-- The parsers that a compilation uses, in order. -/
structure Registry where
  parsers : List CommandParser := []

namespace Registry

/-- The registry of all parsers of the language. -/
def standard : Registry :=
  ⟨[.condition, .loop, .switchCase, .switchDefault, .switch]⟩

/-- Adds a parser after the others. -/
def register (r : Registry) (parser : CommandParser) : Registry :=
  ⟨r.parsers ++ [parser]⟩

/-- The first parser that accepts a command name. -/
def find? (r : Registry) (command : String) : Option CommandParser :=
  r.parsers.find? fun p => p.accepts command

/-- The names of the parsers, in order. -/
def names (r : Registry) : List String :=
  r.parsers.map (·.name)

/-- Reads a command with the parser for it. -/
def read (r : Registry) (a : Attribute) (origin : Origin) : Except Diagnostic Command :=
  match r.find? a.name with
  | some parser => parser.read a origin
  | none =>
    .error
      ((a.complain origin .unknownCommand ("Unknown command `" ++ a.name ++ "`.")).withHint
        ("registered commands: " ++ ", ".intercalate r.names))

end Registry

end LiveMarkup
