import LiveMarkup.Source.Location

/-!
# Diagnostics

A diagnostic says which rule of the language a markup text breaks and where. Each rule has a code
and a guarantee, the sentence that holds of every text that compiles.

* `Diagnostic.about` points at a range of the text being compiled and quotes it;
* `Diagnostic.render` is the one-line form.
-/

namespace LiveMarkup

/-- The rules a template has to keep. -/
inductive Rule where
  | parse
  | unknownCommand
  | loopSyntax
  | loopVariable
  | directive
  | event
  | duplicateCommand
  | orphanArm
  | duplicateDefault
  | other (code : String)
  deriving Repr, DecidableEq

namespace Rule

/-- The rules with a code of their own. -/
def known : List Rule :=
  [parse, unknownCommand, loopSyntax, loopVariable, directive, event, duplicateCommand, orphanArm,
    duplicateDefault]

/-- The code that names a rule in diagnostics. -/
def code : Rule → String
  | parse => "PARSE_ERROR"
  | unknownCommand => "UNKNOWN_COMMAND"
  | loopSyntax => "INVALID_FOR_EXPRESSION"
  | loopVariable => "UNKNOWN_LOOP_VARIABLE"
  | directive => "INVALID_DIRECTIVE"
  | event => "INVALID_EVENT"
  | duplicateCommand => "DUPLICATE_COMMAND"
  | orphanArm => "ORPHAN_SWITCH_ARM"
  | duplicateDefault => "DUPLICATE_SWITCH_DEFAULT"
  | other code => code

/-- The rule that a code names. -/
def ofCode (code : String) : Rule :=
  (known.find? fun rule => rule.code == code).getD (other code)

/-- What holds of every text that keeps the rule. -/
def guarantee : Rule → String
  | parse => "Templates are parsed with HTML5 fragment rules before lowering."
  | unknownCommand => "Every `*name` attribute is claimed by a registered command parser."
  | loopSyntax => "Loop commands follow `let <item> of <iterable>[; <name> as <alias>]*`."
  | loopVariable => "Loop aliases may only refer to loop-local variables (`index`)."
  | directive =>
    "Class, style and attribute directives name a valid identifier or the spread form."
  | event => "Event hookups name the event they listen to."
  | duplicateCommand => "An element carries each command at most once."
  | orphanArm => "`switch-case` and `switch-default` are direct children of a `*switch` element."
  | duplicateDefault => "A switch selects at most one default arm."
  | other _ => "Unknown invariant."

end Rule

/-- A broken rule, with the place where it is broken. -/
structure Diagnostic where
  rule : Rule
  message : String
  file : String
  location : Location
  offset : Nat := 0
  markup : Option String := none
  context : Option String := none
  hints : List String := []
  deriving Repr, DecidableEq

namespace Diagnostic

/-- A diagnostic about a range of the text being compiled. -/
def about (rule : Rule) (message : String) (origin : Origin) (range : Range) : Diagnostic where
  rule := rule
  message := message
  file := origin.file
  location := range.location
  offset := range.start
  markup := some origin.markup
  context := Source.slice? origin.markup range.start range.stop

/-- The diagnostic with one more hint. -/
def withHint (d : Diagnostic) (hint : String) : Diagnostic :=
  { d with hints := d.hints ++ [hint] }

/-- The one-line form. -/
def render (d : Diagnostic) : String :=
  "[" ++ d.rule.code ++ "] " ++ d.message ++ " (" ++ d.file ++ ":" ++ toString d.location.line ++
    ":" ++ toString d.location.column ++ ")"

end Diagnostic

end LiveMarkup
