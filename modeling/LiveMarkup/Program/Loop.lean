import LiveMarkup.Program.ValueSource
import LiveMarkup.Text.Word

/-!
# Loop expressions

A loop is written `let item of iterable`, followed by clauses after semicolons that give other
names to its variables: `index as i` or `let i = index`. Clauses of blanks mean nothing.

* `Loop.parse` reads a loop expression, or reports the first fragment that is none.
-/

namespace LiveMarkup

/-- Another name for a variable of the loop. -/
structure Loop.Alias where
  target : String
  name : String
  deriving Repr, DecidableEq, Inhabited

/-- The head of a loop: what its items are called, where they come from, and its aliases. -/
structure Loop where
  item : String
  iterable : ValueSource
  aliases : List Loop.Alias := []
  deriving Repr, DecidableEq, Inhabited

namespace Loop

/-- The names that the body of a loop sees besides those around it. -/
def names (l : Loop) : List String :=
  l.item :: l.aliases.map (·.name)

/-- The variables that an alias may name. -/
def locals : List String :=
  ["index"]

/-- What is wrong with a loop expression. -/
inductive SyntaxError where
  | malformed (fragment : String) (isHead : Bool)
  | unknownVariable (fragment : String) (name : String)
  deriving Repr, DecidableEq

namespace SyntaxError

/-- What would be right instead of a malformed fragment. -/
def expectation (isHead : Bool) : String :=
  if isHead then "expected `let <item> of <iterable>`"
  else "expected `<name> as <alias>` or `let <alias> = <name>`"

/-- The error in words. -/
def message : SyntaxError → String
  | malformed fragment isHead =>
    "Invalid loop expression at `" ++ fragment ++ "`: " ++ expectation isHead
  | unknownVariable fragment name =>
    "Unknown loop variable `" ++ name ++ "` in `" ++ fragment ++ "`; expected one of: " ++
      ", ".intercalate locals

end SyntaxError

/-- What follows at least one blank. -/
def afterBlanks? : List Char → Option (List Char)
  | [] => none
  | c :: cs => if Text.isBlank c then some (Text.trimLeft cs) else none

/-- What follows a word and at least one blank. -/
def afterWord? (word : List Char) (cs : List Char) : Option (List Char) :=
  (Text.after? word cs).bind afterBlanks?

/-- The item and the iterable of a head. -/
def parseHead? (cs : List Char) : Option (String × String) := do
  let cs ← afterWord? ['l', 'e', 't'] (Text.trimLeft cs)
  let (item, cs) ← Text.identifier? cs
  let cs ← afterBlanks? cs
  let cs ← afterWord? ['o', 'f'] cs
  let iterable := Text.trimRight cs
  if iterable.isEmpty || iterable.contains '\n' then none
  else pure (String.ofList item, String.ofList iterable)

/-- The clause `target as name`. -/
def parseAs? (cs : List Char) : Option Alias := do
  let (target, cs) ← Text.identifier? (Text.trimLeft cs)
  let cs ← afterBlanks? cs
  let cs ← afterWord? ['a', 's'] cs
  let (name, cs) ← Text.identifier? cs
  if cs.all Text.isBlank then pure ⟨String.ofList target, String.ofList name⟩ else none

/-- The clause `let name = target`. -/
def parseLet? (cs : List Char) : Option Alias := do
  let cs ← afterWord? ['l', 'e', 't'] (Text.trimLeft cs)
  let (name, cs) ← Text.identifier? cs
  let cs ← Text.after? ['='] (Text.trimLeft cs)
  let (target, cs) ← Text.identifier? (Text.trimLeft cs)
  if cs.all Text.isBlank then pure ⟨String.ofList target, String.ofList name⟩ else none

/-- A fragment as it is reported. -/
def quoted (cs : List Char) : String :=
  String.ofList (Text.trim cs)

/-- A clause after the head; blanks give no alias. -/
def parseClause (cs : List Char) : Except SyntaxError (Option Alias) :=
  if cs.all Text.isBlank then .ok none
  else
    match (parseAs? cs).or (parseLet? cs) with
    | none => .error (.malformed (quoted cs) false)
    | some found =>
      if locals.contains found.target then .ok (some found)
      else .error (.unknownVariable (quoted cs) found.target)

/-- The aliases of the clauses after the head. -/
def parseClauses : List (List Char) → Except SyntaxError (List Alias)
  | [] => .ok []
  | clause :: rest => do
    let first ← parseClause clause
    let others ← parseClauses rest
    pure (first.toList ++ others)

/-- Reads a loop expression. -/
def parse (isExpression : Bool) (code : String) : Except SyntaxError Loop :=
  match Text.pieces (· == ';') code.toList with
  | [] => .error (.malformed "" true)
  | head :: clauses =>
    match parseHead? head with
    | none => .error (.malformed (quoted head) true)
    | some (item, iterable) => do
      let aliases ← parseClauses clauses
      pure ⟨item, if isExpression then .expression iterable else .reference iterable, aliases⟩

end Loop

end LiveMarkup
