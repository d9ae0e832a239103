import LiveMarkup.Json.Value
import LiveMarkup.Text.Blank
import LiveMarkup.Text.Word

/-!
# Paths into data

A path is a name followed by steps: `.name`, `['name']` or `["name"]` into an object, `[n]` into an
array. Blanks may stand in front of steps and inside them.

* `DataPath.parse?` reads a path;
* `DataPath.follow` takes the steps; a step that leads nowhere leads to null.
-/

namespace LiveMarkup

/-- A step into a value. -/
inductive DataPath.Step where
  | key (name : String)
  | index (n : Nat)
  deriving Repr, DecidableEq, Inhabited

/-- A name and the steps from its value on. -/
structure DataPath where
  root : String
  steps : List DataPath.Step := []
  deriving Repr, DecidableEq, Inhabited

namespace DataPath

/-- The written form of a step. -/
def Step.toValue : Step → Value
  | key name => .object [("key", .string name)]
  | index n => .object [("index", .nat n)]

/-- Whether a character is one of the two quotes. -/
def isQuote (c : Char) : Bool :=
  c == '\'' || c == '"'

/-- What follows the bracket that ends a step. -/
def closing? (cs : List Char) : Option (List Char) :=
  Text.after? [']'] (Text.trimLeft cs)

/-- The number that digits stand for, if it fits 64 bits. -/
def index? (digits : List Char) : Option Nat :=
  if digits.all Char.isDigit then
    let n := digits.foldl (fun n d => n * 10 + (d.toNat - '0'.toNat)) 0
    if n < UInt64.size then some n else none
  else none

/-- The step in brackets, after the opening one. -/
def bracketStep? (cs : List Char) : Option (Step × List Char) :=
  match Text.trimLeft cs with
  | [] => none
  | c :: rest =>
    if Text.isDecimalDigit c then do
      let n ← index? ((c :: rest).takeWhile Text.isDecimalDigit)
      let after ← closing? ((c :: rest).dropWhile Text.isDecimalDigit)
      pure (.index n, after)
    else if isQuote c then
      match rest.dropWhile fun d => !isQuote d with
      | [] => none
      | _ :: more => do
        let after ← closing? more
        pure (.key (String.ofList (rest.takeWhile fun d => !isQuote d)), after)
    else none

/-- The first step, and what follows it. -/
def step? (cs : List Char) : Option (Step × List Char) :=
  match Text.trimLeft cs with
  | '.' :: rest => do
    let (name, after) ← Text.identifier? (Text.trimLeft rest)
    pure (.key (String.ofList name), after)
  | '[' :: rest => bracketStep? rest
  | _ => none

/-- All steps, of which there are at most `n`. -/
def steps? : Nat → List Char → Option (List Step)
  | 0, cs => if cs.all Text.isBlank then some [] else none
  | n + 1, cs =>
    if cs.all Text.isBlank then some []
    else do
      let (first, rest) ← step? cs
      let others ← steps? n rest
      pure (first :: others)

/-- Reads a path. -/
def parse? (path : String) : Option DataPath := do
  let (root, rest) ← Text.identifier? (Text.trimLeft path.toList)
  let steps ← steps? rest.length rest
  pure ⟨String.ofList root, steps⟩

/-- Takes one step. -/
def Step.into? (v : Value) : Step → Option Value
  | key name =>
    match v with
    | .object fields => Fields.get? name fields
    | _ => none
  | index n =>
    match v with
    | .array items => items[n]?
    | .object fields => Fields.get? (toString n) fields
    | _ => none

/-- Takes steps. The key `length` of an array is its length, from which no step leads on. -/
def follow (v : Value) : List Step → Value
  | [] => v
  | step :: rest =>
    match v, step with
    | .array items, .key "length" => .nat items.length
    | _, _ =>
      match step.into? v with
      | some next => follow next rest
      | none => .null

end DataPath

end LiveMarkup
