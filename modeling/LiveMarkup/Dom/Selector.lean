import LiveMarkup.Dom.Style
import LiveMarkup.Text.Word

/-!
# Selectors

A selector is a list of alternatives between commas; an alternative is a chain of compounds
between blanks. A compound is a tag or `*`, followed by parts `#id`, `.class`, `[name]` and
`[name=value]`. A node matches a chain if it matches the last compound and has, in order,
ancestors that match the ones before.

* `Selector.parse?` reads a selector;
* `Selector.accepts` tells whether a node matches;
* `Dom.select` lists the matching nodes below a node.
-/

namespace LiveMarkup

/-- What a single node has to be. -/
structure Selector.Compound where
  tag : Option String := none
  id : Option String := none
  classes : List String := []
  attributes : List (String × Option String) := []
  deriving Repr, DecidableEq, Inhabited

/-- Alternatives, each a chain of compounds from the outside in. -/
structure Selector where
  alternatives : List (List Selector.Compound)
  deriving Repr, DecidableEq, Inhabited

namespace Selector

/-! ## Reading -/

/-- Whether a character may stand in a name. -/
def isNameChar (c : Char) : Bool :=
  Text.isWord c || c == '-'

/-- A name that is not empty, and what follows it. -/
def name? (cs : List Char) : Option (List Char × List Char) :=
  match cs.takeWhile isNameChar with
  | [] => none
  | name => some (name, cs.dropWhile isNameChar)

/-- Whether text after the tag is made of names after `#` and `.` and of brackets with something
in them. At most `n` parts are read. -/
def isParts : Nat → List Char → Bool
  | _, [] => true
  | 0, _ => false
  | n + 1, c :: rest =>
    if c == '#' || c == '.' then
      match name? rest with
      | some (_, after) => isParts n after
      | none => false
    else if c == '[' then
      match rest.takeWhile fun d => !(d == ']') with
      | [] => false
      | _ :: _ =>
        match rest.dropWhile fun d => !(d == ']') with
        | _ :: after => isParts n after
        | [] => false
    else false

/-- Takes one quote away, if there is one. -/
def skipQuote : List Char → List Char
  | '"' :: rest => rest
  | cs => cs

/-- What an attribute has to be, after the bracket, and what follows it. -/
def attributeTest? (cs : List Char) : Option ((String × Option String) × List Char) :=
  match name? cs with
  | none => none
  | some (name, ']' :: rest) => some ((String.ofList name, none), rest)
  | some (name, '=' :: rest) =>
    let rest := skipQuote rest
    let value := rest.takeWhile fun d => !(d == '"' || d == ']')
    match skipQuote (rest.dropWhile fun d => !(d == '"' || d == ']')) with
    | ']' :: rest => some ((String.ofList name, some (String.ofList value)), rest)
    | _ => none
  | some _ => none

/-- Adds the part that starts here, if one does, and gives what follows it. -/
def part? (compound : Compound) : List Char → Option (Compound × List Char)
  | '#' :: rest => (name? rest).map fun (id, rest) =>
    ({ compound with id := some (String.ofList id) }, rest)
  | '.' :: rest => (name? rest).map fun (name, rest) =>
    ({ compound with classes := compound.classes ++ [String.ofList name] }, rest)
  | '[' :: rest => (attributeTest? rest).map fun (test, rest) =>
    ({ compound with attributes := compound.attributes ++ [test] }, rest)
  | _ => none

/-- Collects parts wherever they start; other characters are passed over one by one. -/
def collect : Nat → Compound → List Char → Compound
  | 0, compound, _ => compound
  | _, compound, [] => compound
  | n + 1, compound, c :: rest =>
    match part? compound (c :: rest) with
    | some (compound, rest) => collect n compound rest
    | none => collect n compound rest

/-- The tag that a compound starts with, and what follows it. -/
def splitTag : List Char → List Char × List Char
  | [] => ([], [])
  | c :: rest =>
    if c == '*' then (['*'], rest)
    else if c.isAlpha then (c :: rest.takeWhile isNameChar, rest.dropWhile isNameChar)
    else ([], c :: rest)

/-- Reads a compound. One that asks for nothing has to be written `*`. -/
def Compound.parse? (cs : List Char) : Option Compound :=
  let (tag, parts) := splitTag cs
  if isParts parts.length parts then
    let tag := if tag.isEmpty || tag == ['*'] then none
      else some (Text.lowerAscii (String.ofList tag))
    let compound := collect parts.length { tag } parts
    if compound == {} && !(cs == ['*']) then none else some compound
  else none

/-- Reads a chain, which is not empty. -/
def chain? (cs : List Char) : Option (List Compound) :=
  match Text.words cs with
  | [] => none
  | words => words.mapM Compound.parse?

/-- Reads a selector. -/
def parse? (text : String) : Option Selector :=
  ((Text.pieces (· == ',') text.toList).mapM chain?).map Selector.mk

/-! ## Matching -/

/-- Whether a node is what a compound asks for; only elements are. -/
def Compound.accepts (c : Compound) (d : Dom) (n : NodeId) : Bool :=
  match (d.label n).tag? with
  | none => false
  | some tag =>
    c.tag.all (· == tag) &&
    c.id.all (fun id => d.attribute? n "id" == some id) &&
    c.classes.all (fun name => (d.classes n).contains name) &&
    c.attributes.all fun (name, value) =>
      match value with
      | some value => d.attribute? n name == some value
      | none => (d.attribute? n name).isSome

/-- Whether compounds, from the inside out, are found in order among ancestors, each at the
nearest that fits. -/
def climbs (d : Dom) : List Compound → List NodeId → Bool
  | [], _ => true
  | _ :: _, [] => false
  | c :: rest, n :: above =>
    if c.accepts d n then climbs d rest above else climbs d (c :: rest) above

/-- Whether a node matches a chain. -/
def acceptsChain (d : Dom) (n : NodeId) (chain : List Compound) : Bool :=
  match chain.reverse with
  | [] => false
  | last :: rest => last.accepts d n && climbs d rest (d.nodes.ancestors n)

/-- Whether a node matches a selector. -/
def accepts (s : Selector) (d : Dom) (n : NodeId) : Bool :=
  s.alternatives.any (acceptsChain d n)

end Selector

namespace Dom

/-- The matching nodes below a node, in document order. -/
def select (d : Dom) (root : NodeId) (s : Selector) : List NodeId :=
  (d.descendants root).filter (s.accepts d)

end Dom

end LiveMarkup
