import LiveMarkup.Html.Reference

/-!
# Tokens of a markup text

A text is read as a sequence of tokens. What a `<` or an `&` means depends on the content model of
the element that the text is read into: markup, text with references, raw text, a script, or plain
text up to the end.

* `Token.next` reads one token, in the content model and with CDATA sections allowed or not;
* `Token.prepare` drops a byte order mark and makes every line end a line feed.
-/

namespace LiveMarkup.Html

/-- A start tag as written: the name in small letters, and the first attribute of each name. -/
structure Tag where
  name : String
  attributes : List (String × String) := []
  selfClosing : Bool := false
  deriving Repr, DecidableEq, Inhabited

/-- How the text of an element is read. The raw models end at the end tag of a name. -/
inductive Content where
  | markup
  | withReferences (name : String)
  | raw (name : String)
  | script
  | plain
  deriving Repr, DecidableEq, Inhabited

/-- A token. A `text` says whether all its characters are blank, as far as its content model tells
them apart; `skipped` is a declaration or an empty end tag. -/
inductive Token where
  | text (blank : Bool) (chars : List Char)
  | null
  | startTag (tag : Tag)
  | endTag (name : String)
  | comment
  | skipped
  | finish
  deriving Repr, DecidableEq, Inhabited

namespace Token

/-- The blanks of markup. -/
def isSpace (c : Char) : Bool :=
  c == ' ' || c == '\t' || c == '\n' || c == '\x0c' || c == '\r'

/-- Makes every line end a line feed. -/
def joinLines : List Char → List Char
  | [] => []
  | '\r' :: '\n' :: cs => '\n' :: joinLines cs
  | '\r' :: cs => '\n' :: joinLines cs
  | c :: cs => c :: joinLines cs

/-- The text that tokens are read from. -/
def prepare (cs : List Char) : List Char :=
  match cs with
  | '\ufeff' :: rest => joinLines rest
  | _ => joinLines cs

/-- NUL inside a name, a value or a raw text is replaced. -/
def visible (c : Char) : Char :=
  if c == '\x00' then '\ufffd' else c

/-- A character of a name, in small letters. -/
def nameChar (c : Char) : Char :=
  visible c.toLower

/-- Reads a quoted value after its opening quote; nothing if it is not closed. -/
def readQuoted (quote : Char) : Nat → List Char → Option (List Char × List Char)
  | 0, _ => none
  | n + 1, cs =>
    match cs with
    | [] => none
    | c :: rest =>
      if c == quote then some ([], rest)
      else if c == '&' then
        let (value, rest) := Reference.read true rest
        (readQuoted quote n rest).map fun (more, rest) => (value ++ more, rest)
      else (readQuoted quote n rest).map fun (more, rest) => (visible c :: more, rest)

/-- Reads a value without quotes up to a blank or the end of the tag. -/
def readBare : Nat → List Char → List Char × List Char
  | 0, cs => ([], cs)
  | n + 1, cs =>
    match cs with
    | [] => ([], [])
    | c :: rest =>
      if isSpace c || c == '>' then ([], cs)
      else if c == '&' then
        let (value, rest) := Reference.read true rest
        let (more, rest) := readBare n rest
        (value ++ more, rest)
      else
        let (more, rest) := readBare n rest
        (visible c :: more, rest)

/-- Reads a value after `=`; nothing if the text ends inside it. -/
def readValue (cs : List Char) : Option (List Char × List Char) :=
  let cs := cs.dropWhile isSpace
  match cs with
  | '"' :: rest => readQuoted '"' (rest.length + 1) rest
  | '\'' :: rest => readQuoted '\'' (rest.length + 1) rest
  | '>' :: _ => some ([], cs)
  | _ => some (readBare (cs.length + 1) cs)

/-- Whether an attribute name goes on. -/
def inName (c : Char) : Bool :=
  !(isSpace c || c == '/' || c == '>' || c == '=')

/-- Adds an attribute, unless the tag has one of that name already. -/
def addAttribute (name : String) (value : List Char) (attributes : List (String × String)) :
    List (String × String) :=
  if attributes.any (·.1 == name) then attributes
  else attributes ++ [(name, String.ofList value)]

/-- Reads the rest of a tag after its name; nothing if the text ends inside it. -/
def readAttributes :
    Nat → List (String × String) → List Char → Option (List (String × String) × Bool × List Char)
  | 0, _, _ => none
  | n + 1, attributes, cs =>
    match cs.dropWhile isSpace with
    | [] => none
    | '>' :: rest => some (attributes, false, rest)
    | '/' :: '>' :: rest => some (attributes, true, rest)
    | '/' :: rest => readAttributes n attributes rest
    | c :: rest =>
      let name := String.ofList ((c :: rest.takeWhile inName).map nameChar)
      match (rest.dropWhile inName).dropWhile isSpace with
      | '=' :: more =>
        match readValue more with
        | some (value, rest) => readAttributes n (addAttribute name value attributes) rest
        | none => none
      | more => readAttributes n (addAttribute name [] attributes) more

/-- Whether a tag name goes on. -/
def inTagName (c : Char) : Bool :=
  !(isSpace c || c == '/' || c == '>')

/-- Reads a tag from its name on. A tag in which the text ends is dropped with all that is left. -/
def readTag (make : Tag → Token) (cs : List Char) : Token × List Char :=
  let name := String.ofList ((cs.takeWhile inTagName).map nameChar)
  let rest := cs.dropWhile inTagName
  match readAttributes (rest.length + 1) [] rest with
  | some (attributes, selfClosing, rest) => (make ⟨name, attributes, selfClosing⟩, rest)
  | none => (finish, [])

/-- Drops everything up to and with the first `>`. -/
def dropDeclaration (cs : List Char) : List Char :=
  (cs.dropWhile (· != '>')).tail

/-- Drops the rest of a comment after one of its two ends. -/
def dropComment : List Char → List Char
  | [] => []
  | c :: cs =>
    match Text.after? ['-', '-', '>'] (c :: cs) with
    | some rest => rest
    | none =>
      match Text.after? ['-', '-', '!', '>'] (c :: cs) with
      | some rest => rest
      | none => dropComment cs

/-- Reads a comment after `<!--`. It may be empty and end at once. -/
def readComment (cs : List Char) : List Char :=
  match cs with
  | '>' :: rest => rest
  | '-' :: '>' :: rest => rest
  | _ => dropComment cs

/-- Reads a CDATA section after its start. It may go on to the end of the text. -/
def readSection (cs : List Char) : Token × List Char :=
  let (chars, rest) := (Text.cut "]]>".toList cs).getD (cs, [])
  (if chars.isEmpty then skipped else text (chars.all isSpace) (chars.map visible), rest)

/-- Reads what follows `<!`. -/
def readDeclaration (cdata : Bool) (cs : List Char) : Token × List Char :=
  match Text.after? ['-', '-'] cs with
  | some rest => (comment, readComment rest)
  | none =>
    if (cs.take 7).map Char.toLower == "doctype".toList then (skipped, dropDeclaration cs)
    else
      match Text.after? "[CDATA[".toList cs with
      | some rest => if cdata then readSection rest else (comment, dropDeclaration cs)
      | none => (comment, dropDeclaration cs)

/-- Reads a run of characters of one kind. -/
def readRun (cs : List Char) : Token × List Char :=
  let blank := cs.head?.any isSpace
  let inRun := fun c => c != '<' && c != '&' && c != '\x00' && isSpace c == blank
  (text blank (cs.takeWhile inRun), cs.dropWhile inRun)

/-- Characters as one token; they stand for one reference and so are of one kind. -/
def ofChars (cs : List Char) : Token :=
  if cs == ['\x00'] then null else text (cs.all isSpace) cs

/-- Reads one token of markup. -/
def readMarkup (cdata : Bool) (cs : List Char) : Token × List Char :=
  match cs with
  | [] => (finish, [])
  | '\x00' :: rest => (null, rest)
  | '&' :: rest =>
    let (value, rest) := Reference.read false rest
    (ofChars value, rest)
  | '<' :: rest =>
    match rest with
    | '!' :: more => readDeclaration cdata more
    | '?' :: _ => (comment, dropDeclaration rest)
    | ['/'] => (text false ['<', '/'], [])
    | '/' :: '>' :: more => (skipped, more)
    | '/' :: c :: more =>
      if c.isAlpha then readTag (fun tag => endTag tag.name) (c :: more)
      else (comment, dropDeclaration (c :: more))
    | c :: _ => if c.isAlpha then readTag startTag rest else (text false ['<'], rest)
    | [] => (text false ['<'], [])
  | _ => readRun cs

/-- Whether a text starts with `</`, a name and the end of that name. -/
def startsEndTag (name : String) (cs : List Char) : Bool :=
  match cs with
  | '<' :: '/' :: rest =>
    let letters := rest.takeWhile Char.isAlpha
    String.ofList (letters.map Char.toLower) == name &&
      (rest.drop letters.length).head?.any fun c => isSpace c || c == '/' || c == '>'
  | _ => false

/-- Reads one token where only the end tag of a name, and perhaps references, count. -/
def readRaw (references : Bool) (name : String) (cs : List Char) : Token × List Char :=
  match cs with
  | [] => (finish, [])
  | c :: rest =>
    if startsEndTag name cs then readTag (fun tag => endTag tag.name) (cs.drop 2)
    else if references && c == '&' then
      let (value, rest) := Reference.read false rest
      (ofChars value, rest)
    else
      let (before, after) :=
        Text.breakAt (fun cs => startsEndTag name cs || (references && cs.head? == some '&')) rest
      (text false ((c :: before).map visible), after)

/-- How much of a comment a script is inside: nothing, a comment, or a script in a comment. -/
inductive Depth where
  | none
  | comment
  | nested
  deriving Repr, DecidableEq

/-- A word that starts or ends a nested script: letters and the character after them. -/
def scriptWord (cs : List Char) : List Char × Bool :=
  let letters := cs.takeWhile Char.isAlpha
  match cs.drop letters.length with
  | c :: _ =>
    if isSpace c || c == '/' || c == '>' then
      (letters ++ [c], String.ofList (letters.map Char.toLower) == "script")
    else (letters, false)
  | [] => (letters, false)

/-- Splits the text of a script before its end tag. `dashes` counts the dashes just read. -/
def splitScript : Nat → Depth → Nat → List Char → List Char × List Char
  | 0, _, _, cs => ([], cs)
  | n + 1, depth, dashes, cs =>
    let plain := fun (depth : Depth) (dashes : Nat) (taken rest : List Char) =>
      let (more, rest) := splitScript n depth dashes rest
      (taken ++ more, rest)
    match cs with
    | [] => ([], [])
    | c :: rest =>
      match depth with
      | .none =>
        if startsEndTag "script" cs then ([], cs)
        else
          match Text.after? "<!--".toList cs with
          | some rest => plain .comment 2 "<!--".toList rest
          | none => plain .none 0 [c] rest
      | .comment =>
        if startsEndTag "script" cs then ([], cs)
        else if c == '-' then plain .comment (dashes + 1) [c] rest
        else if c == '>' && 2 ≤ dashes then plain .none 0 [c] rest
        else if c == '<' && rest.head?.any Char.isAlpha then
          let (word, isScript) := scriptWord rest
          plain (if isScript then .nested else .comment) 0 (c :: word) (rest.drop word.length)
        else plain .comment 0 [c] rest
      | .nested =>
        if c == '-' then plain .nested (dashes + 1) [c] rest
        else if c == '>' && 2 ≤ dashes then plain .none 0 [c] rest
        else if c == '<' && rest.head? == some '/' then
          let (word, isScript) := scriptWord (rest.drop 1)
          plain (if isScript then .comment else .nested) 0 (c :: '/' :: word)
            (rest.drop (word.length + 1))
        else plain .nested 0 [c] rest

/-- Reads one token of a script: its text, or its end tag. -/
def readScript (cs : List Char) : Token × List Char :=
  match splitScript (cs.length + 1) .none 0 cs with
  | ([], []) => (finish, [])
  | ([], rest) => readTag (fun tag => endTag tag.name) (rest.drop 2)
  | (chars, rest) => (text false (chars.map visible), rest)

/-- Reads the next token. -/
def next (content : Content) (cdata : Bool) (cs : List Char) : Token × List Char :=
  match content with
  | .markup => readMarkup cdata cs
  | .withReferences name => readRaw true name cs
  | .raw name => readRaw false name cs
  | .script => readScript cs
  | .plain => if cs.isEmpty then (finish, []) else (text false (cs.map visible), [])

end Token

end LiveMarkup.Html
