import LiveMarkup.Source.Location
import LiveMarkup.Text.Blank

/-!
# Start tags of a source text

A scan of the markup text that finds every start tag and its attributes where they are written.
It knows just enough of the syntax: comments, quoted values, and the elements whose content is
text. The places are byte offsets.

* `StartTag.scan` lists the start tags of a text in order.
-/

namespace LiveMarkup

/-- An attribute where it is written: its name, and from its first byte to the end of its value. -/
structure AttributeSpan where
  name : String
  start : Nat
  stop : Nat
  deriving Repr, DecidableEq

/-- A start tag where it is written: from `<` to before `>`. The tag name is in small letters. -/
structure StartTag where
  tag : String
  start : Nat
  stop : Nat
  attributes : List AttributeSpan
  deriving Repr, DecidableEq

namespace StartTag

/-- The blanks between the parts of a tag. -/
def isSpace (c : Char) : Bool :=
  c == ' ' || c == '\t' || c == '\n' || c == '\x0c' || c == '\r'

/-- The elements whose content is text, so that tags inside them are none. -/
def rawTextElements : List String :=
  ["script", "style", "textarea", "title", "xmp", "iframe", "noembed", "noframes"]

/-- What separates attributes. -/
def isGap (c : Char) : Bool :=
  isSpace c || c == '/'

/-- Whether a tag name goes on. -/
def inTagName (c : Char) : Bool :=
  !(isSpace c || c == '>' || c == '/')

/-- Whether an attribute name ends before a text. -/
def endsName : List Char → Bool
  | [] => true
  | c :: cs => isSpace c || c == '>' || c == '=' || (c == '/' && cs.head? == some '>')

/-- Reads the value of an attribute after its `=`: what it consists of, and what follows. -/
def readValue (cs : List Char) : List Char × List Char :=
  let gap := cs.takeWhile isSpace
  match cs.dropWhile isSpace with
  | [] => (gap, [])
  | c :: rest =>
    if c == '"' || c == '\'' then
      match Text.cut [c] rest with
      | some (inner, after) => (gap ++ c :: inner ++ [c], after)
      | none => (gap ++ c :: rest, [])
    else
      let more := fun d => !(isSpace d || d == '>')
      (gap ++ (c :: rest).takeWhile more, (c :: rest).dropWhile more)

/-- Reads what follows an attribute name: its value with the `=`, or nothing. -/
def readAssignment (cs : List Char) : List Char × List Char :=
  match cs.dropWhile isSpace with
  | '=' :: rest =>
    let (value, after) := readValue rest
    (cs.takeWhile isSpace ++ '=' :: value, after)
  | _ => ([], cs)

theorem length_dropWhile_le (p : Char → Bool) (cs : List Char) :
    (cs.dropWhile p).length ≤ cs.length := by
  induction cs with
  | nil => simp
  | cons c cs ih =>
    rw [List.dropWhile_cons]
    split
    · simpa using Nat.le_succ_of_le ih
    · simp

theorem length_readValue_le (cs : List Char) : (readValue cs).2.length ≤ cs.length := by
  have hd := length_dropWhile_le isSpace cs
  unfold readValue
  split
  · simp
  · rename_i c rest hc
    rw [hc] at hd
    split
    · split
      · rename_i inner after ha
        have := congrArg List.length (Text.cut_eq_append ha)
        simp at this hd ⊢
        omega
      · simp
    · exact Nat.le_trans (length_dropWhile_le _ _) hd

theorem length_readAssignment_le (cs : List Char) :
    (readAssignment cs).2.length ≤ cs.length := by
  have hd := length_dropWhile_le isSpace cs
  unfold readAssignment
  split
  · rename_i rest hr
    have := length_readValue_le rest
    rw [hr] at hd
    simp at hd ⊢
    omega
  · simp

theorem length_after_attribute_lt {cs rest : List Char} {c : Char}
    (h : cs.dropWhile isGap = c :: rest) :
    (readAssignment (Text.breakAt endsName rest).2).2.length < cs.length := by
  have h1 := length_readAssignment_le (Text.breakAt endsName rest).2
  have h2 := Text.length_breakAt_le endsName rest
  have h3 := length_dropWhile_le isGap cs
  rw [h] at h3
  simp only [List.length_cons] at h3
  omega

/-- Where the attributes of a tag end: the text from there on, and its byte offset. -/
structure TagEnd where
  rest : List Char
  offset : Nat

/-- Reads the attributes of a tag from a byte offset on. -/
def readAttributes (cs : List Char) (offset : Nat) : List AttributeSpan × TagEnd :=
  let start := offset + Source.byteLength (cs.takeWhile isGap)
  match h : cs.dropWhile isGap with
  | [] => ([], ⟨[], start⟩)
  | c :: rest =>
    if c == '>' then ([], ⟨c :: rest, start⟩)
    else
      have := length_after_attribute_lt h
      let name := c :: (Text.breakAt endsName rest).1
      let assignment := readAssignment (Text.breakAt endsName rest).2
      let stop := start + Source.byteLength (name ++ assignment.1)
      let others := readAttributes assignment.2 stop
      (⟨String.ofList name, start, stop⟩ :: others.1, others.2)
termination_by cs.length

theorem length_readAttributes_le (cs : List Char) (offset : Nat) :
    (readAttributes cs offset).2.rest.length ≤ cs.length := by
  fun_induction readAttributes cs offset with
  | case1 => simp
  | case2 cs offset start c rest h hc =>
    have := length_dropWhile_le isGap cs
    rw [h] at this
    exact this
  | case3 cs offset start c rest h hc hlt name assignment stop others ih =>
    exact Nat.le_trans ih (Nat.le_of_lt hlt)

/-- Splits off the content of a raw text element; other elements have none here. -/
def splitRawText (tag : String) (cs : List Char) : List Char × List Char :=
  if rawTextElements.contains tag then
    Text.breakAt
      (fun rest => (Text.after? ('<' :: '/' :: tag.toList) (rest.map Char.toLower)).isSome) cs
  else ([], cs)

theorem length_splitRawText_le (tag : String) (cs : List Char) :
    (splitRawText tag cs).2.length ≤ cs.length := by
  unfold splitRawText
  split
  · exact Text.length_breakAt_le _ cs
  · simp

theorem length_splitRawText_lt (tag : String) (rest : List Char) (offset : Nat) :
    (splitRawText tag (readAttributes (rest.dropWhile inTagName) offset).2.rest.tail).2.length <
      rest.length + 1 := by
  have h1 := length_splitRawText_le tag
    (readAttributes (rest.dropWhile inTagName) offset).2.rest.tail
  have h2 := length_readAttributes_le (rest.dropWhile inTagName) offset
  have h3 := length_dropWhile_le inTagName rest
  simp only [List.length_tail] at h1
  omega

/-- The text after a comment that starts in front of a text, and the number of bytes between. -/
def skipComment (body : List Char) : List Char × Nat :=
  match Text.cut ['-', '-', '>'] body with
  | some (inner, after) => (after, Source.byteLength inner + 3)
  | none => ([], Source.byteLength body)

theorem length_skipComment_le (body : List Char) : (skipComment body).1.length ≤ body.length := by
  unfold skipComment
  split
  · rename_i inner after h
    have := congrArg List.length (Text.cut_eq_append h)
    simp at this ⊢
    omega
  · simp

theorem length_skipComment_lt {rest body : List Char}
    (h : Text.after? ['!', '-', '-'] rest = some body) :
    (skipComment body).1.length < rest.length + 1 := by
  have h1 := length_skipComment_le body
  have h2 := congrArg List.length (Text.after?_eq_append h)
  simp only [List.length_append, List.length_cons, List.length_nil] at h2
  omega

/-- Scans a text from a byte offset on. -/
def scanFrom (cs : List Char) (offset : Nat) : List StartTag :=
  match cs with
  | [] => []
  | '<' :: rest =>
    match h : Text.after? ['!', '-', '-'] rest with
    | some body =>
      scanFrom (skipComment body).1 (offset + 4 + (skipComment body).2)
    | none =>
      if rest.head?.any Char.isAlpha then
        let name := rest.takeWhile inTagName
        let tag := Text.lowerAscii (String.ofList name)
        let attributes :=
          readAttributes (rest.dropWhile inTagName) (offset + 1 + Source.byteLength name)
        let content := splitRawText tag attributes.2.rest.tail
        ⟨tag, offset, attributes.2.offset, attributes.1⟩ ::
          scanFrom content.2 (attributes.2.offset + 1 + Source.byteLength content.1)
      else scanFrom rest (offset + 1)
  | c :: rest => scanFrom rest (offset + c.utf8Size)
termination_by cs.length
decreasing_by
  · exact length_skipComment_lt h
  · exact length_splitRawText_lt _ rest _
  · exact Nat.lt_succ_self _
  · exact Nat.lt_succ_self _

/-- The start tags of a text, in order. -/
def scan (markup : String) : List StartTag :=
  scanFrom markup.toList 0

end StartTag

end LiveMarkup
