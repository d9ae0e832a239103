import LiveMarkup.Html.Builder

/-!
# Misnested formatting elements

A formatting element that is closed in the wrong place, or not at all, goes on in the places where
its effect would be expected: it is opened again in the next place for content, and an end tag
splits it around the blocks that it does not close.

* `Builder.reopenFormatting` opens the formatting elements that are not open;
* `Builder.endFormatting` closes a formatting element and splits it where it is misnested;
* `Builder.endOther` closes an element of another kind.
-/

namespace LiveMarkup.Html

namespace Formatting

/-- Whether an entry stands for a node. -/
def isFor (n : NodeId) : Formatting → Bool
  | marker => false
  | element m _ => m == n

/-- Whether two tags make the same element, whatever the order of their attributes. -/
def sameTag (s t : Tag) : Bool :=
  s.name == t.name && s.attributes.length == t.attributes.length &&
    s.attributes.all fun a => t.attributes.contains a

end Formatting

namespace Builder

/-- Whether a formatting element needs no opening. -/
def isSettled (b : Builder) : Formatting → Bool
  | .marker => true
  | .element n _ => b.opened.contains n

/-- Opens again what some formatting elements stand for, the first of them first. -/
def reopen (b : Builder) : List Formatting → Builder × List Formatting
  | [] => (b, [])
  | .marker :: rest =>
    let (b, entries) := reopen b rest
    (b, .marker :: entries)
  | .element _ tag :: rest =>
    let (b, n) := b.insertElement { name := tag.name } tag.attributes
    let (b, entries) := reopen b rest
    (b, .element n tag :: entries)

/-- Opens again the formatting elements after the last one that is open or a mark. -/
def reopenFormatting (b : Builder) : Builder :=
  let unsettled := b.formatting.takeWhile fun entry => !b.isSettled entry
  if unsettled.isEmpty then b
  else
    let (b, entries) := b.reopen unsettled.reverse
    { b with formatting := entries.reverse ++ b.formatting.drop unsettled.length }

/-- Takes a node out of the formatting elements. -/
def dropFormatting (b : Builder) (n : NodeId) : Builder :=
  { b with formatting := b.formatting.eraseP (Formatting.isFor n) }

/-- Opens the element of a formatting tag. Of four equal ones without a mark between them, the
earliest is forgotten. -/
def openFormatting (b : Builder) (tag : Tag) : Builder :=
  let equal := (afterMarker b.formatting).filter fun (_, other) => Formatting.sameTag tag other
  let b :=
    match (equal.drop 2).getLast? with
    | none => b
    | some (earliest, _) => b.dropFormatting earliest
  let (b, n) := b.insertElement { name := tag.name } tag.attributes
  { b with formatting := .element n tag :: b.formatting }

/-- Closes the innermost open element of a name, unless a special element stands before it. -/
def endOther (b : Builder) (name : String) : Builder :=
  match b.opened.find? fun n => (b.nameOf n).isHtml name || (b.nameOf n).isSpecial with
  | none => b
  | some n =>
    if (b.nameOf n).isHtml name then
      { b with opened := (b.opened.dropWhile (· != n)).tail }
    else b

/-- Where a split formatting element is listed: in place of the old entry, or after another. -/
inductive Bookmark where
  | replace (node : NodeId)
  | after (node : NodeId)

/-- The state of the walk from a block up to the formatting element that it is taken out of: the
node moved last, the new open elements between, innermost first, and the bookmark. -/
structure Climb where
  builder : Builder
  last : NodeId
  kept : List NodeId := []
  bookmark : Bookmark

/-- Goes over the open elements between a block and a formatting element, the innermost first.
Formatting elements among the first three are made anew around the node moved last; others are
closed. -/
def climb (block : NodeId) (c : Climb) (count : Nat) : List NodeId → Climb
  | [] => c
  | n :: rest =>
    let b := c.builder
    match b.formatting.find? (Formatting.isFor n) with
    | some (.element _ tag) =>
      if 3 < count then climb block { c with builder := b.dropFormatting n } (count + 1) rest
      else
        let (b, fresh) := b.createElement { name := tag.name } tag.attributes
        let entry := fun e => if Formatting.isFor n e then Formatting.element fresh tag else e
        let b := { b with formatting := b.formatting.map entry }
        let bookmark := if c.last == block then .after fresh else c.bookmark
        let b := { b with parts := b.parts.append fresh c.last }
        climb block ⟨b, fresh, c.kept ++ [fresh], bookmark⟩ (count + 1) rest
    | _ => climb block c (count + 1) rest

/-- Moves the children of a node to the end of another. -/
def moveChildren (b : Builder) (source target : NodeId) : Builder :=
  { b with
    parts := (b.parts.children source).foldl (fun parts n => parts.append target n) b.parts }

/-- Lists a formatting element at a bookmark, in place of an older one. -/
def listAt (entries : List Formatting) (old : NodeId) (entry : Formatting) :
    Bookmark → List Formatting
  | .replace n => entries.map fun e => if Formatting.isFor n e then entry else e
  | .after n =>
    let later := entries.takeWhile fun e => !Formatting.isFor n e
    (later ++ entry :: entries.drop later.length).eraseP (Formatting.isFor old)

/-- Splits a formatting element around a block inside it. `inner` are the open elements inside the
block, `between` those from the block to the formatting element, `outer` those outside of it. -/
def split (b : Builder) (node : NodeId) (tag : Tag) (inner : List NodeId) (block : NodeId)
    (between outer : List NodeId) : Builder :=
  let c := climb block ⟨b, block, [], .replace node⟩ 1 between
  let b := { c.builder with parts := c.builder.parts.remove c.last }
  let b := b.put c.last (b.placeIn (outer.head?.getD root))
  let (b, fresh) := b.createElement { name := tag.name } tag.attributes
  let b := b.moveChildren block fresh
  let b := { b with parts := b.parts.append block fresh }
  let formatting := listAt b.formatting node (.element fresh tag) c.bookmark
  { b with formatting, opened := inner ++ fresh :: block :: c.kept ++ outer }

/-- One round of closing a formatting element, or nothing more to do. -/
def splitOnce (b : Builder) (name : String) : Builder × Bool :=
  match (afterMarker b.formatting).find? fun (_, tag) => tag.name == name with
  | none => (b.endOther name, true)
  | some (node, tag) =>
    if !b.opened.contains node then (b.dropFormatting node, true)
    else if !b.reaches (· == node) ElementName.endsScope b.opened then (b, true)
    else
      let inside := b.opened.takeWhile (· != node)
      let outer := (b.opened.dropWhile (· != node)).tail
      match (inside.reverse.find? fun n => (b.nameOf n).isSpecial) with
      | none => ({ b with opened := outer }.dropFormatting node, true)
      | some block =>
        let inner := inside.takeWhile (· != block)
        let between := (inside.dropWhile (· != block)).tail
        (b.split node tag inner block between outer, false)

/-- At most `n` rounds. -/
def splitRounds : Nat → Builder → String → Builder
  | 0, b, _ => b
  | n + 1, b, name =>
    match b.splitOnce name with
    | (b, true) => b
    | (b, false) => splitRounds n b name

/-- Closes the formatting element of a name. -/
def endFormatting (b : Builder) (name : String) : Builder :=
  if b.currentIs name && !b.formatting.any (Formatting.isFor b.current) then b.pop
  else b.splitRounds 8 name

/-- Closes an anchor that is still open when the next one starts. -/
def endAnchor (b : Builder) : Builder :=
  match (afterMarker b.formatting).find? fun (n, _) => (b.nameOf n).isHtml "a" with
  | none => b
  | some (n, _) => ((b.endFormatting "a").dropFormatting n).dropOpen n

end Builder

end LiveMarkup.Html
