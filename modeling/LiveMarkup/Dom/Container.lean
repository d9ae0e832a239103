import LiveMarkup.Dom.Print
import LiveMarkup.Dom.Selector

/-!
# Containers

While a container is not live its children are those of its fragment. Once mounted they stand in
a parent between the two markers, and every operation on the container stays within that span.

* `Dom.mount` moves the children of the fragment between markers in a parent, `Dom.unmount` brings
  them back, `Dom.relocate` moves markers and span together;
* `Dom.place` inserts a node or a whole container, `Dom.takeOut` removes one.
-/

namespace LiveMarkup

/-- A node, or a container with all that is in it. -/
inductive NodeRef where
  | node (n : NodeId)
  | container (c : ContainerId)
  deriving Repr, DecidableEq, Inhabited

namespace Dom

/-- Makes a container that holds nothing. -/
def createContainer (d : Dom) : Dom × ContainerId :=
  let (d, start) := d.create (.comment "")
  let (d, finish) := d.create (.comment "")
  let (d, fragment) := d.create .document
  ({ d with containers := d.containers.push { start, finish, fragment } }, d.containers.size)

/-- A container by its name. -/
def container (d : Dom) (c : ContainerId) : Container :=
  d.containers.getD c default

/-- Says whether a container is live. -/
def setLive (d : Dom) (c : ContainerId) (live : Bool) : Dom :=
  { d with containers := d.containers.modify c fun box => { box with live } }

/-! ## Children -/

/-- The part of a list between two of its members. -/
def between (start finish : NodeId) (nodes : List NodeId) : List NodeId :=
  ((nodes.dropWhile fun n => !(n == start)).drop 1).takeWhile fun n => !(n == finish)

/-- The children of a container: those of its fragment, or the span between its markers. -/
def span (d : Dom) (c : ContainerId) : List NodeId :=
  let box := d.container c
  if box.live then
    match d.parent? box.start with
    | none => []
    | some parent => between box.start box.finish (d.children parent)
  else d.children box.fragment

/-- The node that the children of a container are in. -/
def spanHost? (d : Dom) (c : ContainerId) : Option NodeId :=
  let box := d.container c
  if box.live then d.parent? box.start else some box.fragment

/-- Whether a node is a child of a container or below one. -/
def spanContains (d : Dom) (c : ContainerId) (n : NodeId) : Bool :=
  let children := d.span c
  (n :: d.nodes.ancestors n).any children.contains

/-- The message for a node that is no child of a container. -/
def notInContainer (d : Dom) (n : NodeId) : NotAChild :=
  ⟨d.describe n, "<container>"⟩

/-- Where an insertion into a container lands: in which node, and before which of its children. -/
def spanPoint (d : Dom) (c : ContainerId) (reference : Option NodeId) :
    Except NotAChild (NodeId × Option NodeId) :=
  let box := d.container c
  match reference.filter fun r => !(d.span c).contains r with
  | some r => .error (d.notInContainer r)
  | none =>
    match d.spanHost? c with
    | none => .error (d.notInContainer box.start)
    | some host => .ok (host, if box.live then reference.or (some box.finish) else reference)

/-- Puts a node into a container, before one of its children or last. -/
def insertInto (d : Dom) (c : ContainerId) (child : NodeId) (reference : Option NodeId) :
    Except NotAChild Dom := do
  let (host, reference) ← d.spanPoint c reference
  d.insertBefore host child reference

/-- Takes a child out of a container. -/
def removeFrom (d : Dom) (c : ContainerId) (child : NodeId) : Except NotAChild Dom :=
  if (d.span c).contains child then .ok (d.remove child) else .error (d.notInContainer child)

/-- Puts a node where a child of a container was. -/
def replaceIn (d : Dom) (c : ContainerId) (new old : NodeId) : Except NotAChild Dom := do
  let d ← d.insertInto c new (some old)
  d.removeFrom c old

/-! ## Content -/

/-- The text of the children of a container. -/
def spanText (d : Dom) (c : ContainerId) : String :=
  String.join ((d.span c).map d.text)

/-- The markup of the children of a container. -/
def spanHtml (d : Dom) (c : ContainerId) : String :=
  String.join ((d.span c).map d.outerHtml)

/-- The matching nodes inside a container, in document order. -/
def selectIn (d : Dom) (c : ContainerId) (s : Selector) : List NodeId :=
  let box := d.container c
  if box.live then (d.select (d.nodes.root box.start) s).filter (d.spanContains c)
  else d.select box.fragment s

/-! ## Mounting -/

/-- Moves the children of the fragment into a parent, between the markers. -/
def mount (d : Dom) (c : ContainerId) (parent : NodeId) (reference : Option NodeId) :
    Except NotAChild Dom := do
  let box := d.container c
  let run := box.start :: (d.children box.fragment ++ [box.finish])
  let d ← insertAll parent reference run d
  pure (d.setLive c true)

/-- Gathers the span back into the fragment and takes the markers away. -/
def unmount (d : Dom) (c : ContainerId) : Dom :=
  let box := d.container c
  let d := (d.span c).foldl (fun d child => d.append box.fragment child) d
  ((d.remove box.start).remove box.finish).setLive c false

/-- The markers of a container and what is between them. -/
def run (d : Dom) (c : ContainerId) : List NodeId :=
  let box := d.container c
  box.start :: (d.span c ++ [box.finish])

/-- Moves the markers and the span together; nothing moves if the reference is among them. -/
def relocate (d : Dom) (c : ContainerId) (parent : NodeId) (reference : Option NodeId) :
    Except NotAChild Dom :=
  if reference.any (d.run c).contains then .ok d
  else insertAll parent reference (d.run c) d

/-! ## Nodes and containers alike -/

/-- The node that stands for a node or container in tables: a container is known by its start
marker. -/
def key (d : Dom) : NodeRef → NodeId
  | .node n => n
  | .container c => (d.container c).start

/-- How a node or container is called in messages. -/
def describeRef (d : Dom) : NodeRef → String
  | .node n => d.describe n
  | .container _ => "<container>"

/-- The children of a node or container. -/
def childrenOf (d : Dom) : NodeRef → List NodeId
  | .node n => d.children n
  | .container c => d.span c

/-- The markup of the children of a node or container. -/
def contentHtml (d : Dom) : NodeRef → String
  | .node n => d.innerHtml n
  | .container c => d.spanHtml c

/-- The matching nodes inside a node or container, in document order. -/
def selectFrom (d : Dom) (s : Selector) : NodeRef → List NodeId
  | .node n => d.select n s
  | .container c => d.selectIn c s

/-- Whether a node is inside a node or container; a node is inside itself. -/
def holds (d : Dom) (n : NodeId) : NodeRef → Bool
  | .node m => d.nodes.contains m n
  | .container c => d.spanContains c n

/-- Puts a node into a node or container, before one of its children or last. -/
def insertUnder (d : Dom) (parent : NodeRef) (child : NodeId) (reference : Option NodeId) :
    Except NotAChild Dom :=
  match parent with
  | .node n => d.insertBefore n child reference
  | .container c => d.insertInto c child reference

/-- Whether a node has a parent, or a container is live. -/
def isPlaced (d : Dom) : NodeRef → Bool
  | .node n => (d.parent? n).isSome
  | .container c => (d.container c).live

/-- The first node of a node or container in its parent; a container has one while it is live. -/
def first? (d : Dom) : NodeRef → Option NodeId
  | .node n => some n
  | .container c => if (d.container c).live then some (d.container c).start else none

/-- The last node of a node or container in its parent. -/
def last (d : Dom) : NodeRef → NodeId
  | .node n => n
  | .container c => (d.container c).finish

/-- The keys of a node or container and of all that is in it, in document order. -/
def subtree (d : Dom) : NodeRef → List NodeId
  | .node n => n :: d.descendants n
  | .container c => (d.container c).start :: (d.span c).flatMap fun n => n :: d.descendants n

/-- Where an insertion into a node or container, before a node or container or last, lands. -/
def point (d : Dom) (parent : NodeRef) (before : Option NodeRef) :
    Except NotAChild (NodeId × Option NodeId) := do
  let reference ←
    match before with
    | none => pure none
    | some before =>
      match d.first? before with
      | some n => pure (some n)
      | none => throw (⟨d.describeRef before, d.describeRef parent⟩ : NotAChild)
  match parent with
  | .node n => pure (n, reference)
  | .container c => d.spanPoint c reference

/-- Puts a node that is nowhere, or mounts a container, at a place. -/
def place (d : Dom) (target parent : NodeRef) (before : Option NodeRef) :
    Except NotAChild Dom := do
  let (host, reference) ← d.point parent before
  match target with
  | .node n => d.insertBefore host n reference
  | .container c => d.mount c host reference

/-- Moves a node, or the span of a live container, to another place. -/
def move (d : Dom) (target parent : NodeRef) (before : Option NodeRef) :
    Except NotAChild Dom := do
  let (host, reference) ← d.point parent before
  match target with
  | .node n => d.insertBefore host n reference
  | .container c => d.relocate c host reference

/-- Takes a node out of its parent, or unmounts a container. -/
def takeOut (d : Dom) : NodeRef → Dom
  | .node n => d.remove n
  | .container c => d.unmount c

/-- Whether a node or container stands in a parent right before a reference, or last. -/
def standsAt (d : Dom) (target parent : NodeRef) (before : Option NodeRef) : Bool :=
  match d.first? target, d.point parent before with
  | some first, .ok (host, reference) =>
    d.parent? first == some host && d.nodes.next? (d.last target) == reference
  | _, _ => false

/-- The parent of a node or container and what stands after it there. -/
def position (d : Dom) (target : NodeRef) : Option NodeId × Option NodeId :=
  match d.first? target with
  | none => (none, none)
  | some first => (d.parent? first, d.nodes.next? (d.last target))

end Dom

end LiveMarkup
