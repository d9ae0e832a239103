/-!
# Forests of labelled nodes

A forest is a store of nodes, each with a label, a link to its parent and the list of its
children. Nodes are made once and never taken back; they are named by their place in the store.

* `Forest.insertBefore?` puts a node in front of a child, or last, wherever it was before; it
  fails exactly when the reference is no child of the parent;
* `Forest.remove` takes a node out of its parent;
* `Forest.descendants` lists what is below a node in document order.
-/

namespace LiveMarkup

/-- The name of a node of a forest. -/
abbrev NodeId := Nat

/-- A node of a forest. -/
structure Forest.Cell (α : Type) where
  label : α
  parent : Option NodeId := none
  children : List NodeId := []

/-- A store of nodes. -/
structure Forest (α : Type) where
  cells : Array (Forest.Cell α) := #[]

namespace Forest

variable {α : Type}

/-- The number of nodes made so far. -/
def size (f : Forest α) : Nat :=
  f.cells.size

/-- Makes a node that has no parent and no children. -/
def create (f : Forest α) (label : α) : Forest α × NodeId :=
  (⟨f.cells.push { label }⟩, f.cells.size)

/-- The label of a node. -/
def label? (f : Forest α) (n : NodeId) : Option α :=
  f.cells[n]?.map (·.label)

/-- The parent of a node. -/
def parent? (f : Forest α) (n : NodeId) : Option NodeId :=
  f.cells[n]?.bind (·.parent)

/-- The children of a node, in order. -/
def children (f : Forest α) (n : NodeId) : List NodeId :=
  (f.cells[n]?.map (·.children)).getD []

/-- Changes the label of a node. -/
def setLabel (f : Forest α) (n : NodeId) (label : α) : Forest α :=
  ⟨f.cells.modify n fun c => { c with label }⟩

/-- Changes the parent link of a node. -/
def setParent (f : Forest α) (n : NodeId) (parent : Option NodeId) : Forest α :=
  ⟨f.cells.modify n fun c => { c with parent }⟩

/-- Changes the list of children of a node. -/
def setChildren (f : Forest α) (n : NodeId) (children : List NodeId) : Forest α :=
  ⟨f.cells.modify n fun c => { c with children }⟩

/-- The place of a node among the children of another. -/
def index? (f : Forest α) (parent child : NodeId) : Option Nat :=
  (f.children parent).idxOf? child

/-- The child after a node, among the children of its parent. -/
def next? (f : Forest α) (n : NodeId) : Option NodeId := do
  let parent ← f.parent? n
  let i ← f.index? parent n
  (f.children parent)[i + 1]?

/-- The child before a node, among the children of its parent. -/
def previous? (f : Forest α) (n : NodeId) : Option NodeId := do
  let parent ← f.parent? n
  let i ← f.index? parent n
  if i = 0 then none else (f.children parent)[i - 1]?

/-- Takes a node out of its parent. -/
def remove (f : Forest α) (n : NodeId) : Forest α :=
  match f.parent? n with
  | none => f
  | some parent => (f.setChildren parent ((f.children parent).erase n)).setParent n none

/-- Puts a node among the children of another, at an index. -/
def place (f : Forest α) (parent child : NodeId) (index : Nat) : Forest α :=
  (f.setChildren parent ((f.children parent).insertIdx index child)).setParent child (some parent)

/-- Makes a node the last child of another. -/
def append (f : Forest α) (parent child : NodeId) : Forest α :=
  let f := f.remove child
  f.place parent child (f.children parent).length

/-- Puts a node before a child of another, or last; nothing if the reference is no such child. -/
def insertBefore? (f : Forest α) (parent child : NodeId) (reference : Option NodeId) :
    Option (Forest α) :=
  match reference with
  | none => some (f.append parent child)
  | some r =>
    match f.index? parent r with
    | none => none
    | some _ =>
      let f := f.remove child
      some (f.place parent child ((f.index? parent r).getD (f.children parent).length))

/-- Follows parent links, at most `n` of them. -/
def climb (f : Forest α) : Nat → NodeId → List NodeId
  | 0, _ => []
  | n + 1, node =>
    match f.parent? node with
    | none => []
    | some parent => parent :: climb f n parent

/-- The ancestors of a node, the nearest first. -/
def ancestors (f : Forest α) (n : NodeId) : List NodeId :=
  f.climb f.size n

/-- The last node on the way up. -/
def root (f : Forest α) (n : NodeId) : NodeId :=
  (f.ancestors n).getLast?.getD n

/-- Whether a node is another one or one of its ancestors. -/
def contains (f : Forest α) (ancestor node : NodeId) : Bool :=
  ancestor == node || (f.ancestors node).contains ancestor

/-- A node and what is below it in document order, down to a depth. -/
def preorder (f : Forest α) : Nat → NodeId → List NodeId
  | 0, _ => []
  | n + 1, node => node :: (f.children node).flatMap (preorder f n)

/-- What is below a node, in document order. -/
def descendants (f : Forest α) (n : NodeId) : List NodeId :=
  (f.children n).flatMap (f.preorder f.size)

end Forest

end LiveMarkup
