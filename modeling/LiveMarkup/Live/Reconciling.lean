import LiveMarkup.Live.Bindings
import LiveMarkup.Live.Lifecycle
import LiveMarkup.Live.LongestRun

/-!
# Series

A series shows a node for each item of a list. When the list changes, an item keeps its node as
long as its value is in the list; equal values keep their nodes in order. Nodes of items that are
gone are destroyed, and of those that stay as few as possible are moved.

* `Live.reconcile` brings the nodes in line with a list. A fault of one item does not keep the
  others from their places; the first fault is reported in the end.
-/

namespace LiveMarkup.Live

variable {κ σ : Type}

namespace Series

/-- A pass over the items of a list: the former items that no value has claimed yet, the items
found or made so far, those that could not be destroyed, and the first fault. An item comes with
its former place unless it is new or lingered. -/
structure Pass where
  pool : List (Option Nat × Item)
  next : List (Option Nat × Item) := []
  lingering : List Item := []
  stats : Stats := {}
  fault : Option Fault := none
  deriving Repr, DecidableEq, Inhabited

namespace Pass

/-- Begins a pass over former items. -/
def ofItems (items : List Item) : Pass :=
  { pool := items.zipIdx.map fun (item, place) =>
      (if item.lingers then none else some place, item) }

/-- Remembers a fault, if it is the first. -/
def fail (p : Pass) (fault : Fault) : Pass :=
  { p with fault := p.fault.or (some fault) }

/-- Remembers the fault of a step that had one. -/
def note (p : Pass) : Except Fault α → Pass
  | .ok _ => p
  | .error fault => p.fail fault

/-- Adds an item that keeps its node. -/
def reuse (p : Pass) (pool : List (Option Nat × Item)) (place : Option Nat) (item : Item) :
    Pass :=
  { p with
    pool
    next := p.next ++ [(place, { item with lingers := false })]
    stats := { p.stats with reused := p.stats.reused + 1 } }

/-- Adds an item whose node was just built. -/
def add (p : Pass) (item : Item) : Pass :=
  { p with
    next := p.next ++ [(none, item)]
    stats := { p.stats with created := p.stats.created + 1 } }

/-- Counts an item that was destroyed. -/
def countDestroyed (p : Pass) : Pass :=
  { p with stats := { p.stats with destroyed := p.stats.destroyed + 1 } }

/-- Keeps an item that could not be destroyed. -/
def linger (p : Pass) (item : Item) : Pass :=
  { p with lingering := p.lingering ++ [{ item with lingers := true }] }

/-- Counts a node that was moved. -/
def countMoved (p : Pass) : Pass :=
  { p with stats := { p.stats with moved := p.stats.moved + 1 } }

/-- The items after a pass. -/
def items (p : Pass) : List Item :=
  p.next.map (·.2) ++ p.lingering

/-- The former places that can be kept: those of a longest run of items in their old order. -/
def stable (p : Pass) : List Nat :=
  let places := p.next.filterMap (·.1)
  (longestRun places).filterMap fun i => places[i]?

end Pass

/-- The first item of a key, and the other items. -/
def claim? (key : String) :
    List (Option Nat × Item) → Option ((Option Nat × Item) × List (Option Nat × Item))
  | [] => none
  | (place, item) :: rest =>
    if item.key == key then some ((place, item), rest)
    else (claim? key rest).map fun (found, others) => (found, (place, item) :: others)

end Series

/-- A series by its name. -/
def series? (l : Live κ σ) (s : SeriesId) : Option (Series κ) :=
  l.series[s]?

/-- Changes a series. -/
def modifySeries (s : SeriesId) (f : Series κ → Series κ) : LiveM κ σ Unit :=
  modify fun l => { l with series := l.series.modify s f }

/-- Finds the item for a value, or makes one. -/
def matchItem (calls : Calls κ σ) (factory : ItemFactory κ) (p : Series.Pass)
    (value : Value) (index : Nat) : LiveM κ σ Series.Pass := do
  match Series.claim? value.key p.pool with
  | some ((place, item), pool) =>
    let _ ← setIfChanged calls item.cursor (.nat index)
    pure (p.reuse pool place item)
  | none =>
    let cursor ← newSignal (.nat index)
    match ← (calls.buildItem factory value cursor).run with
    | .ok node => pure (p.add { key := value.key, node, cursor })
    | .error fault => pure (p.fail fault)

/-- Destroys an item that is not in the list any more, or keeps it if that was prevented. -/
def removeItem (calls : Calls κ σ) (p : Series.Pass) (item : Series.Item) :
    LiveM κ σ Series.Pass := do
  let outcome ← (destroyFully calls item.node).run
  let p := p.note outcome
  if (← get).stateOf item.node = .destroyed then pure p.countDestroyed else pure (p.linger item)

/-- Attaches an item at the end. -/
def appendItem (calls : Calls κ σ) (parent : NodeRef) (p : Series.Pass) (item : Series.Item) :
    LiveM κ σ Series.Pass := do
  let outcome ← (attach calls item.node parent none).run
  pure (p.note outcome)

/-- Brings an item to its place, in front of what comes after it. -/
def placeItem (calls : Calls κ σ) (parent : NodeRef) (anchor : Option NodeRef) (inPlace : Bool)
    (p : Series.Pass) (item : Series.Item) : LiveM κ σ Series.Pass := do
  match (← get).stateOf item.node with
  | .detached =>
    let outcome ← (attach calls item.node parent anchor).run
    pure (p.note outcome)
  | .attached =>
    if inPlace then pure p
    else
      match ← (moveTo calls item.node parent anchor).run with
      | .ok () => pure p.countMoved
      | .error fault => pure (p.fail fault)
  | _ => pure p

/-- Brings items to their places, the last first. -/
def placeItems (calls : Calls κ σ) (parent : NodeRef) (stable : List Nat) :
    Option NodeRef → Series.Pass → List (Option Nat × Series.Item) → LiveM κ σ Series.Pass
  | _, p, [] => pure p
  | anchor, p, (place, item) :: rest => do
    let p ← placeItem calls parent anchor (place.any stable.contains) p item
    let attached := (← get).stateOf item.node = .attached
    placeItems calls parent stable (if attached then some item.node else anchor) p rest

/-- The items that no value has claimed, in the order in which they are destroyed. -/
def leftOver (calls : Calls κ σ) (p : Series.Pass) (l : Live κ σ) : List Series.Item :=
  calls.shuffle.list l (p.pool.map (·.2))

/-- A whole pass: items are matched, what is left over is destroyed, and what there is now is
brought to its place. -/
def passOver (calls : Calls κ σ) (x : Series κ) (values : List Value) :
    LiveM κ σ Series.Pass := do
  let parent := NodeRef.container x.box
  let p ← values.zipIdx.foldlM
    (fun p (value, index) => matchItem calls x.factory p value index) (Series.Pass.ofItems x.items)
  let p ← (leftOver calls p (← get)).foldlM (removeItem calls) p
  if x.items.isEmpty then (p.next.map (·.2)).foldlM (appendItem calls parent) p
  else placeItems calls parent p.stable none p p.next.reverse

/-- Brings the nodes of a series in line with a list of values. -/
def reconcile (calls : Calls κ σ) (s : SeriesId) (values : List Value) :
    Act κ σ Series.Stats := do
  match (← get).series? s with
  | none => throw .tornDown
  | some x =>
    sure (modifySeries s fun x => { x with items := [] })
    let p ← passOver calls x values
    sure (modifySeries s fun x => { x with items := p.items, stats := p.stats })
    match p.fault with
    | some fault => throw fault
    | none => pure p.stats

/-- Forgets the items with their series. -/
def releaseSeries (s : SeriesId) : LiveM κ σ Unit :=
  modifySeries s fun x => { x with items := [] }

/-- Makes a series that follows a signal. -/
def newSeries (calls : Calls κ σ) (iterable : SignalId) (factory : ItemFactory κ) :
    Act κ σ (SeriesId × ContainerId) := do
  let box ← sure (makeInDom Dom.createContainer)
  let s := (← get).series.size
  modify fun l => { l with series := l.series.push { box, factory } }
  let o ← observe (.container box)
  let _ ← sure (addHook o .destroy (.releaseSeries s))
  let _ ← bind calls (.container box) (.signal iterable (.series s)) false
  pure (s, box)

end LiveMarkup.Live
