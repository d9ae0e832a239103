import LiveMarkup.Live.State

/-!
# Observing nodes

The state of a node, whether it reaches the document, and the observer that hooks are put on.

* `Live.stateOf` is the state of a node or container: what the tree shows, unless an operation is
  under way or the node is destroyed;
* `Live.observe` gives the observer of a node, of which there is one;
* `Live.fire` runs the hooks that wait for an event, until one cancels it.
-/

namespace LiveMarkup.Live

variable {κ σ : Type}

/-! ## States -/

/-- What is known about a node. -/
def trackedOf (l : Live κ σ) (n : NodeId) : Tracked :=
  (l.tracked.get? n).getD {}

/-- The state that the tree shows. -/
def shownState (l : Live κ σ) (r : NodeRef) : NodeState :=
  if l.dom.isPlaced r then .attached else .detached

/-- The state of a node or container. The document itself is always attached. -/
def stateOf (l : Live κ σ) (r : NodeRef) : NodeState :=
  if l.dom.key r = l.document then .attached
  else (l.trackedOf (l.dom.key r)).state.getD (l.shownState r)

/-- Whether a node or container reaches the document. -/
def isConnected (l : Live κ σ) (r : NodeRef) : Bool :=
  (l.dom.first? r).any fun n => l.dom.nodes.root n == l.document

/-- Changes what is known about a node. -/
def modifyTracked (n : NodeId) (f : Tracked → Tracked) : LiveM κ σ Unit :=
  modify fun l => { l with tracked := l.tracked.set n (some (f (l.trackedOf n))) }

/-- Notes the state of a node or container; those that the tree shows need no note. -/
def setState (r : NodeRef) (state : NodeState) : LiveM κ σ Unit := do
  let key := (← get).dom.key r
  modifyTracked key fun t => { t with state := if state.isSettled then none else some state }

/-! ## Observers -/

/-- An observer by its name. -/
def observer? (l : Live κ σ) (o : ObserverId) : Option (Observer κ) :=
  l.observers[o]?

/-- Changes an observer. -/
def modifyObserver (o : ObserverId) (f : Observer κ → Observer κ) : LiveM κ σ Unit :=
  modify fun l => { l with observers := l.observers.modify o f }

/-- The status of an observer. -/
def statusOf (l : Live κ σ) (o : ObserverId) : Connectivity :=
  ((l.observer? o).map (·.status)).getD .destroyed

/-- Changes the status of an observer, unless it is destroyed. -/
def setStatus (o : ObserverId) (status : Connectivity) : LiveM κ σ Unit :=
  modifyObserver o fun x => if x.status = .destroyed then x else { x with status }

/-- Ends an observer: its hooks are gone and it takes no more. -/
def endObserver (o : ObserverId) : LiveM κ σ Unit :=
  modifyObserver o fun x => { x with status := .destroyed, hooks := [] }

/-- The observers of a node or container and of all that is in it, in document order. -/
def observersIn (l : Live κ σ) (r : NodeRef) : List ObserverId :=
  (l.dom.subtree r).filterMap fun n => (l.trackedOf n).observer

/-- Makes an observer. -/
def newObserver (target : NodeRef) (status : Connectivity) : LiveM κ σ ObserverId :=
  modifyGet fun l =>
    (l.observers.size, { l with observers := l.observers.push { target, status } })

/-! ## Places of tracked observers -/

/-- Notes where the target of an observer is. -/
def notePlace (o : ObserverId) : LiveM κ σ Unit :=
  modify fun l =>
    { l with
      observers := l.observers.modify o fun x => { x with lastSeen := l.dom.position x.target } }

/-- Begins to track the moves of an observer's target, if moves are tracked. -/
def trackMoves (o : ObserverId) : LiveM κ σ Unit := do
  if (← get).config.trackMoves then
    notePlace o
    modify fun l => { l with movers := l.movers ++ [o] }

/-- Tracks the moves of an observer's target no longer. -/
def untrackMoves (o : ObserverId) : LiveM κ σ Unit :=
  modify fun l => { l with movers := l.movers.filter fun m => !(m == o) }

/-- Notes anew where everything in a node or container is that is tracked. -/
def noteMoves (r : NodeRef) : LiveM κ σ Unit := do
  let l ← get
  if l.config.trackMoves then
    let keys := l.dom.subtree r
    (l.movers.filter fun o =>
      (l.observer? o).any fun x => keys.contains (l.dom.key x.target)).forM notePlace

/-! ## Hooks -/

/-- The observer of a node or container. A destroyed one has none but ended ones. -/
def observe (r : NodeRef) : Act κ σ ObserverId := do
  ensureLive
  let l ← get
  if l.stateOf r = .destroyed then sure (newObserver r .destroyed)
  else
    let key := l.dom.key r
    match (l.trackedOf key).observer with
    | some o =>
      sure (modifyTracked key id)
      pure o
    | none => sure do
      let o ← newObserver r (if l.isConnected r then .connected else .disconnected)
      modifyTracked key fun t => { t with observer := some o }
      trackMoves o
      pure o

/-- Puts a hook on an observer and answers its number. An ended observer takes none. -/
def addHook (o : ObserverId) (kind : EventKind) (hook : Hook κ) : LiveM κ σ Nat := do
  let number := (((← get).observer? o).map (·.nextHook)).getD 0
  modifyObserver o fun x =>
    { x with
      nextHook := number + 1
      hooks := if x.status = .destroyed then x.hooks else x.hooks ++ [⟨number, kind, hook⟩] }
  pure number

/-- Takes a hook off an observer, and tells whether it was there. -/
def removeHook (o : ObserverId) (number : Nat) : LiveM κ σ Bool := do
  let found := ((← get).observer? o).any fun x => x.hooks.any (·.number == number)
  modifyObserver o fun x => { x with hooks := x.hooks.filter fun h => !(h.number == number) }
  pure found

/-- Runs hooks one after the other until one cancels the event, and tells whether one did. -/
def runHooks (calls : Calls κ σ) (event : Event) : List (Hook κ) → LiveM κ σ Bool
  | [] => pure false
  | hook :: rest => do
    if (← calls.hook hook event) && event.kind.isCancelable then pure true
    else runHooks calls event rest

/-- The hooks of an observer that wait for a kind of event. -/
def hooksFor (l : Live κ σ) (o : ObserverId) (kind : EventKind) : List (Hook κ) :=
  (((l.observer? o).map (·.hooks)).getD []).filterMap fun h =>
    if h.kind = kind then some h.hook else none

/-- Tells an observer about an event; the answer is whether a hook cancelled it. -/
def fire (calls : Calls κ σ) (o : ObserverId) (event : Event) : LiveM κ σ Bool := do
  runHooks calls event ((← get).hooksFor o event.kind)

/-- Tells the observer of a node or container, if it has one, about an event. -/
def fireAt (calls : Calls κ σ) (r : NodeRef) (kind : EventKind) : LiveM κ σ Bool := do
  let l ← get
  match (l.trackedOf (l.dom.key r)).observer with
  | none => pure false
  | some o => fire calls o { kind, target := r }

/-- Tells an observer about an event of its own target. -/
def tell (calls : Calls κ σ) (o : ObserverId) (kind : EventKind) : LiveM κ σ Unit := do
  match (← get).observer? o with
  | none => pure ()
  | some x =>
    let _ ← fire calls o { kind, target := x.target }
    pure ()

end LiveMarkup.Live
