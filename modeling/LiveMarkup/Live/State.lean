import LiveMarkup.Live.Callback
import LiveMarkup.Live.Config
import LiveMarkup.Live.Fault
import LiveMarkup.Tree.Table

/-!
# The state of a live document

One record holds everything: the tree, what is known about its nodes, the signals, what follows
them, and what is waiting for its time. The client keeps a state of its own in it.

Operations that call back, directly or not, take the way back as a record `Calls`; it is built
over any `Client` in another module.

* `LiveM` is the monad of operations that cannot be refused, `Act` of those that can.
-/

namespace LiveMarkup

namespace Live

/-- Whether an observed node reaches the document. -/
inductive Connectivity where
  | connected
  | disconnected
  | destroyed
  deriving Repr, DecidableEq, Inhabited

/-- A hook on an observer, with its number and the kind of event that it waits for. -/
structure Observer.Entry (κ : Type) where
  number : Nat
  kind : EventKind
  hook : Hook κ

/-- The hooks of a node. While moves are tracked it is known where the node was last: its parent
and what stood after it there. -/
structure Observer (κ : Type) where
  target : NodeRef
  status : Connectivity
  hooks : List (Observer.Entry κ) := []
  nextHook : Nat := 0
  lastSeen : Option NodeId × Option NodeId := (none, none)

/-- What is known about a node besides the tree: a state that the tree does not show, and the
observer. -/
structure Tracked where
  state : Option NodeState := none
  observer : Option ObserverId := none
  deriving Repr, DecidableEq, Inhabited

/-- A sink on a signal, with its number. -/
structure Signal.Watcher (κ : Type) where
  number : Nat
  sink : Sink κ

/-- A value that can be watched. A derived signal remembers the signal that it follows and the
number of its watcher there. -/
structure Signal (κ : Type) where
  value : Value
  watchers : List (Signal.Watcher κ) := []
  nextWatcher : Nat := 0
  source : Option (SignalId × Nat) := none

/-- What a subscription connects while it is active. -/
inductive Feed (κ : Type) where
  | signal (signal : SignalId) (sink : Sink κ)
  | event (node : NodeId) (event : String) (handler : Handler κ)

/-- A feed that can be switched on and off; while it is on, `registered` is the number of its
watcher or listener. -/
structure Subscription (κ : Type) where
  feed : Feed κ
  registered : Option Nat := none

/-- A subscription that follows the connection of a node. The client may hold on to it. -/
structure Binding where
  subscription : SubscriptionId
  destroyed : Bool := false
  held : Bool := false
  deriving Repr, DecidableEq, Inhabited

/-- A listener of a node. -/
structure Listener (κ : Type) where
  number : ListenerId
  event : String
  handler : Handler κ

/-- The properties and listeners of a node. -/
structure Extras (κ : Type) where
  properties : List (String × Value) := []
  listeners : List (Listener κ) := []

/-- An aspect of a node that a value is written to. Those that a map is written to remember what
was written last. -/
inductive Aspect where
  | text
  | attributeText (name : String)
  | attr (name : String)
  | attributeMap (applied : List (String × Value))
  | className (name : String)
  | classList (applied : List (String × Unit))
  | style (property : String) (unit : Option String)
  | styleMap (applied : List (String × Option String))
  | property (name : String)

/-- Writes values to an aspect of a node. -/
structure Projector where
  node : NodeId
  aspect : Aspect

/-- A task that waits for its time. -/
structure Timer (κ : Type) where
  due : Nat
  number : TimerId
  task : Task κ

/-- The clock, with timers in the order in which they are due. -/
structure Clock (κ : Type) where
  now : Nat := 0
  nextTimer : TimerId := 0
  timers : List (Timer κ) := []
  microtasks : List (Task κ) := []

/-- Shows its child while a condition is true. -/
structure Conditional (κ : Type) where
  box : ContainerId
  factory : NodeFactory κ
  child : Option NodeRef := none
  timer : Option TimerId := none
  visible : Bool := false

/-- Shows the arm whose value is that of the switch. Arms are numbered; the default comes after
the cases. -/
structure Switch (κ : Type) where
  box : ContainerId
  cases : List (Value × NodeFactory κ)
  default : Option (NodeFactory κ)
  built : List (Nat × NodeRef) := []
  active : Option Nat := none

/-- A rendered item of a series. It lingers if it was removed from the list but not destroyed. -/
structure Series.Item where
  key : String
  node : NodeRef
  cursor : SignalId
  lingers : Bool := false
  deriving Repr, DecidableEq, Inhabited

/-- What a pass over the items of a series did. -/
structure Series.Stats where
  created : Nat := 0
  reused : Nat := 0
  destroyed : Nat := 0
  moved : Nat := 0
  deriving Repr, DecidableEq, Inhabited

/-- Shows a node for each item of a list. -/
structure Series (κ : Type) where
  box : ContainerId
  factory : ItemFactory κ
  items : List Series.Item := []
  stats : Series.Stats := {}

end Live

/-- A live document: `κ` are the callbacks of the client, `σ` is the state that it keeps. -/
structure Live (κ σ : Type) where
  client : σ
  config : Live.Config := {}
  dom : Dom := {}
  document : NodeId := 0
  body : NodeId := 0
  tracked : Table Live.Tracked := {}
  observers : Array (Live.Observer κ) := #[]
  movers : List Live.ObserverId := []
  comparing : Bool := false
  signals : Array (Live.Signal κ) := #[]
  subscriptions : Array (Live.Subscription κ) := #[]
  bindings : Array Live.Binding := #[]
  projectors : Array Live.Projector := #[]
  extras : Table (Live.Extras κ) := {}
  nextListener : Live.ListenerId := 1
  clock : Live.Clock κ := {}
  conditionals : Array (Live.Conditional κ) := #[]
  switches : Array (Live.Switch κ) := #[]
  series : Array (Live.Series κ) := #[]
  tornDown : Bool := false
  overrun : Bool := false

namespace Live

/-- Operations on a live document. -/
abbrev LiveM (κ σ : Type) := StateM (Live κ σ)

/-- Operations that can be refused; what they did before stays done. -/
abbrev Act (κ σ : Type) := ExceptT Fault (LiveM κ σ)

/-- In what order to go over what has none. -/
structure Shuffle (κ σ : Type) where
  list {α : Type} : Live κ σ → List α → List α
  perm {α : Type} (l : Live κ σ) (xs : List α) : (list l xs).Perm xs

/-- All goes as it comes. -/
def Shuffle.asGiven {κ σ : Type} : Shuffle κ σ where
  list _ xs := xs
  perm _ xs := .refl xs

/-- How to call what is kept as data. Loops that nothing else bounds take at most `fuel`
rounds. -/
structure Calls (κ σ : Type) where
  fuel : Nat
  shuffle : Shuffle κ σ
  hook : Hook κ → Event → LiveM κ σ Bool
  receive : Sink κ → Value → LiveM κ σ Unit
  handle : Handler κ → HostEvent → LiveM κ σ HostEvent
  run : Task κ → LiveM κ σ Unit
  build : NodeFactory κ → Act κ σ NodeRef
  buildItem : ItemFactory κ → Value → SignalId → Act κ σ NodeRef
  evaluate : String → Scope → Act κ σ SignalId

variable {κ σ : Type}

/-- A document with an empty body. -/
def create (config : Config) (client : σ) : Live κ σ :=
  let dom : Dom := {}
  let (dom, document) := dom.create .document
  let (dom, html) := dom.createElement "html"
  let (dom, body) := dom.createElement "body"
  { client, config, document, body, dom := (dom.append document html).append html body }

/-- An operation that cannot be refused, among those that can. -/
abbrev sure (op : LiveM κ σ α) : Act κ σ α :=
  ExceptT.lift op

/-- Refuses to go on once the document is torn down. -/
def ensureLive : Act κ σ Unit := do
  if (← get).tornDown then throw .tornDown

/-- Changes the tree. -/
def modifyDom (f : Dom → Dom) : LiveM κ σ Unit :=
  modify fun l => { l with dom := f l.dom }

/-- Changes the tree by a step that makes something. -/
def makeInDom (f : Dom → Dom × α) : LiveM κ σ α :=
  modifyGet fun l =>
    let (dom, made) := f l.dom
    (made, { l with dom })

/-- Changes the tree by a step that can be refused. -/
def tryInDom (f : Dom → Except NotAChild Dom) : Act κ σ Unit := do
  match f (← get).dom with
  | .ok dom => modify fun l => { l with dom }
  | .error cause => throw (.notAChild cause)

/-- Runs an operation; if it is refused, the fault is dropped. -/
def attempt (act : Act κ σ Unit) : LiveM κ σ Unit := do
  let _ ← act.run
  pure ()

end Live

end LiveMarkup
