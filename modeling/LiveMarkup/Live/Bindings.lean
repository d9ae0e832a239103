import LiveMarkup.Live.Observing
import LiveMarkup.Live.Subscriptions

/-!
# Bindings

A binding keeps a subscription active exactly while its node is connected, until the node is
destroyed. Aspects of nodes are bound to signals, and listeners to nodes, in this way.
-/

namespace LiveMarkup.Live

variable {κ σ : Type}

/-- A binding by its name. -/
def binding? (l : Live κ σ) (b : BindingId) : Option Binding :=
  l.bindings[b]?

/-- Whether the subscription of a binding is active. -/
def isBindingActive (l : Live κ σ) (b : BindingId) : Bool :=
  (l.binding? b).any fun x => l.isActive x.subscription

/-- Whether the node of a binding was destroyed. -/
def isBindingDestroyed (l : Live κ σ) (b : BindingId) : Bool :=
  (l.binding? b).any (·.destroyed)

/-- Changes a binding. -/
def modifyBinding (b : BindingId) (f : Binding → Binding) : LiveM κ σ Unit :=
  modify fun l => { l with bindings := l.bindings.modify b f }

/-- Switches a binding on, unless its node was destroyed. -/
def switchOn (calls : Calls κ σ) (b : BindingId) : LiveM κ σ Unit := do
  match (← get).binding? b with
  | some { subscription, destroyed := false, .. } => activate calls subscription
  | _ => pure ()

/-- Switches a binding off. -/
def switchOff (b : BindingId) : LiveM κ σ Unit := do
  match (← get).binding? b with
  | some x => deactivate x.subscription
  | none => pure ()

/-- Ends a binding with its node. -/
def endBinding (b : BindingId) : LiveM κ σ Unit := do
  modifyBinding b fun x => { x with destroyed := true }
  switchOff b

/-- Switches a binding on at the client's wish. -/
def activateBinding (calls : Calls κ σ) (b : BindingId) : Act κ σ Unit := do
  if (← get).isBindingDestroyed b then throw .subscriptionDestroyed
  switchOn calls b

/-- Binds a feed to the connection of a node or container. -/
def bind (calls : Calls κ σ) (r : NodeRef) (feed : Feed κ) (held : Bool) :
    Act κ σ BindingId := do
  let o ← observe r
  let l ← get
  if l.statusOf o = .destroyed then throw .subscriptionDestroyed
  sure do
    let subscription ← newSubscription feed
    let b := l.bindings.size
    modify fun l => { l with bindings := l.bindings.push { subscription, held } }
    let _ ← addHook o .connect (.switchOn b)
    let _ ← addHook o .disconnect (.switchOff b)
    let _ ← addHook o .destroy (.endBinding b)
    if (← get).statusOf o = .connected then activate calls subscription
    pure b

/-- Keeps an aspect of a node up to date with a signal. -/
def bindAspect (calls : Calls κ σ) (node : NodeId) (aspect : Aspect) (signal : SignalId)
    (held : Bool) : Act κ σ BindingId := do
  let p := (← get).projectors.size
  modify fun l => { l with projectors := l.projectors.push { node, aspect } }
  bind calls (.node node) (.signal signal (.projector p)) held

/-- Listens to an event at a node while it is connected. -/
def bindEvent (calls : Calls κ σ) (node : NodeId) (event : String) (handler : Handler κ)
    (held : Bool) : Act κ σ BindingId :=
  bind calls (.node node) (.event node event handler) held

/-- The client lets a binding go; it lasts as long as its node is watched. -/
def release (b : BindingId) : LiveM κ σ Unit :=
  modifyBinding b fun x => { x with held := false }

/-! ## Tearing down -/

/-- Ends a binding that nobody holds any more: nothing is left of a subscription to a signal. -/
def dropBinding (b : BindingId) : LiveM κ σ Unit := do
  match (← get).binding? b with
  | some { held := false, .. } => switchOff b
  | _ => pure ()

/-- Gives up all that is known about nodes, all observers and all that waits for its time. No
transition succeeds from then on. -/
def tearDown : LiveM κ σ Unit := do
  let l ← get
  if !l.tornDown then
    (l.tracked.values.filterMap (·.observer)).forM endObserver
    modify fun l =>
      { l with
        tornDown := true
        tracked := {}
        extras := {}
        movers := []
        comparing := false
        clock := { l.clock with timers := [], microtasks := [] } }
    (List.range l.bindings.size).forM dropBinding

end LiveMarkup.Live
