import LiveMarkup.Live.Host
import LiveMarkup.Live.Signals

/-!
# Subscriptions

A subscription to a signal pushes the current value when it is switched on and every later value
until it is switched off. A subscription to an event is a listener for that time.
-/

namespace LiveMarkup.Live

variable {κ σ : Type}

/-- A subscription by its name. -/
def subscription? (l : Live κ σ) (s : SubscriptionId) : Option (Subscription κ) :=
  l.subscriptions[s]?

/-- Whether a subscription is on. -/
def isActive (l : Live κ σ) (s : SubscriptionId) : Bool :=
  (l.subscription? s).any (·.registered.isSome)

/-- Makes a subscription, which is off. -/
def newSubscription (feed : Feed κ) : LiveM κ σ SubscriptionId :=
  modifyGet fun l =>
    (l.subscriptions.size, { l with subscriptions := l.subscriptions.push { feed } })

/-- Notes the number of the watcher or listener of a subscription. -/
def setRegistered (s : SubscriptionId) (registered : Option Nat) : LiveM κ σ Unit :=
  modify fun l =>
    { l with subscriptions := l.subscriptions.modify s fun x => { x with registered } }

/-- Switches a subscription on. -/
def activate (calls : Calls κ σ) (s : SubscriptionId) : LiveM κ σ Unit := do
  match (← get).subscription? s with
  | none => pure ()
  | some { registered := some _, .. } => pure ()
  | some { feed := .signal signal sink, registered := none } =>
    let number ← watch signal sink
    setRegistered s (some number)
    calls.receive sink ((← get).valueOf signal)
  | some { feed := .event node event handler, registered := none } =>
    let number ← listen node event handler
    setRegistered s (some number)

/-- Switches a subscription off. -/
def deactivate (s : SubscriptionId) : LiveM κ σ Unit := do
  match (← get).subscription? s with
  | none => pure ()
  | some { registered := none, .. } => pure ()
  | some { feed := .signal signal _, registered := some number } =>
    setRegistered s none
    unwatch signal number
  | some { feed := .event node _ _, registered := some number } =>
    setRegistered s none
    let _ ← unlisten node number
    pure ()

end LiveMarkup.Live
