import LiveMarkup.Live.Bindings

/-!
# What is still held

A derived signal follows its source only as long as something holds it: the client, a binding of
an observed node or one that the client holds, a listener, or the scope of a body that is yet to
be built.

* `Live.heldSignals` lists the signals that are held;
* `Live.sweep` makes all other derived signals follow nothing any more.
-/

namespace LiveMarkup.Live

variable {κ σ : Type}

/-- The signals that the factory of a conditional or an arm holds. -/
def signalsOfFactory : NodeFactory κ → List SignalId
  | .body _ scope _ => scope.frames.flatMap fun frame => frame.map (·.2)
  | .client _ => []

/-- The signals that the factory of items holds. -/
def signalsOfItemFactory : ItemFactory κ → List SignalId
  | .body _ _ scope _ => scope.frames.flatMap fun frame => frame.map (·.2)
  | .client _ => []

/-- The signals that a conditional holds. -/
def signalsOfConditional (l : Live κ σ) (c : ConditionalId) : List SignalId :=
  match l.conditionals[c]? with
  | some x => signalsOfFactory x.factory
  | none => []

/-- The signals that a switch holds. -/
def signalsOfSwitch (l : Live κ σ) (s : SwitchId) : List SignalId :=
  match l.switches[s]? with
  | some x => (x.cases.map (·.2) ++ x.default.toList).flatMap signalsOfFactory
  | none => []

/-- The signals that a series holds. -/
def signalsOfSeries (l : Live κ σ) (s : SeriesId) : List SignalId :=
  match l.series[s]? with
  | some x => x.items.map (·.cursor) ++ signalsOfItemFactory x.factory
  | none => []

/-- The signals that a sink holds. -/
def signalsOfSink (l : Live κ σ) : Sink κ → List SignalId
  | .conditional c => l.signalsOfConditional c
  | .switch s => l.signalsOfSwitch s
  | .series s => l.signalsOfSeries s
  | .derived _ _ => []
  | .projector _ => []
  | .client _ => []

/-- The signals that a listener holds. -/
def signalsOfHandler : Handler κ → List SignalId
  | .code _ scope => scope.frames.flatMap fun frame => frame.map (·.2)
  | .client _ => []

/-- The signals that a subscription holds. -/
def signalsOfSubscription (l : Live κ σ) (s : SubscriptionId) : List SignalId :=
  match l.subscription? s with
  | some { feed := .signal signal sink, .. } => signal :: l.signalsOfSink sink
  | some { feed := .event _ _ handler, .. } => signalsOfHandler handler
  | none => []

/-- The signals that a binding holds. -/
def signalsOfBinding (l : Live κ σ) (b : BindingId) : List SignalId :=
  match l.binding? b with
  | some x => l.signalsOfSubscription x.subscription
  | none => []

/-- The signals that a hook holds. -/
def signalsOfHook (l : Live κ σ) : Hook κ → List SignalId
  | .switchOn b => l.signalsOfBinding b
  | .switchOff _ => []
  | .endBinding _ => []
  | .releaseConditional c => l.signalsOfConditional c
  | .releaseSwitch s => l.signalsOfSwitch s
  | .releaseSeries s => l.signalsOfSeries s
  | .client _ => []

/-- The signals that the observers of nodes hold. -/
def signalsOfObservers (l : Live κ σ) : List SignalId :=
  ((l.tracked.values.filterMap (·.observer)).filterMap l.observer?).flatMap fun o =>
    o.hooks.flatMap fun h => l.signalsOfHook h.hook

/-- The signals that the listeners of nodes hold. -/
def signalsOfListeners (l : Live κ σ) : List SignalId :=
  l.extras.values.flatMap fun e => e.listeners.flatMap fun x => signalsOfHandler x.handler

/-- The signals that the bindings hold which the client holds. -/
def signalsOfHeldBindings (l : Live κ σ) : List SignalId :=
  (l.bindings.toList.filter (·.held)).flatMap fun b => l.signalsOfSubscription b.subscription

/-- The signals with a watcher of the client. -/
def signalsOfClient (l : Live κ σ) : List SignalId :=
  (List.range l.signals.size).filter fun s =>
    (l.watchersOf s).any fun w =>
      match w.sink with
      | .client _ => true
      | _ => false

/-- All signals that are held, besides the given ones. -/
def heldSignals (l : Live κ σ) (given : List SignalId) : List SignalId :=
  given ++ l.signalsOfObservers ++ l.signalsOfListeners ++ l.signalsOfHeldBindings ++
    l.signalsOfClient

/-- Makes a signal follow nothing any more. -/
def unfollow (s : SignalId) : LiveM κ σ Unit := do
  match ((← get).signal? s).bind (·.source) with
  | none => pure ()
  | some (source, number) =>
    unwatch source number
    modifySignal s fun g => { g with source := none }

/-- Makes the derived signals that nothing holds follow nothing any more. The client gives those
that it holds itself. -/
def sweep (given : List SignalId) : LiveM κ σ Unit := do
  let l ← get
  let derived := (List.range l.signals.size).filter fun s =>
    (l.signal? s).any (·.source.isSome)
  if !derived.isEmpty then
    let held := l.heldSignals given
    (derived.filter fun s => !held.contains s).forM unfollow

end LiveMarkup.Live
