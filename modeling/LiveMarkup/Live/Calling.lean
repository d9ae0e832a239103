import LiveMarkup.Live.Moves
import LiveMarkup.Live.Rendering

/-!
# Calling back

What the callbacks that are kept as data do. The client says what its own do; it is given the way
to call back in turn. Calls are nested to a bounded depth only: at the bound a callback does
nothing and the state tells so by `overrun`.

* `Calls.next` does what callbacks say, calling back through given calls;
* `Calls.upTo` nests calls to a depth.
-/

namespace LiveMarkup.Live

variable {κ σ : Type}

/-- The program that a live document is embedded in: what its callbacks do, how it evaluates
expressions and runs the code of listeners, and in what order it goes over what has none. -/
structure Client (κ σ : Type) where
  hook : Calls κ σ → κ → Event → LiveM κ σ Bool
  receive : Calls κ σ → κ → Value → LiveM κ σ Unit
  handle : Calls κ σ → κ → HostEvent → LiveM κ σ HostEvent
  run : Calls κ σ → κ → LiveM κ σ Unit
  build : Calls κ σ → κ → Act κ σ NodeRef
  buildItem : Calls κ σ → κ → Value → SignalId → Act κ σ NodeRef
  evaluate : Calls κ σ → String → Scope → Act κ σ SignalId
  invoke : Calls κ σ → String → Scope → HostEvent → Act κ σ HostEvent
  shuffle : Shuffle κ σ := .asGiven

namespace Calls

/-- Notes that calls were nested too deep. -/
def markOverrun : LiveM κ σ Unit :=
  modify fun l => { l with overrun := true }

/-- Does what a hook says; the answer is whether it cancels. -/
def runHook (client : Client κ σ) (calls : Calls κ σ) (event : Event) :
    Hook κ → LiveM κ σ Bool
  | .switchOn b => do
    Live.switchOn calls b
    pure false
  | .switchOff b => do
    Live.switchOff b
    pure false
  | .endBinding b => do
    Live.endBinding b
    pure false
  | .releaseConditional c => do
    Live.releaseConditional calls c
    pure false
  | .releaseSwitch s => do
    Live.releaseSwitch calls s
    pure false
  | .releaseSeries s => do
    Live.releaseSeries s
    pure false
  | .client k => client.hook calls k event

/-- Passes a value to a sink. Faults of conditionals, switches and series end here. -/
def pass (client : Client κ σ) (calls : Calls κ σ) (value : Value) : Sink κ → LiveM κ σ Unit
  | .derived signal f => setSignal calls signal (f value)
  | .projector p => project p value
  | .conditional c => attempt (setVisible calls c value.truthy)
  | .switch s => attempt (select calls s value)
  | .series s => attempt do
    let _ ← reconcile calls s value.items
  | .client k => client.receive calls k value

/-- Lets a listener handle an event. A fault of its code ends here. -/
def handleEvent (client : Client κ σ) (calls : Calls κ σ) (event : HostEvent) :
    Handler κ → LiveM κ σ HostEvent
  | .code text scope => do
    match ← (client.invoke calls text scope event).run with
    | .ok event => pure event
    | .error _ => pure event
  | .client k => client.handle calls k event

/-- Does what a task says. -/
def runTask (client : Client κ σ) (calls : Calls κ σ) : Task κ → LiveM κ σ Unit
  | .compareMoves => compareMoves calls
  | .endGrace c => endGrace calls c
  | .client k => client.run calls k

/-- Builds a node. -/
def buildNode (client : Client κ σ) (calls : Calls κ σ) : NodeFactory κ → Act κ σ NodeRef
  | .body instruction scope hosted => render calls hosted scope instruction
  | .client k => client.build calls k

/-- Builds the node of an item. -/
def buildNodeOf (client : Client κ σ) (calls : Calls κ σ) (value : Value) (cursor : SignalId) :
    ItemFactory κ → Act κ σ NodeRef
  | .body loop instruction scope hosted =>
    renderItem calls hosted scope loop instruction value cursor
  | .client k => client.buildItem calls k value cursor

/-- Calls that do nothing. -/
def idle : Calls κ σ where
  fuel := 0
  shuffle := .asGiven
  hook _ _ := do
    markOverrun
    pure false
  receive _ _ := markOverrun
  handle _ event := do
    markOverrun
    pure event
  run _ := markOverrun
  build _ := do
    sure markOverrun
    throw .tornDown
  buildItem _ _ _ := do
    sure markOverrun
    throw .tornDown
  evaluate _ _ := do
    sure markOverrun
    throw .tornDown

/-- Calls that call back through others. -/
def next (client : Client κ σ) (fuel : Nat) (calls : Unit → Calls κ σ) : Calls κ σ where
  fuel := fuel
  shuffle := client.shuffle
  hook h event := runHook client (calls ()) event h
  receive sink value := pass client (calls ()) value sink
  handle h event := handleEvent client (calls ()) event h
  run task := runTask client (calls ()) task
  build factory := buildNode client (calls ()) factory
  buildItem factory value cursor := buildNodeOf client (calls ()) value cursor factory
  evaluate code scope := client.evaluate (calls ()) code scope

/-- Calls nested to a depth. -/
def upTo (client : Client κ σ) : Nat → Calls κ σ
  | 0 => idle
  | depth + 1 => next client (depth + 1) fun _ => upTo client depth

end Calls

end LiveMarkup.Live
