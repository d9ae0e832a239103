import LiveMarkup.Live.Aspect

/-!
# Properties and listeners

What the host keeps for a node: properties that the tree does not show, and listeners. A host
event runs the listeners of its target and then those of the ancestors, until one of them stops
it; the other listeners of that node still run.
-/

namespace LiveMarkup.Live

variable {κ σ : Type}

/-! ## Properties -/

/-- Changes what the host keeps for a node, which it does from then on. -/
def modifyExtras (n : NodeId) (f : Extras κ → Extras κ) : LiveM κ σ Unit :=
  modify fun l => { l with extras := l.extras.set n (some (f ((l.extras.get? n).getD {}))) }

/-- Sets a property of a node. -/
def setProperty (n : NodeId) (name : String) (value : Value) : LiveM κ σ Unit :=
  modifyExtras n fun e => { e with properties := Fields.insert name value e.properties }

/-- The value of a property of a node. -/
def property? (l : Live κ σ) (n : NodeId) (name : String) : Option Value :=
  (l.extras.get? n).bind fun e => Fields.get? name e.properties

/-- Writes a value to an aspect of a node. -/
def writeAspect (n : NodeId) (value : Value) (aspect : Aspect) : LiveM κ σ Aspect :=
  match aspect with
  | .property name => do
    setProperty n name value
    pure aspect
  | aspect => makeInDom fun d => aspect.write d n value

/-- Lets a projector write a value. -/
def project (p : ProjectorId) (value : Value) : LiveM κ σ Unit := do
  match (← get).projectors[p]? with
  | none => pure ()
  | some projector =>
    let aspect ← writeAspect projector.node value projector.aspect
    modify fun l => { l with projectors := l.projectors.modify p fun q => { q with aspect } }

/-! ## Listeners -/

/-- Adds a listener to a node and answers its number. -/
def listen (n : NodeId) (event : String) (handler : Handler κ) : LiveM κ σ ListenerId := do
  let number := (← get).nextListener
  modify fun l => { l with nextListener := number + 1 }
  modifyExtras n fun e => { e with listeners := e.listeners ++ [⟨number, event, handler⟩] }
  pure number

/-- The listeners of a node. -/
def listenersOf (l : Live κ σ) (n : NodeId) : List (Listener κ) :=
  ((l.extras.get? n).map (·.listeners)).getD []

/-- Takes a listener away from a node, and tells whether the node had it. -/
def unlisten (n : NodeId) (number : ListenerId) : LiveM κ σ Bool := do
  if ((← get).listenersOf n).any (·.number == number) then
    modifyExtras n fun e =>
      { e with listeners := e.listeners.filter fun x => !(x.number == number) }
    pure true
  else pure false

/-- Runs the listeners of one node after the other until the event is stopped. -/
def bubble (calls : Calls κ σ) : List NodeId → HostEvent → LiveM κ σ HostEvent
  | [], event => pure event
  | n :: rest, event => do
    let listeners := ((← get).listenersOf n).filter (·.event == event.name)
    let event ← listeners.foldlM (fun event x => calls.handle x.handler event) event
    if event.stopped then pure event else bubble calls rest event

/-- Dispatches an event at a node. -/
def dispatch (calls : Calls κ σ) (target : NodeId) (name : String) (detail : Value) :
    LiveM κ σ HostEvent := do
  let path := target :: (← get).dom.nodes.ancestors target
  bubble calls path { name, detail, target }

end LiveMarkup.Live
