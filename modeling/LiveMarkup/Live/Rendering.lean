import LiveMarkup.Live.Conditionals
import LiveMarkup.Live.Reconciling
import LiveMarkup.Live.Scope
import LiveMarkup.Live.Switches

/-!
# Rendering

Each instruction of a program makes one node in a scope: elements with what is bound to them,
texts, and conditionals, switches and series that build their bodies when they need them. The
nodes of a program stand in a container of their own.

* `Live.render` makes the node of an instruction;
* `Live.instantiate` makes an instance of a program whose symbols are looked up first.
-/

namespace LiveMarkup.Live

variable {κ σ : Type}

/-- A rendered program: the container with its nodes, and the scope that it was rendered in. -/
structure Instance where
  box : ContainerId
  scope : Scope
  deriving Repr, DecidableEq, Inhabited

/-- The signal of a source. -/
def sourceSignal (calls : Calls κ σ) (hosted : Bool) (scope : Scope) (source : ValueSource) :
    Act κ σ SignalId :=
  match source with
  | .reference path => do
    match ← sure (resolve scope path) with
    | some signal => pure signal
    | none => throw (.unresolvedSymbol (source.root?.getD path))
  | .expression code =>
    if hosted then calls.evaluate code scope else throw .missingHost

/-- Does to an element what an operation says. -/
def perform (calls : Calls κ σ) (hosted : Bool) (scope : Scope) (node : NodeId) :
    LiveMarkup.Operation → Act κ σ Unit
  | .setAttribute name value => sure (modifyDom fun d => d.setAttribute node name value)
  | .bind target source => do
    let signal ← sourceSignal calls hosted scope source
    let _ ← bindAspect calls node (.ofTarget target) signal false
  | .listen event handler =>
    if hosted then do
      let _ ← bindEvent calls node event (.code handler scope) false
    else throw .missingHost

mutual

/-- Makes the node of an instruction. -/
def render (calls : Calls κ σ) (hosted : Bool) (scope : Scope) : Instruction → Act κ σ NodeRef
  | .element tag operations children => do
    let node ← sure (makeInDom fun d => d.createElement tag)
    operations.forM (perform calls hosted scope node)
    renderInto calls hosted scope (.node node) children
    pure (.node node)
  | .text value => do
    let node ← sure (makeInDom fun d => d.create (.text value))
    pure (.node node)
  | .dynamicText source => do
    let node ← sure (makeInDom fun d => d.create (.text ""))
    let signal ← sourceSignal calls hosted scope source
    let _ ← bindAspect calls node .text signal false
    pure (.node node)
  | .conditional condition body => do
    let signal ← sourceSignal calls hosted scope condition
    let (_, box) ← newConditional calls signal (.body body scope hosted)
    pure (.container box)
  | .forLoop loop body => do
    let signal ← sourceSignal calls hosted scope loop.iterable
    let (_, box) ← newSeries calls signal (.body loop body scope hosted)
    pure (.container box)
  | .switch value cases default => do
    let signal ← sourceSignal calls hosted scope value
    let (_, box) ← newSwitch calls signal
      (cases.map fun (case, body) => (case, .body body scope hosted))
      (default.map fun body => .body body scope hosted)
    pure (.container box)

/-- Makes the nodes of instructions and attaches them, in order, to a parent. -/
def renderInto (calls : Calls κ σ) (hosted : Bool) (scope : Scope) (parent : NodeRef) :
    List Instruction → Act κ σ Unit
  | [] => pure ()
  | instruction :: rest => do
    let node ← render calls hosted scope instruction
    attach calls node parent none
    renderInto calls hosted scope parent rest

end

/-- Makes the node of a loop item. The body sees the item and, under its aliases, the index. -/
def renderItem (calls : Calls κ σ) (hosted : Bool) (scope : Scope) (loop : Loop)
    (body : Instruction) (value : Value) (cursor : SignalId) : Act κ σ NodeRef := do
  let index ← sure (derive cursor id)
  let item ← sure (newSignal value)
  let names := (loop.item, item) :: loop.aliases.map fun a => (a.name, index)
  render calls hosted (scope.extend names) body

/-! ## Instances -/

/-- Refuses a program that needs an expression host where there is none. -/
def needHost (program : Program) (hosted : Bool) : Act κ σ Unit := do
  ensureLive
  if program.requiresHost && !hosted then throw .missingHost

/-- Renders a program in a scope. -/
def renderProgram (calls : Calls κ σ) (program : Program) (scope : Scope) (hosted : Bool) :
    Act κ σ Instance := do
  needHost program hosted
  let box ← sure (makeInDom Dom.createContainer)
  renderInto calls hosted scope (.container box) program.instructions
  pure ⟨box, scope⟩

/-- Looks names up, the first that is unknown is refused. -/
def lookUp (signals : List (String × SignalId)) :
    List String → Except Fault (List (String × SignalId))
  | [] => .ok []
  | name :: rest =>
    match Fields.get? name signals with
    | none => .error (.unresolvedSymbol name)
    | some signal => (lookUp signals rest).map ((name, signal) :: ·)

/-- Renders a program in a scope of its symbols. -/
def instantiate (calls : Calls κ σ) (program : Program) (signals : List (String × SignalId))
    (hosted : Bool) : Act κ σ Instance := do
  needHost program hosted
  let bindings ← ExceptT.mk (pure (lookUp signals program.symbols))
  renderProgram calls program (.ofList bindings) hosted

/-- Attaches an instance. -/
def mountInstance (calls : Calls κ σ) (i : Instance) (parent : NodeRef)
    (before : Option NodeRef) : Act κ σ Unit :=
  attach calls (.container i.box) parent before

/-! ## Components -/

/-- What the client wants to hear of a component. -/
structure ComponentHooks (κ : Type) where
  connected : κ
  disconnected : κ
  destroyed : κ

/-- Instantiates a program, lets the client prepare it, and attaches it. -/
def mountComponent (calls : Calls κ σ) (program : Program) (signals : List (String × SignalId))
    (hosted : Bool) (prepare : Scope → Act κ σ Unit) (hooks : Option (ComponentHooks κ))
    (parent : NodeRef) (before : Option NodeRef) : Act κ σ Instance := do
  let i ← instantiate calls program signals hosted
  prepare i.scope
  let o ← observe (.container i.box)
  match hooks with
  | none => pure ()
  | some hooks => sure do
    let _ ← addHook o .connect (.client hooks.connected)
    let _ ← addHook o .disconnect (.client hooks.disconnected)
    let _ ← addHook o .destroy (.client hooks.destroyed)
  mountInstance calls i parent before
  pure i

end LiveMarkup.Live
