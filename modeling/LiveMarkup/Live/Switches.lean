import LiveMarkup.Live.Bindings
import LiveMarkup.Live.Lifecycle

/-!
# Switches

A switch shows the arm of the first case whose value is that of its signal, else the default, else
nothing. An arm is built when it is first shown and kept while it is hidden.
-/

namespace LiveMarkup.Live

variable {κ σ : Type}

/-- Whether a value selects a case. Numbers are compared as floating-point numbers. -/
def selects (case value : Value) : Bool :=
  match case, value with
  | .number a, .number b => a.toFloat == b.toFloat
  | case, value => case == value

namespace Switch

/-- The number of the arm for a value: the first case that it selects, else the default. -/
def armFor? (x : Switch κ) (value : Value) : Option Nat :=
  (x.cases.findIdx? fun (case, _) => selects case value).or
    (x.default.map fun _ => x.cases.length)

/-- What builds an arm. -/
def factory? (x : Switch κ) (arm : Nat) : Option (NodeFactory κ) :=
  (x.cases[arm]?.map (·.2)).or x.default

/-- The node of an arm that was built. -/
def built? (x : Switch κ) (arm : Nat) : Option NodeRef :=
  (x.built.find? fun (number, _) => number == arm).map (·.2)

/-- Notes the node of an arm. -/
def setBuilt (arm : Nat) (node : NodeRef) (x : Switch κ) : Switch κ :=
  { x with built := x.built.filter (fun (number, _) => !(number == arm)) ++ [(arm, node)] }

/-- The number of the case that is shown. -/
def activeCase? (x : Switch κ) : Option Nat :=
  x.active.filter fun arm => arm < x.cases.length

/-- Whether the default is shown. -/
def showsDefault (x : Switch κ) : Bool :=
  x.active == some x.cases.length

end Switch

/-- A switch by its name. -/
def switch? (l : Live κ σ) (s : SwitchId) : Option (Switch κ) :=
  l.switches[s]?

/-- Changes a switch. -/
def modifySwitch (s : SwitchId) (f : Switch κ → Switch κ) : LiveM κ σ Unit :=
  modify fun l => { l with switches := l.switches.modify s f }

/-- Hides the arm that is shown. -/
def hideArm (calls : Calls κ σ) (s : SwitchId) : Act κ σ Unit := do
  match (← get).switch? s with
  | none => pure ()
  | some x =>
    sure (modifySwitch s fun x => { x with active := none })
    match x.active.bind x.built? with
    | none => pure ()
    | some node => detachIfAttached calls node

/-- The node of an arm that is kept, or else a new one; nothing if there is no such arm. -/
def nodeOfArm? (calls : Calls κ σ) (s : SwitchId) (x : Switch κ) (arm : Nat) :
    Act κ σ (Option NodeRef) := do
  let l ← get
  match (x.built? arm).filter fun node => !decide (l.stateOf node = .destroyed) with
  | some node => pure (some node)
  | none =>
    match x.factory? arm with
    | none => pure none
    | some factory =>
      let node ← calls.build factory
      sure (modifySwitch s (Switch.setBuilt arm node))
      pure (some node)

/-- Shows an arm. -/
def showArm (calls : Calls κ σ) (s : SwitchId) (arm : Nat) : Act κ σ Unit := do
  match (← get).switch? s with
  | none => pure ()
  | some x =>
    match ← nodeOfArm? calls s x arm with
    | none => pure ()
    | some node =>
      attachAnywhere calls node (.container x.box) none
      sure (modifySwitch s fun x => { x with active := some arm })

/-- Follows the value. -/
def select (calls : Calls κ σ) (s : SwitchId) (value : Value) : Act κ σ Unit := do
  match (← get).switch? s with
  | none => pure ()
  | some x =>
    let arm := x.armFor? value
    if arm ≠ x.active then
      hideArm calls s
      match arm with
      | none => pure ()
      | some arm => showArm calls s arm

/-- Destroys a hidden arm. -/
def destroyHidden (calls : Calls κ σ) (node : NodeRef) : LiveM κ σ Unit := do
  if (← get).stateOf node = .detached then attempt (destroy calls node)

/-- Lets the hidden arms go with their switch, in any order. -/
def releaseSwitch (calls : Calls κ σ) (s : SwitchId) : LiveM κ σ Unit := do
  let l ← get
  let built := calls.shuffle.list l (((l.switch? s).map (·.built)).getD [])
  modifySwitch s fun x => { x with built := [] }
  built.forM fun (_, node) => destroyHidden calls node

/-- Makes a switch that follows a signal. -/
def newSwitch (calls : Calls κ σ) (value : SignalId) (cases : List (Value × NodeFactory κ))
    (default : Option (NodeFactory κ)) : Act κ σ (SwitchId × ContainerId) := do
  let box ← sure (makeInDom Dom.createContainer)
  let s := (← get).switches.size
  modify fun l => { l with switches := l.switches.push { box, cases, default } }
  let o ← observe (.container box)
  let _ ← sure (addHook o .destroy (.releaseSwitch s))
  let _ ← bind calls (.container box) (.signal value (.switch s)) false
  pure (s, box)

end LiveMarkup.Live
