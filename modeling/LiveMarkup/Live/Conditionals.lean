import LiveMarkup.Live.Bindings
import LiveMarkup.Live.Clock
import LiveMarkup.Live.Lifecycle

/-!
# Conditionals

A conditional shows its child while its condition is true. The child is built when it is first
shown and kept while it is hidden; with a grace it is destroyed when it was hidden that long.
-/

namespace LiveMarkup.Live

variable {κ σ : Type}

/-- A conditional by its name. -/
def conditional? (l : Live κ σ) (c : ConditionalId) : Option (Conditional κ) :=
  l.conditionals[c]?

/-- Changes a conditional. -/
def modifyConditional (c : ConditionalId) (f : Conditional κ → Conditional κ) : LiveM κ σ Unit :=
  modify fun l => { l with conditionals := l.conditionals.modify c f }

/-- Stops the grace of a hidden child. -/
def stopGrace (c : ConditionalId) : LiveM κ σ Unit := do
  match ((← get).conditional? c).bind (·.timer) with
  | none => pure ()
  | some timer =>
    modifyConditional c fun x => { x with timer := none }
    let _ ← clearTimer timer
    pure ()

/-- Destroys the child if it is hidden; it is forgotten in any case. -/
def discardChild (calls : Calls κ σ) (c : ConditionalId) : Act κ σ Unit := do
  match ((← get).conditional? c).bind (·.child) with
  | none => pure ()
  | some child =>
    sure (modifyConditional c fun x => { x with child := none })
    if (← get).stateOf child = .detached then destroy calls child

/-- The child that is kept, or else a new one. -/
def childOf (calls : Calls κ σ) (c : ConditionalId) (x : Conditional κ) : Act κ σ NodeRef := do
  let l ← get
  match x.child.filter fun child => !decide (l.stateOf child = .destroyed) with
  | some child => pure child
  | none =>
    let child ← calls.build x.factory
    sure (modifyConditional c fun x => { x with child := some child })
    pure child

/-- Shows the child. -/
def showChild (calls : Calls κ σ) (c : ConditionalId) : Act κ σ Unit := do
  sure (stopGrace c)
  match (← get).conditional? c with
  | none => pure ()
  | some x =>
    let child ← childOf calls c x
    attachAnywhere calls child (.container x.box) none

/-- Hides the child. -/
def hideChild (calls : Calls κ σ) (c : ConditionalId) : Act κ σ Unit := do
  match ((← get).conditional? c).bind (·.child) with
  | none => pure ()
  | some child =>
    detachIfAttached calls child
    match (← get).config.grace with
    | none => pure ()
    | some 0 => discardChild calls c
    | some delay => sure do
      stopGrace c
      let timer ← setTimer delay (.endGrace c)
      modifyConditional c fun x => { x with timer := some timer }

/-- Follows the condition. -/
def setVisible (calls : Calls κ σ) (c : ConditionalId) (visible : Bool) : Act κ σ Unit := do
  sure (modifyConditional c fun x => { x with visible })
  if visible then showChild calls c else hideChild calls c

/-- Destroys the child when its grace is over. -/
def endGrace (calls : Calls κ σ) (c : ConditionalId) : LiveM κ σ Unit := do
  modifyConditional c fun x => { x with timer := none }
  if ((← get).conditional? c).any (!·.visible) then attempt (discardChild calls c)

/-- Lets the child go with its conditional. -/
def releaseConditional (calls : Calls κ σ) (c : ConditionalId) : LiveM κ σ Unit := do
  stopGrace c
  attempt (discardChild calls c)

/-- Makes a conditional that follows a signal. -/
def newConditional (calls : Calls κ σ) (condition : SignalId) (factory : NodeFactory κ) :
    Act κ σ (ConditionalId × ContainerId) := do
  let box ← sure (makeInDom Dom.createContainer)
  let c := (← get).conditionals.size
  modify fun l => { l with conditionals := l.conditionals.push { box, factory } }
  let o ← observe (.container box)
  let _ ← sure (addHook o .destroy (.releaseConditional c))
  let _ ← bind calls (.container box) (.signal condition (.conditional c)) false
  pure (c, box)

end LiveMarkup.Live
