import LiveMarkup.Live.Host
import LiveMarkup.Live.Observing

/-!
# The life of nodes

Nodes and containers are attached, detached, moved and in the end destroyed. Hooks hear of it
before and after and can cancel what has not happened yet. Whatever comes to reach the document is
told in document order, whatever ceases to in the reverse of it.

* `Live.attach`, `Live.detach`, `Live.destroy` and `Live.moveTo` ask for the right state;
* `Live.attachAnywhere`, `Live.detachIfAttached` and `Live.destroyFully` bring it about first, and
  leave alone what is past that.
-/

namespace LiveMarkup.Live

variable {κ σ : Type}

/-! ## Notices -/

/-- Tells an observer that its target reaches the document, unless it knows. -/
def tellConnected (calls : Calls κ σ) (o : ObserverId) : LiveM κ σ Unit := do
  if (← get).statusOf o = .disconnected then
    setStatus o .connected
    tell calls o .connect

/-- Tells an observer that its target does not reach the document any more, unless it knows. -/
def tellDisconnected (calls : Calls κ σ) (o : ObserverId) : LiveM κ σ Unit := do
  if (← get).statusOf o = .connected then
    setStatus o .disconnected
    tell calls o .disconnect

/-- Tells an observer that its target is destroyed, and ends it. -/
def tellDestroyed (calls : Calls κ σ) (o : ObserverId) : LiveM κ σ Unit := do
  if (← get).statusOf o ≠ .destroyed then
    tell calls o .destroy
    endObserver o
    untrackMoves o

/-- Tells all observers in a node or container that it reaches the document. -/
def notifyConnected (calls : Calls κ σ) (r : NodeRef) : LiveM κ σ Unit := do
  ((← get).observersIn r).forM (tellConnected calls)

/-- Tells all observers in a node or container that it does not reach the document any more. -/
def notifyDisconnected (calls : Calls κ σ) (r : NodeRef) : LiveM κ σ Unit := do
  ((← get).observersIn r).reverse.forM (tellDisconnected calls)

/-! ## Transitions -/

/-- Refuses a transition from the wrong state. -/
def needState (transition : Transition) (r : NodeRef) : Act κ σ Unit := do
  let l ← get
  if l.stateOf r ≠ transition.needs then
    throw (.invalidState transition (l.dom.describeRef r) (l.stateOf r))

/-- Refuses a parent that is being destroyed or is so already. -/
def needParent (parent : NodeRef) : Act κ σ Unit := do
  let l ← get
  if (l.stateOf parent).isEnding then
    throw (.parentUnavailable (l.dom.describeRef parent) (l.stateOf parent))

/-- Attaches a detached node or container, before another one or last. -/
def attach (calls : Calls κ σ) (r parent : NodeRef) (before : Option NodeRef) :
    Act κ σ Unit := do
  ensureLive
  needState .attach r
  needParent parent
  sure (setState r .attaching)
  if ← fireAt calls r .beforeAttach then sure (setState r .detached)
  else
    match (← get).dom.place r parent before with
    | .error cause =>
      sure (setState r .detached)
      throw (.notAChild cause)
    | .ok dom =>
      sure (modifyDom fun _ => dom)
      sure (setState r .attached)
      let _ ← fireAt calls r .afterAttach
      if (← get).isConnected r then notifyConnected calls r
      sure (noteMoves r)

/-- Detaches an attached node or container. -/
def detach (calls : Calls κ σ) (r : NodeRef) : Act κ σ Unit := do
  ensureLive
  needState .detach r
  sure (setState r .detaching)
  if ← fireAt calls r .beforeDetach then sure (setState r .attached)
  else
    let wasConnected := (← get).isConnected r
    sure (modifyDom fun d => d.takeOut r)
    sure (setState r .detached)
    let _ ← fireAt calls r .afterDetach
    if wasConnected then notifyDisconnected calls r
    sure (noteMoves r)

/-- Forgets all about a node but that it is destroyed. -/
def bury (n : NodeId) : LiveM κ σ Unit :=
  modify fun l =>
    { l with
      tracked := l.tracked.set n (some { state := some .destroyed })
      extras := l.extras.set n none }

/-- Destroys a detached node or container and all that is in it. -/
def destroy (calls : Calls κ σ) (r : NodeRef) : Act κ σ Unit := do
  ensureLive
  needState .destroy r
  sure (setState r .destroying)
  ((← get).observersIn r).reverse.forM fun o => tellDestroyed calls o
  ((← get).dom.subtree r).forM fun n => sure (bury n)

/-- Moves an attached node or container without detaching it. -/
def moveTo (calls : Calls κ σ) (r parent : NodeRef) (before : Option NodeRef) :
    Act κ σ Unit := do
  ensureLive
  needState .move r
  let wasConnected := (← get).isConnected r
  tryInDom fun d => d.move r parent before
  let isConnected := (← get).isConnected r
  if !wasConnected && isConnected then notifyConnected calls r
  else if wasConnected && !isConnected then notifyDisconnected calls r
  sure (noteMoves r)

/-! ## From any state -/

/-- Attaches a node or container at a place, detaching it first if it is somewhere else. -/
def attachAnywhere (calls : Calls κ σ) (r parent : NodeRef) (before : Option NodeRef) :
    Act κ σ Unit := do
  let l ← get
  match l.stateOf r with
  | .detached => attach calls r parent before
  | .attached =>
    if !(l.dom.standsAt r parent before) then
      detach calls r
      if (← get).stateOf r = .detached then attach calls r parent before
  | _ => pure ()

/-- Detaches a node or container if it is attached. -/
def detachIfAttached (calls : Calls κ σ) (r : NodeRef) : Act κ σ Unit := do
  if (← get).stateOf r = .attached then detach calls r

/-- Destroys a node or container, detaching it first if needed. -/
def destroyFully (calls : Calls κ σ) (r : NodeRef) : Act κ σ Unit := do
  match (← get).stateOf r with
  | .destroyed => pure ()
  | .destroying => pure ()
  | .attached =>
    detach calls r
    if (← get).stateOf r = .detached then destroy calls r
  | _ => destroy calls r

end LiveMarkup.Live
