import LiveMarkup.Live.Clock
import LiveMarkup.Live.Lifecycle

/-!
# Moves behind the back of the document

The tree can be changed without the operations of the document. Once told so, the document
compares where each tracked node is with where it was seen last, and tells the observers what must
have happened. A node that was moved and brought back in between goes unnoticed.
-/

namespace LiveMarkup.Live

variable {κ σ : Type}

/-- Says that the tree was changed. However often it is said, the nodes are compared once, by the
next microtask. -/
def reportMoves : LiveM κ σ Unit := do
  let l ← get
  if l.config.trackMoves && !l.comparing then
    modify fun l => { l with comparing := true }
    queueMicrotask .compareMoves

/-- Tells an observer, and what is in its target, what a changed place means. -/
def inferMove (calls : Calls κ σ) (o : ObserverId) (target : NodeRef)
    (parent lastParent : Option NodeId) : LiveM κ σ Unit := do
  if parent ≠ lastParent then
    let kind := if parent.isSome then EventKind.afterAttach else .afterDetach
    let _ ← fire calls o { kind, target, synthetic := true }
  let l ← get
  match l.statusOf o, l.isConnected target with
  | .disconnected, true => notifyConnected calls target
  | .connected, false => notifyDisconnected calls target
  | _, _ => pure ()

/-- Compares the place of one observer's target with where it was seen last. -/
def compareMove (calls : Calls κ σ) (o : ObserverId) : LiveM κ σ Unit := do
  let l ← get
  match l.observer? o with
  | none => untrackMoves o
  | some x =>
    if x.status = .destroyed then untrackMoves o
    else
      let place := l.dom.position x.target
      if place ≠ x.lastSeen then
        notePlace o
        inferMove calls o x.target place.1 x.lastSeen.1

/-- Compares all places. -/
def compareMoves (calls : Calls κ σ) : LiveM κ σ Unit := do
  modify fun l => { l with comparing := false }
  (← get).movers.forM (compareMove calls)

end LiveMarkup.Live
