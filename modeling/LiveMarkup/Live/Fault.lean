import LiveMarkup.Dom.Container

/-!
# States and faults

A node of a live document is detached or attached; while an operation is under way it is
attaching, detaching or destroying, and in the end it is destroyed. A fault is the reason why an
operation was refused.

* `Fault.message` is the wording of each fault.
-/

namespace LiveMarkup.Live

/-- The state of a node or container. -/
inductive NodeState where
  | detached
  | attaching
  | attached
  | detaching
  | destroying
  | destroyed
  deriving Repr, DecidableEq, Inhabited

namespace NodeState

/-- The name of a state. -/
def name : NodeState → String
  | detached => "detached"
  | attaching => "attaching"
  | attached => "attached"
  | detaching => "detaching"
  | destroying => "destroying"
  | destroyed => "destroyed"

/-- Whether the tree alone tells that a node is in this state. -/
def isSettled : NodeState → Bool
  | detached => true
  | attached => true
  | _ => false

/-- Whether a node in this state takes no children any more. -/
def isEnding : NodeState → Bool
  | destroying => true
  | destroyed => true
  | _ => false

end NodeState

/-- The steps between states. -/
inductive Transition where
  | attach
  | detach
  | destroy
  | move
  deriving Repr, DecidableEq, Inhabited

namespace Transition

/-- The name of a transition. -/
def name : Transition → String
  | attach => "attach"
  | detach => "detach"
  | destroy => "destroy"
  | move => "move"

/-- The state that a node has to be in for a transition. -/
def needs : Transition → NodeState
  | attach => .detached
  | detach => .attached
  | destroy => .detached
  | move => .attached

end Transition

/-- Why an operation was refused. -/
inductive Fault where
  | invalidState (transition : Transition) (node : String) (actual : NodeState)
  | parentUnavailable (parent : String) (state : NodeState)
  | notAChild (cause : NotAChild)
  | subscriptionDestroyed
  | unresolvedSymbol (name : String)
  | missingHost
  | host (text : String)
  | invalidSelector (text : String)
  | tornDown
  deriving Repr, DecidableEq, Inhabited

namespace Fault

/-- A fault in words. -/
def message : Fault → String
  | invalidState transition node actual =>
    "cannot " ++ transition.name ++ " " ++ node ++ ": expected " ++ transition.needs.name ++
      ", found " ++ actual.name
  | parentUnavailable parent state =>
    "cannot attach into " ++ parent ++ ": parent is " ++ state.name
  | notAChild cause => cause.node ++ " is not a child of " ++ cause.parent
  | subscriptionDestroyed => "subscription is bound to a destroyed node"
  | unresolvedSymbol name => "unresolved symbol `" ++ name ++ "`"
  | missingHost => "template evaluates expressions but no expression host was provided"
  | host text => "host error: " ++ text
  | invalidSelector text => "invalid selector `" ++ text ++ "`"
  | tornDown => "runtime has been torn down"

end Fault

end LiveMarkup.Live
