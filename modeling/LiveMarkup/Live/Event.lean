import LiveMarkup.Dom.Container
import LiveMarkup.Json.Value

/-!
# Events

Lifecycle events tell the hooks of a node what happens to it. Those around attaching and detaching
can be cancelled. Host events are dispatched at a node and bubble to its ancestors.
-/

namespace LiveMarkup.Live

/-- What happens to a node. -/
inductive EventKind where
  | beforeAttach
  | afterAttach
  | beforeDetach
  | afterDetach
  | connect
  | disconnect
  | destroy
  deriving Repr, DecidableEq, Inhabited

/-- Whether hooks can cancel an event of this kind. -/
def EventKind.isCancelable : EventKind → Bool
  | beforeAttach => true
  | afterAttach => true
  | beforeDetach => true
  | afterDetach => true
  | _ => false

/-- A lifecycle event. It is synthetic if it was inferred from a change of the tree. -/
structure Event where
  kind : EventKind
  target : NodeRef
  synthetic : Bool := false
  deriving Repr, DecidableEq, Inhabited

/-- An event that is dispatched at a node. -/
structure HostEvent where
  name : String
  detail : Value
  target : NodeId
  prevented : Bool := false
  stopped : Bool := false

end LiveMarkup.Live
