import LiveMarkup.Live.State

/-!
# Names of kinds

The written names of faults, events and connections, and the record of what a pass over the items
of a series did.
-/

namespace LiveMarkup.Live

/-- The kind of a fault. -/
def Fault.kind : Fault → String
  | invalidState _ _ _ => "InvalidState"
  | parentUnavailable _ _ => "ParentUnavailable"
  | notAChild _ => "NotAChild"
  | subscriptionDestroyed => "SubscriptionDestroyed"
  | unresolvedSymbol _ => "UnresolvedSymbol"
  | missingHost => "MissingHost"
  | host _ => "Host"
  | invalidSelector _ => "InvalidSelector"
  | tornDown => "TornDown"

namespace EventKind

/-- The name of a kind of event. -/
def name : EventKind → String
  | beforeAttach => "before-attach"
  | afterAttach => "after-attach"
  | beforeDetach => "before-detach"
  | afterDetach => "after-detach"
  | connect => "connect"
  | disconnect => "disconnect"
  | destroy => "destroy"

/-- The kind of event of a name. -/
def ofName? (name : String) : Option EventKind :=
  [beforeAttach, afterAttach, beforeDetach, afterDetach, connect, disconnect, destroy].find?
    fun k => k.name == name

end EventKind

/-- The name of a connection. -/
def Connectivity.name : Connectivity → String
  | connected => "connected"
  | disconnected => "disconnected"
  | destroyed => "destroyed"

/-- The written form of what a pass did. -/
def Series.Stats.toValue (s : Stats) : Value :=
  .object
    [("created", .nat s.created), ("reused", .nat s.reused), ("destroyed", .nat s.destroyed),
      ("moved", .nat s.moved)]

end LiveMarkup.Live
