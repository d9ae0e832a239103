import LiveMarkup.Live.Event
import LiveMarkup.Program.Instruction

/-!
# Callbacks

Everything that a live document calls later on is kept as data: what a hook does, where the values
of a signal go, what builds a node. The type `κ` holds the callbacks of the client, the program
that the document is embedded in; the other constructors are the document's own.
-/

namespace LiveMarkup.Live

/-- The name of a signal. -/
abbrev SignalId := Nat

/-- The name of an observer of a node. -/
abbrev ObserverId := Nat

/-- The name of a subscription. -/
abbrev SubscriptionId := Nat

/-- The name of a binding. -/
abbrev BindingId := Nat

/-- The name of a projector. -/
abbrev ProjectorId := Nat

/-- The name of a conditional. -/
abbrev ConditionalId := Nat

/-- The name of a switch. -/
abbrev SwitchId := Nat

/-- The name of a series. -/
abbrev SeriesId := Nat

/-- The name of a timer. -/
abbrev TimerId := Nat

/-- The name of a listener. -/
abbrev ListenerId := Nat

/-- Names for signals, in frames from the inside out; each frame is in order of name. -/
structure Scope where
  frames : List (List (String × SignalId)) := []
  deriving Repr, DecidableEq, Inhabited

/-- What a hook does. -/
inductive Hook (κ : Type) where
  | switchOn (binding : BindingId)
  | switchOff (binding : BindingId)
  | endBinding (binding : BindingId)
  | releaseConditional (conditional : ConditionalId)
  | releaseSwitch (switch : SwitchId)
  | releaseSeries (series : SeriesId)
  | client (callback : κ)

/-- Where the values of a signal go. -/
inductive Sink (κ : Type) where
  | derived (signal : SignalId) (f : Value → Value)
  | projector (projector : ProjectorId)
  | conditional (conditional : ConditionalId)
  | switch (switch : SwitchId)
  | series (series : SeriesId)
  | client (callback : κ)

/-- What a listener does. -/
inductive Handler (κ : Type) where
  | code (text : String) (scope : Scope)
  | client (callback : κ)

/-- What is done later. -/
inductive Task (κ : Type) where
  | compareMoves
  | endGrace (conditional : ConditionalId)
  | client (callback : κ)

/-- What builds the child of a conditional or an arm of a switch. -/
inductive NodeFactory (κ : Type) where
  | body (instruction : Instruction) (scope : Scope) (hosted : Bool)
  | client (callback : κ)

/-- What builds the node of an item of a series. -/
inductive ItemFactory (κ : Type) where
  | body (loop : Loop) (instruction : Instruction) (scope : Scope) (hosted : Bool)
  | client (callback : κ)

end LiveMarkup.Live
