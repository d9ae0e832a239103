import LiveMarkup.Json.Printer
import LiveMarkup.Live.State

/-!
# Signals

A signal is a value with watchers. Setting it passes the new value to each watcher there is at
that moment, in the order in which they came; watchers may come and go meanwhile.

* `Live.setSignal` sets and notifies, `Live.setIfChanged` only if the value differs;
* `Live.derive` makes a signal that follows another one through a function.
-/

namespace LiveMarkup.Live

variable {κ σ : Type}

/-- A signal by its name. -/
def signal? (l : Live κ σ) (s : SignalId) : Option (Signal κ) :=
  l.signals[s]?

/-- The value of a signal. -/
def valueOf (l : Live κ σ) (s : SignalId) : Value :=
  ((l.signal? s).map (·.value)).getD .null

/-- The watchers of a signal. -/
def watchersOf (l : Live κ σ) (s : SignalId) : List (Signal.Watcher κ) :=
  ((l.signal? s).map (·.watchers)).getD []

/-- Changes a signal. -/
def modifySignal (s : SignalId) (f : Signal κ → Signal κ) : LiveM κ σ Unit :=
  modify fun l => { l with signals := l.signals.modify s f }

/-- Makes a signal. -/
def newSignal (value : Value) : LiveM κ σ SignalId :=
  modifyGet fun l => (l.signals.size, { l with signals := l.signals.push { value } })

/-- Adds a watcher and answers its number. -/
def watch (s : SignalId) (sink : Sink κ) : LiveM κ σ Nat := do
  let number := (((← get).signal? s).map (·.nextWatcher)).getD 0
  modifySignal s fun g =>
    { g with watchers := g.watchers ++ [⟨number, sink⟩], nextWatcher := number + 1 }
  pure number

/-- Takes a watcher away. -/
def unwatch (s : SignalId) (number : Nat) : LiveM κ σ Unit :=
  modifySignal s fun g => { g with watchers := g.watchers.filter fun w => !(w.number == number) }

/-- Sets a signal and notifies its watchers. -/
def setSignal (calls : Calls κ σ) (s : SignalId) (value : Value) : LiveM κ σ Unit := do
  modifySignal s fun g => { g with value }
  ((← get).watchersOf s).forM fun w => calls.receive w.sink value

/-- Sets a signal if its value differs, and tells whether it did. -/
def setIfChanged (calls : Calls κ σ) (s : SignalId) (value : Value) : LiveM κ σ Bool := do
  if (← get).valueOf s == value then pure false
  else
    setSignal calls s value
    pure true

/-- Makes a signal that follows another one through a function. -/
def derive (s : SignalId) (f : Value → Value) : LiveM κ σ SignalId := do
  let derived ← newSignal (f ((← get).valueOf s))
  let number ← watch s (.derived derived f)
  modifySignal derived fun g => { g with source := some (s, number) }
  pure derived

end LiveMarkup.Live
