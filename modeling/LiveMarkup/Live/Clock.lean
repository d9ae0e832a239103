import LiveMarkup.Live.State

/-!
# The clock

Nothing runs by itself: the client drains the microtasks and moves the time. Timers run in the
order in which they are due, those due together in the order in which they were set; before and
after each of them the microtasks are drained.

* `Live.drain` runs microtasks in the order in which they came, a bounded number of them;
* `Live.advance` moves the time and runs what is due.
-/

namespace LiveMarkup.Live

variable {κ σ : Type}

/-- Changes the clock. -/
def modifyClock (f : Clock κ → Clock κ) : LiveM κ σ Unit :=
  modify fun l => { l with clock := f l.clock }

/-! ## Microtasks -/

/-- Adds a microtask. A document that is torn down takes none. -/
def queueMicrotask (task : Task κ) : LiveM κ σ Unit := do
  if !(← get).tornDown then
    modifyClock fun c => { c with microtasks := c.microtasks ++ [task] }

/-- Takes the first microtask. -/
def popMicrotask : LiveM κ σ (Option (Task κ)) :=
  modifyGet fun l =>
    match l.clock.microtasks with
    | [] => (none, l)
    | task :: microtasks => (some task, { l with clock := { l.clock with microtasks } })

/-- Runs at most `n` microtasks and answers how many ran. -/
def drainTo (calls : Calls κ σ) : Nat → LiveM κ σ Nat
  | 0 => pure 0
  | n + 1 => do
    match ← popMicrotask with
    | none => pure 0
    | some task =>
      calls.run task
      let ran ← drainTo calls n
      pure (ran + 1)

/-- Runs microtasks, also those that are added meanwhile, and answers how many ran. -/
def drain (calls : Calls κ σ) : LiveM κ σ Nat := do
  drainTo calls (max 1 (← get).config.maxMicrotasks)

/-! ## Timers -/

/-- Puts a timer among those that are due before it and those that are due after it. -/
def insertTimer (timer : Timer κ) : List (Timer κ) → List (Timer κ)
  | [] => [timer]
  | other :: rest =>
    if other.due ≤ timer.due then other :: insertTimer timer rest else timer :: other :: rest

/-- Sets a timer and answers its number. A document that is torn down takes none. -/
def setTimer (delay : Nat) (task : Task κ) : LiveM κ σ TimerId := do
  let l ← get
  let number := l.clock.nextTimer
  modifyClock fun c => { c with nextTimer := number + 1 }
  if !l.tornDown then
    modifyClock fun c =>
      { c with timers := insertTimer ⟨c.now + delay, number, task⟩ c.timers }
  pure number

/-- Clears a timer, and tells whether it was still waiting. -/
def clearTimer (number : TimerId) : LiveM κ σ Bool := do
  let found := (← get).clock.timers.any (·.number == number)
  modifyClock fun c => { c with timers := c.timers.filter fun t => !(t.number == number) }
  pure found

/-- Takes the first timer if it is due by a time. -/
def popTimer (limit : Nat) : LiveM κ σ (Option (Timer κ)) :=
  modifyGet fun l =>
    match l.clock.timers with
    | [] => (none, l)
    | timer :: timers =>
      if timer.due ≤ limit then (some timer, { l with clock := { l.clock with timers } })
      else (none, l)

/-- Runs the timers that are due by a time, at most `n` of them. -/
def runDue (calls : Calls κ σ) (limit : Nat) : Nat → LiveM κ σ Unit
  | 0 => modify fun l => { l with overrun := true }
  | n + 1 => do
    match ← popTimer limit with
    | none => pure ()
    | some timer =>
      modifyClock fun c => { c with now := timer.due }
      calls.run timer.task
      let _ ← drain calls
      runDue calls limit n

/-- Moves the time forward. There is a round for every timer that waits, and there are `fuel` more
for those that are set meanwhile. -/
def advance (calls : Calls κ σ) (delay : Nat) : LiveM κ σ Unit := do
  let limit := (← get).clock.now + delay
  let _ ← drain calls
  runDue calls limit ((← get).clock.timers.length + calls.fuel)
  modifyClock fun c => { c with now := limit }

end LiveMarkup.Live
