import LiveMarkup.Data.Path
import LiveMarkup.Live.Signals

/-!
# Scopes

A scope gives names to signals. The body of a loop sees the scope around it through a frame of its
own, whose names hide those further out.

* `Scope.lookup?` finds the innermost signal of a name;
* `Live.resolve` follows a path: a bare name is the signal itself, a longer path is a derived
  signal.
-/

namespace LiveMarkup.Live

variable {κ σ : Type}

namespace Scope

/-- A scope of one frame. -/
def ofList (bindings : List (String × SignalId)) : Scope :=
  ⟨[Fields.ofList bindings]⟩

/-- A scope with a frame inside. -/
def extend (s : Scope) (bindings : List (String × SignalId)) : Scope :=
  ⟨Fields.ofList bindings :: s.frames⟩

/-- The innermost signal of a name in frames. -/
def lookupIn? (name : String) : List (List (String × SignalId)) → Option SignalId
  | [] => none
  | frame :: rest => (Fields.get? name frame).or (lookupIn? name rest)

/-- The innermost signal of a name. -/
def lookup? (s : Scope) (name : String) : Option SignalId :=
  lookupIn? name s.frames

/-- Adds the names that are not there yet. -/
def addNames (names : List String) : List String → List String
  | [] => names
  | name :: rest => addNames (if names.contains name then names else names ++ [name]) rest

/-- The names that can be seen, innermost first, without repetition. -/
def names (s : Scope) : List String :=
  addNames [] (s.frames.flatMap fun frame => frame.map (·.1))

/-- The signals that a scope names. -/
def signals (s : Scope) : List SignalId :=
  s.frames.flatMap fun frame => frame.map (·.2)

end Scope

/-- The values of all names of a scope. -/
def snapshot (l : Live κ σ) (s : Scope) : Value :=
  .ofFields (s.names.filterMap fun name => (s.lookup? name).map fun signal =>
    (name, l.valueOf signal))

/-- The signal that a path leads to, if it is a path whose first name is known. -/
def resolve (s : Scope) (path : String) : LiveM κ σ (Option SignalId) :=
  match DataPath.parse? path with
  | none => pure none
  | some p =>
    match s.lookup? p.root with
    | none => pure none
    | some signal =>
      match p.steps with
      | [] => pure (some signal)
      | steps => do
        let derived ← derive signal fun value => DataPath.follow value steps
        pure (some derived)

end LiveMarkup.Live
