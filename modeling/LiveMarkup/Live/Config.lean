import LiveMarkup.Json.Record

/-!
# Settings of a live document

How long a hidden conditional child is kept, whether changes made behind the back of the document
are looked for, and how many microtasks one drain may run.
-/

namespace LiveMarkup.Live

/-- The settings of a live document. Without a grace a hidden child is kept as long as its
conditional. -/
structure Config where
  grace : Option Nat := none
  trackMoves : Bool := false
  maxMicrotasks : Nat := 1000
  deriving Repr, DecidableEq, Inhabited

namespace Config

/-- A number of milliseconds, or null for none. -/
def grace? : Value → Option (Option Nat)
  | .null => some none
  | v => v.word?.map some

/-- Reads settings; what is missing has its default. -/
def ofValue? (v : Value) : Option Config := do
  match ← v.partialRecord?
      ["conditionalGraceMs", "trackExternalMutations", "maxMicrotaskRounds"] with
  | [grace, trackMoves, maxMicrotasks] =>
    let c : Config := {}
    let grace ← grace.elim (some c.grace) grace?
    let trackMoves ← trackMoves.elim (some c.trackMoves) Value.bool?
    let maxMicrotasks ← maxMicrotasks.elim (some c.maxMicrotasks) Value.word?
    pure ⟨grace, trackMoves, maxMicrotasks⟩
  | _ => none

end Config

end LiveMarkup.Live
