import LiveMarkup.Markup.Node
import LiveMarkup.Text.Blank

/-!
# Interpolations in text

A text is split into static parts and the interpolations `{{ code }}` and
`{{{ code }}}`. The longer marker goes first. A marker that is not closed, and one with
nothing but blanks inside, stays literal text.

* `Interpolation.split` is that splitting; no part of it is an empty text, and texts are never
  adjacent.
-/

namespace LiveMarkup.Interpolation

open Template (Node)

/-- The marker that opens an interpolation. -/
def opening (raw : Bool) : List Char :=
  if raw then ['\x7b', '\x7b', '\x7b'] else ['\x7b', '\x7b']

/-- The marker that closes an interpolation. -/
def closing (raw : Bool) : List Char :=
  if raw then ['\x7d', '\x7d', '\x7d'] else ['\x7d', '\x7d']

/-- Puts literal text in front of nodes; it joins a text that stands first. -/
def consText (cs : List Char) (nodes : List Node) : List Node :=
  if cs.isEmpty then nodes
  else
    match nodes with
    | .text value :: rest => .text (String.ofList cs ++ value) :: rest
    | _ => .text (String.ofList cs) :: nodes

/-- The first interpolation of a text: the text before it, whether it is raw, what stands between
the markers, and the text after it. -/
def first? (cs : List Char) : Option (List Char × Bool × List Char × List Char) :=
  match Text.cut (opening false) cs with
  | none => none
  | some (before, rest) =>
    match rest with
    | '\x7b' :: body =>
      (Text.cut (closing true) body).map fun (inner, after) => (before, true, inner, after)
    | body =>
      (Text.cut (closing false) body).map fun (inner, after) => (before, false, inner, after)

/-- The first interpolation and the text around it make up the text. -/
theorem first?_eq_append {cs before inner after : List Char} {raw : Bool}
    (h : first? cs = some (before, raw, inner, after)) :
    cs = before ++ opening raw ++ inner ++ closing raw ++ after := by
  unfold first? at h
  split at h
  · simp at h
  · rename_i b rest hb
    have hcs := Text.cut_eq_append hb
    split at h
    · rename_i body
      obtain ⟨⟨i, a⟩, hi, he⟩ := Option.map_eq_some_iff.1 h
      obtain ⟨rfl, rfl, rfl, rfl⟩ : b = before ∧ true = raw ∧ i = inner ∧ a = after := by
        simpa using he
      rw [hcs, Text.cut_eq_append hi]
      simp [opening]
    · obtain ⟨⟨i, a⟩, hi, he⟩ := Option.map_eq_some_iff.1 h
      obtain ⟨rfl, rfl, rfl, rfl⟩ : b = before ∧ false = raw ∧ i = inner ∧ a = after := by
        simpa using he
      rw [hcs, Text.cut_eq_append hi]
      simp [opening]

/-- Splits the characters of a text. -/
def splitChars (cs : List Char) : List Node :=
  match h : first? cs with
  | none => consText cs []
  | some (before, raw, inner, after) =>
    have : after.length < cs.length := by
      rw [first?_eq_append h]
      cases raw <;> simp [opening] <;> omega
    let code := Text.trim inner
    if code.isEmpty then
      consText (before ++ opening raw ++ inner ++ closing raw) (splitChars after)
    else consText before (.interpolation (String.ofList code) raw :: splitChars after)
termination_by cs.length

/-- Splits a text into texts and interpolations. -/
def split (text : String) : List Node :=
  splitChars text.toList

end LiveMarkup.Interpolation
