import LiveMarkup.Data.Path
import LiveMarkup.Program.ValueSource
import LiveMarkup.Proofs.Text.Splitting

/-!
# The root of a path

A program is compiled with the text before the first `.` or `[` of a path, without blanks around
it; a path that is followed is parsed. Both find the same name in every path that can be parsed:
an identifier has neither blanks nor the two separators in it, and only blanks can stand between
it and the first step.

* `DataPath.parse?_root`: the root of a path that is parsed is the root of the reference.
-/

namespace LiveMarkup

namespace DataPath

/-- Whether a character ends the name that a path starts with. -/
def isSeparator (c : Char) : Bool :=
  c == '.' || c == '['

theorem not_separator_of_identRest {c : Char} (h : Text.isIdentRest c = true) :
    isSeparator c = false := by
  rw [← Bool.not_eq_true, isSeparator, Bool.or_eq_true, beq_iff_eq, beq_iff_eq]
  rintro (rfl | rfl) <;> exact absurd h (by decide)

theorem not_separator_of_identStart {c : Char} (h : Text.isIdentStart c = true) :
    isSeparator c = false := by
  rw [← Bool.not_eq_true, isSeparator, Bool.or_eq_true, beq_iff_eq, beq_iff_eq]
  rintro (rfl | rfl) <;> exact absurd h (by decide)

theorem not_separator_of_blank {c : Char} (h : Text.isBlank c = true) : isSeparator c = false := by
  rw [← Bool.not_eq_true, isSeparator, Bool.or_eq_true, beq_iff_eq, beq_iff_eq]
  rintro (rfl | rfl) <;> exact absurd h (by decide)

theorem identifier?_spec {cs root rest : List Char} (h : Text.identifier? cs = some (root, rest)) :
    cs = root ++ rest ∧ root ≠ [] ∧
      ∀ c ∈ root, Text.isBlank c = false ∧ isSeparator c = false := by
  cases cs with
  | nil => cases h
  | cons c cs =>
    rw [Text.identifier?] at h
    split at h
    next hStart =>
      obtain ⟨rfl, rfl⟩ := Prod.mk.inj (Option.some.inj h)
      refine ⟨?_, List.cons_ne_nil _ _, ?_⟩
      · rw [List.cons_append, List.takeWhile_append_dropWhile]
      · intro d hd
        rcases List.mem_cons.mp hd with rfl | hd
        · exact ⟨Text.not_blank_of_identStart hStart, not_separator_of_identStart hStart⟩
        · have hRest := List.all_eq_true.mp List.all_takeWhile d hd
          exact ⟨Text.not_blank_of_identRest hRest, not_separator_of_identRest hRest⟩
    next => cases h

/-- After the root only blanks stand before the first step. -/
theorem steps?_start {n : Nat} {cs : List Char} {steps : List Step}
    (h : steps? n cs = some steps) : ∃ blanks rest, cs = blanks ++ rest ∧
      (∀ c ∈ blanks, Text.isBlank c = true) ∧ ∀ c ∈ rest.head?, isSeparator c = true := by
  refine ⟨cs.takeWhile Text.isBlank, cs.dropWhile Text.isBlank,
    List.takeWhile_append_dropWhile.symm, fun c hc =>
      List.all_eq_true.mp List.all_takeWhile c hc, ?_⟩
  intro c hc
  have hNotAll : cs.all Text.isBlank = false := by
    rw [← Bool.not_eq_true, List.all_eq_true, ← List.dropWhile_eq_nil_iff]
    intro hNil
    rw [hNil] at hc
    cases hc
  cases n with
  | zero => simp [steps?, hNotAll] at h
  | succ n =>
    obtain ⟨rest, hRest⟩ := List.head?_eq_some_iff.mp hc
    rw [steps?, hNotAll] at h
    cases hStep : step? cs with
    | none => simp [hStep] at h
    | some first =>
      -- A step begins with one of the two separators.
      rw [step?, Text.trimLeft, hRest] at hStep
      split at hStep
      next hEq =>
        obtain ⟨rfl, -⟩ := List.cons.inj hEq
        rfl
      next hEq =>
        obtain ⟨rfl, -⟩ := List.cons.inj hEq
        rfl
      next => cases hStep

/-- The name that a path starts with is found in the same way by parsing it. -/
theorem parse?_root {path : String} {p : DataPath} (h : parse? path = some p) :
    (ValueSource.reference path).root? = some p.root := by
  unfold parse? at h
  cases hName : Text.identifier? (Text.trimLeft path.toList) with
  | none => simp [hName] at h
  | some found =>
    obtain ⟨root, rest⟩ := found
    cases hSteps : steps? rest.length rest with
    | none => simp [hName, hSteps] at h
    | some steps =>
      obtain rfl : ⟨String.ofList root, steps⟩ = p := by simpa [hName, hSteps] using h
      obtain ⟨hSplit, hNe, hRoot⟩ := identifier?_spec hName
      obtain ⟨after, tail, rfl, hAfter, hTail⟩ := steps?_start hSteps
      let before := path.toList.takeWhile Text.isBlank
      have hBefore : ∀ c ∈ before, Text.isBlank c = true := fun c hc =>
        List.all_eq_true.mp List.all_takeWhile c hc
      have hPath : path.toList = before ++ root ++ after ++ tail := by
        rw [List.append_assoc, List.append_assoc, ← hSplit, Text.trimLeft]
        exact List.takeWhile_append_dropWhile.symm
      have hFront : path.toList.takeWhile (fun c => !isSeparator c) = before ++ root ++ after := by
        rw [hPath, List.takeWhile_append_of_pos]
        · have hNil : tail.takeWhile (fun c => !isSeparator c) = [] := by
            cases tail with
            | nil => rfl
            | cons c cs => rw [List.takeWhile_cons_of_neg (by simp [hTail c rfl])]
          rw [hNil, List.append_nil]
        · intro c hc
          rw [Bool.not_eq_true']
          rcases List.mem_append.mp hc with hc | hc
          · rcases List.mem_append.mp hc with hc | hc
            · exact not_separator_of_blank (hBefore c hc)
            · exact (hRoot c hc).2
          · exact not_separator_of_blank (hAfter c hc)
      have hTrim : Text.trim (path.toList.takeWhile fun c => !(c == '.' || c == '[')) = root := by
        change Text.trim (path.toList.takeWhile fun c => !isSeparator c) = root
        rw [hFront, Text.trim_of_blanks hBefore (fun c hc => (hRoot c hc).1) hAfter]
      simp only [ValueSource.root?, ValueSource.rootOfPath, hTrim]
      rw [if_neg (by simpa using hNe)]

end DataPath

end LiveMarkup
