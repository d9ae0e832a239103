import LiveMarkup.Json.Value

/-!
# Exact values

Two equal floating-point numbers may still be the two zeros. A value without floating-point numbers
is equal to no other value.
-/

namespace LiveMarkup.Value

mutual

/-- There is no floating-point number in the value. -/
def isExact : Value → Bool
  | number (.float _) => false
  | array items => areExact items
  | object fields => fieldsExact fields
  | _ => true

def areExact : List Value → Bool
  | [] => true
  | v :: vs => v.isExact && areExact vs

def fieldsExact : List (String × Value) → Bool
  | [] => true
  | (_, v) :: fields => v.isExact && fieldsExact fields

end

mutual

/-- What is equal to a value without floating-point numbers is that value. -/
theorem eq_of_exact : ∀ {v w : Value}, w.isExact = true → v.same w = true → v = w
  | null, null, _, _ => rfl
  | bool _, bool _, _, h => congrArg bool (beq_iff_eq.mp h)
  | number (.int _), number (.int _), _, h => congrArg (number ∘ Number.int) (beq_iff_eq.mp h)
  | _, number (.float _), hExact, _ => absurd hExact Bool.false_ne_true
  | string _, string _, _, h => congrArg string (beq_iff_eq.mp h)
  | array _, array _, hExact, h => congrArg array (eq_of_areExact hExact h)
  | object _, object _, hExact, h => congrArg object (eq_of_fieldsExact hExact h)

theorem eq_of_areExact : ∀ {vs ws : List Value}, areExact ws = true → sameItems vs ws = true →
    vs = ws
  | [], [], _, _ => rfl
  | _ :: _, _ :: _, hExact, h => by
    obtain ⟨hHead, hTail⟩ := Bool.and_eq_true_iff.mp h
    obtain ⟨hFirst, hRest⟩ := Bool.and_eq_true_iff.mp hExact
    rw [eq_of_exact hFirst hHead, eq_of_areExact hRest hTail]

theorem eq_of_fieldsExact : ∀ {as bs : List (String × Value)}, fieldsExact bs = true →
    sameFields as bs = true → as = bs
  | [], [], _, _ => rfl
  | (_, _) :: _, (_, _) :: _, hExact, h => by
    obtain ⟨hHead, hTail⟩ := Bool.and_eq_true_iff.mp h
    obtain ⟨hName, hValue⟩ := Bool.and_eq_true_iff.mp hHead
    obtain ⟨hFirst, hRest⟩ := Bool.and_eq_true_iff.mp hExact
    rw [beq_iff_eq.mp hName, eq_of_exact hFirst hValue, eq_of_fieldsExact hRest hTail]

end

/-- Both conditions at once, as they are computed for closed values. -/
theorem eq_of_beq_exact {v w : Value} (h : (w.isExact && v.same w) = true) : v = w := by
  obtain ⟨hExact, hSame⟩ := Bool.and_eq_true_iff.mp h
  exact eq_of_exact hExact hSame

/-- The same for a value that may be missing. -/
theorem eq_some_of_beq_exact {v : Option Value} {w : Value}
    (h : v.any (fun v => w.isExact && v.same w) = true) : v = some w := by
  cases v with
  | none => cases h
  | some v => exact congrArg some (eq_of_beq_exact h)

end LiveMarkup.Value
