import LiveMarkup.Data.Path
import LiveMarkup.Proofs.Text.Splitting
import Mathlib.Data.List.Forall2

/-!
# The grammar of paths

A path is an identifier and then steps: a dot and an identifier, a name in quotes between brackets,
or a number between brackets. Blanks are free in front of everything, inside the brackets and at the
end. Paths are read exactly from their printed forms; what the reader forgives beyond them are two
different quotes around a name and zeros in front of a number.

* `DataPath.Step.Form`, `DataPath.Written`: the texts of a step and of a path;
* `DataPath.step?_of_form`, `DataPath.form_of_step?`: the reader of a step against its texts;
* `DataPath.parse?_grammar`: which texts are read, and as what.
-/

namespace LiveMarkup

namespace DataPath

open Text (Blanks Begins Stops Identifier isBlank isIdentRest)

/-! ## Numbers -/

theorem exists_digitChar {c : Char} (h : c.isDigit = true) : ∃ k < 10, c = Nat.digitChar k := by
  simp only [Char.isDigit, Bool.and_eq_true, decide_eq_true_eq, ge_iff_le,
    UInt32.le_iff_toNat_le] at h
  have hLow : 48 ≤ c.toNat := h.1
  have hHigh : c.toNat ≤ 57 := h.2
  refine ⟨c.toNat - 48, by omega, ?_⟩
  have hChar : (Nat.digitChar (c.toNat - 48)).toNat = 48 + (c.toNat - 48) :=
    Nat.toNat_digitChar_of_lt_ten (by omega)
  apply Char.toNat_inj.mp
  omega

/-- Digits are the written form of their number with zeros in front. -/
theorem exists_zeros {digits : List Char} (hNe : digits ≠ [])
    (hDigits : ∀ c ∈ digits, c.isDigit = true) :
    ∃ zeros, digits =
      List.replicate zeros '0' ++ Nat.toDigits 10 (Nat.ofDigitChars 10 digits 0) := by
  induction digits using List.reverseRecOn with
  | nil => exact absurd rfl hNe
  | append_singleton ds d ih =>
    obtain ⟨k, hk, rfl⟩ := exists_digitChar (hDigits d (by simp))
    have hLast : Nat.ofDigitChars 10 (ds ++ [k.digitChar]) 0 =
        10 * Nat.ofDigitChars 10 ds 0 + k := by
      rw [Nat.ofDigitChars_append, Nat.ofDigitChars_cons_digitChar_of_lt_ten hk,
        Nat.ofDigitChars_nil]
    rw [hLast]
    by_cases hds : ds = []
    · subst hds
      refine ⟨0, ?_⟩
      simp [Nat.toDigits_of_lt_base hk]
    · obtain ⟨zeros, hZeros⟩ := ih hds fun c hc => hDigits c (List.mem_append_left _ hc)
      rcases Nat.eq_zero_or_pos (Nat.ofDigitChars 10 ds 0) with hZero | hPos
      · refine ⟨zeros + 1, ?_⟩
        conv_lhs => rw [hZeros]
        rw [hZero, Nat.toDigits_zero, Nat.mul_zero, Nat.zero_add, Nat.toDigits_of_lt_base hk,
          List.replicate_succ', List.append_assoc]
      · refine ⟨zeros, ?_⟩
        conv_lhs => rw [hZeros]
        rw [List.append_assoc, ← Nat.toDigits_append_toDigits (by decide) hPos hk,
          Nat.toDigits_of_lt_base hk]

theorem index?_eq_some_iff {digits : List Char} {n : Nat} :
    index? digits = some n ↔ (∀ c ∈ digits, c.isDigit = true) ∧
      Nat.ofDigitChars 10 digits 0 = n ∧ n < UInt64.size := by
  have hFold : digits.foldl (fun n d => n * 10 + (d.toNat - '0'.toNat)) 0 =
      Nat.ofDigitChars 10 digits 0 := by
    simp only [Nat.ofDigitChars_eq_foldl, Nat.mul_comm]
  rw [index?, hFold, ← List.all_eq_true]
  by_cases hAll : digits.all Char.isDigit = true
  · simp only [hAll, if_true, true_and]
    split
    · rename_i hLess
      constructor
      · intro h
        obtain rfl := Option.some.inj h
        exact ⟨rfl, hLess⟩
      · rintro ⟨rfl, -⟩
        rfl
    · rename_i hNot
      simp only [reduceCtorEq, false_iff]
      rintro ⟨rfl, hLess⟩
      exact hNot hLess
  · simp [hAll]

theorem isDecimalDigit_of_isDigit {c : Char} (h : c.isDigit = true) :
    Text.isDecimalDigit c = true := by
  obtain ⟨k, hk, rfl⟩ := exists_digitChar h
  have hAll : ∀ k < 10, Text.isDecimalDigit (Nat.digitChar k) = true := by decide +kernel
  exact hAll k hk

/-! ## The texts of a step -/

namespace Step

/-- What stands between the brackets of a step: a name in quotes or a number. A lenient text may
have two different quotes, and zeros in front of a number. -/
inductive Inside (lenient : Bool) : Step → List Char → Prop where
  | name {name : String} {q q' : Char} (hOpen : isQuote q = true) (hClose : isQuote q' = true)
      (hSame : lenient = false → q' = q) (hName : ∀ c ∈ name.toList, isQuote c = false) :
      Inside lenient (.key name) (q :: (name.toList ++ [q']))
  | number {n zeros : Nat} (hZeros : lenient = false → zeros = 0) (hSize : n < UInt64.size) :
      Inside lenient (.index n) (List.replicate zeros '0' ++ Nat.toDigits 10 n)

/-- The texts of a step, with the blanks in front of it. -/
inductive Form (lenient : Bool) : Step → List Char → Prop where
  | dot {name : String} {b₀ b₁ : List Char} (h₀ : Blanks b₀) (h₁ : Blanks b₁)
      (hName : Identifier name.toList) : Form lenient (.key name) (b₀ ++ '.' :: (b₁ ++ name.toList))
  | bracket {s : Step} {b₀ b₁ inside b₂ : List Char} (h₀ : Blanks b₀) (h₁ : Blanks b₁)
      (hInside : Inside lenient s inside) (h₂ : Blanks b₂) :
      Form lenient s (b₀ ++ '[' :: (b₁ ++ (inside ++ (b₂ ++ [']']))))

end Step

/-! ## Reading a step -/

section

variable {cs rest text : List Char} {s : Step}

theorem closing?_eq_some_iff :
    closing? cs = some rest ↔ ∃ gap, Blanks gap ∧ cs = gap ++ ']' :: rest := by
  constructor
  · intro h
    obtain ⟨gap, hGap, hEq⟩ := Text.exists_trimLeft cs
    refine ⟨gap, hGap, ?_⟩
    rw [hEq, Text.after?_eq_append h]
    rfl
  · rintro ⟨gap, hGap, rfl⟩
    have hBegins : Begins (']' :: rest) := by
      rintro c ⟨⟩
      decide
    rw [closing?, hGap.trimLeft_append hBegins]
    exact Text.after?_append [']'] rest

theorem stops_closing {p : Char → Bool} {gap : List Char} (hGap : Blanks gap)
    (hBlank : ∀ c, isBlank c = true → p c = false) (hBracket : p ']' = false) :
    Text.Ends p (gap ++ ']' :: rest) := by
  intro c hc
  cases gap with
  | nil =>
    obtain rfl : ']' = c := by simpa using hc
    exact hBracket
  | cons d gap =>
    obtain rfl : d = c := by simpa using hc
    exact hBlank d (hGap d List.mem_cons_self)

theorem quote_cases {q : Char} (h : isQuote q = true) : q = '\'' ∨ q = '"' := by
  simpa [isQuote] using h

theorem not_decimalDigit_of_quote {q : Char} (h : isQuote q = true) :
    Text.isDecimalDigit q = false := by
  rcases quote_cases h with rfl | rfl <;> decide +kernel

theorem not_blank_of_quote {q : Char} (h : isQuote q = true) : isBlank q = false := by
  rcases quote_cases h with rfl | rfl <;> decide

/-- Digits between brackets are read as their number. -/
theorem bracketStep?_digits {b₁ digits b₂ : List Char} {n : Nat} (h₁ : Blanks b₁)
    (hNe : digits ≠ []) (hDigits : ∀ c ∈ digits, Text.isDecimalDigit c = true)
    (hIndex : index? digits = some n) (h₂ : Blanks b₂) :
    bracketStep? (b₁ ++ (digits ++ (b₂ ++ ']' :: rest))) = some (.index n, rest) := by
  have hBegins : Begins (digits ++ (b₂ ++ ']' :: rest)) := by
    apply Begins.append _ hNe
    intro c hc
    apply Bool.eq_false_iff.mpr
    intro hBlank
    have hDigit := hDigits c (List.mem_of_mem_head? hc)
    rw [Text.not_decimalDigit_of_blank hBlank] at hDigit
    cases hDigit
  have hEnds : Text.Ends Text.isDecimalDigit (b₂ ++ ']' :: rest) :=
    stops_closing h₂ (fun _ => Text.not_decimalDigit_of_blank) (by decide +kernel)
  have hTake := Text.takeWhile_append_ends hDigits hEnds
  have hDrop := Text.dropWhile_append_ends hDigits hEnds
  have hClose : closing? (b₂ ++ ']' :: rest) = some rest :=
    closing?_eq_some_iff.mpr ⟨b₂, h₂, rfl⟩
  rw [bracketStep?, h₁.trimLeft_append hBegins]
  obtain ⟨d, ds, rfl⟩ := List.exists_cons_of_ne_nil hNe
  rw [List.cons_append] at hTake hDrop ⊢
  simp only [hDigits d List.mem_cons_self, if_true, hTake, hDrop, hIndex, hClose,
    Option.bind_eq_bind, Option.bind_some]
  rfl

/-- Between brackets, a text from quote to quote is read as a name. -/
theorem bracketStep?_name {b₁ name b₂ : List Char} {q q' : Char} (h₁ : Blanks b₁)
    (hOpen : isQuote q = true) (hName : ∀ c ∈ name, isQuote c = false)
    (hClose : isQuote q' = true) (h₂ : Blanks b₂) :
    bracketStep? (b₁ ++ q :: (name ++ q' :: (b₂ ++ ']' :: rest))) =
      some (.key (String.ofList name), rest) := by
  have hBegins : Begins (q :: (name ++ q' :: (b₂ ++ ']' :: rest))) := by
    rintro c ⟨⟩
    exact not_blank_of_quote hOpen
  have hInner : ∀ c ∈ name, (!isQuote c) = true := by
    intro c hc
    rw [hName c hc]
    rfl
  have hEnds : Text.Ends (fun d => !isQuote d) (q' :: (b₂ ++ ']' :: rest)) := by
    rintro c ⟨⟩
    simp [hClose]
  have hEnd : closing? (b₂ ++ ']' :: rest) = some rest := closing?_eq_some_iff.mpr ⟨b₂, h₂, rfl⟩
  rw [bracketStep?, h₁.trimLeft_append hBegins]
  simp only [not_decimalDigit_of_quote hOpen, hOpen, Bool.false_eq_true, if_false, if_true,
    Text.takeWhile_append_ends hInner hEnds, Text.dropWhile_append_ends hInner hEnds, hEnd,
    Option.bind_eq_bind, Option.bind_some]
  rfl

/-- What stands between the brackets of a step is read as the step. -/
theorem bracketStep?_of_inside {b₁ inside b₂ : List Char} (h₁ : Blanks b₁)
    (hInside : s.Inside true inside) (h₂ : Blanks b₂) :
    bracketStep? (b₁ ++ (inside ++ (b₂ ++ ']' :: rest))) = some (s, rest) := by
  cases hInside with
  | @name name q q' hOpen hClose _ hName =>
    have hRead : bracketStep? (b₁ ++ q :: (name.toList ++ q' :: (b₂ ++ ']' :: rest))) =
        some (.key (String.ofList name.toList), rest) :=
      bracketStep?_name h₁ hOpen hName hClose h₂
    rw [String.ofList_toList] at hRead
    simpa using hRead
  | @number n zeros _ hSize =>
    have hDigits : ∀ c ∈ List.replicate zeros '0' ++ Nat.toDigits 10 n, c.isDigit = true := by
      intro c hc
      rcases List.mem_append.mp hc with hZero | hDigit
      · rw [List.eq_of_mem_replicate hZero]
        rfl
      · exact Nat.isDigit_of_mem_toDigits (by decide) (by decide) hDigit
    apply bracketStep?_digits h₁ (by simp) (fun c hc => isDecimalDigit_of_isDigit (hDigits c hc))
      _ h₂
    apply index?_eq_some_iff.mpr
    refine ⟨hDigits, ?_, hSize⟩
    rw [Nat.ofDigitChars_append, Nat.ofDigitChars_replicate_zero, Nat.mul_zero,
      Nat.ofDigitChars_ten_toDigits]

/-- What is read behind an opening bracket stands between it and a closing one. -/
theorem inside_of_bracketStep? (h : bracketStep? cs = some (s, rest)) :
    ∃ b₁ inside b₂, Blanks b₁ ∧ s.Inside true inside ∧ Blanks b₂ ∧
      cs = b₁ ++ (inside ++ (b₂ ++ ']' :: rest)) := by
  obtain ⟨b₁, h₁, hEq⟩ := Text.exists_trimLeft cs
  rw [bracketStep?] at h
  split at h
  · cases h
  rename_i c tail hTail
  rw [hTail] at hEq
  split at h
  · rename_i hFirst
    simp only [Option.bind_eq_bind, Option.bind_eq_some_iff] at h
    obtain ⟨n, hIndex, after, hClose, hPure⟩ := h
    obtain ⟨rfl, rfl⟩ := Prod.mk.inj (Option.some.inj hPure)
    obtain ⟨b₂, h₂, hAfter⟩ := closing?_eq_some_iff.mp hClose
    obtain ⟨hDigits, hValue, hSize⟩ := index?_eq_some_iff.mp hIndex
    have hNe : (c :: tail).takeWhile Text.isDecimalDigit ≠ [] := by
      rw [List.takeWhile_cons_of_pos hFirst]
      exact List.cons_ne_nil _ _
    obtain ⟨zeros, hZeros⟩ := exists_zeros hNe hDigits
    rw [hValue] at hZeros
    refine ⟨b₁, (c :: tail).takeWhile Text.isDecimalDigit, b₂, h₁, ?_, h₂, ?_⟩
    · rw [hZeros]
      exact .number (by simp) hSize
    · rw [← hAfter, List.takeWhile_append_dropWhile]
      exact hEq
  · split at h
    · rename_i hOpen
      split at h
      · cases h
      rename_i q' more hMore
      simp only [Option.bind_eq_bind, Option.bind_eq_some_iff] at h
      obtain ⟨after, hClose, hPure⟩ := h
      obtain ⟨rfl, rfl⟩ := Prod.mk.inj (Option.some.inj hPure)
      obtain ⟨b₂, h₂, rfl⟩ := closing?_eq_some_iff.mp hClose
      have hSplit := List.takeWhile_append_dropWhile (p := fun d => !isQuote d) (l := tail)
      have hQuote : isQuote q' = true := by
        have hHead := List.head?_dropWhile_not (fun d => !isQuote d) tail
        rw [hMore] at hHead
        simpa using hHead
      rw [hMore] at hSplit
      refine ⟨b₁, c :: (tail.takeWhile (fun d => !isQuote d) ++ [q']), b₂, h₁, ?_, h₂, ?_⟩
      · have hInside :
            Step.Inside true (.key (String.ofList (tail.takeWhile fun d => !isQuote d)))
              (c :: ((String.ofList (tail.takeWhile fun d => !isQuote d)).toList ++ [q'])) := by
          apply Step.Inside.name hOpen hQuote (by simp)
          intro d hd
          rw [String.toList_ofList] at hd
          simpa using List.mem_takeWhile_imp hd
        rwa [String.toList_ofList] at hInside
      · rw [hEq]
        conv_lhs => rw [← hSplit]
        simp
    · cases h

/-- The texts of a step are read as the step, unless what follows goes on with its name. -/
theorem step?_of_form (h : s.Form true text) (hRest : Stops rest) :
    step? (text ++ rest) = some (s, rest) := by
  cases h with
  | @dot name b₀ b₁ h₀ h₁ hName =>
    have hBegins : Begins ('.' :: (b₁ ++ (name.toList ++ rest))) := by
      rintro c ⟨⟩
      decide
    have hRead : Text.identifier? (name.toList ++ rest) = some (name.toList, rest) :=
      Text.identifier?_eq_some_iff.mpr ⟨hName, rfl, hRest⟩
    rw [List.append_assoc, List.cons_append, List.append_assoc, step?, h₀.trimLeft_append hBegins]
    simp only [h₁.trimLeft_append (hName.begins rest), hRead, Option.bind_eq_bind, Option.bind_some,
      String.ofList_toList]
    rfl
  | @bracket s b₀ b₁ inside b₂ h₀ h₁ hInside h₂ =>
    have hText : b₀ ++ '[' :: (b₁ ++ (inside ++ (b₂ ++ [']']))) ++ rest =
        b₀ ++ '[' :: (b₁ ++ (inside ++ (b₂ ++ ']' :: rest))) := by simp
    have hBegins : Begins ('[' :: (b₁ ++ (inside ++ (b₂ ++ ']' :: rest)))) := by
      rintro c ⟨⟩
      decide
    rw [hText, step?, h₀.trimLeft_append hBegins]
    exact bracketStep?_of_inside h₁ hInside h₂

/-- What is read as a step is a text of it. -/
theorem form_of_step? (h : step? cs = some (s, rest)) :
    ∃ text, s.Form true text ∧ cs = text ++ rest := by
  obtain ⟨b₀, h₀, hEq⟩ := Text.exists_trimLeft cs
  rw [step?] at h
  split at h
  · rename_i tail hTail
    simp only [Option.bind_eq_bind, Option.bind_eq_some_iff, Prod.exists] at h
    obtain ⟨name, after, hName, hPure⟩ := h
    obtain ⟨rfl, rfl⟩ := Prod.mk.inj (Option.some.inj hPure)
    obtain ⟨b₁, h₁, hBehind⟩ := Text.exists_trimLeft tail
    obtain ⟨hName, hAfter, -⟩ := Text.identifier?_eq_some_iff.mp hName
    refine ⟨b₀ ++ '.' :: (b₁ ++ name), ?_, ?_⟩
    · have hForm : Step.Form true (.key (String.ofList name))
          (b₀ ++ '.' :: (b₁ ++ (String.ofList name).toList)) :=
        .dot h₀ h₁ (by rwa [String.toList_ofList])
      rwa [String.toList_ofList] at hForm
    · rw [hEq, hTail, hBehind, hAfter]
      simp
  · rename_i tail hTail
    obtain ⟨b₁, inside, b₂, h₁, hInside, h₂, rfl⟩ := inside_of_bracketStep? h
    refine ⟨_, .bracket h₀ h₁ hInside h₂, ?_⟩
    rw [hEq, hTail]
    simp
  · cases h

end

/-! ## Reading steps -/

section

variable {lenient : Bool} {s : Step} {text rest after : List Char} {steps : List Step}
  {forms : List (List Char)}

/-- In front of a step there are blanks and then a dot or a bracket. -/
theorem Step.Form.exists_mark (h : s.Form lenient text) :
    ∃ gap mark more, Blanks gap ∧ (mark = '.' ∨ mark = '[') ∧ text = gap ++ mark :: more := by
  cases h with
  | dot h₀ => exact ⟨_, _, _, h₀, .inl rfl, rfl⟩
  | bracket h₀ => exact ⟨_, _, _, h₀, .inr rfl, rfl⟩

theorem Step.Form.stops (h : s.Form lenient text) (rest : List Char) : Stops (text ++ rest) := by
  obtain ⟨gap, mark, more, hGap, hMark, rfl⟩ := h.exists_mark
  rw [List.append_assoc]
  apply hGap.stops
  rintro c ⟨⟩
  rcases hMark with rfl | rfl <;> decide +kernel

theorem Step.Form.not_blanks (h : s.Form lenient text) (rest : List Char) :
    ¬ Blanks (text ++ rest) := by
  intro hBlanks
  obtain ⟨gap, mark, more, -, hMark, rfl⟩ := h.exists_mark
  have hBlank := hBlanks mark (by simp)
  rcases hMark with rfl | rfl <;> exact absurd hBlank (by decide)

theorem stops_forms (h : List.Forall₂ (Step.Form lenient) steps forms) (hAfter : Blanks after) :
    Stops (forms.flatten ++ after) := by
  cases h with
  | nil =>
    have hEnd : Stops (after ++ []) := hAfter.stops (by rintro c ⟨⟩)
    rwa [List.append_nil] at hEnd
  | cons hForm hForms =>
    rw [List.flatten_cons, List.append_assoc]
    exact hForm.stops _

theorem steps?_of_blanks {n : Nat} (h : Blanks rest) : steps? n rest = some [] := by
  have hAll := Text.blanks_iff_all.mp h
  cases n <;> exact if_pos hAll

theorem steps?_succ {n : Nat} (h : ¬ Blanks rest) :
    steps? (n + 1) rest = (step? rest).bind fun first => (steps? n first.2).map (first.1 :: ·) := by
  have hAll : ¬ rest.all Text.isBlank = true := fun hAll => h (Text.blanks_iff_all.mpr hAll)
  refine (if_neg hAll).trans ?_
  cases step? rest with
  | none => rfl
  | some first =>
    change (steps? n first.2).bind _ = (steps? n first.2).map _
    rw [Option.map_eq_bind]
    rfl

/-- The texts of steps are read as the steps, and nothing of the text is left. -/
theorem steps?_of_forms {n : Nat} (h : List.Forall₂ (Step.Form true) steps forms)
    (hAfter : Blanks after) (hLength : (forms.flatten ++ after).length ≤ n) :
    steps? n (forms.flatten ++ after) = some steps := by
  induction h generalizing n with
  | nil => exact steps?_of_blanks hAfter
  | @cons s text steps forms hForm hForms ih =>
    rw [List.flatten_cons, List.append_assoc] at hLength ⊢
    obtain ⟨gap, mark, more, -, -, hText⟩ := hForm.exists_mark
    have hLess : (forms.flatten ++ after).length < n := by
      rw [hText] at hLength
      simp only [List.length_append, List.length_cons] at hLength ⊢
      omega
    obtain ⟨n, rfl⟩ := Nat.exists_eq_succ_of_ne_zero (Nat.ne_zero_of_lt hLess)
    rw [steps?_succ (hForm.not_blanks _), step?_of_form hForm (stops_forms hForms hAfter)]
    simp only [Option.bind_some, ih (Nat.le_of_lt_succ hLess), Option.map_some]

/-- What is read as steps is a text of each of them, and then blanks. -/
theorem forms_of_steps? {n : Nat} (h : steps? n rest = some steps) :
    ∃ forms after, List.Forall₂ (Step.Form true) steps forms ∧ Blanks after ∧
      rest = forms.flatten ++ after := by
  induction n generalizing rest steps with
  | zero =>
    change (if rest.all Text.isBlank then some [] else none) = some steps at h
    split at h
    · rename_i hAll
      obtain rfl := Option.some.inj h
      exact ⟨[], rest, .nil, Text.blanks_iff_all.mpr hAll, rfl⟩
    · cases h
  | succ n ih =>
    by_cases hBlanks : Blanks rest
    · rw [steps?_of_blanks hBlanks] at h
      obtain rfl := Option.some.inj h
      exact ⟨[], rest, .nil, hBlanks, rfl⟩
    · rw [steps?_succ hBlanks, Option.bind_eq_some_iff] at h
      obtain ⟨⟨first, left⟩, hFirst, hMap⟩ := h
      obtain ⟨others, hOthers, rfl⟩ := Option.map_eq_some_iff.mp hMap
      obtain ⟨text, hForm, rfl⟩ := form_of_step? hFirst
      obtain ⟨forms, after, hForms, hAfter, hLeft⟩ := ih hOthers
      have hLeft : left = forms.flatten ++ after := hLeft
      refine ⟨text :: forms, after, .cons hForm hForms, hAfter, ?_⟩
      rw [hLeft, List.flatten_cons, List.append_assoc]

end

/-! ## The texts of a path -/

/-- The texts of a path: its name, its steps, and blanks at both ends. -/
inductive Written (lenient : Bool) : DataPath → List Char → Prop where
  | mk {p : DataPath} {before after : List Char} {forms : List (List Char)}
      (hBefore : Blanks before) (hRoot : Identifier p.root.toList)
      (hForms : List.Forall₂ (Step.Form lenient) p.steps forms) (hAfter : Blanks after) :
      Written lenient p (before ++ (p.root.toList ++ (forms.flatten ++ after)))

/-- A step that has a text: no name has a quote in it, and a number fits 64 bits. -/
def Step.Plain : Step → Prop
  | key name => ∀ c ∈ name.toList, isQuote c = false
  | index n => n < UInt64.size

/-- A path that has a text. -/
structure Plain (p : DataPath) : Prop where
  root : Identifier p.root.toList
  steps : ∀ s ∈ p.steps, s.Plain

/-- A step between brackets. -/
def Step.print : Step → List Char
  | key name => '[' :: '\'' :: (name.toList ++ ['\'', ']'])
  | index n => '[' :: (Nat.toDigits 10 n ++ [']'])

/-- A path with all its steps between brackets, and without blanks. -/
def print (p : DataPath) : String :=
  String.ofList (p.root.toList ++ (p.steps.map Step.print).flatten)

section

variable {lenient : Bool} {p : DataPath} {s : Step} {text : List Char} {path : String}

theorem Step.Inside.digits {n : Nat} (h : n < UInt64.size) :
    (Step.index n).Inside false (Nat.toDigits 10 n) := by
  have hInside : (Step.index n).Inside false (List.replicate 0 '0' ++ Nat.toDigits 10 n) :=
    .number (fun _ => rfl) h
  exact hInside

theorem Step.Inside.of_strict (h : s.Inside false text) : s.Inside true text := by
  cases h with
  | name hOpen hClose _ hName => exact .name hOpen hClose (by simp) hName
  | number _ hSize => exact .number (by simp) hSize

theorem Step.Form.of_strict (h : s.Form false text) : s.Form true text := by
  cases h with
  | dot h₀ h₁ hName => exact .dot h₀ h₁ hName
  | bracket h₀ h₁ hInside h₂ => exact .bracket h₀ h₁ hInside.of_strict h₂

theorem Written.of_strict (h : Written false p text) : Written true p text := by
  cases h with
  | mk hBefore hRoot hForms hAfter =>
    exact .mk hBefore hRoot (hForms.imp fun _ _ hForm => hForm.of_strict) hAfter

theorem Step.Form.plain (h : s.Form lenient text) : s.Plain := by
  cases h with
  | dot h₀ h₁ hName =>
    intro c hc
    apply Bool.eq_false_iff.mpr
    intro hQuote
    rcases quote_cases hQuote with rfl | rfl
    · exact hName.not_mem (by decide) (by decide +kernel) hc
    · exact hName.not_mem (by decide) (by decide +kernel) hc
  | bracket h₀ h₁ hInside h₂ =>
    cases hInside with
    | name _ _ _ hName => exact hName
    | number _ hSize => exact hSize

theorem Written.plain (h : Written lenient p text) : p.Plain := by
  cases h with
  | mk hBefore hRoot hForms hAfter =>
    constructor
    · exact hRoot
    · intro s hs
      obtain ⟨i, hi, rfl⟩ := List.getElem_of_mem hs
      exact (hForms.get hi (hForms.length_eq ▸ hi)).plain

theorem Step.Plain.form (h : s.Plain) : s.Form false s.print := by
  have hNone : Blanks [] := by
    intro c hc
    cases hc
  cases s with
  | key name =>
    have hInside : (Step.key name).Inside false ('\'' :: (name.toList ++ ['\''])) :=
      .name rfl rfl (fun _ => rfl) h
    have hForm := Step.Form.bracket hNone hNone hInside hNone
    simpa [Step.print] using hForm
  | index n =>
    exact Step.Form.bracket hNone hNone (Step.Inside.digits h) hNone

theorem Plain.written (h : p.Plain) : Written false p p.print.toList := by
  have hNone : Blanks [] := by
    intro c hc
    cases hc
  have hForms : List.Forall₂ (Step.Form false) p.steps (p.steps.map Step.print) := by
    rw [List.forall₂_map_right_iff, List.forall₂_same]
    intro s hs
    exact (h.steps s hs).form
  have hWritten := Written.mk hNone h.root hForms hNone
  rwa [List.append_nil, List.nil_append, ← String.toList_ofList (l := _ ++ _)] at hWritten

theorem parse?_eq_some_iff : parse? path = some p ↔ Written true p path.toList := by
  constructor
  · intro h
    rw [parse?] at h
    simp only [Option.bind_eq_bind, Option.bind_eq_some_iff, Prod.exists] at h
    obtain ⟨root, rest, hRoot, steps, hSteps, hPure⟩ := h
    obtain rfl := Option.some.inj hPure
    obtain ⟨before, hBefore, hPath⟩ := Text.exists_trimLeft path.toList
    obtain ⟨hRoot, hTrim, -⟩ := Text.identifier?_eq_some_iff.mp hRoot
    obtain ⟨forms, after, hForms, hAfter, rfl⟩ := forms_of_steps? hSteps
    rw [hPath, hTrim]
    have hWritten := Written.mk (p := ⟨String.ofList root, steps⟩) hBefore
      (by rwa [String.toList_ofList]) hForms hAfter
    rwa [String.toList_ofList] at hWritten
  · intro h
    generalize hText : path.toList = text at h
    cases h with
    | mk hBefore hRoot hForms hAfter =>
      have hName := Text.identifier?_eq_some_iff.mpr ⟨hRoot, rfl, stops_forms hForms hAfter⟩
      rw [parse?, hText, hBefore.trimLeft_append (hRoot.begins _), hName]
      simp only [Option.bind_eq_bind, Option.bind_some, steps?_of_forms hForms hAfter le_rfl,
        String.ofList_toList]
      rfl

end

/-- The reader takes exactly the texts of the grammar, each for its path and to its end. A text
without two different quotes around a name and without zeros in front of a number is read so in
particular, and every path with an identifier for its root, names without quotes and numbers of
64 bits has such a text; no other path is read from any text. -/
theorem parse?_grammar :
    (∀ path p, parse? path = some p ↔ Written true p path.toList) ∧
      (∀ path p, Written false p path.toList → parse? path = some p) ∧
      (∀ p, Plain p → Written false p p.print.toList) ∧
      ∀ path p, parse? path = some p → Plain p := by
  refine ⟨fun path p => parse?_eq_some_iff, ?_, fun p => Plain.written, ?_⟩
  · intro path p h
    exact parse?_eq_some_iff.mpr h.of_strict
  · intro path p h
    exact (parse?_eq_some_iff.mp h).plain

theorem parse?_blanks_and_quotes :
    Written false ⟨"user", [.key "tags", .index 1, .key "x y"]⟩
        " user . tags[ 1 ][\"x y\" ]\t".toList ∧
      parse? " user . tags[ 1 ][\"x y\" ]\t" =
        some ⟨"user", [.key "tags", .index 1, .key "x y"]⟩ := by
  have hBlanks : Blanks [' '] ∧ Blanks [] ∧ Blanks ['\t'] := by
    simp only [Text.blanks_iff_all]
    decide
  obtain ⟨hOne, hNone, hTab⟩ := hBlanks
  have hUser : Identifier "user".toList :=
    @Identifier.mk 'u' "ser".toList rfl (List.all_eq_true.mp (by decide +kernel))
  have hTags : Identifier "tags".toList :=
    @Identifier.mk 't' "ags".toList rfl (List.all_eq_true.mp (by decide +kernel))
  have hName : ∀ c ∈ "x y".toList, isQuote c = false := by simp [isQuote]
  have hForms : List.Forall₂ (Step.Form false) [.key "tags", .index 1, .key "x y"]
      [" . tags".toList, "[ 1 ]".toList, "[\"x y\" ]".toList] :=
    .cons (.dot hOne hOne hTags)
      (.cons (.bracket hNone hOne (.digits (by decide)) hOne)
        (.cons (.bracket hNone hNone (.name rfl rfl (fun _ => rfl) hName) hOne) .nil))
  have hWritten := Written.mk (p := ⟨"user", _⟩) hOne hUser hForms hTab
  exact ⟨hWritten, parse?_grammar.2.1 _ _ hWritten⟩

end DataPath

end LiveMarkup
