import LiveMarkup.Text.Blank
import LiveMarkup.Text.Word
import Mathlib.Data.List.DropRight

/-!
# Taking texts apart

Trimming takes blanks off a text at both ends and nothing else. A text is cut where a pattern stands
for the first time, into pieces at every separator, and into words at runs of blanks. What a scanner
takes of a text ends where a character of another class follows.

No character of an identifier is blank. So a text that begins with blanks, goes on with an
identifier and then with something else is taken apart in one way only.

* `Text.Trimmed`: a text that trimming leaves as it is;
* `Text.Trimmed.trim_eq`, `Text.trim_of_blanks`: what is left of a text with blanks around it;
* `Text.cut_append_pattern`: a pattern is found right where it stands;
* `Text.Ends`: a text does not go on with a class of characters;
* `Text.pieces_eq_cons_iff`, `Text.words_eq_filter`: pieces and words, told without a scanner;
* `Text.Blanks`, `Text.Gap`, `Text.Identifier`: stretches of a text;
* `Text.Begins`, `Text.Stops`: what comes behind them;
* `Text.identifier?_eq_some_iff`: the identifier in front of a text.
-/

/-! ## Trimming texts and cutting them into pieces -/

namespace LiveMarkup.Text

/-! ### Trimming -/

theorem trimLeft_append_of_blank {blanks cs : List Char} (h : ∀ c ∈ blanks, isBlank c = true) :
    trimLeft (blanks ++ cs) = trimLeft cs := by
  rw [trimLeft, List.dropWhile_append_of_pos h, trimLeft]

theorem trimRight_append_of_blank {blanks cs : List Char} (h : ∀ c ∈ blanks, isBlank c = true) :
    trimRight (cs ++ blanks) = trimRight cs := by
  rw [trimRight, List.reverse_append, List.dropWhile_append_of_pos, trimRight]
  intro c hc
  exact h c (List.mem_reverse.mp hc)

theorem trimLeft_eq_self {c : Char} {cs : List Char} (h : isBlank c = false) :
    trimLeft (c :: cs) = c :: cs := by
  rw [trimLeft, List.dropWhile_cons_of_neg (by simp [h])]

theorem trimRight_eq_self {cs : List Char} (h : ∀ c ∈ cs, isBlank c = false) :
    trimRight cs = cs := by
  rw [trimRight, List.dropWhile_eq_self_iff.mpr, List.reverse_reverse]
  intro hPos
  rw [h _ (List.mem_reverse.mp (List.getElem_mem _))]
  exact Bool.false_ne_true

/-- A text without blanks in it is what is left of it with blanks around it. -/
theorem trim_of_blanks {before cs after : List Char} (hBefore : ∀ c ∈ before, isBlank c = true)
    (hCs : ∀ c ∈ cs, isBlank c = false) (hAfter : ∀ c ∈ after, isBlank c = true) :
    trim (before ++ cs ++ after) = cs := by
  rw [trim, List.append_assoc, trimLeft_append_of_blank hBefore]
  cases cs with
  | nil =>
    rw [List.nil_append, trimLeft, List.dropWhile_eq_nil_iff.mpr hAfter]
    rfl
  | cons c cs =>
    rw [List.cons_append, trimLeft_eq_self (hCs c List.mem_cons_self), ← List.cons_append,
      trimRight_append_of_blank hAfter, trimRight_eq_self hCs]

/-! ### Trimmed texts -/

/-- A text that neither begins nor ends with a blank. -/
structure Trimmed (cs : List Char) : Prop where
  head : ∀ c ∈ cs.head?, isBlank c = false
  last : ∀ c ∈ cs.getLast?, isBlank c = false

theorem trimmed_trim (cs : List Char) : Trimmed (trim cs) where
  head c hc := by
    obtain ⟨rest, hRest⟩ : trim cs <+: trimLeft cs := List.rdropWhile_prefix (p := isBlank) _
    have hHead : (cs.dropWhile isBlank).head? = some c := by
      rw [← trimLeft, ← hRest, List.head?_append, hc, Option.some_or]
    simpa [hHead] using List.head?_dropWhile_not isBlank cs
  last c hc := by
    have hne : trim cs ≠ [] := fun hNil => by simp [hNil] at hc
    rw [List.getLast?_eq_some_getLast hne, Option.mem_some] at hc
    exact Bool.eq_false_iff.mpr (hc ▸ List.rdropWhile_last_not isBlank _ hne)

/-- What `trim` takes off are blanks. -/
theorem exists_trim (cs : List Char) :
    ∃ before after, cs = before ++ trim cs ++ after ∧ (∀ c ∈ before, isBlank c = true) ∧
      (∀ c ∈ after, isBlank c = true) := by
  refine ⟨cs.takeWhile isBlank, ((trimLeft cs).reverse.takeWhile isBlank).reverse, ?_,
    fun c hc => List.all_eq_true.mp List.all_takeWhile c hc,
    fun c hc => List.all_eq_true.mp List.all_takeWhile c (List.mem_reverse.mp hc)⟩
  have hRight : trim cs ++ ((trimLeft cs).reverse.takeWhile isBlank).reverse = trimLeft cs :=
    List.rdropWhile_append_rtakeWhile
  rw [List.append_assoc, hRight, trimLeft, List.takeWhile_append_dropWhile]

theorem mem_of_mem_trim {c : Char} {cs : List Char} (h : c ∈ trim cs) : c ∈ cs := by
  obtain ⟨before, after, hCs, _⟩ := exists_trim cs
  rw [hCs]
  exact List.mem_append_left _ (List.mem_append_right _ h)

theorem Trimmed.trimRight_eq {cs : List Char} (h : Trimmed cs) : trimRight cs = cs := by
  refine List.rdropWhile_eq_self_iff.mpr fun hne => Bool.eq_false_iff.mp (h.last _ ?_)
  rw [List.getLast?_eq_some_getLast hne, Option.mem_some]

/-- A trimmed text is what is left of it with blanks around it. -/
theorem Trimmed.trim_eq {before cs after : List Char} (h : Trimmed cs)
    (hBefore : ∀ c ∈ before, isBlank c = true) (hAfter : ∀ c ∈ after, isBlank c = true) :
    trim (before ++ cs ++ after) = cs := by
  cases cs with
  | nil => exact trim_of_blanks hBefore (fun _ hNil => absurd hNil List.not_mem_nil) hAfter
  | cons c cs =>
    rw [trim, List.append_assoc, trimLeft_append_of_blank hBefore, List.cons_append,
      trimLeft_eq_self (h.head c rfl), ← List.cons_append, trimRight_append_of_blank hAfter,
      h.trimRight_eq]

theorem trimmed_iff {cs : List Char} : Trimmed cs ↔ trim cs = cs := by
  refine ⟨fun h => ?_, fun h => h ▸ trimmed_trim cs⟩
  have hTrim : trim ([] ++ cs ++ []) = cs := h.trim_eq (by simp) (by simp)
  simpa using hTrim

instance (cs : List Char) : Decidable (Trimmed cs) :=
  decidable_of_iff _ trimmed_iff.symm

/-! ### Cutting -/

/-- A pattern is not found before its first character. -/
theorem cut_append {p : Char} {pattern before : List Char} (h : p ∉ before) (cs : List Char) :
    cut (p :: pattern) (before ++ cs) =
      (cut (p :: pattern) cs).map fun (xs, rest) => (before ++ xs, rest) := by
  induction before with
  | nil => simp
  | cons c before ih =>
    have hc : (p == c) = false := by
      rw [beq_eq_false_iff_ne]
      rintro rfl
      exact h List.mem_cons_self
    rw [List.cons_append, cut, after?, hc, if_neg Bool.false_ne_true,
      ih fun hp => h (List.mem_cons_of_mem _ hp), Option.map_map]
    rfl

theorem after?_append (pattern rest : List Char) :
    after? pattern (pattern ++ rest) = some rest := by
  induction pattern with
  | nil => cases rest <;> rfl
  | cons p pattern ih => rw [List.cons_append, after?, beq_self_eq_true, if_pos rfl, ih]

theorem cut_pattern (p : Char) (pattern rest : List Char) :
    cut (p :: pattern) (p :: pattern ++ rest) = some ([], rest) := by
  rw [List.cons_append, cut, ← List.cons_append, after?_append]

/-- A pattern is found right where it stands behind a text without its first character. -/
theorem cut_append_pattern {p : Char} {pattern before : List Char} (h : p ∉ before)
    (rest : List Char) :
    cut (p :: pattern) (before ++ (p :: pattern) ++ rest) = some (before, rest) := by
  rw [List.append_assoc, cut_append h, cut_pattern]
  simp

/-- What is cut off at a character does not have that character. -/
theorem not_mem_of_cut {p : Char} {cs before rest : List Char}
    (h : cut [p] cs = some (before, rest)) : p ∉ before := by
  induction cs generalizing before rest with
  | nil => exact absurd h (by simp [cut])
  | cons c cs ih =>
    rw [cut] at h
    split at h
    next =>
      obtain ⟨rfl, -⟩ := Prod.mk.inj (Option.some.inj h)
      exact List.not_mem_nil
    next hAfter =>
      obtain ⟨⟨init, tail⟩, hCut, hEq⟩ := Option.map_eq_some_iff.mp h
      obtain ⟨rfl, rfl⟩ := Prod.mk.inj hEq
      have hne : p ≠ c := by
        rintro rfl
        simp [after?] at hAfter
      exact List.not_mem_cons_of_ne_of_not_mem hne (ih hCut)

variable {p : Char → Bool} {cs rest name : List Char}

/-! ### Where a word ends -/

/-- A text that does not go on with a character of a class. -/
def Ends (p : Char → Bool) (cs : List Char) : Prop :=
  ∀ c ∈ cs.head?, p c = false

theorem ends_dropWhile (p : Char → Bool) (cs : List Char) : Ends p (cs.dropWhile p) := by
  intro c hc
  simpa [Option.mem_def.mp hc] using List.head?_dropWhile_not p cs

theorem Ends.takeWhile_eq (h : Ends p rest) : rest.takeWhile p = [] := by
  cases rest with
  | nil => rfl
  | cons c rest => exact List.takeWhile_cons_of_neg (Bool.not_eq_true _ ▸ h c rfl)

theorem Ends.dropWhile_eq (h : Ends p rest) : rest.dropWhile p = rest := by
  cases rest with
  | nil => rfl
  | cons c rest => exact List.dropWhile_cons_of_neg (Bool.not_eq_true _ ▸ h c rfl)

theorem takeWhile_append_ends (hName : ∀ c ∈ name, p c = true) (h : Ends p rest) :
    (name ++ rest).takeWhile p = name := by
  rw [List.takeWhile_append_of_pos hName, h.takeWhile_eq, List.append_nil]

theorem dropWhile_append_ends (hName : ∀ c ∈ name, p c = true) (h : Ends p rest) :
    (name ++ rest).dropWhile p = rest := by
  rw [List.dropWhile_append_of_pos hName, h.dropWhile_eq]

/-! ### Pieces -/

theorem pieces_eq_splitOnP (p : Char → Bool) (cs : List Char) : pieces p cs = cs.splitOnP p := by
  induction cs with
  | nil => rfl
  | cons c cs ih =>
    rw [pieces, List.splitOnP_cons_eq_if_modifyHead, ih]
    split
    · rfl
    · split
      next hNil => exact absurd hNil (List.splitOnP_ne_nil _ _)
      next hCons => rw [hCons]; rfl

theorem eq_false_of_mem_pieces {piece : List Char} (h : piece ∈ pieces p cs) :
    ∀ c ∈ piece, p c = false := by
  induction cs generalizing piece with
  | nil =>
    obtain rfl := List.mem_singleton.mp h
    exact fun _ hMem => absurd hMem List.not_mem_nil
  | cons c cs ih =>
    rw [pieces] at h
    split at h
    next =>
      rcases List.mem_cons.mp h with rfl | hRest
      · exact fun _ hMem => absurd hMem List.not_mem_nil
      · exact ih hRest
    next hSep =>
      have hc : p c = false := Bool.eq_false_iff.mpr hSep
      split at h
      next =>
        obtain rfl := List.mem_singleton.mp h
        simpa using hc
      next w ws hWords =>
        rcases List.mem_cons.mp h with rfl | hRest
        · exact List.forall_mem_cons.mpr ⟨hc, ih (hWords ▸ List.mem_cons_self)⟩
        · exact ih (hWords ▸ List.mem_cons_of_mem _ hRest)

theorem not_mem_pieces {sep : Char} {piece : List Char} (h : piece ∈ pieces (· == sep) cs) :
    sep ∉ piece := fun hMem => by
  simpa using eq_false_of_mem_pieces h sep hMem

/-- The pieces of a text are those without a separator that are joined to that text. -/
theorem pieces_eq_cons_iff {sep : Char} {first : List Char} {others : List (List Char)} :
    pieces (· == sep) cs = first :: others ↔
      cs = [sep].intercalate (first :: others) ∧ ∀ piece ∈ first :: others, sep ∉ piece := by
  constructor
  · intro h
    refine ⟨?_, fun piece hMem => not_mem_pieces (h ▸ hMem)⟩
    rw [← h, pieces_eq_splitOnP, ← List.splitOn_eq_splitOnP, List.intercalate_splitOn]
  · rintro ⟨rfl, hApart⟩
    rw [pieces_eq_splitOnP, ← List.splitOn_eq_splitOnP,
      List.splitOn_intercalate sep hApart (List.cons_ne_nil _ _)]

theorem pieces_of_forall (h : ∀ c ∈ cs, p c = false) : pieces p cs = [cs] := by
  rw [pieces_eq_splitOnP, List.splitOnP_eq_singleton h]

theorem words_eq_filter (cs : List Char) :
    words cs = (cs.splitOnP isBlank).filter fun w => !w.isEmpty := by
  rw [words, pieces_eq_splitOnP]

end LiveMarkup.Text

/-! ## Blanks and identifiers in a text -/

namespace LiveMarkup

namespace Text

/-! ### Characters of identifiers -/

/-- The code points of the blanks. -/
def blankCodes : List Nat :=
  [9, 10, 11, 12, 13, 0x20, 0x85, 0xA0, 0x1680, 0x2000, 0x2001, 0x2002, 0x2003, 0x2004, 0x2005,
    0x2006, 0x2007, 0x2008, 0x2009, 0x200A, 0x2028, 0x2029, 0x202F, 0x205F, 0x3000]

theorem mem_blankCodes {c : Char} (h : isBlank c = true) : c.toNat ∈ blankCodes := by
  simp only [isBlank, Bool.or_eq_true, Bool.and_eq_true, decide_eq_true_eq, beq_iff_eq] at h
  simp only [blankCodes, List.mem_cons, List.not_mem_nil, or_false]
  omega

theorem not_word_of_blank {c : Char} (h : isBlank c = true) : isWord c = false := by
  have hAll : ∀ n ∈ blankCodes, inStretches n wordStretches = false := by decide +kernel
  exact hAll _ (mem_blankCodes h)

theorem not_decimalDigit_of_blank {c : Char} (h : isBlank c = true) :
    isDecimalDigit c = false := by
  have hAll : ∀ n ∈ blankCodes,
      (digitZeros.any fun z => z ≤ n && n < z + 10) = false := by decide +kernel
  exact hAll _ (mem_blankCodes h)

theorem not_blank_of_identRest {c : Char} (h : isIdentRest c = true) : isBlank c = false := by
  rw [← Bool.not_eq_true]
  intro hBlank
  rw [isIdentRest, not_word_of_blank hBlank, Bool.false_or, beq_iff_eq] at h
  rw [h] at hBlank
  exact absurd hBlank (by decide)

theorem not_blank_of_identStart {c : Char} (h : isIdentStart c = true) : isBlank c = false := by
  rw [← Bool.not_eq_true]
  intro hBlank
  unfold isIdentStart Char.isAlpha Char.isUpper Char.isLower at h
  simp only [Bool.or_eq_true, Bool.and_eq_true, decide_eq_true_eq, beq_iff_eq,
    UInt32.le_iff_toNat_le, ge_iff_le] at h
  simp only [isBlank, Bool.or_eq_true, Bool.and_eq_true, decide_eq_true_eq, beq_iff_eq,
    Char.toNat] at hBlank
  rcases h with ((h | h) | rfl) | rfl
  · have h₁ : 65 ≤ c.val.toNat := h.1
    have h₂ : c.val.toNat ≤ 90 := h.2
    omega
  · have h₁ : 97 ≤ c.val.toNat := h.1
    have h₂ : c.val.toNat ≤ 122 := h.2
    omega
  · exact absurd hBlank (by decide)
  · exact absurd hBlank (by decide)

/-! ### Blanks and identifiers -/

/-- A text with nothing but blanks in it. -/
def Blanks (cs : List Char) : Prop :=
  ∀ c ∈ cs, isBlank c = true

/-- One blank or more. -/
structure Gap (cs : List Char) : Prop where
  nonempty : cs ≠ []
  blanks : Blanks cs

/-- A text that does not begin with a blank. -/
def Begins (cs : List Char) : Prop :=
  ∀ c ∈ cs.head?, isBlank c = false

/-- A text that does not go on with an identifier. -/
def Stops (cs : List Char) : Prop :=
  Ends isIdentRest cs

/-- A letter, `_` or `$`, and then characters of words and `$`. -/
inductive Identifier : List Char → Prop where
  | mk {c : Char} {cs : List Char} (hStart : isIdentStart c = true)
      (hRest : ∀ d ∈ cs, isIdentRest d = true) : Identifier (c :: cs)

variable {cs ds rest name : List Char} {c : Char}

theorem blanks_iff_all : Blanks cs ↔ cs.all isBlank = true :=
  List.all_eq_true.symm

theorem Begins.append (h : Begins cs) (hne : cs ≠ []) (ds : List Char) : Begins (cs ++ ds) := by
  obtain ⟨c, cs, rfl⟩ := List.exists_cons_of_ne_nil hne
  exact h

theorem begins_trimLeft (cs : List Char) : Begins (trimLeft cs) := by
  intro c hc
  have hHead : (cs.dropWhile isBlank).head? = some c := hc
  simpa [hHead] using List.head?_dropWhile_not isBlank cs

theorem Begins.trimLeft_eq (h : Begins cs) : trimLeft cs = cs := by
  cases cs with
  | nil => rfl
  | cons c cs => exact trimLeft_eq_self (h c rfl)

theorem Blanks.trimLeft_append (h : Blanks cs) (hBegins : Begins ds) :
    trimLeft (cs ++ ds) = ds := by
  rw [trimLeft_append_of_blank h, hBegins.trimLeft_eq]

theorem exists_trimLeft (cs : List Char) : ∃ before, Blanks before ∧ cs = before ++ trimLeft cs :=
  ⟨cs.takeWhile isBlank, fun c hc => List.all_eq_true.mp List.all_takeWhile c hc,
    List.takeWhile_append_dropWhile.symm⟩

/-- What stands behind the text that is left, and how that ends. -/
theorem exists_trimRight (cs : List Char) :
    ∃ after, Blanks after ∧ cs = trimRight cs ++ after ∧
      ∀ c ∈ (trimRight cs).getLast?, isBlank c = false := by
  refine ⟨(cs.reverse.takeWhile isBlank).reverse, fun c hc =>
    List.all_eq_true.mp List.all_takeWhile c (List.mem_reverse.mp hc),
    List.rdropWhile_append_rtakeWhile.symm, fun c hc => ?_⟩
  have hne : trimRight cs ≠ [] := fun hNil => by simp [hNil] at hc
  rw [List.getLast?_eq_some_getLast hne, Option.mem_some] at hc
  exact Bool.eq_false_iff.mpr (hc ▸ List.rdropWhile_last_not isBlank _ hne)

theorem not_identRest_of_blank (h : isBlank c = true) : isIdentRest c = false := by
  refine Bool.eq_false_iff.mpr fun hIdent => ?_
  rw [not_blank_of_identRest hIdent] at h
  cases h

theorem Blanks.stops (h : Blanks cs) (hRest : Stops rest) : Stops (cs ++ rest) := by
  cases cs with
  | nil => exact hRest
  | cons c cs =>
    rintro d ⟨⟩
    exact not_identRest_of_blank (h _ List.mem_cons_self)

theorem Gap.stops (h : Gap cs) (rest : List Char) : Stops (cs ++ rest) := by
  obtain ⟨c, cs, rfl⟩ := List.exists_cons_of_ne_nil h.nonempty
  rintro d ⟨⟩
  exact not_identRest_of_blank (h.blanks _ List.mem_cons_self)

namespace Identifier

theorem begins (h : Identifier name) (rest : List Char) : Begins (name ++ rest) := by
  cases h with
  | mk hStart hRest =>
    rintro d ⟨⟩
    exact not_blank_of_identStart hStart

theorem not_mem (h : Identifier name) (hStart : isIdentStart c = false)
    (hRest : isIdentRest c = false) : c ∉ name := by
  cases h with
  | mk hFirst hOthers =>
    intro hMem
    rcases List.mem_cons.mp hMem with rfl | hMem
    · rw [hFirst] at hStart
      cases hStart
    · rw [hOthers c hMem] at hRest
      cases hRest

end Identifier

/-- The identifier in front ends where none of its characters follows. -/
theorem identifier?_eq_some_iff :
    identifier? cs = some (name, rest) ↔ Identifier name ∧ cs = name ++ rest ∧ Stops rest := by
  constructor
  · intro h
    cases cs with
    | nil => cases h
    | cons c cs =>
      rw [identifier?] at h
      split at h
      next hStart =>
        obtain ⟨rfl, rfl⟩ := Prod.mk.inj (Option.some.inj h)
        refine ⟨.mk hStart fun d hd => List.all_eq_true.mp List.all_takeWhile d hd, ?_, ?_⟩
        · rw [List.cons_append, List.takeWhile_append_dropWhile]
        · intro d hd
          exact ends_dropWhile isIdentRest cs d hd
      next => cases h
  · rintro ⟨@⟨c, tail, hStart, hRest⟩, rfl, hStops⟩
    rw [List.cons_append, identifier?, if_pos hStart, takeWhile_append_ends hRest hStops,
      dropWhile_append_ends hRest hStops]

end Text

end LiveMarkup
