import LiveMarkup.Dom.Selector
import LiveMarkup.Proofs.Text.Splitting

/-!
# The parts of a compound and how they are read

The parts of a compound are `#id`, `.class` and `[...]`. Whether text is made of parts is checked
with anything in the brackets; what the parts ask for is read by a second scan that goes from
character to character and knows only the brackets `[name]` and `[name=value]`. In any other bracket
it reads whatever looks like a part.

* `Selector.Part`: parts as they are written, `Selector.Tests`: the brackets that are tests;
* `Selector.isParts_textOf`, `Selector.exists_parts`: the check;
* `Selector.Part.Adds`, `Selector.Stray`: what is read of a part, what can be read in a bracket;
* `Selector.Reads`, `Selector.collect_reads`: what the scan makes of parts in order.
-/

namespace LiveMarkup

namespace Selector

open Text (Ends)

variable {cs rest after name content value : List Char} {n : Nat} {c c₁ c' : Compound}

/-! ## Names -/

/-- A name in a selector. -/
structure IsName (cs : List Char) : Prop where
  nonempty : cs ≠ []
  chars : ∀ c ∈ cs, isNameChar c = true

theorem name?_append (hName : IsName name) (hEnds : Ends isNameChar rest) :
    name? (name ++ rest) = some (name, rest) := by
  unfold name?
  rw [Text.takeWhile_append_ends hName.chars hEnds, Text.dropWhile_append_ends hName.chars hEnds]
  obtain ⟨c, cs, rfl⟩ := List.exists_cons_of_ne_nil hName.nonempty
  rfl

theorem name?_eq_some (h : name? cs = some (name, rest)) :
    IsName name ∧ cs = name ++ rest ∧ Ends isNameChar rest := by
  unfold name? at h
  split at h
  next => cases h
  next hne =>
    obtain ⟨rfl, rfl⟩ := Prod.mk.inj (Option.some.inj h)
    exact ⟨⟨hne, fun c hc => List.all_eq_true.mp List.all_takeWhile c hc⟩,
      List.takeWhile_append_dropWhile.symm, Text.ends_dropWhile _ _⟩

theorem name?_isSome_iff :
    (name? cs).isSome = true ↔ ∃ c rest, cs = c :: rest ∧ isNameChar c = true := by
  cases cs with
  | nil => exact iff_of_false Bool.false_ne_true fun ⟨_, _, h, _⟩ => by cases h
  | cons c cs =>
    cases hc : isNameChar c <;> simp [name?, hc]

theorem not_nameChar {c : Char} (h : c = '#' ∨ c = '.' ∨ c = '[' ∨ c = ']' ∨ c = '=') :
    isNameChar c = false := by
  rcases h with rfl | rfl | rfl | rfl | rfl <;> decide +kernel

theorem name?_bracket (cs rest : List Char) :
    name? (cs ++ ']' :: rest) = (name? cs).map fun x => (x.1, x.2 ++ ']' :: rest) := by
  have hStop : Ends isNameChar (']' :: rest) := by
    rintro c ⟨⟩
    exact not_nameChar (by simp)
  cases h : name? cs with
  | some x =>
    obtain ⟨hName, rfl, hEnds⟩ := name?_eq_some h
    rw [List.append_assoc, name?_append hName, Option.map_some]
    cases hRest : x.2 with
    | nil => exact hStop
    | cons c rest =>
      rintro d ⟨⟩
      exact hEnds _ (by simp [hRest])
  | none =>
    rw [Option.map_none, ← Option.not_isSome_iff_eq_none, name?_isSome_iff]
    have hNone := Option.not_isSome_iff_eq_none.mpr h
    rw [name?_isSome_iff] at hNone
    rintro ⟨c, ds, hEq, hc⟩
    cases cs with
    | nil =>
      obtain ⟨rfl, -⟩ := List.cons_eq_cons.mp hEq
      rw [hStop _ rfl] at hc
      cases hc
    | cons d cs =>
      obtain ⟨rfl, -⟩ := List.cons_eq_cons.mp hEq
      exact hNone ⟨_, _, rfl, hc⟩

/-! ## What stands in brackets -/

/-- A quote, which may be missing. -/
def Quote (cs : List Char) : Prop :=
  cs = [] ∨ cs = ['"']

/-- A value as it is written, with free quotes around it. -/
def Valued (cs value : List Char) : Prop :=
  ∃ o q, Quote o ∧ Quote q ∧ '"' ∉ value ∧ cs = o ++ value ++ q

/-- What stands in the brackets is a test: an attribute is there, or it has a value. -/
inductive Tests : List Char → String × Option String → Prop where
  | has {name : List Char} (hName : IsName name) : Tests name (String.ofList name, none)
  | equals {name cs value : List Char} (hName : IsName name) (hValue : Valued cs value) :
    Tests (name ++ '=' :: cs) (String.ofList name, some (String.ofList value))

theorem skipQuote_append (h : ∀ c ∈ rest.head?, c ≠ '"') :
    skipQuote (cs ++ rest) = skipQuote cs ++ rest := by
  cases cs with
  | nil =>
    cases rest with
    | nil => rfl
    | cons d rest =>
      have hd : d ≠ '"' := h d rfl
      unfold skipQuote
      split
      next hEq => exact absurd (List.cons_eq_cons.mp hEq).1 hd
      next => rfl
  | cons c cs =>
    by_cases hc : c = '"'
    · subst hc
      rfl
    · simp [skipQuote, hc]

theorem exists_skipQuote (cs : List Char) : ∃ o, Quote o ∧ cs = o ++ skipQuote cs := by
  unfold skipQuote
  split
  · exact ⟨['"'], .inr rfl, rfl⟩
  · exact ⟨[], .inl rfl, rfl⟩

/-- The characters of a value. -/
def isValueChar (c : Char) : Bool :=
  !(c == '"' || c == ']')

theorem ends_value_append (h : Ends isValueChar cs) (rest : List Char) :
    Ends isValueChar (cs ++ ']' :: rest) := by
  cases cs with
  | nil =>
    rintro c ⟨⟩
    rfl
  | cons c cs => exact h

/-- A value ends at a bracket. -/
theorem value_bracket (cs rest : List Char) :
    (skipQuote (cs ++ ']' :: rest)).takeWhile isValueChar = (skipQuote cs).takeWhile isValueChar ∧
      skipQuote ((skipQuote (cs ++ ']' :: rest)).dropWhile isValueChar) =
        skipQuote ((skipQuote cs).dropWhile isValueChar) ++ ']' :: rest := by
  have hBracket : ∀ ds, skipQuote (ds ++ ']' :: rest) = skipQuote ds ++ ']' :: rest := fun ds =>
    skipQuote_append (by rintro c ⟨⟩; decide)
  have hAll : ∀ c ∈ (skipQuote cs).takeWhile isValueChar, isValueChar c = true := fun c hc =>
    List.all_eq_true.mp List.all_takeWhile c hc
  have hEnds := ends_value_append (Text.ends_dropWhile isValueChar (skipQuote cs)) rest
  have hSplit : skipQuote cs ++ ']' :: rest = (skipQuote cs).takeWhile isValueChar ++
      ((skipQuote cs).dropWhile isValueChar ++ ']' :: rest) := by
    rw [← List.append_assoc, List.takeWhile_append_dropWhile]
  rw [hBracket, hSplit, Text.takeWhile_append_ends hAll hEnds,
    Text.dropWhile_append_ends hAll hEnds, hBracket]
  exact ⟨rfl, rfl⟩

/-- What the scan leaves of a value, and what it takes. -/
theorem valued_iff (hOut : ']' ∉ cs) : Valued cs value ↔
    skipQuote ((skipQuote cs).dropWhile isValueChar) = [] ∧
      value = (skipQuote cs).takeWhile isValueChar := by
  constructor
  · rintro ⟨o, q, hOpen, hClose, hValue, rfl⟩
    have hAll : ∀ d ∈ value, isValueChar d = true := fun d hd => by
      have hQuote : d ≠ '"' := fun hEq => hValue (hEq ▸ hd)
      have hBracket : d ≠ ']' := fun hEq =>
        hOut (List.mem_append_left _ (List.mem_append_right _ (hEq ▸ hd)))
      simp [isValueChar, hQuote, hBracket]
    have hEnds : Ends isValueChar q := by
      rcases hClose with rfl | rfl <;> rintro d ⟨⟩
      rfl
    have hSkip : skipQuote q = [] := by rcases hClose with rfl | rfl <;> rfl
    -- a quote in front is free, unless nothing but the one behind is there
    have hBody : skipQuote (o ++ value ++ q) = value ++ q ∨
        value = [] ∧ skipQuote (o ++ value ++ q) = [] := by
      rcases hOpen with rfl | rfl
      · cases value with
        | nil => exact .inr ⟨rfl, hSkip⟩
        | cons d value =>
          have hd : d ≠ '"' := fun hEq => hValue (by simp [hEq])
          exact .inl (by simp [skipQuote, hd])
      · exact .inl rfl
    rcases hBody with hBody | ⟨rfl, hBody⟩
    · rw [hBody, Text.dropWhile_append_ends hAll hEnds, Text.takeWhile_append_ends hAll hEnds]
      exact ⟨hSkip, rfl⟩
    · rw [hBody]
      exact ⟨rfl, rfl⟩
  · rintro ⟨hNone, rfl⟩
    obtain ⟨o, hOpen, hcs⟩ := exists_skipQuote cs
    obtain ⟨q, hClose, hRest⟩ := exists_skipQuote ((skipQuote cs).dropWhile isValueChar)
    rw [hNone, List.append_nil] at hRest
    refine ⟨o, q, hOpen, hClose, fun hMem => ?_, ?_⟩
    · exact absurd (List.all_eq_true.mp List.all_takeWhile _ hMem) (by decide)
    · rw [← hRest, List.append_assoc, List.takeWhile_append_dropWhile, ← hcs]

/-- A value is read exactly if the bracket holds nothing else. -/
theorem value?_bracket {t : String × Option String} (hOut : ']' ∉ cs) (key : String) :
    (match skipQuote ((skipQuote (cs ++ ']' :: rest)).dropWhile isValueChar) with
      | ']' :: rest' => some ((key, some (String.ofList
          ((skipQuote (cs ++ ']' :: rest)).takeWhile isValueChar))), rest')
      | _ => none) = some (t, after) ↔
    (∃ value, Valued cs value ∧ t = (key, some (String.ofList value))) ∧ after = rest := by
  obtain ⟨hTake, hSkip⟩ := value_bracket cs rest
  simp only [hTake, hSkip, valued_iff hOut, and_assoc, exists_and_left, exists_eq_left]
  cases hLeft : skipQuote ((skipQuote cs).dropWhile isValueChar) with
  | nil => simp [eq_comm, and_comm]
  | cons e left =>
    have he : e ≠ ']' := by
      rintro rfl
      obtain ⟨o, -, hDrop⟩ := exists_skipQuote ((skipQuote cs).dropWhile isValueChar)
      obtain ⟨o', -, hcs⟩ := exists_skipQuote cs
      have hMem : ']' ∈ (skipQuote cs).dropWhile isValueChar := by
        rw [hDrop, hLeft]
        simp
      rw [hcs] at hOut
      exact hOut (List.mem_append_right _ ((List.dropWhile_sublist _).subset hMem))
    simp [he]

/-- A test is told by the name that it begins with. -/
theorem tests_iff {tail : List Char} {t : String × Option String}
    (hFound : name? content = some (name, tail)) : Tests content t ↔
      tail = [] ∧ t = (String.ofList name, none) ∨
        ∃ cs, tail = '=' :: cs ∧
          ∃ value, Valued cs value ∧ t = (String.ofList name, some (String.ofList value)) := by
  constructor
  · intro h
    cases h with
    | has hName =>
      have hEnds : Ends isNameChar [] := by rintro c ⟨⟩
      have hSame := name?_append hName hEnds
      rw [List.append_nil, hFound] at hSame
      obtain ⟨rfl, rfl⟩ := Prod.mk.inj (Option.some.inj hSame)
      exact .inl ⟨rfl, rfl⟩
    | @equals name' cs value hName hValue =>
      have hEnds : Ends isNameChar ('=' :: cs) := by
        rintro c ⟨⟩
        exact not_nameChar (by simp)
      have hSame := name?_append hName hEnds
      rw [hFound] at hSame
      obtain ⟨rfl, rfl⟩ := Prod.mk.inj (Option.some.inj hSame)
      exact .inr ⟨cs, rfl, value, hValue, rfl⟩
  · obtain ⟨hName, rfl, -⟩ := name?_eq_some hFound
    rintro (⟨rfl, rfl⟩ | ⟨cs, rfl, value, hValue, rfl⟩)
    · rw [List.append_nil]
      exact .has hName
    · exact .equals hName hValue

theorem Tests.name?_ne_none {t : String × Option String} (h : Tests content t) :
    name? content ≠ none := by
  rw [Option.ne_none_iff_isSome, name?_isSome_iff]
  cases h with
  | has hName =>
    obtain ⟨c, cs, rfl⟩ := List.exists_cons_of_ne_nil hName.nonempty
    exact ⟨c, cs, rfl, hName.chars c List.mem_cons_self⟩
  | equals hName _ =>
    obtain ⟨c, cs, rfl⟩ := List.exists_cons_of_ne_nil hName.nonempty
    exact ⟨c, _, rfl, hName.chars c List.mem_cons_self⟩

theorem attributeTest?_bracket {t : String × Option String} (hOut : ']' ∉ content) :
    attributeTest? (content ++ ']' :: rest) = some (t, after) ↔ Tests content t ∧ after = rest := by
  unfold attributeTest?
  rw [name?_bracket]
  cases hFound : name? content with
  | none => exact iff_of_false (by simp) fun h => h.1.name?_ne_none hFound
  | some x =>
    obtain ⟨name, tail⟩ := x
    rw [tests_iff hFound, Option.map_some]
    obtain ⟨-, rfl, -⟩ := name?_eq_some hFound
    cases tail with
    | nil => simp [eq_comm, and_comm]
    | cons d tail =>
      by_cases hd : d = '='
      · subst hd
        have hOut' : ']' ∉ tail := fun hMem => hOut (by simp [hMem])
        exact (value?_bracket hOut' (String.ofList name)).trans (and_congr_left fun _ => by simp)
      · have hd' : d ≠ ']' := fun hEq => hOut (by simp [hEq])
        simp [hd, hd']

/-! ## Parts -/

/-- A part of a compound as it is written, a bracket with all that is in it. -/
inductive Part where
  | id (name : List Char)
  | className (name : List Char)
  | bracket (content : List Char)

namespace Part

def text : Part → List Char
  | id name => '#' :: name
  | className name => '.' :: name
  | bracket content => '[' :: (content ++ [']'])

def WellFormed : Part → Prop
  | id name => IsName name
  | className name => IsName name
  | bracket content => content ≠ [] ∧ ']' ∉ content

end Part

variable {parts : List Part} {p : Part}

/-- The text of parts. -/
def textOf (parts : List Part) : List Char :=
  parts.flatMap Part.text

theorem textOf_cons (p : Part) (parts : List Part) : textOf (p :: parts) = p.text ++ textOf parts :=
  List.flatMap_cons

/-- No name goes on into the next part. -/
theorem ends_textOf (parts : List Part) : Ends isNameChar (textOf parts) := by
  cases parts with
  | nil => rintro c ⟨⟩
  | cons p parts =>
    cases p <;> rintro c ⟨⟩ <;> exact not_nameChar (by simp)

theorem takeWhile_bracket (hOut : ']' ∉ content) (rest : List Char) :
    (content ++ ']' :: rest).takeWhile (fun d => !(d == ']')) = content ∧
      (content ++ ']' :: rest).dropWhile (fun d => !(d == ']')) = ']' :: rest := by
  have hAll : ∀ d ∈ content, (!(d == ']')) = true := fun d hd => by
    have hd' : d ≠ ']' := fun hEq => hOut (hEq ▸ hd)
    simp [hd']
  have hEnds : Ends (fun d => !(d == ']')) (']' :: rest) := by rintro d ⟨⟩; rfl
  exact ⟨Text.takeWhile_append_ends hAll hEnds, Text.dropWhile_append_ends hAll hEnds⟩

theorem exists_bracket {d : Char} (hne : cs.takeWhile (fun d => !(d == ']')) ≠ [])
    (hDrop : cs.dropWhile (fun d => !(d == ']')) = d :: after) :
    ∃ content, (Part.bracket content).WellFormed ∧
      '[' :: cs = (Part.bracket content).text ++ after := by
  have hd := Text.ends_dropWhile (fun d => !(d == ']')) cs d (by rw [hDrop]; rfl)
  obtain rfl : d = ']' := by simpa using hd
  refine ⟨cs.takeWhile fun d => !(d == ']'), ⟨hne, fun hMem => ?_⟩, ?_⟩
  · exact absurd (List.all_eq_true.mp List.all_takeWhile _ hMem) (by decide)
  · simp only [Part.text, List.cons_append, List.append_assoc, List.nil_append]
    rw [← hDrop, List.takeWhile_append_dropWhile]

theorem isParts_append (hp : p.WellFormed) (hEnds : Ends isNameChar rest) :
    isParts (n + 1) (p.text ++ rest) = isParts n rest := by
  cases p with
  | id name => simp [Part.text, isParts, name?_append hp hEnds]
  | className name => simp [Part.text, isParts, name?_append hp hEnds]
  | bracket content =>
    obtain ⟨hne, hOut⟩ := hp
    obtain ⟨d, ds, rfl⟩ := List.exists_cons_of_ne_nil hne
    obtain ⟨hTake, hDrop⟩ := takeWhile_bracket hOut rest
    simp only [List.cons_append] at hTake hDrop
    simp [Part.text, isParts, hTake, hDrop]

/-- What the check passes over is a part. -/
theorem exists_part {d : Char} (h : isParts (n + 1) (d :: cs) = true) :
    ∃ (p : Part) (after : List Char), p.WellFormed ∧ d :: cs = p.text ++ after ∧
      isParts n after = true := by
  rw [isParts] at h
  split at h
  next hHash =>
    split at h
    next name after hFound =>
      obtain ⟨hName, rfl, -⟩ := name?_eq_some hFound
      rcases Bool.or_eq_true _ _ ▸ hHash with hd | hd <;> obtain rfl := beq_iff_eq.mp hd
      · exact ⟨.id name, after, hName, rfl, h⟩
      · exact ⟨.className name, after, hName, rfl, h⟩
    next => cases h
  next =>
    split at h
    next hOpen =>
      obtain rfl := beq_iff_eq.mp hOpen
      split at h
      next => cases h
      next hne =>
        split at h
        next after hDrop =>
          obtain ⟨content, hContent, hEq⟩ := exists_bracket (by simp [hne]) hDrop
          exact ⟨.bracket content, after, hContent, hEq, h⟩
        next => cases h
    next => cases h

theorem length_text_pos (p : Part) : 0 < p.text.length := by
  cases p <;> exact Nat.succ_pos _

theorem isParts_textOf (hParts : ∀ p ∈ parts, p.WellFormed) (hn : (textOf parts).length ≤ n) :
    isParts n (textOf parts) = true := by
  induction parts generalizing n with
  | nil => cases n <;> rfl
  | cons p parts ih =>
    obtain ⟨hp, hOthers⟩ := List.forall_mem_cons.mp hParts
    have hPos := length_text_pos p
    rw [textOf_cons] at hn ⊢
    rw [List.length_append] at hn
    obtain ⟨n, rfl⟩ : ∃ m, n = m + 1 := ⟨n - 1, by omega⟩
    rw [isParts_append hp (ends_textOf parts)]
    exact ih hOthers (by omega)

theorem exists_parts (h : isParts n cs = true) :
    ∃ parts, (∀ p ∈ parts, p.WellFormed) ∧ cs = textOf parts := by
  induction n generalizing cs with
  | zero =>
    cases cs with
    | nil => exact ⟨[], fun _ h => (nomatch h), rfl⟩
    | cons c cs => cases h
  | succ n ih =>
    cases cs with
    | nil => exact ⟨[], fun _ h => (nomatch h), rfl⟩
    | cons c cs =>
      obtain ⟨p, after, hp, hEq, hAfter⟩ := exists_part h
      obtain ⟨parts, hParts, rfl⟩ := ih hAfter
      exact ⟨p :: parts, List.forall_mem_cons.mpr ⟨hp, hParts⟩, hEq⟩

/-! ## What is read of a part -/

/-- A compound with one more part. An id takes the place of the one before. -/
inductive Part.Adds (c : Compound) : Part → Compound → Prop where
  | id {name : List Char} : Adds c (.id name) { c with id := some (String.ofList name) }
  | className {name : List Char} :
    Adds c (.className name) { c with classes := c.classes ++ [String.ofList name] }
  | test {content : List Char} {t : String × Option String} (hTest : Tests content t) :
    Adds c (.bracket content) { c with attributes := c.attributes ++ [t] }

/-- Nothing but an id has been taken back. -/
structure Grown (c c' : Compound) : Prop where
  tag : c'.tag = c.tag
  id : c.id ≠ none → c'.id ≠ none
  classes : c.classes ⊆ c'.classes
  attributes : c.attributes ⊆ c'.attributes

namespace Grown

theorem refl (c : Compound) : Grown c c :=
  ⟨rfl, fun h => h, List.Subset.refl _, List.Subset.refl _⟩

theorem trans (h₁ : Grown c c₁) (h₂ : Grown c₁ c') : Grown c c' :=
  ⟨h₂.tag.trans h₁.tag, fun h => h₂.id (h₁.id h), List.Subset.trans h₁.classes h₂.classes,
    List.Subset.trans h₁.attributes h₂.attributes⟩

theorem ne_default (h : Grown c c') (hc : c ≠ {}) : c' ≠ {} := by
  rintro rfl
  refine hc ?_
  obtain ⟨tag, id, classes, attributes⟩ := c
  obtain rfl : none = tag := h.tag
  obtain rfl := List.subset_nil.mp h.classes
  obtain rfl := List.subset_nil.mp h.attributes
  cases id with
  | none => rfl
  | some id => exact absurd rfl (h.id (Option.some_ne_none id))

end Grown

namespace Part.Adds

theorem grown (h : p.Adds c c') : Grown c c' := by
  cases h with
  | id => exact ⟨rfl, fun _ => Option.some_ne_none _, List.Subset.refl _, List.Subset.refl _⟩
  | className => exact ⟨rfl, fun h => h, List.subset_append_left _ _, List.Subset.refl _⟩
  | test hTest => exact ⟨rfl, fun h => h, List.Subset.refl _, List.subset_append_left _ _⟩

theorem ne_default (h : p.Adds c c') : c' ≠ {} := by
  cases h <;> intro hEq <;> simp [Compound.mk.injEq] at hEq

theorem part?_eq (hp : p.WellFormed) (h : p.Adds c c') (hEnds : Ends isNameChar rest) :
    part? c (p.text ++ rest) = some (c', rest) := by
  cases h with
  | id => simp [text, part?, name?_append hp hEnds]
  | className => simp [text, part?, name?_append hp hEnds]
  | @test content t hTest =>
    have hFound : attributeTest? (content ++ ']' :: rest) = some (t, rest) :=
      (attributeTest?_bracket hp.2).mpr ⟨hTest, rfl⟩
    simp [text, part?, hFound]

end Part.Adds

/-- Text that the scan reads something from at its front. -/
inductive Starts : List Char → Prop where
  | id {name : List Char} (hName : IsName name) (rest : List Char) : Starts ('#' :: (name ++ rest))
  | className {name : List Char} (hName : IsName name) (rest : List Char) :
    Starts ('.' :: (name ++ rest))
  | test {content : List Char} {t : String × Option String} (hTest : Tests content t) :
    Starts ('[' :: content)

/-- Something can be read somewhere in a text. -/
def Stray (cs : List Char) : Prop :=
  ∃ ds, ds <:+ cs ∧ Starts ds

theorem not_starts_nil : ¬ Starts [] := fun h => nomatch h

theorem stray_cons {d : Char} : Stray (d :: cs) ↔ Starts (d :: cs) ∨ Stray cs := by
  simp only [Stray, List.suffix_cons_iff, or_and_right, exists_or, exists_eq_left]

theorem not_stray_nil : ¬ Stray [] := by
  rintro ⟨ds, hSuffix, hStarts⟩
  obtain rfl := List.suffix_nil.mp hSuffix
  exact not_starts_nil hStarts

theorem IsName.name?_ne_none (hName : IsName name) : name? (name ++ rest) ≠ none := by
  obtain ⟨c, cs, rfl⟩ := List.exists_cons_of_ne_nil hName.nonempty
  rw [Option.ne_none_iff_isSome, name?_isSome_iff]
  exact ⟨c, _, rfl, hName.chars c List.mem_cons_self⟩

/-- What a scan inside a bracket does at its next character: nothing starts there, or it reads what
does, up to the end of the bracket at most. -/
def Inside (c : Compound) (cs rest : List Char) (found : Option (Compound × List Char)) : Prop :=
  found = none ∧ ¬ Starts cs ∨
    ∃ c₁ after, found = some (c₁, after) ∧ Starts cs ∧ Grown c c₁ ∧ c₁ ≠ {} ∧
      (after = rest ∨ ∃ ds, ds <:+ cs ∧ ds.length < cs.length ∧ after = ds ++ ']' :: rest)

theorem inside_name {d : Char} {f : List Char → Compound}
    (hStarts : Starts (d :: cs) ↔ ∃ name after, IsName name ∧ cs = name ++ after)
    (hGrown : ∀ name, Grown c (f name) ∧ f name ≠ {}) :
    Inside c (d :: cs) rest ((name? (cs ++ ']' :: rest)).map fun x => (f x.1, x.2)) := by
  rw [name?_bracket]
  cases hFound : name? cs with
  | none =>
    refine .inl ⟨rfl, fun h => ?_⟩
    obtain ⟨name, after, hName, rfl⟩ := hStarts.mp h
    exact hName.name?_ne_none hFound
  | some x =>
    obtain ⟨name, tail⟩ := x
    obtain ⟨hName, rfl, -⟩ := name?_eq_some hFound
    refine .inr ⟨f name, _, rfl, hStarts.mpr ⟨name, tail, hName, rfl⟩, (hGrown name).1,
      (hGrown name).2, .inr ⟨tail, ?_, ?_, rfl⟩⟩
    · exact (List.suffix_append name tail).trans (List.suffix_cons d _)
    · simp only [List.length_cons, List.length_append]
      omega

theorem inside_part? (hOut : ']' ∉ cs) : Inside c cs rest (part? c (cs ++ ']' :: rest)) := by
  cases cs with
  | nil => exact .inl ⟨rfl, not_starts_nil⟩
  | cons d cs =>
    by_cases hHash : d = '#'
    · subst hHash
      refine inside_name (f := fun name => { c with id := some (String.ofList name) }) ⟨?_, ?_⟩
        fun name => ⟨(@Part.Adds.id c name).grown, Part.Adds.id.ne_default⟩
      · intro h
        cases h with
        | id hName after => exact ⟨_, after, hName, rfl⟩
      · rintro ⟨name, after, hName, rfl⟩
        exact .id hName after
    by_cases hDot : d = '.'
    · subst hDot
      refine inside_name (f := fun name => { c with classes := c.classes ++ [String.ofList name] })
        ⟨?_, ?_⟩ fun name => ⟨(@Part.Adds.className c name).grown, Part.Adds.className.ne_default⟩
      · intro h
        cases h with
        | className hName after => exact ⟨_, after, hName, rfl⟩
      · rintro ⟨name, after, hName, rfl⟩
        exact .className hName after
    by_cases hOpen : d = '['
    · subst hOpen
      have hOut' : ']' ∉ cs := fun h => hOut (List.mem_cons_of_mem _ h)
      change Inside c _ rest ((attributeTest? (cs ++ ']' :: rest)).map _)
      cases hFound : attributeTest? (cs ++ ']' :: rest) with
      | none =>
        refine .inl ⟨rfl, fun h => ?_⟩
        cases h with
        | test hTest =>
          rw [(attributeTest?_bracket hOut').mpr ⟨hTest, rfl⟩] at hFound
          cases hFound
      | some x =>
        obtain ⟨t, after⟩ := x
        obtain ⟨hTest, rfl⟩ := (attributeTest?_bracket hOut').mp hFound
        exact .inr ⟨_, _, rfl, .test hTest, (Part.Adds.test hTest).grown,
          (Part.Adds.test hTest).ne_default, .inl rfl⟩
    · refine .inl ⟨?_, ?_⟩
      · simp [part?, hHash, hDot, hOpen]
      · intro h
        cases h <;> contradiction

theorem collect_some (hne : cs ≠ []) (h : part? c cs = some (c₁, after)) :
    collect (n + 1) c cs = collect n c₁ after := by
  obtain ⟨d, ds, rfl⟩ := List.exists_cons_of_ne_nil hne
  rw [collect, h]

theorem collect_none {d : Char} (h : part? c (d :: cs) = none) :
    collect (n + 1) c (d :: cs) = collect n c cs := by
  rw [collect, h]

/-- What the scan makes of a text in which parts may be strewn: it reads something exactly if
something can be read. -/
structure Gleaned (cs : List Char) (c c' : Compound) : Prop where
  grown : Grown c c'
  stray : Stray cs → c' ≠ {}
  plain : ¬ Stray cs → c' = c

namespace Gleaned

theorem nil (c : Compound) : Gleaned [] c c :=
  ⟨.refl c, fun h => absurd h not_stray_nil, fun _ => rfl⟩

theorem later {d : Char} (h : Gleaned cs c c') (hNot : ¬ Starts (d :: cs)) :
    Gleaned (d :: cs) c c' := by
  have hSame : Stray (d :: cs) ↔ Stray cs := stray_cons.trans (or_iff_right hNot)
  exact ⟨h.grown, fun hIn => h.stray (hSame.mp hIn), fun hOut => h.plain (mt hSame.mpr hOut)⟩

theorem here (hStarts : Starts cs) (hRead : Grown c c₁) (hne : c₁ ≠ {}) (hRest : Grown c₁ c') :
    Gleaned cs c c' :=
  ⟨hRead.trans hRest, fun _ => hRest.ne_default hne,
    fun hOut => absurd ⟨cs, List.suffix_refl cs, hStarts⟩ hOut⟩

end Gleaned

theorem collect_inside (hOut : ']' ∉ cs) (hn : (cs ++ ']' :: rest).length ≤ n) :
    ∃ m c', rest.length ≤ m ∧ collect n c (cs ++ ']' :: rest) = collect m c' rest ∧
      Gleaned cs c c' := by
  induction n generalizing cs c with
  | zero => simp at hn
  | succ n ih =>
    rw [List.length_append, List.length_cons] at hn
    have hRest : ∀ {ds : List Char}, ds.length < cs.length → (ds ++ ']' :: rest).length ≤ n := by
      intro ds hShort
      rw [List.length_append, List.length_cons]
      omega
    rcases inside_part? hOut with
      ⟨hNone, hNot⟩ | ⟨c₁, after, hSome, hStarts, hGrown, hne, hAfter⟩
    · cases cs with
      | nil => exact ⟨n, c, by simpa using hn, collect_none hNone, .nil c⟩
      | cons d cs =>
        obtain ⟨m, c', hm, hEq, hGleaned⟩ :=
          ih (c := c) (fun h => hOut (List.mem_cons_of_mem _ h)) (hRest (Nat.lt_succ_self _))
        exact ⟨m, c', hm, (collect_none hNone).trans hEq, hGleaned.later hNot⟩
    · have hStep := collect_some (n := n) (by simp) hSome
      rcases hAfter with rfl | ⟨ds, hSuffix, hShort, rfl⟩
      · exact ⟨n, c₁, by omega, hStep, .here hStarts hGrown hne (.refl c₁)⟩
      · obtain ⟨m, c', hm, hEq, hGleaned⟩ :=
          ih (c := c₁) (fun h => hOut (hSuffix.subset h)) (hRest hShort)
        exact ⟨m, c', hm, hStep.trans hEq, .here hStarts hGrown hne hGleaned.grown⟩

/-- A bracket that is no test is passed over, up to what can be read in it. -/
theorem collect_bracket (hOut : ']' ∉ content) (hNone : ∀ t, ¬ Tests content t)
    (hn : ((Part.bracket content).text ++ rest).length ≤ n + 1) :
    ∃ m c', rest.length ≤ m ∧
      collect (n + 1) c ((Part.bracket content).text ++ rest) = collect m c' rest ∧
        Gleaned content c c' := by
  have hText : (Part.bracket content).text ++ rest = '[' :: (content ++ ']' :: rest) := by
    simp [Part.text]
  have hTest : attributeTest? (content ++ ']' :: rest) = none := by
    rw [Option.eq_none_iff_forall_ne_some]
    rintro ⟨t, after⟩ h
    exact hNone t ((attributeTest?_bracket hOut).mp h).1
  have hPart : part? c ('[' :: (content ++ ']' :: rest)) = none := by
    simp [part?, hTest]
  rw [hText, List.length_cons] at hn
  rw [hText, collect_none hPart]
  exact collect_inside hOut (Nat.le_of_succ_le_succ hn)

/-- What the scan makes of parts, one after the other. Of a bracket that is no test it reads what
can be read in it. -/
inductive Reads : Compound → List Part → Compound → Prop where
  | nil (c : Compound) : Reads c [] c
  | part {c c₁ c' : Compound} {p : Part} {parts : List Part} (hAdds : p.Adds c c₁)
      (hRest : Reads c₁ parts c') : Reads c (p :: parts) c'
  | unread {c c₁ c' : Compound} {content : List Char} {parts : List Part}
      (hNone : ∀ t, ¬ Tests content t) (hGleaned : Gleaned content c c₁)
      (hRest : Reads c₁ parts c') : Reads c (.bracket content :: parts) c'

theorem collect_reads (hParts : ∀ p ∈ parts, p.WellFormed) (hn : (textOf parts).length ≤ n) :
    Reads c parts (collect n c (textOf parts)) := by
  induction parts generalizing n c with
  | nil =>
    have hNil : collect n c (textOf []) = c := by cases n <;> rfl
    rw [hNil]
    exact .nil c
  | cons p parts ih =>
    obtain ⟨hp, hOthers⟩ := List.forall_mem_cons.mp hParts
    rw [textOf_cons] at hn ⊢
    have hPos := length_text_pos p
    have hSplit := List.length_append ▸ hn
    obtain ⟨n, rfl⟩ : ∃ m, n = m + 1 := ⟨n - 1, by omega⟩
    have hRead : ∀ {c₁}, p.Adds c c₁ →
        Reads c (p :: parts) (collect (n + 1) c (p.text ++ textOf parts)) := by
      intro c₁ hAdds
      have hne : p.text ++ textOf parts ≠ [] :=
        List.append_ne_nil_of_left_ne_nil (List.ne_nil_of_length_pos hPos) _
      rw [collect_some hne (hAdds.part?_eq hp (ends_textOf parts))]
      exact .part hAdds (ih hOthers (by omega))
    cases p with
    | id name => exact hRead .id
    | className name => exact hRead .className
    | bracket content =>
      by_cases hTest : ∃ t, Tests content t
      · obtain ⟨t, hTest⟩ := hTest
        exact hRead (.test hTest)
      · have hNone : ∀ t, ¬ Tests content t := fun t h => hTest ⟨t, h⟩
        obtain ⟨m, c₁, hm, hEq, hGleaned⟩ := collect_bracket (c := c) hp.2 hNone hn
        rw [hEq]
        exact .unread hNone hGleaned (ih hOthers hm)

end Selector

end LiveMarkup
