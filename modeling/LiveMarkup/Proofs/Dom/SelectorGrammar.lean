import LiveMarkup.Proofs.Dom.Selecting
import LiveMarkup.Proofs.Dom.SelectorParts

/-!
# The grammar of selectors and what it asks of a node

Text is accepted as a compound if it is a tag and parts and something is read of it, or if it is
`*`. Of two ids only the second one is kept, and a bracket that is no test is not asked for, so that
a node may match without having all that is written.

* `Selector.Written`: compounds as they are written, `Selector.Spells`: the texts of a selector;
* `Written.Asks`: something is read of a compound;
* `Written.Satisfied`: a node has everything that is written, `Written.Honoured`: what is asked;
* `Selector.parse?_honours`: the texts that are accepted and the nodes that they match.
-/

namespace LiveMarkup

namespace Selector

variable {cs name content : List Char} {c c' : Compound} {parts : List Part} {p : Part}

/-! ## What is asked for -/

/-- Something is read of a part. -/
def Part.Heard : Part → Prop
  | bracket content => (∃ t, Tests content t) ∨ Stray content
  | _ => True

/-- A part that is kept whatever is written after it: a class, or a bracket that is a test. -/
def Part.Firm : Part → Prop
  | id _ => False
  | className _ => True
  | bracket content => ∃ t, Tests content t

/-- A part that the scan knows: no bracket but a test. -/
def Part.Legible (p : Part) : Prop :=
  p.Firm ∨ ∃ name, p = id name

/-- A compound asks for what a part says. -/
def Part.Asked (c : Compound) : Part → Prop
  | id name => c.id = some (String.ofList name)
  | className name => String.ofList name ∈ c.classes
  | bracket content => ∃ t, Tests content t ∧ t ∈ c.attributes

theorem Part.Adds.asked (h : p.Adds c c') : p.Asked c' := by
  cases h with
  | id => rfl
  | className => exact List.mem_append_right _ List.mem_cons_self
  | test hTest => exact ⟨_, hTest, List.mem_append_right _ List.mem_cons_self⟩

theorem Part.Firm.asked (hp : p.Firm) (hGrown : Grown c c') (h : p.Asked c) : p.Asked c' := by
  cases p with
  | id => exact hp.elim
  | className => exact hGrown.classes h
  | bracket content =>
    obtain ⟨t, hTest, hMem⟩ := h
    exact ⟨t, hTest, hGrown.attributes hMem⟩

theorem Part.Adds.id_eq (h : p.Adds c c') (hp : p.Firm) : c'.id = c.id := by
  cases h with
  | id => exact hp.elim
  | className => rfl
  | test => rfl

namespace Reads

theorem grown (h : Reads c parts c') : Grown c c' := by
  induction h with
  | nil c => exact .refl c
  | part hAdds _ ih => exact hAdds.grown.trans ih
  | unread _ hGleaned _ ih => exact hGleaned.grown.trans ih

theorem ne_default_iff (h : Reads c parts c') : c' ≠ {} ↔ c ≠ {} ∨ ∃ p ∈ parts, p.Heard := by
  induction h with
  | nil c => simp
  | @part c c₁ c' p parts hAdds hRest ih =>
    refine iff_of_true (ih.mpr (.inl hAdds.ne_default)) (.inr ⟨p, List.mem_cons_self, ?_⟩)
    cases hAdds with
    | test hTest => exact .inl ⟨_, hTest⟩
    | _ => trivial
  | @unread c c₁ c' content parts hNone hGleaned hRest ih =>
    have hHeard : (Part.bracket content).Heard ↔ Stray content :=
      or_iff_right fun ⟨t, hTest⟩ => hNone t hTest
    rw [ih, List.exists_mem_cons_iff, hHeard]
    by_cases hIn : Stray content
    · simp [hGleaned.stray hIn, hIn]
    · simp [hGleaned.plain hIn, hIn]

theorem firm (h : Reads c parts c') (hMem : p ∈ parts) (hFirm : p.Firm) : p.Asked c' := by
  induction h with
  | nil c => cases hMem
  | part hAdds hRest ih =>
    rcases List.mem_cons.mp hMem with rfl | hMem
    · exact hFirm.asked hRest.grown hAdds.asked
    · exact ih hMem
  | unread hNone _ _ ih =>
    rcases List.mem_cons.mp hMem with rfl | hMem
    · obtain ⟨t, hTest⟩ := hFirm
      exact absurd hTest (hNone t)
    · exact ih hMem

theorem id_eq (h : Reads c parts c') (hFirm : ∀ p ∈ parts, p.Firm) : c'.id = c.id := by
  induction h with
  | nil c => rfl
  | part hAdds _ ih =>
    obtain ⟨hp, hOthers⟩ := List.forall_mem_cons.mp hFirm
    exact (ih hOthers).trans (hAdds.id_eq hp)
  | unread hNone _ _ _ =>
    obtain ⟨t, hTest⟩ := (List.forall_mem_cons.mp hFirm).1
    exact absurd hTest (hNone t)

theorem last_id {before behind : List Part} (h : Reads c (before ++ .id name :: behind) c')
    (hFirm : ∀ p ∈ behind, p.Firm) : c'.id = some (String.ofList name) := by
  induction before generalizing c with
  | nil =>
    cases h with
    | part hAdds hRest =>
      cases hAdds
      exact hRest.id_eq hFirm
  | cons p before ih =>
    cases h with
    | part _ hRest => exact ih hRest
    | unread _ _ hRest => exact ih hRest

/-- If every bracket is a test, the only id that is asked for is the last one. -/
theorem exists_id (h : Reads c parts c') (hLegible : ∀ p ∈ parts, p.Legible) :
    (c'.id = c.id ∧ ∀ p ∈ parts, p.Firm) ∨ ∃ before name behind,
      parts = before ++ .id name :: behind ∧ (∀ p ∈ behind, p.Firm) ∧
        c'.id = some (String.ofList name) := by
  induction h with
  | nil c => exact .inl ⟨rfl, fun _ h => nomatch h⟩
  | @part c c₁ c' p parts hAdds hRest ih =>
    rcases ih fun q hq => hLegible q (List.mem_cons_of_mem _ hq) with
      ⟨hSame, hFirm⟩ | ⟨before, name, behind, rfl, hFirm, hId⟩
    · cases hAdds with
      | @id name => exact .inr ⟨[], name, parts, rfl, hFirm, hSame⟩
      | className => exact .inl ⟨hSame, List.forall_mem_cons.mpr ⟨trivial, hFirm⟩⟩
      | test hTest => exact .inl ⟨hSame, List.forall_mem_cons.mpr ⟨⟨_, hTest⟩, hFirm⟩⟩
    · exact .inr ⟨p :: before, name, behind, rfl, hFirm, hId⟩
  | unread hNone _ _ _ =>
    rcases hLegible _ List.mem_cons_self with ⟨t, hTest⟩ | ⟨name, hEq⟩
    · exact absurd hTest (hNone t)
    · cases hEq

end Reads

/-! ## What a node has to be -/

/-- A node passes a test. -/
def TestHolds (d : Dom) (a : NodeId) (t : String × Option String) : Prop :=
  match t.2 with
  | some value => d.attribute? a t.1 = some value
  | none => d.attribute? a t.1 ≠ none

/-- A node has what a part says. No node has what a bracket says that is no test. -/
def Part.Satisfied (d : Dom) (a : NodeId) : Part → Prop
  | id name => d.attribute? a "id" = some (String.ofList name)
  | className name => String.ofList name ∈ d.classes a
  | bracket content => ∃ t, Tests content t ∧ TestHolds d a t

/-- A node is an element with a tag, if one is asked for. -/
def Tagged (d : Dom) (a : NodeId) (tag? : Option String) : Prop :=
  ∃ tag, (d.label a).tag? = some tag ∧ ∀ t, tag? = some t → t = tag

/-- A node has the classes and passes the tests of a compound. -/
structure Compound.Holds (c : Compound) (d : Dom) (a : NodeId) : Prop where
  classes : ∀ name ∈ c.classes, name ∈ d.classes a
  attributes : ∀ t ∈ c.attributes, TestHolds d a t

variable {d : Dom} {a : NodeId}

theorem Compound.accepts_iff : c.accepts d a = true ↔
    Tagged d a c.tag ∧ (∀ id, c.id = some id → d.attribute? a "id" = some id) ∧ c.Holds d a := by
  unfold accepts Tagged
  cases (d.label a).tag? with
  | none => simp
  | some tag =>
    simp only [Bool.and_eq_true, Option.all_eq_true, List.all_eq_true, List.contains_iff_mem,
      beq_iff_eq, Option.some.injEq, exists_eq_left']
    constructor
    · rintro ⟨⟨⟨hTag, hId⟩, hClasses⟩, hTests⟩
      refine ⟨hTag, hId, hClasses, fun t ht => ?_⟩
      have hTest := hTests t ht
      obtain ⟨name, _ | value⟩ := t
      · exact Option.ne_none_iff_isSome.mpr hTest
      · exact beq_iff_eq.mp hTest
    · rintro ⟨hTag, hId, hClasses, hTests⟩
      refine ⟨⟨⟨hTag, hId⟩, hClasses⟩, fun t ht => ?_⟩
      have hTest := hTests t ht
      obtain ⟨name, _ | value⟩ := t
      · exact Option.ne_none_iff_isSome.mp hTest
      · exact beq_iff_eq.mpr hTest

theorem Part.Asked.satisfied (hAsked : p.Asked c) (h : c.accepts d a = true) :
    p.Satisfied d a := by
  obtain ⟨-, hId, hHolds⟩ := Compound.accepts_iff.mp h
  cases p with
  | id name => exact hId _ hAsked
  | className name => exact hHolds.classes _ hAsked
  | bracket content =>
    obtain ⟨t, hTest, hMem⟩ := hAsked
    exact ⟨t, hTest, hHolds.attributes t hMem⟩

/-- There is one way to read a test. -/
theorem Tests.unique {s t : String × Option String} (hOut : ']' ∉ content) (hs : Tests content s)
    (ht : Tests content t) : s = t := by
  have hRead : ∀ {u}, Tests content u → attributeTest? (content ++ [']']) = some (u, []) :=
    fun hu => (attributeTest?_bracket hOut).mpr ⟨hu, rfl⟩
  exact (Prod.mk.inj (Option.some.inj ((hRead hs).symm.trans (hRead ht)))).1

/-- If every bracket is a test, only the classes and tests that are written are asked for. -/
theorem Reads.holds (h : Reads c parts c') (hParts : ∀ p ∈ parts, p.WellFormed)
    (hLegible : ∀ p ∈ parts, p.Legible) (hc : c.Holds d a)
    (hFirm : ∀ p ∈ parts, p.Firm → p.Satisfied d a) : c'.Holds d a := by
  induction h with
  | nil c => exact hc
  | part hAdds _ ih =>
    obtain ⟨hp, hOthers⟩ := List.forall_mem_cons.mp hParts
    obtain ⟨hHere, hFirm⟩ := List.forall_mem_cons.mp hFirm
    refine ih hOthers (List.forall_mem_cons.mp hLegible).2 ?_ hFirm
    cases hAdds with
    | id => exact ⟨hc.classes, hc.attributes⟩
    | className =>
      have hName := hHere trivial
      exact ⟨List.forall_mem_append.mpr ⟨hc.classes, List.forall_mem_singleton.mpr hName⟩,
        hc.attributes⟩
    | test hTest =>
      obtain ⟨t, hTest', hHolds⟩ := hHere ⟨_, hTest⟩
      obtain rfl := hTest.unique hp.2 hTest'
      exact ⟨hc.classes, List.forall_mem_append.mpr ⟨hc.attributes,
        List.forall_mem_singleton.mpr hHolds⟩⟩
  | unread hNone _ _ _ =>
    rcases (List.forall_mem_cons.mp hLegible).1 with ⟨t, hTest⟩ | ⟨name, hEq⟩
    · exact absurd hTest (hNone t)
    · cases hEq

/-! ## Compounds as they are written -/

/-- What stands in front of the parts: nothing, `*`, or a letter and then characters of names. -/
def IsTag (cs : List Char) : Prop :=
  cs = [] ∨ cs = ['*'] ∨
    ∃ c rest, cs = c :: rest ∧ c.isAlpha = true ∧ ∀ d ∈ rest, isNameChar d = true

theorem splitTag_append (hTag : IsTag name) (parts : List Part) :
    splitTag (name ++ textOf parts) = (name, textOf parts) := by
  have hEnds := ends_textOf parts
  rcases hTag with rfl | rfl | ⟨c, rest, rfl, hAlpha, hRest⟩
  · cases parts with
    | nil => rfl
    | cons p parts => cases p <;> rfl
  · rfl
  · have hStar : ¬ (c == '*') = true := by
      rintro hEq
      obtain rfl := beq_iff_eq.mp hEq
      cases hAlpha
    rw [List.cons_append, splitTag, if_neg hStar, if_pos hAlpha,
      Text.takeWhile_append_ends hRest hEnds, Text.dropWhile_append_ends hRest hEnds]

theorem splitTag_spec (cs : List Char) :
    IsTag (splitTag cs).1 ∧ cs = (splitTag cs).1 ++ (splitTag cs).2 := by
  unfold splitTag
  split
  · exact ⟨.inl rfl, rfl⟩
  next c rest =>
    split
    next hStar =>
      obtain rfl := beq_iff_eq.mp hStar
      exact ⟨.inr (.inl rfl), rfl⟩
    next =>
      split
      next hAlpha =>
        refine ⟨.inr (.inr ⟨c, _, rfl, hAlpha, fun d hd => ?_⟩), ?_⟩
        · exact List.all_eq_true.mp List.all_takeWhile d hd
        · rw [List.cons_append, List.takeWhile_append_dropWhile]
      next => exact ⟨.inl rfl, rfl⟩

/-- A compound as it is written. -/
structure Written where
  tag : List Char
  parts : List Part

namespace Written

variable {w : Written}

def text (w : Written) : List Char :=
  w.tag ++ textOf w.parts

structure WellFormed (w : Written) : Prop where
  tag : IsTag w.tag
  parts : ∀ p ∈ w.parts, p.WellFormed

/-- The tag that is asked for, in lower case. -/
def tagName? (w : Written) : Option String :=
  if w.tag = [] ∨ w.tag = ['*'] then none else some (Text.lowerAscii (String.ofList w.tag))

/-- The compound is `*`, or something is read of it. -/
def Asks (w : Written) : Prop :=
  w.text = ['*'] ∨ w.tagName? ≠ none ∨ ∃ p ∈ w.parts, p.Heard

theorem parse?_text (hw : w.WellFormed) : ∃ c, Reads { tag := w.tagName? } w.parts c ∧
    Compound.parse? w.text = if c = {} ∧ w.text ≠ ['*'] then none else some c := by
  refine ⟨_, collect_reads hw.parts (Nat.le_refl _), ?_⟩
  have hTag : (if w.tag.isEmpty || w.tag == ['*'] then none
      else some (Text.lowerAscii (String.ofList w.tag))) = w.tagName? := by
    simp [tagName?]
  unfold Compound.parse? text
  rw [splitTag_append hw.tag]
  simp only [hTag, isParts_textOf hw.parts (Nat.le_refl _), if_true]
  simp

theorem parse?_isSome_iff (hw : w.WellFormed) :
    (Compound.parse? w.text).isSome = true ↔ w.Asks := by
  obtain ⟨c, hReads, hEq⟩ := parse?_text hw
  have hTag : ({ tag := w.tagName? } : Compound) ≠ {} ↔ w.tagName? ≠ none := by simp
  rw [hEq, Asks, ← hTag, ← hReads.ne_default_iff]
  by_cases hStar : w.text = ['*'] <;> by_cases hc : c = {} <;> simp [hStar, hc]

/-- What is read of an accepted text is what the scan makes of its parts. -/
theorem reads_of_parse? (hw : w.WellFormed) (h : Compound.parse? w.text = some c) :
    Reads { tag := w.tagName? } w.parts c := by
  obtain ⟨c', hReads, hEq⟩ := parse?_text hw
  rw [hEq] at h
  split at h
  · cases h
  · obtain rfl := Option.some.inj h
    exact hReads

end Written

theorem exists_written (h : Compound.parse? cs = some c) :
    ∃ w : Written, w.WellFormed ∧ w.text = cs := by
  obtain ⟨hTag, hSplit⟩ := splitTag_spec cs
  unfold Compound.parse? at h
  simp only at h
  split at h
  next hParts =>
    obtain ⟨parts, hFormed, hEq⟩ := exists_parts hParts
    exact ⟨⟨_, parts⟩, ⟨hTag, hFormed⟩, by rw [Written.text, ← hEq, ← hSplit]⟩
  next => cases h

namespace Written

variable {w : Written}

/-- A node is accepted by the compound that is read. -/
def Accepted (w : Written) (d : Dom) (a : NodeId) : Prop :=
  ∃ c, Compound.parse? w.text = some c ∧ c.accepts d a = true

/-- A node has everything that is written. -/
structure Satisfied (w : Written) (d : Dom) (a : NodeId) : Prop where
  tag : Tagged d a w.tagName?
  parts : ∀ p ∈ w.parts, p.Satisfied d a

/-- A node has what is asked of it: the tag, the classes and tests, and the last id. -/
structure Honoured (w : Written) (d : Dom) (a : NodeId) : Prop where
  tag : Tagged d a w.tagName?
  firm : ∀ p ∈ w.parts, p.Firm → p.Satisfied d a
  id : ∀ before name behind, w.parts = before ++ .id name :: behind → (∀ p ∈ behind, p.Firm) →
    (Part.id name).Satisfied d a

/-- Every bracket is a test. -/
def Legible (w : Written) : Prop :=
  ∀ p ∈ w.parts, p.Legible

/-- Every bracket is a test, and no two ids are written. -/
structure Plain (w : Written) : Prop where
  legible : w.Legible
  oneId : ∀ name name', .id name ∈ w.parts → .id name' ∈ w.parts → name = name'

theorem honoured_of_accepts (hw : w.WellFormed) (hParse : Compound.parse? w.text = some c)
    (h : c.accepts d a = true) : w.Honoured d a := by
  have hReads := reads_of_parse? hw hParse
  have hSame : c.tag = w.tagName? := hReads.grown.tag
  obtain ⟨hTag, hId, -⟩ := Compound.accepts_iff.mp h
  refine ⟨hSame ▸ hTag, fun p hp hFirm => (hReads.firm hp hFirm).satisfied h, ?_⟩
  intro before name behind hEq hFirm
  exact hId _ ((hEq ▸ hReads).last_id hFirm)

theorem accepts_of_honoured (hw : w.WellFormed) (hParse : Compound.parse? w.text = some c)
    (hLegible : w.Legible) (h : w.Honoured d a) : c.accepts d a = true := by
  have hReads := reads_of_parse? hw hParse
  have hSame : c.tag = w.tagName? := hReads.grown.tag
  have hNothing : ({ tag := w.tagName? } : Compound).Holds d a :=
    ⟨fun _ h => (nomatch h), fun _ h => (nomatch h)⟩
  refine Compound.accepts_iff.mpr ⟨hSame ▸ h.tag, fun id hId => ?_,
    hReads.holds hw.parts hLegible hNothing h.firm⟩
  rcases hReads.exists_id hLegible with ⟨hNone, -⟩ | ⟨before, name, behind, hEq, hFirm, hName⟩
  · cases hNone.symm.trans hId
  · obtain rfl := Option.some.inj (hName.symm.trans hId)
    exact h.id before name behind hEq hFirm

theorem Honoured.satisfied_iff (hw : w.WellFormed) (hPlain : w.Plain) :
    w.Honoured d a ↔ w.Satisfied d a := by
  constructor
  · intro h
    refine ⟨h.tag, fun p hp => ?_⟩
    rcases hPlain.legible p hp with hFirm | ⟨name, rfl⟩
    · exact h.firm p hp hFirm
    -- the last id is the only one
    · have hReads : Reads {} w.parts _ := collect_reads hw.parts (Nat.le_refl _)
      rcases hReads.exists_id hPlain.legible with
        ⟨-, hFirm⟩ | ⟨before, name', behind, hEq, hFirm, -⟩
      · exact (hFirm _ hp).elim
      · obtain rfl := hPlain.oneId name name' hp (hEq ▸ List.mem_append_right _ List.mem_cons_self)
        exact h.id before name behind hEq hFirm
  · exact fun h => ⟨h.tag, fun p hp _ => h.parts p hp, fun before name behind hEq _ =>
      h.parts _ (hEq ▸ List.mem_append_right _ List.mem_cons_self)⟩

end Written

/-! ## Selectors as they are written -/

section

variable {α β : Type}

theorem mapM_eq_some_iff {f : α → Option β} {l : List α} {ys : List β} :
    l.mapM f = some ys ↔ l.map f = ys.map some := by
  induction l generalizing ys with
  | nil => cases ys <;> simp
  | cons x l ih =>
    cases hx : f x with
    | none => cases ys <;> simp [List.mapM_cons, hx]
    | some y =>
      cases ys with
      | nil => simp [List.mapM_cons, hx, Option.bind_eq_some_iff]
      | cons z ys => simp [List.mapM_cons, hx, ← ih, Option.bind_eq_some_iff, and_comm]

theorem exists_map_eq {f : α → β} {P : α → Prop} {ys : List β}
    (h : ∀ y ∈ ys, ∃ x, P x ∧ f x = y) : ∃ xs : List α, (∀ x ∈ xs, P x) ∧ xs.map f = ys := by
  induction ys with
  | nil => exact ⟨[], fun _ h => (nomatch h), rfl⟩
  | cons y ys ih =>
    obtain ⟨hy, hOthers⟩ := List.forall_mem_cons.mp h
    obtain ⟨x, hx, rfl⟩ := hy
    obtain ⟨xs, hxs, rfl⟩ := ih hOthers
    exact ⟨x :: xs, List.forall_mem_cons.mpr ⟨hx, hxs⟩, rfl⟩

end

/-- The words of a text: chains stand between commas, the words of a chain between blanks. -/
def wordsOf (text : String) : List (List (List Char)) :=
  (text.toList.splitOn ',').map fun piece =>
    (piece.splitOnP Text.isBlank).filter fun word => !word.isEmpty

/-- Text is made of the compounds of some chains, none of them empty. -/
structure Spells (sheet : List (List Written)) (text : String) : Prop where
  wellFormed : ∀ chain ∈ sheet, ∀ w ∈ chain, w.WellFormed
  nonempty : ∀ chain ∈ sheet, chain ≠ []
  text : sheet.map (List.map Written.text) = wordsOf text

variable {sheet : List (List Written)} {text : String} {s : Selector}

/-- A chain is read from its words. -/
def readChain? (words : List (List Char)) : Option (List Compound) :=
  if words = [] then none else words.mapM Compound.parse?

theorem chain?_eq (cs : List Char) : chain? cs = readChain? (Text.words cs) := by
  unfold chain? readChain?
  split
  next h => rw [if_pos h]
  next hne => rw [if_neg hne]

theorem readChain?_eq_some_iff {words : List (List Char)} {compounds : List Compound} :
    readChain? words = some compounds ↔
      words ≠ [] ∧ words.map Compound.parse? = compounds.map some := by
  rw [readChain?, ← mapM_eq_some_iff]
  split <;> simp [*]

theorem parse?_eq_some_iff :
    parse? text = some s ↔ (wordsOf text).map readChain? = s.alternatives.map some := by
  have hWords :
      (Text.pieces (· == ',') text.toList).map chain? = (wordsOf text).map readChain? := by
    rw [Text.pieces_eq_splitOnP, ← List.splitOn_eq_splitOnP, wordsOf, List.map_map]
    exact List.map_congr_left fun piece _ => by rw [chain?_eq, Text.words_eq_filter]; rfl
  rw [← hWords, ← mapM_eq_some_iff, parse?, Option.map_eq_some_iff]
  constructor
  · rintro ⟨alternatives, h, rfl⟩
    exact h
  · exact fun h => ⟨s.alternatives, h, rfl⟩

/-- An accepted text is made of compounds of which something is read. -/
theorem exists_spells (h : parse? text = some s) :
    ∃ sheet, Spells sheet text ∧ ∀ chain ∈ sheet, ∀ w ∈ chain, w.Asks := by
  have hRead := parse?_eq_some_iff.mp h
  have hChain : ∀ words ∈ wordsOf text, ∃ chain : List Written,
      (chain ≠ [] ∧ ∀ w ∈ chain, w.WellFormed ∧ w.Asks) ∧ chain.map Written.text = words := by
    intro words hWords
    obtain ⟨compounds, -, hCompounds⟩ := List.mem_map.mp (hRead ▸ List.mem_map_of_mem hWords)
    obtain ⟨hne, hSome⟩ := readChain?_eq_some_iff.mp hCompounds.symm
    have hWord : ∀ word ∈ words, ∃ w : Written, (w.WellFormed ∧ w.Asks) ∧ w.text = word := by
      intro word hMem
      obtain ⟨c, -, hc⟩ := List.mem_map.mp (hSome ▸ List.mem_map_of_mem hMem)
      obtain ⟨w, hw, rfl⟩ := exists_written hc.symm
      exact ⟨w, ⟨hw, (Written.parse?_isSome_iff hw).mp (hc ▸ rfl)⟩, rfl⟩
    obtain ⟨chain, hAll, rfl⟩ := exists_map_eq hWord
    exact ⟨chain, ⟨fun hNil => hne (hNil ▸ rfl), hAll⟩, rfl⟩
  obtain ⟨sheet, hAll, hText⟩ := exists_map_eq hChain
  exact ⟨sheet, ⟨fun chain hc w hw => ((hAll chain hc).2 w hw).1, fun chain hc => (hAll chain hc).1,
    hText⟩, fun chain hc w hw => ((hAll chain hc).2 w hw).2⟩

namespace Spells

/-- Such a text is accepted. -/
theorem exists_parse? (h : Spells sheet text) (hAsks : ∀ chain ∈ sheet, ∀ w ∈ chain, w.Asks) :
    ∃ s, parse? text = some s := by
  have hChain : ∀ x ∈ (wordsOf text).map readChain?, ∃ compounds : List Compound, True ∧
      some compounds = x := by
    rw [← h.text, List.map_map]
    intro x hx
    obtain ⟨chain, hc, rfl⟩ := List.mem_map.mp hx
    have hWord : ∀ y ∈ (chain.map Written.text).map Compound.parse?, ∃ c : Compound, True ∧
        some c = y := by
      rw [List.map_map]
      intro y hy
      obtain ⟨w, hw, rfl⟩ := List.mem_map.mp hy
      have hFormed := h.wellFormed chain hc w hw
      have hSome := (Written.parse?_isSome_iff hFormed).mpr (hAsks chain hc w hw)
      exact ⟨_, trivial, Option.some_get hSome⟩
    obtain ⟨compounds, -, hCompounds⟩ := exists_map_eq hWord
    refine ⟨compounds, trivial, (readChain?_eq_some_iff.mpr ⟨?_, hCompounds.symm⟩).symm⟩
    exact fun hNil => h.nonempty chain hc (List.map_eq_nil_iff.mp hNil)
  obtain ⟨alternatives, -, hRead⟩ := exists_map_eq hChain
  exact ⟨⟨alternatives⟩, parse?_eq_some_iff.mpr hRead.symm⟩

/-- Chains and alternatives belong to each other. -/
theorem alternatives (h : Spells sheet text) (hParse : parse? text = some s) :
    (∀ compounds ∈ s.alternatives, ∃ chain ∈ sheet,
      chain.map (fun w => Compound.parse? w.text) = compounds.map some) ∧
    ∀ chain ∈ sheet, ∃ compounds ∈ s.alternatives,
      chain.map (fun w => Compound.parse? w.text) = compounds.map some := by
  have hRead := parse?_eq_some_iff.mp hParse
  rw [← h.text, List.map_map] at hRead
  have hChain : ∀ {chain : List Written} {compounds : List Compound},
      readChain? (chain.map Written.text) = some compounds →
        chain.map (fun w => Compound.parse? w.text) = compounds.map some := by
    intro chain compounds hEq
    have hMap := (readChain?_eq_some_iff.mp hEq).2
    rwa [List.map_map] at hMap
  constructor
  · intro compounds hMem
    obtain ⟨chain, hc, hEq⟩ := List.mem_map.mp (hRead.symm ▸ List.mem_map_of_mem hMem)
    exact ⟨chain, hc, hChain hEq⟩
  · intro chain hc
    obtain ⟨compounds, hMem, hEq⟩ := List.mem_map.mp (hRead ▸ List.mem_map_of_mem hc)
    exact ⟨compounds, hMem, hChain hEq.symm⟩

/-- A node matches if it and nodes around it are accepted by the compounds of a chain. -/
theorem accepts_iff (h : Spells sheet text) (hParse : parse? text = some s)
    (hf : d.nodes.Linked) :
    s.accepts d a = true ↔ ∃ chain ∈ sheet, Nested (fun w b => w.Accepted d b) d chain a := by
  have hNested : ∀ {chain : List Written} {compounds : List Compound},
      chain.map (fun w => Compound.parse? w.text) = compounds.map some →
        (Nested (fun c b => c.accepts d b = true) d compounds a ↔
          Nested (fun w b => w.Accepted d b) d chain a) := by
    intro chain compounds hEq
    let Read : Option Compound → NodeId → Prop := fun o b => ∃ c, o = some c ∧ c.accepts d b = true
    have hSome : Nested Read d (compounds.map some) a ↔
        Nested (fun c b => c.accepts d b = true) d compounds a := by
      simp only [nested_map, Read, Option.some.injEq, exists_eq_left']
    rw [← hSome, ← hEq, nested_map]
    exact Iff.rfl
  obtain ⟨hChain, hAlternative⟩ := h.alternatives hParse
  rw [Selector.accepts_iff hf, Matches]
  constructor
  · rintro ⟨compounds, hMem, hFits⟩
    obtain ⟨chain, hc, hEq⟩ := hChain compounds hMem
    exact ⟨chain, hc, (hNested hEq).mp hFits⟩
  · rintro ⟨chain, hc, hFits⟩
    obtain ⟨compounds, hMem, hEq⟩ := hAlternative chain hc
    exact ⟨compounds, hMem, (hNested hEq).mpr hFits⟩

/-- Every compound of an accepted text is read. -/
theorem exists_compound (h : Spells sheet text) (hParse : parse? text = some s)
    {chain : List Written} (hc : chain ∈ sheet) {w : Written} (hw : w ∈ chain) :
    ∃ c, Compound.parse? w.text = some c := by
  obtain ⟨compounds, -, hEq⟩ := (h.alternatives hParse).2 chain hc
  have hMem : Compound.parse? w.text ∈ compounds.map some := hEq ▸ List.mem_map_of_mem hw
  obtain ⟨c, -, hSome⟩ := List.mem_map.mp hMem
  exact ⟨c, hSome.symm⟩

variable (h : Spells sheet text) (hParse : parse? text = some s) (hf : d.nodes.Linked)
include h hParse hf

theorem honoured_of_accepts (hAccepts : s.accepts d a = true) :
    ∃ chain ∈ sheet, Nested (fun w b => w.Honoured d b) d chain a := by
  obtain ⟨chain, hc, hFits⟩ := (h.accepts_iff hParse hf).mp hAccepts
  refine ⟨chain, hc, hFits.imp ?_⟩
  rintro w hw b ⟨c, hRead, hAccepts⟩
  exact Written.honoured_of_accepts (h.wellFormed chain hc w hw) hRead hAccepts

theorem accepts_iff_honoured (hLegible : ∀ chain ∈ sheet, ∀ w ∈ chain, w.Legible) :
    s.accepts d a = true ↔ ∃ chain ∈ sheet, Nested (fun w b => w.Honoured d b) d chain a := by
  refine ⟨h.honoured_of_accepts hParse hf, ?_⟩
  rintro ⟨chain, hc, hFits⟩
  refine (h.accepts_iff hParse hf).mpr ⟨chain, hc, hFits.imp fun w hw b hHonoured => ?_⟩
  obtain ⟨c, hRead⟩ := h.exists_compound hParse hc hw
  exact ⟨c, hRead, Written.accepts_of_honoured (h.wellFormed chain hc w hw) hRead
    (hLegible chain hc w hw) hHonoured⟩

theorem accepts_iff_satisfied (hPlain : ∀ chain ∈ sheet, ∀ w ∈ chain, w.Plain) :
    s.accepts d a = true ↔ ∃ chain ∈ sheet, Nested (fun w b => w.Satisfied d b) d chain a := by
  rw [h.accepts_iff_honoured hParse hf fun chain hc w hw => (hPlain chain hc w hw).legible]
  have hSame : ∀ chain ∈ sheet, ∀ w ∈ chain, ∀ b, w.Honoured d b ↔ w.Satisfied d b :=
    fun chain hc w hw b =>
      Written.Honoured.satisfied_iff (h.wellFormed chain hc w hw) (hPlain chain hc w hw)
  refine exists_congr fun chain => and_congr_right fun hc => ⟨fun hFits => ?_, fun hFits => ?_⟩
  · exact hFits.imp fun w hw b => (hSame chain hc w hw b).mp
  · exact hFits.imp fun w hw b => (hSame chain hc w hw b).mpr

end Spells

/-- A text is accepted exactly if it is made of compounds of which something is read. A node that
matches, and the nodes that stand for the compounds before, have the tags, classes, tests and last
ids that are written. Nothing else is asked of them if every bracket is a test, and then all that
is written is asked for if no compound has two ids. -/
theorem parse?_honours (text : String) :
    (parse? text = none ↔
      ¬ ∃ sheet, Spells sheet text ∧ ∀ chain ∈ sheet, ∀ w ∈ chain, w.Asks) ∧
    ∀ s, parse? text = some s → ∀ sheet, Spells sheet text → ∀ d : Dom, d.nodes.Linked → ∀ a,
      (s.accepts d a = true →
        ∃ chain ∈ sheet, Nested (fun w b => w.Honoured d b) d chain a) ∧
      ((∀ chain ∈ sheet, ∀ w ∈ chain, w.Legible) →
        (s.accepts d a = true ↔ ∃ chain ∈ sheet, Nested (fun w b => w.Honoured d b) d chain a)) ∧
      ((∀ chain ∈ sheet, ∀ w ∈ chain, w.Plain) →
        (s.accepts d a = true ↔
          ∃ chain ∈ sheet, Nested (fun w b => w.Satisfied d b) d chain a)) := by
  refine ⟨?_, fun s hParse sheet h d hf a => ⟨h.honoured_of_accepts hParse hf,
    h.accepts_iff_honoured hParse hf, h.accepts_iff_satisfied hParse hf⟩⟩
  constructor
  · rintro hNone ⟨sheet, h, hAsks⟩
    obtain ⟨s, hSome⟩ := h.exists_parse? hAsks
    cases hNone.symm.trans hSome
  · intro hNot
    rw [Option.eq_none_iff_forall_ne_some]
    exact fun s hSome => hNot (exists_spells hSome)

/-- An element with an id, a class and an attribute. -/
def lone : Dom where
  nodes := ⟨#[⟨.element "li" [("id", "b"), ("class", "row"), ("data-kind", "a")], none, []⟩]⟩

/-- The compound `li.row#b[data-kind="a"]`. -/
def rowB : Written where
  tag := ['l', 'i']
  parts := [.className ['r', 'o', 'w'], .id ['b'],
    .bracket ['d', 'a', 't', 'a', '-', 'k', 'i', 'n', 'd', '=', '"', 'a', '"']]

theorem isName_of_all (hne : cs ≠ []) (hAll : cs.all isNameChar = true) : IsName cs :=
  ⟨hne, List.all_eq_true.mp hAll⟩

theorem isTag_li : IsTag ['l', 'i'] :=
  .inr (.inr ⟨'l', ['i'], rfl, rfl, List.all_eq_true.mp (by decide +kernel)⟩)

theorem spells_rowB : Spells [[rowB]] "li.row#b[data-kind=\"a\"]" where
  wellFormed := by
    have hRow : IsName ['r', 'o', 'w'] := isName_of_all (by decide) (by decide +kernel)
    have hB : IsName ['b'] := isName_of_all (by decide) (by decide +kernel)
    have hFormed : rowB.WellFormed := ⟨isTag_li, by simp [rowB, Part.WellFormed, hRow, hB]⟩
    simpa using hFormed
  nonempty := by simp
  text := by decide +kernel

theorem plain_rowB : rowB.Plain where
  legible := by
    have hName : IsName ['d', 'a', 't', 'a', '-', 'k', 'i', 'n', 'd'] :=
      isName_of_all (by decide) (by decide +kernel)
    have hValue : Valued ['"', 'a', '"'] ['a'] :=
      ⟨['"'], ['"'], .inr rfl, .inr rfl, by decide, rfl⟩
    have hTest := Tests.equals hName hValue
    intro p hp
    simp only [rowB, List.mem_cons, List.not_mem_nil, or_false] at hp
    rcases hp with rfl | rfl | rfl
    · exact .inl trivial
    · exact .inr ⟨_, rfl⟩
    · exact .inl ⟨_, hTest⟩
  oneId := by simp [rowB]

theorem parse?_honours_rowB :
    Spells [[rowB]] "li.row#b[data-kind=\"a\"]" ∧ rowB.Plain ∧ lone.nodes.Linked ∧
      ∃ s, parse? "li.row#b[data-kind=\"a\"]" = some s ∧ s.accepts lone 0 = true ∧
        rowB.Satisfied lone 0 := by
  have hf : lone.nodes.Linked := Forest.linked_of_numbered (by decide) (by decide)
  have hParse : parse? "li.row#b[data-kind=\"a\"]" = some
      ⟨[[⟨some "li", some "b", ["row"], [("data-kind", some "a")]⟩]]⟩ := by
    decide +kernel
  obtain ⟨-, -, hPlain⟩ := (parse?_honours _).2 _ hParse _ spells_rowB lone hf 0
  have hAll : ∀ chain ∈ [[rowB]], ∀ w ∈ chain, w.Plain := by simpa using plain_rowB
  have hAccepts : Selector.accepts ⟨[[⟨some "li", some "b", ["row"], [("data-kind", some "a")]⟩]]⟩
      lone 0 = true := by
    decide +kernel
  obtain ⟨chain, hc, hNested⟩ := (hPlain hAll).mp hAccepts
  obtain rfl := List.mem_singleton.mp hc
  have hSatisfied : rowB.Satisfied lone 0 :=
    (@nested_singleton lone 0 _ (fun w b => w.Satisfied lone b) rowB).mp hNested
  exact ⟨spells_rowB, plain_rowB, hf, _, hParse, hAccepts, hSatisfied⟩

/-- The compound `li[title^=a]`. -/
def titled : Written :=
  ⟨['l', 'i'], [.bracket ['t', 'i', 't', 'l', 'e', '^', '=', 'a']]⟩

/-- The compound `li#a#b`. -/
def twoIds : Written :=
  ⟨['l', 'i'], [.id ['a'], .id ['b']]⟩

/-- A bracket that is no test, and an id before another one, are written and not asked for. -/
theorem parts_overlooked :
    (Spells [[titled]] "li[title^=a]" ∧ ∃ s, parse? "li[title^=a]" = some s ∧
      s.accepts lone 0 = true ∧ lone.attribute? 0 "title" = none ∧ ¬ titled.Satisfied lone 0) ∧
    (Spells [[twoIds]] "li#a#b" ∧ ∃ s, parse? "li#a#b" = some s ∧
      s.accepts lone 0 = true ∧ lone.attribute? 0 "id" = some "b" ∧ ¬ twoIds.Satisfied lone 0) := by
  have hTitled : Spells [[titled]] "li[title^=a]" := by
    have hFormed : titled.WellFormed := ⟨isTag_li, by simp [titled, Part.WellFormed]⟩
    exact ⟨by simpa using hFormed, by simp, by decide +kernel⟩
  have hTwoIds : Spells [[twoIds]] "li#a#b" := by
    have hA : IsName ['a'] := isName_of_all (by decide) (by decide +kernel)
    have hB : IsName ['b'] := isName_of_all (by decide) (by decide +kernel)
    have hFormed : twoIds.WellFormed := ⟨isTag_li, by simp [twoIds, Part.WellFormed, hA, hB]⟩
    exact ⟨by simpa using hFormed, by simp, by decide +kernel⟩
  have hLi : parse? "li[title^=a]" = some ⟨[[{ tag := some "li" }]]⟩ := by decide +kernel
  have hLast : parse? "li#a#b" = some ⟨[[{ tag := some "li", id := some "b" }]]⟩ := by
    decide +kernel
  refine ⟨⟨hTitled, _, hLi, by decide +kernel, by decide +kernel, fun h => ?_⟩,
    hTwoIds, _, hLast, by decide +kernel, by decide +kernel, fun h => ?_⟩
  · obtain ⟨t, hTest, -⟩ := h.parts _ List.mem_cons_self
    have hNone : attributeTest? ['t', 'i', 't', 'l', 'e', '^', '=', 'a', ']'] = none := by
      decide +kernel
    have hSome : attributeTest? ['t', 'i', 't', 'l', 'e', '^', '=', 'a', ']'] = some (t, []) :=
      (attributeTest?_bracket (by decide)).mpr ⟨hTest, rfl⟩
    cases hNone.symm.trans hSome
  · have hId : lone.attribute? 0 "id" = some (String.ofList ['a']) :=
      h.parts (.id ['a']) List.mem_cons_self
    exact absurd hId (by decide +kernel)

end Selector

end LiveMarkup
