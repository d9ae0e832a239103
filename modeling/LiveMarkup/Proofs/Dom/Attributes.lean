import LiveMarkup.Dom.Basic
import LiveMarkup.Dom.Style
import LiveMarkup.Proofs.Text.Splitting

/-!
# Attributes and class lists

The attributes of an element are a list, but only the first entry of a name counts. What is set,
taken away or left alone is told by three laws about the value of a name.

The classes of an element are the words of its `class` attribute, which is read anew whenever a
class is turned on or off and printed back with single blanks. So a name is turned on as the words
that it is made of, and turned off only as a word.

* `Attributes.get?_set`, `Attributes.get?_erase`: the list as a map from names to values;
* `Dom.label_withAttributes`: only one node gets other attributes, and it keeps its tag;
* `Dom.attribute?_setAttribute`, `Dom.attribute?_removeAttribute`: the same laws on a node;
* `Text.wordsOf_intercalate`: the words of names joined by blanks are the words of the names;
* `Dom.mem_classes_toggleClass_on`, `Dom.mem_classes_toggleClass_off`: the classes after a change.
-/

/-! ## Attributes by name -/

namespace LiveMarkup

/-! ### Lists of attributes -/

namespace Attributes

variable {name value : String} {as : List (String × String)}

@[simp] theorem get?_nil (name : String) : get? name [] = none :=
  rfl

theorem get?_cons (name : String) (a : String × String) (as : List (String × String)) :
    get? name (a :: as) = if a.1 == name then some a.2 else get? name as :=
  rfl

@[simp] theorem set_nil (name value : String) : set name value [] = [(name, value)] :=
  rfl

theorem set_cons (name value : String) (a : String × String) (as : List (String × String)) :
    set name value (a :: as) =
      if a.1 == name then (a.1, value) :: as else a :: set name value as :=
  rfl

theorem get?_eq_none_iff : get? name as = none ↔ name ∉ as.map (·.1) := by
  induction as with
  | nil => simp
  | cons a as ih =>
    rw [get?_cons]
    split
    next h => simp [beq_iff_eq.mp h]
    next h =>
      have hne : name ≠ a.1 := fun hEq => h (beq_iff_eq.mpr hEq.symm)
      simp [ih, hne]

theorem get?_set (name value : String) (as : List (String × String)) (other : String) :
    get? other (set name value as) = if name = other then some value else get? other as := by
  induction as with
  | nil => simp [get?_cons]
  | cons a as ih =>
    rw [set_cons]
    split
    next h =>
      obtain rfl := beq_iff_eq.mp h
      by_cases hOther : a.1 = other <;> simp [get?_cons, hOther]
    next h =>
      have hne : ¬ a.1 = name := fun hEq => h (beq_iff_eq.mpr hEq)
      by_cases hOther : a.1 = other
      · have hName : ¬ name = other := fun hEq => hne (hOther.trans hEq.symm)
        simp [get?_cons, hOther, hName]
      · simp [get?_cons, hOther, ih]

theorem get?_erase (name : String) (as : List (String × String)) (other : String) :
    get? other (erase name as) = if name = other then none else get? other as := by
  induction as with
  | nil => simp [erase]
  | cons a as ih =>
    rw [erase] at ih
    by_cases hName : a.1 = name
    · rw [erase, List.filter_cons_of_neg (by simp [hName]), ih]
      by_cases hOther : name = other <;> simp [get?_cons, hName, hOther]
    · rw [erase, List.filter_cons_of_pos (by simp [hName]), get?_cons, get?_cons, ih]
      by_cases hOther : a.1 = other
      · have hne : ¬ name = other := fun hEq => hName (hOther.trans hEq.symm)
        simp [hOther, hne]
      · simp [hOther]

/-- A name that is there keeps its place, any other one comes last. -/
theorem map_fst_set (name value : String) (as : List (String × String)) :
    (set name value as).map (·.1) =
      if name ∈ as.map (·.1) then as.map (·.1) else as.map (·.1) ++ [name] := by
  induction as with
  | nil => simp
  | cons a as ih =>
    rw [set_cons]
    split
    next h => simp [beq_iff_eq.mp h]
    next h =>
      have hne : ¬ name = a.1 := fun hEq => h (beq_iff_eq.mpr hEq.symm)
      by_cases hMem : name ∈ as.map (·.1) <;> simp_all

theorem mem_set {a : String × String} (h : a ∈ set name value as) : a = (name, value) ∨ a ∈ as := by
  induction as with
  | nil => exact .inl (List.mem_singleton.mp h)
  | cons b as ih =>
    rw [set_cons] at h
    split at h
    next hName =>
      rcases List.mem_cons.mp h with rfl | hRest
      · exact .inl (by rw [beq_iff_eq.mp hName])
      · exact .inr (List.mem_cons_of_mem _ hRest)
    next =>
      rcases List.mem_cons.mp h with rfl | hRest
      · exact .inr List.mem_cons_self
      · exact (ih hRest).imp_right (List.mem_cons_of_mem _)

end Attributes

/-! ### Attributes of a node -/

namespace Dom

variable {d : Dom} {n m : NodeId} {name : String}

theorem Label.tag?_withAttributes (as : List (String × String)) (l : Label) :
    (l.withAttributes as).tag? = l.tag? := by
  cases l <;> rfl

theorem Label.attributes_withAttributes {l : Label} (h : l.isElement = true)
    (as : List (String × String)) : (l.withAttributes as).attributes = as := by
  cases l with
  | element => rfl
  | _ => exact absurd h Bool.false_ne_true

theorem label_withAttributes (d : Dom) (n m : NodeId) (as : List (String × String)) :
    (d.withAttributes n as).label m =
      if n = m then (d.label n).withAttributes as else d.label m := by
  rw [label, withAttributes, Forest.label?, Forest.setLabel, Array.getElem?_modify]
  split
  next h =>
    subst h
    rw [label, Forest.label?]
    cases d.nodes.cells[n]? <;> rfl
  next => rfl

@[simp] theorem tag?_withAttributes (d : Dom) (n m : NodeId) (as : List (String × String)) :
    ((d.withAttributes n as).label m).tag? = (d.label m).tag? := by
  rw [label_withAttributes]
  split
  next h => rw [h, Label.tag?_withAttributes]
  next => rfl

theorem attributes_withAttributes (h : (d.label n).isElement = true)
    (as : List (String × String)) : (d.withAttributes n as).attributes n = as := by
  rw [attributes, label_withAttributes, if_pos rfl, Label.attributes_withAttributes h]

@[simp] theorem isElement_withAttributes (d : Dom) (n m : NodeId) (as : List (String × String)) :
    ((d.withAttributes n as).label m).isElement = (d.label m).isElement := by
  rw [Label.isElement, Label.isElement, tag?_withAttributes]

@[simp] theorem isElement_setAttribute (d : Dom) (n m : NodeId) (name value : String) :
    ((d.setAttribute n name value).label m).isElement = (d.label m).isElement :=
  isElement_withAttributes ..

@[simp] theorem isElement_removeAttribute (d : Dom) (n m : NodeId) (name : String) :
    ((d.removeAttribute n name).label m).isElement = (d.label m).isElement :=
  isElement_withAttributes ..

theorem attribute?_setAttribute (h : (d.label n).isElement = true) (name value other : String) :
    (d.setAttribute n name value).attribute? n other =
      if name = other then some value else d.attribute? n other := by
  rw [attribute?, setAttribute, attributes_withAttributes h, Attributes.get?_set, attribute?]

theorem attribute?_removeAttribute (h : (d.label n).isElement = true) (name other : String) :
    (d.removeAttribute n name).attribute? n other =
      if name = other then none else d.attribute? n other := by
  rw [attribute?, removeAttribute, attributes_withAttributes h, Attributes.get?_erase, attribute?]

end Dom

end LiveMarkup

/-! ## Class lists -/

namespace LiveMarkup

namespace Text

variable {cs ds : List Char} {name w : String} {names : List String}

/-! ### Words of a text -/

/-- A name without blanks that is not empty: it is its only word. -/
def IsWord (name : String) : Prop :=
  wordsOf name = [name]

instance (name : String) : Decidable (IsWord name) :=
  inferInstanceAs (Decidable (_ = _))

theorem words_append_cons {c : Char} (hc : isBlank c = true) (cs ds : List Char) :
    words (cs ++ c :: ds) = words cs ++ words ds := by
  rw [words_eq_filter, List.splitOnP_append_cons _ _ hc, List.filter_append, ← words_eq_filter,
    ← words_eq_filter]

theorem wordsOf_intercalate (names : List String) :
    wordsOf (" ".intercalate names) = names.flatMap wordsOf := by
  induction names with
  | nil => rfl
  | cons name names ih =>
    cases names with
    | nil => simp
    | cons other names =>
      have hChars : (" ".intercalate (name :: other :: names)).toList =
          name.toList ++ ' ' :: (" ".intercalate (other :: names)).toList := by
        rw [String.intercalate_cons_cons]
        simp
      rw [wordsOf, hChars, words_append_cons (by decide), List.map_append, List.flatMap_cons, ← ih]
      rfl

theorem isWord_of_mem_wordsOf (h : w ∈ wordsOf name) : IsWord w := by
  obtain ⟨cs, hMem, rfl⟩ := List.mem_map.mp h
  obtain ⟨hPiece, hne⟩ := List.mem_filter.mp hMem
  have hWords : words cs = [cs] := by
    rw [words, pieces_of_forall (eq_false_of_mem_pieces hPiece)]
    exact List.filter_eq_self.mpr fun w hw => List.mem_singleton.mp hw ▸ hne
  rw [IsWord, wordsOf, String.toList_ofList, hWords]
  rfl

theorem mem_wordsOf_of_isWord (h : IsWord name) : w ∈ wordsOf name ↔ w = name := by
  rw [h, List.mem_singleton]

theorem flatMap_wordsOf (h : ∀ name ∈ names, IsWord name) : names.flatMap wordsOf = names := by
  induction names with
  | nil => rfl
  | cons name names ih =>
    rw [List.flatMap_cons, h name List.mem_cons_self,
      ih fun other hOther => h other (List.mem_cons_of_mem _ hOther)]
    rfl

end Text

/-! ### Classes of an element -/

namespace Dom

variable {d : Dom} {n : NodeId} {name c : String}

theorem isWord_of_mem_classes (h : c ∈ d.classes n) : Text.IsWord c := by
  rw [classes] at h
  cases hText : d.attribute? n "class" with
  | none => rw [hText] at h; exact absurd h List.not_mem_nil
  | some text => rw [hText] at h; exact Text.isWord_of_mem_wordsOf h

theorem classes_setAttribute (h : (d.label n).isElement = true) (names : List String) :
    (d.setAttribute n "class" (" ".intercalate names)).classes n = names.flatMap Text.wordsOf := by
  rw [classes, attribute?_setAttribute h, if_pos rfl, ← Text.wordsOf_intercalate]
  rfl

/-- A class is turned on as the words that its name is made of. -/
theorem mem_classes_toggleClass_on (h : (d.label n).isElement = true) :
    c ∈ (d.toggleClass n name true).classes n ↔ c ∈ d.classes n ∨ c ∈ Text.wordsOf name := by
  have hWords : (d.classes n).flatMap Text.wordsOf = d.classes n :=
    Text.flatMap_wordsOf fun _ hClass => isWord_of_mem_classes hClass
  rw [toggleClass]
  split
  next hThere =>
    have hName : name ∈ d.classes n := by simpa using hThere
    rw [Text.mem_wordsOf_of_isWord (isWord_of_mem_classes hName)]
    exact ⟨.inl, fun hOr => hOr.elim id fun hEq => hEq ▸ hName⟩
  next =>
    rw [if_pos rfl, classes_setAttribute h, List.flatMap_append, hWords, List.mem_append]
    simp

/-- A class is turned off as one word; nothing happens if its name is none. -/
theorem mem_classes_toggleClass_off (h : (d.label n).isElement = true) :
    c ∈ (d.toggleClass n name false).classes n ↔ c ∈ d.classes n ∧ c ≠ name := by
  rw [toggleClass]
  split
  next hAbsent =>
    have hName : name ∉ d.classes n := by simpa using hAbsent
    exact ⟨fun hc => ⟨hc, fun hEq => hName (hEq ▸ hc)⟩, And.left⟩
  next =>
    have hWords : ∀ other ∈ (d.classes n).filter fun c => !(c == name), Text.IsWord other :=
      fun other hOther => isWord_of_mem_classes (List.mem_filter.mp hOther).1
    rw [if_neg Bool.false_ne_true, classes_setAttribute h, Text.flatMap_wordsOf hWords]
    simp

@[simp] theorem tag?_toggleClass (d : Dom) (n m : NodeId) (name : String) (on : Bool) :
    ((d.toggleClass n name on).label m).tag? = (d.label m).tag? := by
  rw [toggleClass]
  split
  · rfl
  · exact tag?_withAttributes ..

/-! ### Several classes -/

/-- Turns several classes on or off. -/
def toggleClasses (d : Dom) (n : NodeId) (names : List String) (on : Bool) : Dom :=
  names.foldl (fun d name => d.toggleClass n name on) d

theorem toggleClasses_cons (d : Dom) (n : NodeId) (name : String) (names : List String)
    (on : Bool) :
    d.toggleClasses n (name :: names) on = (d.toggleClass n name on).toggleClasses n names on :=
  rfl

@[simp] theorem tag?_toggleClasses (d : Dom) (n m : NodeId) (names : List String) (on : Bool) :
    ((d.toggleClasses n names on).label m).tag? = (d.label m).tag? := by
  induction names generalizing d with
  | nil => rfl
  | cons name names ih => rw [toggleClasses_cons, ih, tag?_toggleClass]

theorem mem_classes_toggleClasses_on (h : (d.label n).isElement = true) (names : List String) :
    c ∈ (d.toggleClasses n names true).classes n ↔
      c ∈ d.classes n ∨ ∃ name ∈ names, c ∈ Text.wordsOf name := by
  induction names generalizing d with
  | nil => simp [toggleClasses]
  | cons name names ih =>
    have hFirst : ((d.toggleClass n name true).label n).isElement = true := by
      rwa [Label.isElement, tag?_toggleClass]
    rw [toggleClasses_cons, ih hFirst, mem_classes_toggleClass_on h, or_assoc]
    simp

theorem mem_classes_toggleClasses_off (h : (d.label n).isElement = true) (names : List String) :
    c ∈ (d.toggleClasses n names false).classes n ↔ c ∈ d.classes n ∧ c ∉ names := by
  induction names generalizing d with
  | nil => simp [toggleClasses]
  | cons name names ih =>
    have hFirst : ((d.toggleClass n name false).label n).isElement = true := by
      rwa [Label.isElement, tag?_toggleClass]
    rw [toggleClasses_cons, ih hFirst, mem_classes_toggleClass_off h, List.mem_cons, not_or,
      and_assoc]

end Dom

end LiveMarkup
