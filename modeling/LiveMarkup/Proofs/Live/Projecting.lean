import LiveMarkup.Proofs.Dom.Attributes
import LiveMarkup.Proofs.Json.Ordered
import LiveMarkup.Proofs.Live.Session
import Mathlib.Data.List.Chain

/-!
# Runs of a projector

A projector is given one value after the other. It writes them to an aspect of its node; of a map it
remembers the last one, and writes what has changed since.

* `Projecting`: runs of a projector, between whose steps others do what they like with the rest;
* `Projecting.holds`: what every value preserves lasts through a run;
* `Projecting.mem_classes`: the classes of an element after a run of a class list.

A class list takes away every name that it was given before and is not given any more, whether or
not the element had the class in the beginning. It adds the words of a name, but takes it away as a
whole.
-/

namespace LiveMarkup

theorem Fields.get?_eq_none_iff {α : Type} {name : String} {fields : List (String × α)} :
    get? name fields = none ↔ name ∉ fields.map (·.1) := by
  induction fields with
  | nil => simp [get?]
  | cons x fields ih =>
    rw [get?]
    by_cases h : name = x.1 <;> simp [h, ih]

namespace Live

variable {κ σ : Type} {client : Client κ σ} {l l₀ l' : Live κ σ} {p : ProjectorId} {n : NodeId}
variable {Own : String → Prop} {aspect : Aspect} {vs : List Value}

/-! ## Runs -/

/-- Others act. They leave a projector as it is, its node an element of the same tag, and those
attributes of the node as they are that are the projector's own. -/
structure Beside (p : ProjectorId) (n : NodeId) (Own : String → Prop) (l l' : Live κ σ) : Prop where
  projector : l'.projectors[p]? = l.projectors[p]?
  tag : (l'.dom.label n).tag? = (l.dom.label n).tag?
  own : ∀ name, Own name → l'.dom.attribute? n name = l.dom.attribute? n name

/-- A projector is given values, one after the other. -/
inductive Projecting (client : Client κ σ) (p : ProjectorId) (n : NodeId) (Own : String → Prop)
    (l₀ : Live κ σ) : List Value → Live κ σ → Prop
  | start : Projecting client p n Own l₀ [] l₀
  | given {vs : List Value} {l : Live κ σ} (h : Projecting client p n Own l₀ vs l) (depth : Nat)
    (v : Value) :
    Projecting client p n Own l₀ (vs ++ [v])
      (((Calls.upTo client (depth + 1)).receive (.projector p) v).run l).2
  | aside {vs : List Value} {l l' : Live κ σ} (h : Projecting client p n Own l₀ vs l)
    (hBeside : Beside p n Own l l') : Projecting client p n Own l₀ vs l'

/-- A value that is passed to a projector is written to its node, and the projector remembers what
it has to. -/
theorem receive_projector (depth : Nat) (v : Value) (hTree : ∀ name, aspect ≠ .property name)
    (h : l.projectors[p]? = some { node := n, aspect }) :
    let l' := (((Calls.upTo client (depth + 1)).receive (.projector p) v).run l).2
    l'.dom = (aspect.write l.dom n v).1 ∧
      l'.projectors[p]? = some { node := n, aspect := (aspect.write l.dom n v).2 } := by
  have hWrite : (project p v).run l =
      (⟨⟩, { l with
        dom := (aspect.write l.dom n v).1
        projectors :=
          l.projectors.modify p fun q => { q with aspect := (aspect.write l.dom n v).2 } }) := by
    rw [project, StateT.run_bind, StateT.run_get, pure_bind]
    simp only [h]
    cases aspect with
    | property name => exact absurd rfl (hTree name)
    | _ => rfl
  intro l'
  have hEnd : l' = ((project p v).run l).2 := rfl
  rw [hEnd, hWrite]
  refine ⟨rfl, ?_⟩
  simp [Array.getElem?_modify, h]

/-- What holds in the beginning, is preserved by every value and is about nothing but the projector
and its own attributes holds after a run. -/
theorem Projecting.holds (Holds : List Value → Dom → Aspect → Prop)
    (hTree : ∀ vs d a, Holds vs d a → ∀ name, a ≠ .property name)
    (hGiven : ∀ vs d a v, Holds vs d a → Holds (vs ++ [v]) (a.write d n v).1 (a.write d n v).2)
    (hAside : ∀ vs d d' a, Holds vs d a → (d'.label n).tag? = (d.label n).tag? →
      (∀ name, Own name → d'.attribute? n name = d.attribute? n name) → Holds vs d' a)
    (hStart : l₀.projectors[p]? = some { node := n, aspect }) (h₀ : Holds [] l₀.dom aspect)
    (h : Projecting client p n Own l₀ vs l) :
    ∃ a, l.projectors[p]? = some { node := n, aspect := a } ∧ Holds vs l.dom a := by
  induction h with
  | start => exact ⟨aspect, hStart, h₀⟩
  | given _ depth v ih =>
    obtain ⟨a, hThere, hHolds⟩ := ih
    obtain ⟨hDom, hThere'⟩ := receive_projector depth v (hTree _ _ _ hHolds) hThere
    exact ⟨_, hThere', hDom ▸ hGiven _ _ _ v hHolds⟩
  | aside _ hBeside ih =>
    obtain ⟨a, hThere, hHolds⟩ := ih
    exact ⟨a, hBeside.projector.trans hThere, hAside _ _ _ _ hHolds hBeside.tag hBeside.own⟩

/-- Passes values to a projector, one after the other. -/
def passAll (client : Client κ σ) (p : ProjectorId) (l : Live κ σ) (vs : List Value) : Live κ σ :=
  vs.foldl (fun l v => (((Calls.upTo client 1).receive (.projector p) v).run l).2) l

theorem projecting_passAll (client : Client κ σ) (p : ProjectorId) (n : NodeId)
    (Own : String → Prop) (l : Live κ σ) (vs : List Value) :
    Projecting client p n Own l vs (passAll client p l vs) := by
  induction vs using List.reverseRecOn with
  | nil => exact .start
  | append_singleton vs v ih =>
    rw [passAll, List.foldl_concat]
    exact ih.given 0 v

/-- A new document whose body has an attribute, and a projector for the body that was given nothing
yet. -/
def boundBody (target : Target) (name text : String) : Live String Unit :=
  let l := create {} ()
  { l with
    dom := l.dom.setAttribute 2 name text
    projectors := #[{ node := 2, aspect := .ofTarget target }] }

/-! ## Differences between maps -/

namespace Aspect

variable {α : Type} {name c : String} {applied next : List (String × α)} {d : Dom}

theorem mem_gone :
    name ∈ gone applied next ↔ name ∈ applied.map (·.1) ∧ name ∉ next.map (·.1) := by
  rw [gone, List.mem_filter, Option.isNone_iff_eq_none, Fields.get?_eq_none_iff]

/-- The entries of a map without values change only by being new. -/
theorem mem_changed_unit {applied next : List (String × Unit)} {x : String × Unit} :
    x ∈ changed applied next ↔ x ∈ next ∧ x.1 ∉ applied.map (·.1) := by
  have hAny : (Fields.get? x.1 applied).any (· == x.2) = (Fields.get? x.1 applied).isSome := by
    cases Fields.get? x.1 applied <;> rfl
  rw [changed, List.mem_filter, Bool.not_eq_true', hAny, Option.isSome_eq_false_iff,
    Option.isNone_iff_eq_none, Fields.get?_eq_none_iff]

theorem map_fst_classMap (v : Value) : (classMap v).map (·.1) = v.classNames := by
  rw [classMap, List.map_map]
  exact List.map_id _

theorem write_classList (d : Dom) (n : NodeId) (u v : Value) :
    ((classList (classMap u)).write d n v).1 =
      (d.toggleClasses n (gone (classMap u) (classMap v)) false).toggleClasses n
        ((changed (classMap u) (classMap v)).map (·.1)) true := by
  rw [Dom.toggleClasses, Dom.toggleClasses, List.foldl_map]
  rfl

/-- The classes after a value: those stay that the value before did not name or this one names, and
the words of the names come that the value before did not have. -/
theorem mem_classes_write (h : (d.label n).isElement = true) (u v : Value) :
    c ∈ ((classList (classMap u)).write d n v).1.classes n ↔
      c ∈ d.classes n ∧ (c ∈ u.classNames → c ∈ v.classNames) ∨
        ∃ name ∈ v.classNames, name ∉ u.classNames ∧ c ∈ Text.wordsOf name := by
  have hElement : ((d.toggleClasses n (gone (classMap u) (classMap v)) false).label n).isElement =
      true := by
    rwa [Dom.Label.isElement, Dom.tag?_toggleClasses]
  rw [write_classList, Dom.mem_classes_toggleClasses_on hElement,
    Dom.mem_classes_toggleClasses_off h, mem_gone, map_fst_classMap, map_fst_classMap,
    Classical.not_and_iff_not_or_not, not_not, ← imp_iff_not_or]
  -- what is left of the elements stays; the names that are new bring their words
  refine or_congr Iff.rfl ⟨?_, ?_⟩
  · rintro ⟨name, hName, hWord⟩
    obtain ⟨x, hx, rfl⟩ := List.mem_map.mp hName
    obtain ⟨hNext, hNew⟩ := mem_changed_unit.mp hx
    rw [map_fst_classMap] at hNew
    exact ⟨x.1, map_fst_classMap v ▸ List.mem_map_of_mem hNext, hNew, hWord⟩
  · rintro ⟨name, hNext, hNew, hWord⟩
    rw [← map_fst_classMap] at hNext hNew
    obtain ⟨x, hx, rfl⟩ := List.mem_map.mp hNext
    exact ⟨x.1, List.mem_map_of_mem (mem_changed_unit.mpr ⟨hx, hNew⟩), hWord⟩

end Aspect

/-! ## Class lists -/

section Classes

variable {u v : Value} {c : String} {initial : List String}

/-- The last of some values; before the first one there was nothing. -/
def lastOf (vs : List Value) : Value :=
  vs.getLast?.getD .null

/-- A class is never taken away by a value that follows: once it is named it is named on. -/
def Undropped (c : String) (vs : List Value) : Prop :=
  vs.IsChain fun u v => c ∈ u.classNames → c ∈ v.classNames

/-- A value has a name that the one before did not have, and the class is a word of it. -/
def Brings (c : String) (u v : Value) : Prop :=
  ∃ name ∈ v.classNames, name ∉ u.classNames ∧ c ∈ Text.wordsOf name

/-- A class that was there in the beginning, or was brought by a value, and never taken away
since. -/
def Lasts (initial : List String) (vs : List Value) (c : String) : Prop :=
  c ∈ initial ∧ Undropped c vs ∨
    ∃ before v after, vs = before ++ v :: after ∧ Brings c (lastOf before) v ∧
      Undropped c (v :: after)

@[simp] theorem lastOf_append_singleton (vs : List Value) (v : Value) : lastOf (vs ++ [v]) = v := by
  rw [lastOf, List.getLast?_concat]
  rfl

theorem lastOf_append_cons (before : List Value) (v : Value) (after : List Value) :
    lastOf (before ++ v :: after) = lastOf (v :: after) := by
  rw [lastOf, lastOf, List.getLast?_append_cons]

theorem not_mem_lastOf (h : ∀ v ∈ vs, c ∉ v.classNames) : c ∉ (lastOf vs).classNames := by
  rw [lastOf]
  cases hLast : vs.getLast? with
  | none => exact List.not_mem_nil
  | some v => exact h v (List.mem_of_getLast? hLast)

theorem undropped_append_singleton :
    Undropped c (vs ++ [v]) ↔ Undropped c vs ∧ (c ∈ (lastOf vs).classNames → c ∈ v.classNames) := by
  rw [Undropped, List.isChain_append, lastOf]
  cases vs.getLast? with
  | none => simp [Undropped, Value.classNames]
  | some u => simp [Undropped]

/-- One more value. -/
theorem lasts_append_singleton :
    Lasts initial (vs ++ [v]) c ↔
      Lasts initial vs c ∧ (c ∈ (lastOf vs).classNames → c ∈ v.classNames) ∨
        Brings c (lastOf vs) v := by
  constructor
  · rintro (⟨hInitial, hKept⟩ | ⟨before, w, after, hEq, hBrings, hKept⟩)
    · obtain ⟨hKept, hStep⟩ := undropped_append_singleton.mp hKept
      exact .inl ⟨.inl ⟨hInitial, hKept⟩, hStep⟩
    -- the value that brought the class is the new one, or the new one stands behind it
    · rcases List.eq_nil_or_concat' after with rfl | ⟨after, z, rfl⟩
      · obtain ⟨rfl, rfl⟩ := List.append_singleton_inj.mp hEq
        exact .inr hBrings
      · rw [← List.cons_append, ← List.append_assoc] at hEq
        obtain ⟨rfl, rfl⟩ := List.append_singleton_inj.mp hEq
        obtain ⟨hKept, hStep⟩ := undropped_append_singleton.mp (List.cons_append ▸ hKept)
        rw [lastOf_append_cons]
        exact .inl ⟨.inr ⟨before, w, after, rfl, hBrings, hKept⟩, hStep⟩
  · rintro (⟨⟨hInitial, hKept⟩ | ⟨before, w, after, rfl, hBrings, hKept⟩, hStep⟩ | hBrings)
    · exact .inl ⟨hInitial, undropped_append_singleton.mpr ⟨hKept, hStep⟩⟩
    · rw [lastOf_append_cons] at hStep
      exact .inr ⟨before, w, after ++ [v], by simp, hBrings,
        undropped_append_singleton.mpr ⟨hKept, hStep⟩⟩
    · exact .inr ⟨vs, v, [], rfl, hBrings, .singleton v⟩

theorem brings_iff_of_words (hWords : ∀ name ∈ v.classNames, Text.IsWord name) :
    Brings c u v ↔ c ∈ v.classNames ∧ c ∉ u.classNames := by
  constructor
  · rintro ⟨name, hNext, hNew, hWord⟩
    obtain rfl := (Text.mem_wordsOf_of_isWord (hWords name hNext)).mp hWord
    exact ⟨hNext, hNew⟩
  · rintro ⟨hNext, hNew⟩
    exact ⟨c, hNext, hNew, (Text.mem_wordsOf_of_isWord (hWords c hNext)).mpr rfl⟩

/-- If all names are words, the classes are those of the last value, and those of the beginning that
no value named. -/
theorem lasts_iff_of_words (hWords : ∀ v ∈ vs, ∀ name ∈ v.classNames, Text.IsWord name) :
    Lasts initial vs c ↔
      c ∈ (lastOf vs).classNames ∨ c ∈ initial ∧ ∀ v ∈ vs, c ∉ v.classNames := by
  induction vs using List.reverseRecOn with
  | nil => simp [Lasts, Undropped, lastOf, Value.classNames]
  | append_singleton vs v ih =>
    have hBefore := ih fun w hw => hWords w (List.mem_append_left _ hw)
    have hUnnamed : (∀ w ∈ vs, c ∉ w.classNames) → c ∉ (lastOf vs).classNames := not_mem_lastOf
    rw [lasts_append_singleton, hBefore, lastOf_append_singleton,
      brings_iff_of_words (hWords v (List.mem_append_right _ List.mem_cons_self))]
    simp only [List.mem_append, List.mem_singleton, or_imp, forall_and, forall_eq]
    tauto

theorem isWord_of_mem_classNames {name : String} (h : name ∈ v.classNames)
    (hShape : ∀ fields, v ≠ .object fields) : Text.IsWord name := by
  have hSorted {names : List String} (hMem : name ∈ sortNames names) : name ∈ names := by
    obtain ⟨x, hx, rfl⟩ := List.mem_map.mp hMem
    obtain ⟨other, hOther, rfl⟩ := List.mem_map.mp (Fields.mem_ofList hx)
    exact hOther
  cases v with
  | string s => exact Text.isWord_of_mem_wordsOf (hSorted h)
  | array items =>
    obtain ⟨s, -, hWord⟩ := List.mem_flatMap.mp (hSorted h)
    exact Text.isWord_of_mem_wordsOf hWord
  | object fields => exact absurd rfl (hShape fields)
  | _ => exact absurd h List.not_mem_nil

theorem forall_isWord (h : ∀ fields, .object fields ∈ vs →
    ∀ name ∈ (Value.object fields).classNames, Text.IsWord name) :
    ∀ v ∈ vs, ∀ name ∈ v.classNames, Text.IsWord name := by
  intro v hv name hName
  cases v with
  | object fields => exact h fields hv name hName
  | _ => exact isWord_of_mem_classNames hName fun _ hEq => nomatch hEq

/-- Between the values of a class list the classes that last are those of the element, and the names
of the last value are remembered. -/
structure Classed (n : NodeId) (initial : List String) (vs : List Value) (d : Dom) (a : Aspect) :
    Prop where
  element : (d.label n).isElement = true
  aspect : a = .classList (Aspect.classMap (lastOf vs))
  classes : ∀ c, c ∈ d.classes n ↔ Lasts initial vs c

namespace Classed

variable {d d' : Dom} {a : Aspect}

theorem start (h : (d.label n).isElement = true) :
    Classed n (d.classes n) [] d (.ofTarget .classList) where
  element := h
  aspect := rfl
  classes c := by simp [Lasts, Undropped]

theorem given (h : Classed n initial vs d a) (v : Value) :
    Classed n initial (vs ++ [v]) (a.write d n v).1 (a.write d n v).2 := by
  obtain ⟨hElement, rfl, hClasses⟩ := h
  refine ⟨?_, ?_, fun c => ?_⟩
  · rwa [Aspect.write_classList, Dom.Label.isElement, Dom.tag?_toggleClasses,
      Dom.tag?_toggleClasses]
  · rw [lastOf_append_singleton]
    rfl
  · rw [Aspect.mem_classes_write hElement, hClasses, lasts_append_singleton]
    rfl

theorem aside (h : Classed n initial vs d a) (hTag : (d'.label n).tag? = (d.label n).tag?)
    (hOwn : ∀ name, name = "class" → d'.attribute? n name = d.attribute? n name) :
    Classed n initial vs d' a where
  element := by
    rw [Dom.Label.isElement, hTag]
    exact h.element
  aspect := h.aspect
  classes c := by
    rw [← h.classes, Dom.classes, hOwn "class" rfl, Dom.classes]

end Classed

/-- The classes of an element after a run of a class list. If all names of objects are words, they
are those of the last value, and those of the beginning that no value named. So they are those of
the beginning and those of the last value just if no value named a class of the beginning that is
not named last. -/
theorem Projecting.mem_classes
    (hStart : l₀.projectors[p]? = some { node := n, aspect := .ofTarget .classList })
    (hElement : (l₀.dom.label n).isElement = true)
    (h : Projecting client p n (· = "class") l₀ vs l) :
    (∀ c, c ∈ l.dom.classes n ↔ Lasts (l₀.dom.classes n) vs c) ∧
    ((∀ fields, .object fields ∈ vs →
        ∀ name ∈ (Value.object fields).classNames, Text.IsWord name) →
      (∀ c, c ∈ l.dom.classes n ↔
        c ∈ (lastOf vs).classNames ∨ c ∈ l₀.dom.classes n ∧ ∀ v ∈ vs, c ∉ v.classNames) ∧
      ((∀ c, c ∈ l.dom.classes n ↔ c ∈ l₀.dom.classes n ∨ c ∈ (lastOf vs).classNames) ↔
        ∀ c ∈ l₀.dom.classes n, c ∉ (lastOf vs).classNames → ∀ v ∈ vs, c ∉ v.classNames)) := by
  obtain ⟨_, -, hClassed⟩ := h.holds (Classed n (l₀.dom.classes n))
    (fun _ _ _ hClassed _ hEq => nomatch hClassed.aspect.symm.trans hEq)
    (fun _ _ _ v hClassed => hClassed.given v)
    (fun _ _ _ _ hClassed hTag hOwn => hClassed.aside hTag hOwn) hStart (.start hElement)
  refine ⟨hClassed.classes, fun hWords => ?_⟩
  have hNamed : ∀ c, c ∈ l.dom.classes n ↔
      c ∈ (lastOf vs).classNames ∨ c ∈ l₀.dom.classes n ∧ ∀ v ∈ vs, c ∉ v.classNames := fun c =>
    (hClassed.classes c).trans (lasts_iff_of_words (forall_isWord hWords))
  refine ⟨hNamed, fun hSame c hInitial hDropped => ?_, fun hNever c => ?_⟩
  · have hThere := (hNamed c).mp ((hSame c).mpr (.inl hInitial))
    exact (hThere.resolve_left hDropped).2
  · rw [hNamed, or_comm (a := c ∈ l₀.dom.classes n)]
    refine or_congr_right' fun hDropped => ?_
    exact and_iff_left_of_imp fun hInitial => hNever c hInitial hDropped

/-- The body has a class, is given another one and loses that again. -/
theorem classedBody_mem_classes :
    let l := boundBody .classList "class" "a"
    l.dom.classes 2 = ["a"] ∧
      ∀ c, c ∈ (passAll Client.still 0 l [.string "b", .null]).dom.classes 2 ↔ c = "a" := by
  intro l
  have hInitial : l.dom.classes 2 = ["a"] := by decide +kernel
  have hNames : (Value.string "b").classNames = ["b"] := by decide +kernel
  obtain ⟨-, hWords⟩ := Projecting.mem_classes (n := 2) rfl rfl
    (projecting_passAll Client.still 0 2 (· = "class") l [.string "b", .null])
  obtain ⟨hNamed, -⟩ := hWords fun fields hMem => by simp at hMem
  refine ⟨hInitial, fun c => (hNamed c).trans ?_⟩
  rw [hInitial]
  change c ∈ [] ∨ c ∈ ["a"] ∧ _ ↔ _
  simp only [List.mem_cons, List.not_mem_nil, or_false, false_or, forall_eq_or_imp, forall_eq,
    hNames, and_iff_left_iff_imp]
  rintro rfl
  exact ⟨by decide, List.not_mem_nil⟩

/-- A class that the body had in the beginning goes with the value that named it, too; and the words
of a name stay when the name goes. -/
theorem classedBody_stripped :
    let l := boundBody .classList "class" "a"
    ¬ (∀ c, c ∈ (passAll Client.still 0 l [.string "a", .null]).dom.classes 2 ↔
        c ∈ l.dom.classes 2 ∨ c ∈ Value.null.classNames) ∧
    ¬ (∀ c, c ∈ (passAll Client.still 0 l [.object [("b c", .bool true)], .null]).dom.classes 2 ↔
        c ∈ l.dom.classes 2 ∨ c ∈ Value.null.classNames) := by
  refine ⟨fun h => ?_, fun h => ?_⟩
  · exact absurd ((h "a").mpr (by decide +kernel)) (by decide +kernel)
  · exact absurd ((h "b").mp (by decide +kernel)) (by decide +kernel)

end Classes

end Live

end LiveMarkup
