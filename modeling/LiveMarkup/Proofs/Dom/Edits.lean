import LiveMarkup.Live.State
import LiveMarkup.Proofs.Dom.Making

/-!
# Changes of the tree

Every change of the document tree is an insertion, an appending, a removal or a replaced text.
Parent links and lists of children agree after it if they did before, and nothing moves but what the
change is about: a node is taken out of wherever it was and stands right before the reference, or
last, and all other nodes keep their parents and their order. The one change that can be refused is
an insertion whose reference is no child of the parent, and then nothing has changed.

* `Dom.Edit`: the changes, and `Edit.Done`: what each of them does;
* `Dom.Lodged`, `Dom.Freed`, `Dom.Reworded`, `Dom.Refilled`: a node that is put in or taken out,
  and the two ways to set a text;
* `Dom.Edit.apply_agree`: every change does what it should, and links and lists agree after it.
-/

namespace LiveMarkup

namespace Dom

variable {d d' : Dom} {p n : NodeId} {reference : Option NodeId}

/-! ## What a change does -/

/-- A node stands right before a reference, or last; nothing else has moved. -/
structure Lodged (d d' : Dom) (p n : NodeId) (reference : Option NodeId) : Prop where
  seat : ∃ before after, d'.children p = before ++ n :: after ∧ after.head? = reference
  parent_self : d'.parent? n = some p
  parent : ∀ m, m ≠ n → d'.parent? m = d.parent? m
  others : ∀ q, (d'.children q).filter (· ≠ n) = (d.children q).filter (· ≠ n)
  label : ∀ m, d'.label m = d.label m

/-- A node stands nowhere; nothing else has moved. -/
structure Freed (d d' : Dom) (n : NodeId) : Prop where
  parent_self : d'.parent? n = none
  parent : ∀ m, m ≠ n → d'.parent? m = d.parent? m
  children : ∀ q, d'.children q = (d.children q).filter (· ≠ n)
  label : ∀ m, d'.label m = d.label m

/-- A text has another content; nothing has moved. -/
structure Reworded (d d' : Dom) (n : NodeId) (content : String) : Prop where
  parent : ∀ m, d'.parent? m = d.parent? m
  children : ∀ q, d'.children q = d.children q
  label_self : d'.label n = .text content
  label : ∀ m, m ≠ n → d'.label m = d.label m

/-- The children of an element stand nowhere, and a new text is its only child, unless there is
nothing to write. -/
structure Refilled (d d' : Dom) (n : NodeId) (content : String) : Prop where
  children_self : d'.children n = if content.isEmpty then [] else [d.nodes.size]
  text : content.isEmpty = false → d'.label d.nodes.size = .text content
  parent : ∀ m < d.nodes.size,
    d'.parent? m = if d.parent? m = some n then none else d.parent? m
  children : ∀ q, q ≠ n → d'.children q = d.children q
  label : ∀ m < d.nodes.size, d'.label m = d.label m

/-- A change of the tree. -/
inductive Edit where
  | insertBefore (parent child : NodeId) (reference : Option NodeId)
  | append (parent child : NodeId)
  | remove (child : NodeId)
  | setText (node : NodeId) (content : String)

namespace Edit

/-- Carries a change out. -/
def apply (e : Edit) (d : Dom) : Except NotAChild Dom :=
  match e with
  | insertBefore p n reference => d.insertBefore p n reference
  | append p n => .ok (d.append p n)
  | remove n => .ok (d.remove n)
  | setText n content => .ok (d.setText n content)

/-- What is put somewhere exists, as does the place, and nothing is put before itself. -/
def Fits (d : Dom) : Edit → Prop
  | insertBefore p n reference => p < d.nodes.size ∧ n < d.nodes.size ∧ reference ≠ some n
  | append p n => p < d.nodes.size ∧ n < d.nodes.size
  | _ => True

/-- Nothing is put into itself or below itself. -/
def Descends (d : Dom) : Edit → Prop
  | insertBefore p n _ => ¬ d.nodes.Up p n
  | append p n => ¬ d.nodes.Up p n
  | _ => True

/-- The reference of an insertion is no child of the parent, and how this is reported. -/
def Refused (d : Dom) (cause : NotAChild) : Edit → Prop
  | insertBefore p _ (some r) => r ∉ d.children p ∧ cause = ⟨d.describe r, d.describe p⟩
  | _ => False

/-- What a change does. -/
def Done (d d' : Dom) : Edit → Prop
  | insertBefore p n reference => Lodged d d' p n reference
  | append p n => Lodged d d' p n none
  | remove n => Freed d d' n
  | setText n content =>
    match d.label n with
    | .text _ => Reworded d d' n content
    | .element _ _ => Refilled d d' n content
    | _ => d' = d

end Edit

/-! ## Putting in and taking out -/

theorem label_congr {m : NodeId} (h : d'.nodes.label? m = d.nodes.label? m) :
    d'.label m = d.label m := by
  rw [label, label, h]

theorem freed_remove (hd : d.nodes.Agree) (n : NodeId) : Freed d (d.remove n) n := by
  have hTaken := hd.taken_remove n
  refine ⟨?_, ?_, hTaken.children, fun m => label_congr (hTaken.label m)⟩
  · show (d.nodes.remove n).parent? n = none
    rw [hTaken.parent, if_pos rfl]
  · intro m hm
    show (d.nodes.remove n).parent? m = d.nodes.parent? m
    rw [hTaken.parent, if_neg hm]

theorem filter_not_mem_singleton (l : List NodeId) (n : NodeId) :
    l.filter (· ∉ [n]) = l.filter (· ≠ n) := by
  apply List.filter_congr
  intro m _
  simp

/-- Where a node is put into a list, the reference comes right behind it. -/
theorem exists_seat {l : List NodeId} {reference : Option NodeId} (n : NodeId)
    (h : ∀ r, reference = some r → r ∈ l) :
    ∃ before after, Forest.splice reference [n] l = before ++ n :: after ∧
      l = before ++ after ∧ after.head? = reference := by
  cases reference with
  | none => exact ⟨l, [], rfl, (List.append_nil l).symm, rfl⟩
  | some r =>
    obtain ⟨before, after, rfl, hBefore⟩ := List.eq_append_cons_of_mem (h r rfl)
    refine ⟨before, r :: after, ?_, rfl, rfl⟩
    rw [Forest.splice_append hBefore, List.append_assoc]
    rfl

theorem lodged_of_placed (h : Forest.Placed d.nodes d'.nodes p [n] reference)
    (hRef : ∀ r, reference = some r → r ∈ d.children p ∧ r ≠ n) : Lodged d d' p n reference := by
  have hChildren : ∀ q, d'.children q = if q = p then
      Forest.splice reference [n] ((d.children p).filter (· ≠ n))
      else (d.children q).filter (· ≠ n) := by
    intro q
    rw [← filter_not_mem_singleton, ← filter_not_mem_singleton]
    exact h.children q
  obtain ⟨before, after, hSplice, hRest, hHead⟩ :
      ∃ before after, Forest.splice reference [n] ((d.children p).filter (· ≠ n)) =
        before ++ n :: after ∧ (d.children p).filter (· ≠ n) = before ++ after ∧
          after.head? = reference := by
    apply exists_seat
    intro r hr
    rw [List.mem_filter]
    exact ⟨(hRef r hr).1, by simpa using (hRef r hr).2⟩
  refine ⟨⟨before, after, ?_, hHead⟩, ?_, ?_, ?_, fun m => label_congr (h.label m)⟩
  · rw [hChildren, if_pos rfl, hSplice]
  · show d'.nodes.parent? n = some p
    rw [h.parent, if_pos List.mem_cons_self]
  · intro m hm
    show d'.nodes.parent? m = d.nodes.parent? m
    rw [h.parent, if_neg (by simpa using hm)]
  · intro q
    rw [hChildren]
    split
    · rename_i hq
      rw [hq, hSplice, List.filter_append, List.filter_cons_of_neg (by simp), ← List.filter_append,
        ← hRest, List.filter_filter]
      simp
    · rw [List.filter_filter]
      simp

theorem placed_insertBefore (hd : d.nodes.Agree) (hp : p < d.nodes.size) (hn : n < d.nodes.size)
    (h : d.insertBefore p n reference = .ok d') :
    Forest.Placed d.nodes d'.nodes p [n] reference := by
  unfold insertBefore at h
  split at h
  · rename_i nodes hNodes
    obtain rfl := Except.ok.inj h
    exact hd.placed_of_insertBefore hp hn hNodes
  · cases h

/-- An insertion does what it should, unless its reference is no child of the parent. -/
theorem lodged_insertBefore (hd : d.nodes.Agree) (hp : p < d.nodes.size) (hn : n < d.nodes.size)
    (hNe : reference ≠ some n) (h : d.insertBefore p n reference = .ok d') :
    d'.nodes.Agree ∧ (d.nodes.Linked → ¬ d.nodes.Up p n → d'.nodes.Linked) ∧
      Lodged d d' p n reference := by
  have hPlaced := placed_insertBefore hd hp hn h
  refine ⟨hPlaced.agree hd (List.nodup_singleton n), ?_, lodged_of_placed hPlaced ?_⟩
  · intro hLinked hUp
    exact hPlaced.linked hLinked (List.nodup_singleton n) (by simpa using hUp)
  · rintro r rfl
    refine ⟨mem_children_of_insertBefore h, ?_⟩
    rintro rfl
    exact hNe rfl

theorem insertBefore_none (d : Dom) (p n : NodeId) : d.insertBefore p n none = .ok (d.append p n) :=
  rfl

theorem insertBefore_eq_error_iff {cause : NotAChild} :
    d.insertBefore p n reference = .error cause ↔
      ∃ r, reference = some r ∧ r ∉ d.children p ∧ cause = ⟨d.describe r, d.describe p⟩ := by
  rw [insertBefore]
  cases hFound : d.nodes.insertBefore? p n reference with
  | some nodes =>
    have hNot : ¬ ∃ r, reference = some r ∧ r ∉ d.children p := by
      intro hOut
      rw [Forest.insertBefore?_eq_none_iff.mpr hOut] at hFound
      cases hFound
    constructor
    · intro h
      cases h
    · rintro ⟨r, hr, hOut, -⟩
      exact absurd ⟨r, hr, hOut⟩ hNot
  | none =>
    obtain ⟨r, rfl, hOut⟩ := Forest.insertBefore?_eq_none_iff.mp hFound
    constructor
    · intro h
      exact ⟨r, rfl, hOut, (Except.error.inj h).symm⟩
    · rintro ⟨s, hs, -, rfl⟩
      obtain rfl := Option.some.inj hs
      rfl

/-! ## Setting a text -/

/-- Nodes are taken out, all others stay. -/
structure Cleared (d d' : Dom) (ns : List NodeId) : Prop where
  size : d'.nodes.size = d.nodes.size
  label : ∀ m, d'.label m = d.label m
  parent : ∀ m, d'.parent? m = if m ∈ ns then none else d.parent? m
  children : ∀ q, d'.children q = (d.children q).filter (· ∉ ns)

theorem cleared_foldl (hd : d.nodes.Agree) (ns : List NodeId) :
    (ns.foldl remove d).nodes.Agree ∧ Cleared d (ns.foldl remove d) ns := by
  induction ns generalizing d with
  | nil => exact ⟨hd, rfl, fun _ => rfl, fun _ => by simp, fun _ => by simp⟩
  | cons n ns ih =>
    have hTaken : Forest.Taken d.nodes (d.remove n).nodes n := hd.taken_remove n
    have hFreed := freed_remove hd n
    obtain ⟨hAgree, hRest⟩ := ih (hTaken.agree hd)
    refine ⟨hAgree, hRest.size.trans hTaken.size, fun m => (hRest.label m).trans (hFreed.label m),
      ?_, ?_⟩
    · intro m
      rw [List.foldl_cons, hRest.parent]
      by_cases hm : m = n
      · subst hm
        simp [hFreed.parent_self]
      · simp [hm, hFreed.parent m hm]
    · intro q
      rw [List.foldl_cons, hRest.children, hFreed.children, List.filter_filter]
      apply List.filter_congr
      intro m _
      simp [Bool.and_comm]

theorem linked_foldl (hd : d.nodes.Linked) (ns : List NodeId) :
    (ns.foldl remove d).nodes.Linked := by
  induction ns generalizing d with
  | nil => exact hd
  | cons n ns ih => exact ih ((hd.taken_remove n).linked hd)

/-- The children of an element, all of which are taken out. -/
theorem Cleared.refilled_nil (hd : d.nodes.Agree) (h : Cleared d d' (d.children n)) :
    d'.children n = [] ∧
      (∀ m, d'.parent? m = if d.parent? m = some n then none else d.parent? m) ∧
      ∀ q, q ≠ n → d'.children q = d.children q := by
  refine ⟨?_, ?_, ?_⟩
  · rw [h.children]
    simp
  · intro m
    rw [h.parent]
    have hMem : m ∈ d.children n ↔ d.parent? m = some n := hd.mem_children n m
    simp [hMem]
  · intro q hq
    rw [h.children, List.filter_eq_self]
    intro m hm
    have hOwn : d.parent? m = some q := (hd.mem_children q m).mp hm
    have hOther : m ∉ d.children n := by
      intro hMem
      have hParent : d.parent? m = some n := (hd.mem_children n m).mp hMem
      rw [hOwn] at hParent
      exact hq (Option.some.inj hParent)
    simpa using hOther

theorem lt_size_of_label {l : Label} (h : d.label n = l) (hl : l ≠ .document) :
    n < d.nodes.size := by
  by_contra hOut
  have hNone : d.nodes.label? n = none := by
    rw [Forest.label?, Array.getElem?_eq_none (Nat.le_of_not_lt hOut)]
    rfl
  rw [label, hNone] at h
  exact hl h.symm

/-- A new text in an element that has no children: how links, lists and labels are then. -/
structure Filled (d d' : Dom) (n : NodeId) (content : String) : Prop where
  agree : d'.nodes.Agree
  linked : d.nodes.Linked → d'.nodes.Linked
  children_self : d'.children n = [d.nodes.size]
  text : d'.label d.nodes.size = .text content
  parent : ∀ m < d.nodes.size, d'.parent? m = d.parent? m
  children : ∀ q, q ≠ n → d'.children q = d.children q
  label : ∀ m < d.nodes.size, d'.label m = d.label m

theorem filled_append (hd : d.nodes.Agree) (hn : n < d.nodes.size) (hNone : d.children n = [])
    (content : String) :
    Filled d ((d.create (.text content)).1.append n d.nodes.size) n content := by
  have hParent : ∀ m, (d.create (.text content)).1.nodes.parent? m = d.nodes.parent? m :=
    Forest.parent?_create d.nodes _
  have hChildren : ∀ q, (d.create (.text content)).1.nodes.children q = d.nodes.children q :=
    Forest.children_create d.nodes _
  have hAgree : (d.create (.text content)).1.nodes.Agree := hd.congr hParent hChildren
  have hNew : d.nodes.parent? d.nodes.size = none := Forest.parent?_of_size_le (Nat.le_refl _)
  have hSize : (d.create (.text content)).1.nodes.size = d.nodes.size + 1 :=
    nodes_size_create d _
  have hPlaced : Forest.Placed _ ((d.create (.text content)).1.append n d.nodes.size).nodes n
      [d.nodes.size] none :=
    placed_insertBefore hAgree (by rw [hSize]; exact Nat.lt_succ_of_lt hn)
      (by rw [hSize]; exact Nat.lt_succ_self _) (insertBefore_none _ _ _)
  refine ⟨hPlaced.agree hAgree (List.nodup_singleton _), ?_, ?_, ?_, ?_, ?_, ?_⟩
  · intro hLinked
    apply hPlaced.linked (hLinked.congr hParent hChildren) (List.nodup_singleton _)
    -- nothing is below the new text
    intro t ht hUp
    obtain rfl := List.mem_singleton.mp ht
    rcases hUp.cases_last with rfl | ⟨c, -, hc⟩
    · exact Nat.lt_irrefl _ hn
    · rw [hParent] at hc
      exact Nat.lt_irrefl _ (hd.parent_lt_size hc)
  · have hSelf := hPlaced.children n
    rw [if_pos rfl, hChildren, show d.nodes.children n = [] from hNone] at hSelf
    exact hSelf
  · apply (label_congr (hPlaced.label _)).trans
    simp [label, create, Forest.create, Forest.label?, Forest.size]
  · intro m hm
    have hNe : m ∉ [d.nodes.size] := by
      rw [List.mem_singleton]
      exact Nat.ne_of_lt hm
    exact (hPlaced.parent m).trans ((if_neg hNe).trans (hParent m))
  · intro q hq
    apply (hPlaced.children q).trans
    rw [if_neg hq, hChildren]
    apply List.filter_eq_self.mpr
    intro m hm
    have : m ≠ d.nodes.size := by
      rintro rfl
      rw [hd.mem_children, hNew] at hm
      cases hm
    simpa using this
  · intro m hm
    apply (label_congr (hPlaced.label m)).trans
    exact label_congr (Forest.label?_create d.nodes _ hm)

/-- Replacing the children of an element by a text. -/
theorem refilled_setText {tag : String} {as : List (String × String)} (hd : d.nodes.Agree)
    (hLabel : d.label n = .element tag as) (content : String) :
    (d.setText n content).nodes.Agree ∧
      (d.nodes.Linked → (d.setText n content).nodes.Linked) ∧
      Refilled d (d.setText n content) n content := by
  have hn : n < d.nodes.size := lt_size_of_label hLabel (by simp)
  obtain ⟨hAgree, hClear⟩ := cleared_foldl hd (d.children n)
  obtain ⟨hNone, hParent, hRest⟩ := hClear.refilled_nil hd
  have hSet : d.setText n content = if content.isEmpty then (d.children n).foldl remove d
      else (((d.children n).foldl remove d).create (.text content)).1.append n
        ((d.children n).foldl remove d).nodes.size := by
    rw [setText, hLabel]
    rfl
  rw [hSet]
  cases hEmpty : content.isEmpty with
  | true =>
    refine ⟨hAgree, fun hLinked => linked_foldl hLinked _, ?_, ?_, ?_, hRest, ?_⟩
    · rw [hEmpty]
      exact hNone
    · rw [hEmpty]
      intro h
      cases h
    · intro m _
      exact hParent m
    · intro m _
      exact hClear.label m
  | false =>
    have hFilled : Filled _ _ n content :=
      filled_append hAgree (hClear.size.symm ▸ hn) hNone content
    refine ⟨hFilled.agree, fun hLinked => hFilled.linked (linked_foldl hLinked _), ?_, ?_, ?_, ?_,
      ?_⟩
    · rw [hEmpty, ← hClear.size]
      exact hFilled.children_self
    · intro _
      rw [← hClear.size]
      exact hFilled.text
    · intro m hm
      rw [← hParent]
      exact hFilled.parent m (hClear.size.symm ▸ hm)
    · intro q hq
      exact (hFilled.children q hq).trans (hRest q hq)
    · intro m hm
      exact (hFilled.label m (hClear.size.symm ▸ hm)).trans (hClear.label m)

/-- Replacing the content of a text changes a label only. -/
theorem reworded_setText {old : String} (hLabel : d.label n = .text old) (content : String) :
    (∀ m, (d.setText n content).nodes.parent? m = d.nodes.parent? m) ∧
      (∀ q, (d.setText n content).nodes.children q = d.nodes.children q) ∧
      Reworded d (d.setText n content) n content := by
  have hn : n < d.nodes.size := lt_size_of_label hLabel (by simp)
  have hSet : d.setText n content = { d with nodes := d.nodes.setLabel n (.text content) } := by
    rw [setText, hLabel]
  have hParent : ∀ m, (d.setText n content).nodes.parent? m = d.nodes.parent? m := by
    intro m
    rw [hSet]
    simp only [Forest.setLabel, Forest.parent?, Array.getElem?_modify]
    split <;> cases d.nodes.cells[m]? <;> rfl
  have hChildren : ∀ q, (d.setText n content).nodes.children q = d.nodes.children q := by
    intro q
    rw [hSet]
    simp only [Forest.setLabel, Forest.children, Array.getElem?_modify]
    split <;> cases d.nodes.cells[q]? <;> rfl
  refine ⟨hParent, hChildren, hParent, hChildren, ?_, ?_⟩
  · rw [hSet]
    rw [label, Forest.setLabel, Forest.label?, Array.getElem?_modify, if_pos rfl,
      Array.getElem?_eq_getElem hn]
    rfl
  · intro m hm
    rw [hSet]
    simp [label, Forest.setLabel, Forest.label?, Array.getElem?_modify, Ne.symm hm]

/-! ## All changes -/

theorem Edit.apply_eq_error_iff {e : Edit} (cause : NotAChild) :
    e.apply d = .error cause ↔ e.Refused d cause := by
  cases e with
  | insertBefore p n reference =>
    rw [Edit.apply, insertBefore_eq_error_iff]
    cases reference <;> simp [Edit.Refused]
  | append | remove | setText => simp [Edit.apply, Edit.Refused]

/-- A change that is refused leaves a live document as it is. -/
theorem tryInDom_refused {κ σ : Type} {l : Live κ σ} {f : Dom → Except NotAChild Dom}
    {cause : NotAChild} (h : f l.dom = .error cause) :
    (Live.tryInDom f).run.run l = (.error (.notAChild cause), l) := by
  have hGet : ∀ act : Live κ σ → Live.Act κ σ Unit,
      (get >>= act).run.run l = (act l).run.run l := fun _ => rfl
  rw [Live.tryInDom, hGet, h]
  rfl

/-- Links and lists agree after every change, and what may not be hung below itself stays a forest.
An insertion is refused exactly if its reference is no child of the parent, and then nothing has
changed; all other changes do what they should, and move nothing else. -/
theorem Edit.apply_agree (hd : d.nodes.Agree) {e : Edit} (he : e.Fits d) :
    (∀ cause, e.apply d = .error cause ↔ e.Refused d cause) ∧
      (∀ {κ σ : Type} (l : Live κ σ) (cause : NotAChild), l.dom = d → e.Refused d cause →
        (Live.tryInDom e.apply).run.run l = (.error (.notAChild cause), l)) ∧
      ∀ d', e.apply d = .ok d' →
        d'.nodes.Agree ∧ (d.nodes.Linked → e.Descends d → d'.nodes.Linked) ∧ e.Done d d' := by
  refine ⟨apply_eq_error_iff, ?_, ?_⟩
  · rintro κ σ l cause rfl hRefused
    exact tryInDom_refused ((apply_eq_error_iff cause).mpr hRefused)
  · intro d' h
    cases e with
    | insertBefore p n reference =>
      obtain ⟨hp, hn, hNe⟩ := he
      exact lodged_insertBefore hd hp hn hNe h
    | append p n =>
      obtain ⟨hp, hn⟩ := he
      have hAppend : d.insertBefore p n none = .ok d' := h
      exact lodged_insertBefore hd hp hn (by simp) hAppend
    | remove n =>
      obtain rfl := Except.ok.inj h
      have hTaken : Forest.Taken d.nodes (d.remove n).nodes n := hd.taken_remove n
      exact ⟨hTaken.agree hd, fun hLinked _ => hTaken.linked hLinked, freed_remove hd n⟩
    | setText n content =>
      obtain rfl := Except.ok.inj h
      show _ ∧ _ ∧ match d.label n with
        | .text _ => Reworded d (d.setText n content) n content
        | .element _ _ => Refilled d (d.setText n content) n content
        | _ => d.setText n content = d
      cases hLabel : d.label n with
      | text old =>
        obtain ⟨hParent, hChildren, hReworded⟩ := reworded_setText hLabel content
        exact ⟨hd.congr hParent hChildren, fun hLinked _ => hLinked.congr hParent hChildren,
          hReworded⟩
      | element tag as =>
        obtain ⟨hAgree, hLinked, hRefilled⟩ := refilled_setText hd hLabel content
        exact ⟨hAgree, fun h _ => hLinked h, hRefilled⟩
      | document | comment =>
        have hSame : d.setText n content = d := by rw [Dom.setText, hLabel]
        rw [hSame]
        exact ⟨hd, fun h _ => h, rfl⟩

/-- A list with three items. -/
def trio : Dom where
  nodes := ⟨#[⟨.element "ul" [], none, [1, 2, 3]⟩, ⟨.element "li" [], some 0, []⟩,
    ⟨.element "li" [], some 0, []⟩, ⟨.element "li" [], some 0, []⟩]⟩

theorem children_trio (p : NodeId) : trio.nodes.children p = if p = 0 then [1, 2, 3] else [] := by
  rcases p with _ | _ | _ | _ | p <;> simp [trio, Forest.children]

theorem parent?_trio (n : NodeId) :
    trio.nodes.parent? n = if n ∈ [1, 2, 3] then some 0 else none := by
  rcases n with _ | _ | _ | _ | n <;> simp [trio, Forest.parent?]

theorem linked_trio : trio.nodes.Linked where
  mem_children p n := by
    rw [children_trio, parent?_trio]
    by_cases hp : p = 0 <;> by_cases hn : n ∈ [1, 2, 3] <;> simp_all [eq_comm]
  nodup p := by
    rw [children_trio]
    split <;> decide
  ranked := by
    refine ⟨id, fun n p h => ?_⟩
    rw [parent?_trio] at h
    split at h
    · obtain rfl := Option.some.inj h
      rename_i hn
      rcases (by simpa using hn : n = 1 ∨ n = 2 ∨ n = 3) with rfl | rfl | rfl <;> decide
    · cases h

/-- The last item goes before the first; before the second it cannot go but in their list. -/
theorem apply_agree_trio :
    trio.nodes.Agree ∧ (Edit.insertBefore 0 3 (some 1)).Fits trio ∧
      (Edit.insertBefore 0 3 (some 1)).Descends trio ∧
      (∃ d', (Edit.insertBefore 0 3 (some 1)).apply trio = .ok d' ∧ d'.children 0 = [3, 1, 2] ∧
        d'.nodes.Linked ∧ Lodged trio d' 0 3 (some 1)) ∧
      (Edit.insertBefore 1 3 (some 2)).Fits trio ∧
      (Edit.insertBefore 1 3 (some 2)).apply trio = .error ⟨"<li>", "<li>"⟩ := by
  have hFirst : (Edit.insertBefore 0 3 (some 1)).Fits trio := ⟨by decide, by decide, by decide⟩
  have hSecond : (Edit.insertBefore 1 3 (some 2)).Fits trio := ⟨by decide, by decide, by decide⟩
  have hDescends : (Edit.insertBefore 0 3 (some 1)).Descends trio := by
    intro hUp
    have : 0 = 3 := hUp.eq_of_parent_none (parent?_trio 0)
    omega
  obtain ⟨-, -, hDone⟩ := Edit.apply_agree linked_trio.agree hFirst
  obtain ⟨hRefused, -, -⟩ := Edit.apply_agree linked_trio.agree hSecond
  have hApply : (Edit.insertBefore 0 3 (some 1)).apply trio = .ok
      { nodes := (trio.nodes.remove 3).place 0 3 0 } := rfl
  obtain ⟨-, hLinked, hLodged⟩ := hDone _ hApply
  refine ⟨linked_trio.agree, hFirst, hDescends,
    ⟨_, hApply, by decide, hLinked linked_trio hDescends, hLodged⟩, hSecond, ?_⟩
  rw [hRefused]
  exact ⟨by decide, by decide⟩

end Dom

end LiveMarkup
