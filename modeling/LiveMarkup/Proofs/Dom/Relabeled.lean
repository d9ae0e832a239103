import LiveMarkup.Live.Aspect
import LiveMarkup.Proofs.Dom.Making

/-!
# Trees with other labels

Writing texts and attributes changes labels, but no node becomes an element or another one, and
nothing moves. What can be done to a tree can be done to one with other labels, and leaves the same
tree with other labels.

* `Dom.Relabeled`: the same links and containers, and nodes of the same kinds;
* `Dom.Relabeled.place`, `Dom.Relabeled.takeOut`: what can be done to either;
* `Live.Aspect.relabeled_write`: writing to an aspect of a node.
-/

namespace LiveMarkup

/-! ## Forests -/

namespace Forest

variable {α : Type} {f f' : Forest α}

/-- The same links. -/
structure Alike (f f' : Forest α) : Prop where
  size : f'.size = f.size
  parent : ∀ n, f'.parent? n = f.parent? n
  children : ∀ n, f'.children n = f.children n

theorem Alike.refl (f : Forest α) : f.Alike f :=
  ⟨rfl, fun _ => rfl, fun _ => rfl⟩

theorem modify_of_le {β : Type} (cells : Array β) {n : Nat} (hn : cells.size ≤ n) (g : β → β) :
    cells.modify n g = cells := by
  refine Array.ext_getElem? fun i => ?_
  rw [Array.getElem?_modify]
  split
  · subst i
    rw [Array.getElem?_eq_none hn]
    rfl
  · rfl

namespace Alike

variable (h : f.Alike f')
include h

theorem setParent (n : NodeId) (p : Option NodeId) : (f.setParent n p).Alike (f'.setParent n p) := by
  rcases Nat.lt_or_ge n f.size with hn | hn
  · refine ⟨by simp [h.size], fun m => ?_, fun m => by simp [h.children]⟩
    rw [parent?_setParent f hn, parent?_setParent f' (h.size ▸ hn), h.parent]
  · rw [Forest.setParent, Forest.setParent, modify_of_le _ hn, modify_of_le _ (h.size.trans_le hn)]
    exact h

theorem setChildren (n : NodeId) (l : List NodeId) :
    (f.setChildren n l).Alike (f'.setChildren n l) := by
  rcases Nat.lt_or_ge n f.size with hn | hn
  · refine ⟨by simp [h.size], fun m => by simp [h.parent], fun m => ?_⟩
    rw [children_setChildren f hn, children_setChildren f' (h.size ▸ hn), h.children]
  · rw [Forest.setChildren, Forest.setChildren, modify_of_le _ hn,
      modify_of_le _ (h.size.trans_le hn)]
    exact h

theorem index? (p n : NodeId) : f'.index? p n = f.index? p n := by
  rw [Forest.index?, h.children, Forest.index?]

theorem remove (n : NodeId) : (f.remove n).Alike (f'.remove n) := by
  unfold Forest.remove
  rw [h.parent]
  split
  · exact h
  · rw [h.children]
    exact (h.setChildren _ _).setParent _ _

theorem place (p n : NodeId) (i : Nat) : (f.place p n i).Alike (f'.place p n i) := by
  rw [Forest.place, Forest.place, h.children]
  exact (h.setChildren _ _).setParent _ _

theorem append (p n : NodeId) : (f.append p n).Alike (f'.append p n) := by
  have hOut := h.remove n
  rw [Forest.append, Forest.append, hOut.children]
  exact hOut.place _ _ _

theorem insertBefore? (p n : NodeId) (reference : Option NodeId) :
    (f.insertBefore? p n reference = none ∧ f'.insertBefore? p n reference = none) ∨
      ∃ g g', f.insertBefore? p n reference = some g ∧ f'.insertBefore? p n reference = some g' ∧
        g.Alike g' := by
  have hOut := h.remove n
  cases reference with
  | none => exact .inr ⟨_, _, rfl, rfl, h.append p n⟩
  | some r =>
    rw [Forest.insertBefore?, Forest.insertBefore?, h.index?]
    cases f.index? p r with
    | none => exact .inl ⟨rfl, rfl⟩
    | some i =>
      refine .inr ⟨_, _, rfl, rfl, ?_⟩
      rw [hOut.index?, hOut.children]
      exact hOut.place _ _ _

theorem climb (k : Nat) (n : NodeId) : f'.climb k n = f.climb k n := by
  induction k generalizing n with
  | zero => rfl
  | succ k ih => simp only [Forest.climb, h.parent, ih]

theorem ancestors (n : NodeId) : f'.ancestors n = f.ancestors n := by
  rw [Forest.ancestors, h.size, h.climb, Forest.ancestors]

theorem root (n : NodeId) : f'.root n = f.root n := by
  rw [Forest.root, h.ancestors, Forest.root]

theorem preorder (k : Nat) : f'.preorder k = f.preorder k := by
  induction k with
  | zero => rfl
  | succ k ih =>
    funext n
    simp only [Forest.preorder, h.children, ih]

theorem descendants (n : NodeId) : f'.descendants n = f.descendants n := by
  simp only [Forest.descendants, h.size, h.children, h.preorder]

end Alike

/-! ### What changes links only -/

/-- The same nodes with the same labels. -/
structure SameLabels (f f' : Forest α) : Prop where
  size : f'.size = f.size
  label : ∀ n, f'.label? n = f.label? n

namespace SameLabels

theorem refl (f : Forest α) : f.SameLabels f :=
  ⟨rfl, fun _ => rfl⟩

theorem trans {f₁ : Forest α} (h₁ : f.SameLabels f₁) (h₂ : f₁.SameLabels f') : f.SameLabels f' :=
  ⟨h₂.size.trans h₁.size, fun n => (h₂.label n).trans (h₁.label n)⟩

theorem link (f : Forest α) (p n : NodeId) (children : List NodeId) (parent : Option NodeId) :
    f.SameLabels ((f.setChildren p children).setParent n parent) :=
  ⟨by simp, fun m => by rw [label?_setParent, label?_setChildren]⟩

theorem remove (f : Forest α) (n : NodeId) : f.SameLabels (f.remove n) := by
  unfold Forest.remove
  split
  · exact refl f
  · exact link f _ n _ none

theorem append (f : Forest α) (p n : NodeId) : f.SameLabels (f.append p n) :=
  (remove f n).trans (link _ p n _ _)

theorem insertBefore {p n : NodeId} {reference : Option NodeId}
    (h : f.insertBefore? p n reference = some f') : f.SameLabels f' := by
  unfold insertBefore? at h
  split at h
  · exact Option.some.inj h ▸ append f p n
  · split at h
    · cases h
    · exact Option.some.inj h ▸ (remove f n).trans (link _ p n _ _)

end SameLabels

end Forest

/-! ## Trees -/

namespace Dom

variable {d d' : Dom} {n : NodeId} {q : NodeRef}

/-- A tree with the same links and containers, and with nodes of the same kinds. -/
structure Relabeled (d d' : Dom) : Prop where
  nodes : d.nodes.Alike d'.nodes
  containers : d'.containers = d.containers
  describe : ∀ m, d'.describe m = d.describe m
  tag : ∀ m, (d'.label m).tag? = (d.label m).tag?

namespace Relabeled

theorem refl (d : Dom) : Relabeled d d :=
  ⟨.refl _, rfl, fun _ => rfl, fun _ => rfl⟩

theorem trans {d₁ : Dom} (h₁ : Relabeled d d₁) (h₂ : Relabeled d₁ d') : Relabeled d d' where
  nodes :=
    { size := h₂.nodes.size.trans h₁.nodes.size
      parent := fun m => (h₂.nodes.parent m).trans (h₁.nodes.parent m)
      children := fun m => (h₂.nodes.children m).trans (h₁.nodes.children m) }
  containers := h₂.containers.trans h₁.containers
  describe m := (h₂.describe m).trans (h₁.describe m)
  tag m := (h₂.tag m).trans (h₁.tag m)

theorem setLabel (d : Dom) (n : NodeId) {l : Label} (hDescribe : l.describe = d.describe n)
    (hTag : l.tag? = (d.label n).tag?) : Relabeled d { d with nodes := d.nodes.setLabel n l } := by
  have hLabel : ∀ m, Dom.label { d with nodes := d.nodes.setLabel n l } m = d.label m ∨
      m = n ∧ Dom.label { d with nodes := d.nodes.setLabel n l } m = l := by
    intro m
    simp only [Dom.label, Forest.setLabel, Forest.label?, Array.getElem?_modify]
    split
    · subst m
      cases d.nodes.cells[n]? with
      | none => exact .inl rfl
      | some c => exact .inr ⟨rfl, rfl⟩
    · exact .inl rfl
  refine ⟨⟨Array.size_modify, fun m => ?_, fun m => ?_⟩, rfl, fun m => ?_, fun m => ?_⟩
  · simp only [Forest.setLabel, Forest.parent?, Array.getElem?_modify]
    split <;> cases d.nodes.cells[m]? <;> rfl
  · simp only [Forest.setLabel, Forest.children, Array.getElem?_modify]
    split <;> cases d.nodes.cells[m]? <;> rfl
  · rcases hLabel m with hSame | ⟨rfl, hNew⟩
    · rw [Dom.describe, hSame, Dom.describe]
    · rw [Dom.describe, hNew, hDescribe]
  · rcases hLabel m with hSame | ⟨rfl, hNew⟩
    · rw [hSame]
    · rw [hNew, hTag]

variable (h : Relabeled d d')
include h

theorem nodes_size : d'.nodes.size = d.nodes.size := h.nodes.size

theorem parent (m : NodeId) : d'.nodes.parent? m = d.nodes.parent? m := h.nodes.parent m

theorem children (m : NodeId) : d'.nodes.children m = d.nodes.children m := h.nodes.children m

theorem container (c : ContainerId) : d'.container c = d.container c := by
  rw [Dom.container, h.containers, Dom.container]

theorem part (c : ContainerId) (p : Part) : d'.part c p = d.part c p := by
  cases p <;> simp only [Dom.part, h.container c]

theorem span (c : ContainerId) : d'.span c = d.span c := by
  have hParent : ∀ m, d'.parent? m = d.parent? m := h.parent
  have hChildren : ∀ m, d'.children m = d.children m := h.children
  simp only [Dom.span, h.container c, hParent, hChildren]

theorem childrenOf (q : NodeRef) : d'.childrenOf q = d.childrenOf q := by
  cases q with
  | node n => exact h.children n
  | container c => exact h.span c

theorem mark : d'.mark = d.mark := by
  funext m
  have hOwner : ∀ p, d'.owner? p m = d.owner? p m := fun p => by
    simp only [owner?, h.containers, h.part]
  rw [Dom.mark, hOwner, hOwner, Dom.mark]

theorem key (q : NodeRef) : d'.key q = d.key q := by
  cases q with
  | node n => rfl
  | container c => exact h.part c .start

theorem known_iff : d'.Known q ↔ d.Known q := by
  cases q with
  | node n =>
    refine ⟨fun hn => ⟨h.nodes_size ▸ hn.1, fun c hc p => ?_⟩,
      fun hn => ⟨h.nodes_size.symm ▸ hn.1, fun c hc p => ?_⟩⟩
    · rw [← h.part]
      exact hn.2 c (h.containers.symm ▸ hc) p
    · rw [h.part]
      exact hn.2 c (h.containers ▸ hc) p
  | container c =>
    change c < _ ↔ c < _
    rw [h.containers]

theorem isPlaced (q : NodeRef) : d'.isPlaced q = d.isPlaced q := by
  cases q with
  | node n => exact congrArg Option.isSome (h.parent n)
  | container c => exact congrArg Container.live (h.container c)

theorem sound (hd : d.Sound) : d'.Sound where
  linked := hd.linked.congr h.parent h.children
  part_lt c hc p := by
    rw [h.part, h.nodes_size]
    exact hd.part_lt c (h.containers ▸ hc) p
  part_inj c hc c' hc' p p' hEq := by
    rw [h.part, h.part] at hEq
    exact hd.part_inj c (h.containers ▸ hc) c' (h.containers ▸ hc') p p' hEq
  fragment_root c hc := by
    rw [h.part]
    exact (h.parent _).trans (hd.fragment_root c (h.containers ▸ hc))
  leaf c hc p hp := by
    rw [h.part]
    exact (h.children _).trans (hd.leaf c (h.containers ▸ hc) p hp)
  live_iff c hc := by
    rw [h.container, h.part]
    refine (hd.live_iff c (h.containers ▸ hc)).trans ?_
    exact exists_congr fun host => by rw [parent?, parent?, h.parent]
  empty c hc hLive := by
    rw [h.container] at hLive
    rw [h.part]
    exact (h.children _).trans (hd.empty c (h.containers ▸ hc) hLive)
  balanced p := by
    rw [h.mark]
    exact (congrArg (Bracket.Balanced d.mark) (h.children p)).mpr (hd.balanced p)

theorem first? (q : NodeRef) : d'.first? q = d.first? q := by
  cases q with
  | node n => rfl
  | container c => simp only [Dom.first?, h.container]

theorem subtree (q : NodeRef) : d'.subtree q = d.subtree q := by
  cases q with
  | node n => exact congrArg (n :: ·) (h.nodes.descendants n)
  | container c =>
    have hBelow : ∀ m, d'.descendants m = d.descendants m := h.nodes.descendants
    simp only [Dom.subtree, h.container, h.span, hBelow]

theorem describeRef (q : NodeRef) : d'.describeRef q = d.describeRef q := by
  cases q with
  | node n => exact h.describe n
  | container c => rfl

theorem kept : Kept d d' where
  nodes_size := Nat.le_of_eq h.nodes_size.symm
  size := Nat.le_of_eq (congrArg Array.size h.containers).symm
  parent n _ := h.parent n
  children n _ := h.children n
  tag n _ := h.tag n
  container c _ := h.container c
  fresh _ hOld hNew := absurd hNew (Nat.not_lt.mpr (by rwa [h.containers]))

end Relabeled

/-! ## Changes of trees with other labels -/

/-- The same was refused, or the same was done to trees with other labels. -/
def Agree (x x' : Except NotAChild Dom) : Prop :=
  (∃ e, x = .error e ∧ x' = .error e) ∨ ∃ d d', x = .ok d ∧ x' = .ok d' ∧ d.Relabeled d'

/-- Changes that depend on labels in no other way, one after the other. -/
theorem Agree.bind {x x' : Except NotAChild Dom} {f f' : Dom → Except NotAChild Dom}
    (h : Agree x x') (hRest : ∀ d d', d.Relabeled d' → Agree (f d) (f' d')) :
    Agree (x >>= f) (x' >>= f') := by
  rcases h with ⟨e, rfl, rfl⟩ | ⟨d, d', rfl, rfl, h⟩
  · exact .inl ⟨e, rfl, rfl⟩
  · exact hRest d d' h

namespace Relabeled

variable (h : Relabeled d d')
include h

theorem withNodes {f f' : Forest Label} (hAlike : f.Alike f') (hSame : d.nodes.SameLabels f)
    (hSame' : d'.nodes.SameLabels f') : Relabeled { d with nodes := f } { d' with nodes := f' } where
  nodes := hAlike
  containers := h.containers
  describe m := by
    have hDescribe := h.describe m
    simp only [Dom.describe, Dom.label] at hDescribe ⊢
    rw [hSame.label, hSame'.label, hDescribe]
  tag m := by
    have hTag := h.tag m
    simp only [Dom.label] at hTag ⊢
    rw [hSame.label, hSame'.label, hTag]

theorem remove (n : NodeId) : (d.remove n).Relabeled (d'.remove n) :=
  h.withNodes (h.nodes.remove n) (.remove _ n) (.remove _ n)

theorem append (p n : NodeId) : (d.append p n).Relabeled (d'.append p n) :=
  h.withNodes (h.nodes.append p n) (.append _ p n) (.append _ p n)

theorem setLive (c : ContainerId) (live : Bool) :
    (d.setLive c live).Relabeled (d'.setLive c live) where
  nodes := h.nodes
  containers := by simp only [Dom.setLive, h.containers]
  describe := h.describe
  tag := h.tag

theorem insertBefore (p n : NodeId) (reference : Option NodeId) :
    Agree (d.insertBefore p n reference) (d'.insertBefore p n reference) := by
  have hDescribe : d'.describe = d.describe := funext h.describe
  unfold Dom.insertBefore
  rcases h.nodes.insertBefore? p n reference with ⟨hNone, hNone'⟩ | ⟨g, g', hSome, hSome', hAlike⟩
  · rw [hNone, hNone', hDescribe]
    exact .inl ⟨_, rfl, rfl⟩
  · rw [hSome, hSome']
    exact .inr ⟨_, _, rfl, rfl, h.withNodes hAlike (.insertBefore hSome) (.insertBefore hSome')⟩

theorem insertAll (p : NodeId) (reference : Option NodeId) (ns : List NodeId) :
    Agree (insertAll p reference ns d) (insertAll p reference ns d') := by
  induction ns generalizing d d' with
  | nil => exact .inr ⟨d, d', rfl, rfl, h⟩
  | cons n ns ih => exact (h.insertBefore p n reference).bind fun _ _ h₁ => ih h₁

theorem spanPoint (c : ContainerId) (reference : Option NodeId) :
    d'.spanPoint c reference = d.spanPoint c reference := by
  have hParent : ∀ m, d'.parent? m = d.parent? m := h.parent
  have hMessage : ∀ m, d'.notInContainer m = d.notInContainer m := fun m =>
    congrArg (NotAChild.mk · _) (h.describe m)
  simp only [Dom.spanPoint, Dom.spanHost?, h.span, h.container, hParent, hMessage]

theorem point (parent : NodeRef) (before : Option NodeRef) :
    d'.point parent before = d.point parent before := by
  cases parent <;> cases before <;>
    simp only [Dom.point, h.first?, h.describeRef, h.spanPoint]

theorem mount (c : ContainerId) (p : NodeId) (reference : Option NodeId) :
    Agree (d.mount c p reference) (d'.mount c p reference) := by
  have hChildren : ∀ m, d'.children m = d.children m := h.children
  unfold Dom.mount
  rw [h.container]
  simp only [hChildren]
  exact (h.insertAll _ _ _).bind fun d₁ d₁' h₁ => .inr ⟨_, _, rfl, rfl, h₁.setLive c true⟩

/-- What is put into a tree with other labels is put there in the same way. -/
theorem place (r parent : NodeRef) (before : Option NodeRef) :
    Agree (d.place r parent before) (d'.place r parent before) := by
  unfold Dom.place
  rw [h.point]
  cases d.point parent before with
  | error e => exact .inl ⟨e, rfl, rfl⟩
  | ok at_ =>
    cases r with
    | node n => exact h.insertBefore _ _ _
    | container c => exact h.mount _ _ _

theorem unmount (c : ContainerId) : (d.unmount c).Relabeled (d'.unmount c) := by
  have hAll : ∀ (ns : List NodeId) (p : NodeId) {d d' : Dom}, Relabeled d d' →
      (ns.foldl (fun d n => d.append p n) d).Relabeled (ns.foldl (fun d n => d.append p n) d') := by
    intro ns p
    induction ns with
    | nil => exact fun h => h
    | cons n ns ih => exact fun h => ih (h.append p n)
  unfold Dom.unmount
  rw [h.container, h.span]
  exact (((hAll _ _ h).remove _).remove _).setLive c false

/-- What is taken out of a tree with other labels is taken out in the same way. -/
theorem takeOut (r : NodeRef) : (d.takeOut r).Relabeled (d'.takeOut r) := by
  cases r with
  | node n => exact h.remove n
  | container c => exact h.unmount c

end Relabeled

/-! ## What puts nodes elsewhere -/

/-- The same nodes, of the same kinds. -/
structure SameKinds (d d' : Dom) : Prop where
  nodes_size : d'.nodes.size = d.nodes.size
  tag : ∀ m, (d'.label m).tag? = (d.label m).tag?

namespace SameKinds

theorem refl (d : Dom) : d.SameKinds d :=
  ⟨rfl, fun _ => rfl⟩

theorem trans {d₁ : Dom} (h₁ : d.SameKinds d₁) (h₂ : d₁.SameKinds d') : d.SameKinds d' :=
  ⟨h₂.nodes_size.trans h₁.nodes_size, fun m => (h₂.tag m).trans (h₁.tag m)⟩

theorem of_labels (h : d.nodes.SameLabels d'.nodes) : d.SameKinds d' :=
  ⟨h.size, fun m => by simp only [Dom.label, h.label]⟩

theorem insertBefore {p n : NodeId} {reference : Option NodeId}
    (h : d.insertBefore p n reference = .ok d') : d.SameKinds d' := by
  unfold Dom.insertBefore at h
  split at h
  · rename_i hSome
    exact Except.ok.inj h ▸ of_labels (.insertBefore hSome)
  · cases h

theorem insertAll {p : NodeId} {reference : Option NodeId} {ns : List NodeId}
    (h : insertAll p reference ns d = .ok d') : d.SameKinds d' := by
  induction ns generalizing d with
  | nil => exact Except.ok.inj h ▸ refl d
  | cons n ns ih =>
    cases h₁ : d.insertBefore p n reference with
    | error e =>
      rw [Dom.insertAll, h₁] at h
      cases h
    | ok d₁ =>
      rw [Dom.insertAll, h₁] at h
      exact (insertBefore h₁).trans (ih h)

theorem setLive (d : Dom) (c : ContainerId) (live : Bool) : d.SameKinds (d.setLive c live) :=
  ⟨rfl, fun _ => rfl⟩

theorem place {r parent : NodeRef} {before : Option NodeRef}
    (h : d.place r parent before = .ok d') : d.SameKinds d' := by
  unfold Dom.place at h
  cases hPoint : d.point parent before with
  | error e =>
    rw [hPoint] at h
    cases h
  | ok at_ =>
    rw [hPoint] at h
    cases r with
    | node n => exact insertBefore h
    | container c =>
      change d.mount c _ _ = _ at h
      unfold Dom.mount at h
      dsimp only at h
      cases hAll : Dom.insertAll at_.1 at_.2 ((d.container c).start ::
          (d.children (d.container c).fragment ++ [(d.container c).finish])) d with
      | error e =>
        rw [hAll] at h
        cases h
      | ok d₁ =>
        rw [hAll] at h
        exact Except.ok.inj h ▸ (insertAll hAll).trans (setLive d₁ c true)

theorem move {r parent : NodeRef} {before : Option NodeRef}
    (h : d.move r parent before = .ok d') : d.SameKinds d' := by
  unfold Dom.move at h
  cases hPoint : d.point parent before with
  | error e =>
    rw [hPoint] at h
    cases h
  | ok at_ =>
    rw [hPoint] at h
    cases r with
    | node n => exact insertBefore h
    | container c =>
      change d.relocate c _ _ = _ at h
      unfold Dom.relocate at h
      split at h
      · exact Except.ok.inj h ▸ refl d
      · exact insertAll h

theorem takeOut (d : Dom) (r : NodeRef) : d.SameKinds (d.takeOut r) := by
  cases r with
  | node n => exact of_labels (.remove _ n)
  | container c =>
    have hAll : ∀ (ns : List NodeId) (p : NodeId) (d : Dom),
        d.SameKinds (ns.foldl (fun d n => d.append p n) d) := by
      intro ns p
      induction ns with
      | nil => exact refl
      | cons n ns ih => exact fun d => (of_labels (.append _ p n)).trans (ih (d.append p n))
    refine (hAll (d.span c) (d.container c).fragment d).trans ?_
    exact (of_labels (.remove _ _)).trans ((of_labels (.remove _ _)).trans (setLive _ c false))

end SameKinds

/-! ## Writing -/

theorem relabeled_withAttributes (d : Dom) (n : NodeId) (attributes : List (String × String)) :
    Relabeled d (d.withAttributes n attributes) := by
  refine .setLabel d n ?_ ?_
  · rw [Dom.describe]
    cases d.label n <;> rfl
  · cases d.label n <;> rfl

theorem relabeled_writeAttribute (d : Dom) (n : NodeId) (name : String) (value : Value) :
    Relabeled d (d.writeAttribute n name value) := by
  unfold writeAttribute
  split
  · exact relabeled_withAttributes d n _
  · exact relabeled_withAttributes d n _

theorem relabeled_toggleClass (d : Dom) (n : NodeId) (name : String) (on : Bool) :
    Relabeled d (d.toggleClass n name on) := by
  unfold toggleClass
  dsimp only
  split
  · exact .refl d
  · exact relabeled_withAttributes d n _

theorem relabeled_setStyle (d : Dom) (n : NodeId) (property : String) (value : Option String) :
    Relabeled d (d.setStyle n property value) := by
  unfold setStyle
  split
  · exact .refl d
  · split
    · exact relabeled_withAttributes d n _
    · exact relabeled_withAttributes d n _

theorem relabeled_setText (d : Dom) {n : NodeId} (hNode : (d.label n).tag? = none)
    (content : String) : Relabeled d (d.setText n content) := by
  unfold setText
  split
  · rename_i old hLabel
    exact .setLabel d n (by rw [Dom.describe, hLabel]; rfl) (by rw [hLabel]; rfl)
  · rename_i hLabel
    rw [hLabel] at hNode
    cases hNode
  · exact .refl d

end Dom

namespace Live.Aspect

def isText : Aspect → Bool
  | text => true
  | _ => false

theorem relabeled_writeMap {α : Type} [BEq α] {erase : Dom → String → Dom}
    {write : Dom → String → α → Dom}
    (hErase : ∀ (d : Dom) name, d.Relabeled (erase d name))
    (hWrite : ∀ (d : Dom) name v, d.Relabeled (write d name v))
    (applied next : List (String × α)) (d : Dom) :
    d.Relabeled (writeMap erase write applied next d) := by
  have hFold : ∀ {β : Type} (f : Dom → β → Dom), (∀ (d : Dom) x, d.Relabeled (f d x)) →
      ∀ (xs : List β) (d : Dom), d.Relabeled (xs.foldl f d) := by
    intro β f hf xs
    induction xs with
    | nil => exact .refl
    | cons x xs ih => exact fun d => (hf d x).trans (ih _)
  exact (hFold erase hErase _ d).trans (hFold (fun d (x : String × α) => write d x.1 x.2)
    (fun d x => hWrite d x.1 x.2) _ _)

/-- Writing a value changes labels only, unless it replaces what an element contains. -/
theorem relabeled_write (d : Dom) {n : NodeId} (value : Value) {aspect : Aspect}
    (hText : aspect.isText = true → (d.label n).tag? = none) :
    d.Relabeled (aspect.write d n value).1 := by
  cases aspect with
  | text => exact Dom.relabeled_setText d (hText rfl) _
  | attributeText name => exact Dom.relabeled_withAttributes d n _
  | attr name => exact Dom.relabeled_writeAttribute d n name value
  | attributeMap applied =>
    exact relabeled_writeMap (fun d name => Dom.relabeled_withAttributes d n _)
      (fun d name v => Dom.relabeled_writeAttribute d n name v) _ _ d
  | className name => exact Dom.relabeled_toggleClass d n name _
  | classList applied =>
    exact relabeled_writeMap (fun d name => Dom.relabeled_toggleClass d n name false)
      (fun d name _ => Dom.relabeled_toggleClass d n name true) _ _ d
  | style name unit => exact Dom.relabeled_setStyle d n name _
  | styleMap applied =>
    exact relabeled_writeMap (fun d name => Dom.relabeled_setStyle d n name none)
      (fun d name v => Dom.relabeled_setStyle d n name v) _ _ d
  | property name => exact .refl d

theorem isText_write (d : Dom) (n : NodeId) (value : Value) (aspect : Aspect) :
    (aspect.write d n value).2.isText = aspect.isText := by
  cases aspect <;> rfl

end Live.Aspect

end LiveMarkup
