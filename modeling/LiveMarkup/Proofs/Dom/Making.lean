import LiveMarkup.Proofs.Dom.Placing
import Mathlib.Data.List.Find

/-!
# Making nodes and containers

What is made stands nowhere and holds nothing, and all that was there before is as it was. So a
document stays sound while a client makes nodes and containers and puts the nodes into each other.

* `grown_create`, `grown_createContainer`: what making does;
* `Sound.create`, `Sound.createContainer`, `Sound.insertUnder`: the document stays sound.
-/

namespace LiveMarkup

namespace Forest

variable {α : Type} (f : Forest α) (label : α)

theorem size_create : (f.create label).1.size = f.size + 1 := by
  simp [create, size]

theorem parent?_create (n : NodeId) : (f.create label).1.parent? n = f.parent? n := by
  simp only [create, parent?, Array.getElem?_push]
  split
  · rename_i hn
    simp [hn]
  · rfl

theorem children_create (n : NodeId) : (f.create label).1.children n = f.children n := by
  simp only [create, children, Array.getElem?_push]
  split
  · rename_i hn
    simp [hn]
  · rfl

theorem label?_create {n : NodeId} (hn : n < f.size) :
    (f.create label).1.label? n = f.label? n := by
  have hNe : n ≠ f.cells.size := Nat.ne_of_lt hn
  simp only [create, label?, Array.getElem?_push, if_neg hNe]

variable {f}

theorem Agree.congr {f' : Forest α} (hf : f.Agree) (hParent : ∀ n, f'.parent? n = f.parent? n)
    (hChildren : ∀ n, f'.children n = f.children n) : f'.Agree where
  mem_children p n := by
    rw [hChildren, hParent]
    exact hf.mem_children p n
  nodup p := by
    rw [hChildren]
    exact hf.nodup p

theorem Linked.congr {f' : Forest α} (hf : f.Linked) (hParent : ∀ n, f'.parent? n = f.parent? n)
    (hChildren : ∀ n, f'.children n = f.children n) : f'.Linked where
  mem_children := (hf.agree.congr hParent hChildren).mem_children
  nodup := (hf.agree.congr hParent hChildren).nodup
  ranked := by
    obtain ⟨rank, hRank⟩ := hf.ranked
    exact ⟨rank, fun n p h => hRank n p (hParent n ▸ h)⟩

theorem children_of_size_le {n : NodeId} (h : f.size ≤ n) : f.children n = [] := by
  simp only [children]
  rw [Array.getElem?_eq_none h]
  rfl

theorem parent?_of_size_le {n : NodeId} (h : f.size ≤ n) : f.parent? n = none := by
  simp only [parent?]
  rw [Array.getElem?_eq_none h]
  rfl

end Forest

namespace Bracket

/-- Balance depends on the marks of the nodes alone. -/
theorem balanced_congr {mark mark' : NodeId → Bracket} {nodes : List NodeId}
    (h : ∀ n ∈ nodes, mark' n = mark n) : Balanced mark' nodes ↔ Balanced mark nodes := by
  have hScan : ∀ stack, scan mark' stack nodes = scan mark stack nodes := by
    induction nodes with
    | nil => exact fun _ => rfl
    | cons n nodes ih =>
      intro stack
      have hStep : step mark' stack n = step mark stack n := by
        simp only [step, h n List.mem_cons_self]
      rw [scan_cons, scan_cons, hStep]
      congr 1
      funext s
      exact ih (fun m hm => h m (List.mem_cons_of_mem _ hm)) s
  rw [Balanced, Balanced, hScan]

end Bracket

namespace Dom

variable {d d' : Dom}

/-- All that was there is where it was, and of the same kind. New containers have new nodes. -/
structure Kept (d d' : Dom) : Prop where
  nodes_size : d.nodes.size ≤ d'.nodes.size
  size : d.containers.size ≤ d'.containers.size
  parent : ∀ n < d.nodes.size, d'.parent? n = d.parent? n
  children : ∀ n < d.nodes.size, d'.children n = d.children n
  tag : ∀ n < d.nodes.size, (d'.label n).tag? = (d.label n).tag?
  container : ∀ c < d.containers.size, d'.container c = d.container c
  fresh : ∀ c, d.containers.size ≤ c → c < d'.containers.size → ∀ p, d.nodes.size ≤ d'.part c p

namespace Kept

theorem refl (d : Dom) : Kept d d where
  nodes_size := Nat.le_refl _
  size := Nat.le_refl _
  parent _ _ := rfl
  children _ _ := rfl
  tag _ _ := rfl
  container _ _ := rfl
  fresh _ hOld hNew := absurd hNew (Nat.not_lt.mpr hOld)

theorem part (h : Kept d d') {c : ContainerId} (hc : c < d.containers.size) (p : Part) :
    d'.part c p = d.part c p := by
  cases p <;> simp only [Dom.part, h.container c hc]

theorem trans {d₁ : Dom} (h₁ : Kept d d₁) (h₂ : Kept d₁ d') : Kept d d' where
  nodes_size := Nat.le_trans h₁.nodes_size h₂.nodes_size
  size := Nat.le_trans h₁.size h₂.size
  parent n hn := (h₂.parent n (Nat.lt_of_lt_of_le hn h₁.nodes_size)).trans (h₁.parent n hn)
  children n hn := (h₂.children n (Nat.lt_of_lt_of_le hn h₁.nodes_size)).trans (h₁.children n hn)
  tag n hn := (h₂.tag n (Nat.lt_of_lt_of_le hn h₁.nodes_size)).trans (h₁.tag n hn)
  container c hc := (h₂.container c (Nat.lt_of_lt_of_le hc h₁.size)).trans (h₁.container c hc)
  fresh c hOld hNew p := by
    by_cases hc : c < d₁.containers.size
    · rw [h₂.part hc]
      exact h₁.fresh c hOld hc p
    · exact Nat.le_trans h₁.nodes_size (h₂.fresh c (Nat.le_of_not_lt hc) hNew p)

variable (h : Kept d d')
include h

theorem plain {n : NodeId} (hn : d.Plain n) : d'.Plain n where
  lt_size := Nat.lt_of_lt_of_le hn.lt_size h.nodes_size
  ne_part c hc p := by
    by_cases hOld : c < d.containers.size
    · rw [h.part hOld]
      exact hn.ne_part c hOld p
    · exact Nat.ne_of_lt (Nat.lt_of_lt_of_le hn.lt_size (h.fresh c (Nat.le_of_not_lt hOld) hc p))

theorem known {r : NodeRef} (hr : d.Known r) : d'.Known r := by
  cases r with
  | node n => exact h.plain hr
  | container c => exact Nat.lt_of_lt_of_le hr h.size

theorem key {r : NodeRef} (hr : d.Known r) : d'.key r = d.key r := by
  cases r with
  | node n => rfl
  | container c => exact h.part hr .start

theorem isPlaced {r : NodeRef} (hr : d.Known r) : d'.isPlaced r = d.isPlaced r := by
  cases r with
  | node n => rw [Dom.isPlaced, Dom.isPlaced, h.parent n hr.lt_size]
  | container c => rw [Dom.isPlaced, Dom.isPlaced, h.container c hr]

theorem up {n m : NodeId} (hUp : d.nodes.Up n m) : d'.nodes.Up n m := by
  induction hUp with
  | refl => exact Forest.up_refl n
  | tail _ hParent ih =>
    exact ih.tail ((h.parent _ (Forest.lt_size_of_parent hParent)).trans hParent)

variable (hd : d.Sound)
include hd

theorem span {c : ContainerId} (hc : c < d.containers.size) : d'.span c = d.span c := by
  simp only [Dom.span, h.container c hc]
  split
  · have hStart : d'.parent? (d.container c).start = d.parent? (d.container c).start :=
      h.parent _ (hd.part_lt c hc .start)
    rw [hStart]
    cases hHost : d.parent? (d.container c).start with
    | none => rfl
    | some host =>
      exact congrArg (between _ _) (h.children host (hd.linked.parent_lt_size hHost))
  · exact h.children _ (hd.part_lt c hc .fragment)

theorem runOf {r : NodeRef} (hr : d.Known r) : d'.runOf r = d.runOf r := by
  cases r with
  | node n => rfl
  | container c => rw [runOf_container, runOf_container, h.span hd hr, h.part hr, h.part hr]

theorem up_of_lt {n m : NodeId} (hn : n < d.nodes.size) (hUp : d'.nodes.Up n m) :
    d.nodes.Up n m ∧ m < d.nodes.size := by
  induction hUp with
  | refl => exact ⟨Forest.up_refl n, hn⟩
  | tail _ hParent ih =>
    have hOld := (h.parent _ ih.2).symm.trans hParent
    exact ⟨ih.1.tail hOld, hd.linked.parent_lt_size hOld⟩

theorem lt_of_up (hd' : d'.Sound) {n m : NodeId} (hm : m < d.nodes.size) (hUp : d'.nodes.Up n m) :
    n < d.nodes.size := by
  induction hUp using Relation.ReflTransGen.head_induction_on with
  | refl => exact hm
  | head hParent _ ih =>
    have hChild := hd'.mem_children.mpr hParent
    rw [h.children _ ih] at hChild
    exact Forest.lt_size_of_parent (hd.mem_children.mp hChild)

theorem inside_iff (hd' : d'.Sound) {r : NodeRef} (hr : d.Known r) {m : NodeId} :
    d'.Inside r m ↔ d.Inside r m := by
  simp only [Inside, h.runOf hd hr]
  refine exists_congr fun k => and_congr_right fun hk => ?_
  refine ⟨fun hUp => ?_, h.up⟩
  exact (h.up_of_lt hd (h.lt_of_up hd hd' (hd.lt_size_of_mem_run hr hk) hUp) hUp).1

end Kept

/-- All that was there is as it was. What else there is stands nowhere and holds nothing. -/
structure Grown (d d' : Dom) : Prop extends Kept d d' where
  label : ∀ n < d.nodes.size, d'.nodes.label? n = d.nodes.label? n
  bare : ∀ n, d.nodes.size ≤ n → d'.parent? n = none ∧ d'.children n = []

namespace Grown

theorem trans {d₁ : Dom} (h₁ : Grown d d₁) (h₂ : Grown d₁ d') : Grown d d' where
  toKept := h₁.toKept.trans h₂.toKept
  label n hn := (h₂.label n (Nat.lt_of_lt_of_le hn h₁.nodes_size)).trans (h₁.label n hn)
  bare n hn := by
    by_cases hOld : n < d₁.nodes.size
    · rw [h₂.parent n hOld, h₂.children n hOld]
      exact h₁.bare n hn
    · exact h₂.bare n (Nat.le_of_not_lt hOld)

variable (h : Grown d d')
include h

theorem parent_eq (n : NodeId) : d'.parent? n = d.parent? n := by
  by_cases hn : n < d.nodes.size
  · exact h.parent n hn
  · rw [(h.bare n (Nat.le_of_not_lt hn)).1]
    exact (Forest.parent?_of_size_le (Nat.le_of_not_lt hn)).symm

theorem children_eq (n : NodeId) : d'.children n = d.children n := by
  by_cases hn : n < d.nodes.size
  · exact h.children n hn
  · rw [(h.bare n (Nat.le_of_not_lt hn)).2]
    exact (Forest.children_of_size_le (Nat.le_of_not_lt hn)).symm

theorem linked (hd : d.Sound) : d'.nodes.Linked :=
  hd.linked.congr h.parent_eq h.children_eq

end Grown

/-! ## Making a node -/

theorem grown_create (d : Dom) (l : Label) : Grown d (d.create l).1 where
  nodes_size := by
    change d.nodes.size ≤ (d.nodes.create l).1.size
    rw [Forest.size_create]
    exact Nat.le_succ _
  size := Nat.le_refl _
  parent n _ := Forest.parent?_create d.nodes l n
  children n _ := Forest.children_create d.nodes l n
  tag n hn := by rw [label, create, Forest.label?_create d.nodes l hn, label]
  label _ := Forest.label?_create d.nodes l
  container _ _ := rfl
  fresh _ hOld hNew := absurd hNew (Nat.not_lt.mpr hOld)
  bare n hn := ⟨(Forest.parent?_create d.nodes l n).trans (Forest.parent?_of_size_le hn),
    (Forest.children_create d.nodes l n).trans (Forest.children_of_size_le hn)⟩

theorem nodes_size_create (d : Dom) (l : Label) :
    (d.create l).1.nodes.size = d.nodes.size + 1 :=
  Forest.size_create d.nodes l

theorem sound_empty : ({} : Dom).Sound where
  linked := by
    refine ⟨fun p n => ?_, fun p => ?_, fun _ => 0, fun n p h => ?_⟩
    · simp [Forest.children, Forest.parent?]
    · simp [Forest.children]
    · simp [Forest.parent?] at h
  part_lt c hc := by cases hc
  part_inj c hc := by cases hc
  fragment_root c hc := by cases hc
  leaf c hc := by cases hc
  live_iff c hc := by cases hc
  empty c hc := by cases hc
  balanced p := by
    have hNone : ({} : Dom).children p = [] := by simp [children, Forest.children]
    rw [hNone]
    exact Bracket.balanced_nil

namespace Sound

variable (hd : d.Sound)
include hd

theorem create (l : Label) : (d.create l).1.Sound where
  linked := (grown_create d l).linked hd
  part_lt c hc p := by
    rw [nodes_size_create]
    exact Nat.lt_succ_of_lt (hd.part_lt c hc p)
  part_inj := hd.part_inj
  fragment_root c hc := ((grown_create d l).parent_eq _).trans (hd.fragment_root c hc)
  leaf c hc p hp := ((grown_create d l).children_eq _).trans (hd.leaf c hc p hp)
  live_iff c hc := by
    rw [(grown_create d l).parent_eq]
    exact hd.live_iff c hc
  empty c hc hLive := ((grown_create d l).children_eq _).trans (hd.empty c hc hLive)
  balanced p := by
    rw [(grown_create d l).children_eq]
    exact hd.balanced p

theorem plain_create (l : Label) : (d.create l).1.Plain d.nodes.size where
  lt_size := by
    rw [nodes_size_create]
    exact Nat.lt_succ_self _
  ne_part c hc p hEq := Nat.ne_of_lt (hd.part_lt c hc p) hEq.symm

end Sound

/-! ## Making a container -/

/-- The document with the three nodes of a container that is made. -/
def withParts (d : Dom) : Dom :=
  (((d.create (.comment "")).1.create (.comment "")).1.create .document).1

theorem createContainer_eq (d : Dom) : d.createContainer =
    ({ d.withParts with
      containers := d.containers.push
        { start := d.nodes.size, finish := d.nodes.size + 1, fragment := d.nodes.size + 2 } },
      d.containers.size) := by
  simp [createContainer, withParts, Dom.create, Forest.create, Forest.size]

theorem grown_withParts (d : Dom) : Grown d d.withParts :=
  ((grown_create d _).trans (grown_create _ _)).trans (grown_create _ _)

theorem nodes_size_withParts (d : Dom) : d.withParts.nodes.size = d.nodes.size + 3 := by
  simp [withParts, nodes_size_create]

theorem container_createContainer (d : Dom) (c : ContainerId) : d.createContainer.1.container c =
    if c = d.containers.size then
      { start := d.nodes.size, finish := d.nodes.size + 1, fragment := d.nodes.size + 2 }
    else d.container c := by
  rw [createContainer_eq]
  simp only [container, Array.getD_eq_getD_getElem?, Array.getElem?_push]
  split <;> rfl

theorem size_createContainer (d : Dom) :
    d.createContainer.1.containers.size = d.containers.size + 1 := by
  rw [createContainer_eq]
  simp

theorem nodes_size_createContainer (d : Dom) :
    d.createContainer.1.nodes.size = d.nodes.size + 3 := by
  rw [createContainer_eq]
  exact nodes_size_withParts d

/-- The number of a part among those of its container. -/
def Part.number : Part → Nat
  | .start => 0
  | .finish => 1
  | .fragment => 2

theorem part_createContainer (d : Dom) (p : Part) :
    d.createContainer.1.part d.containers.size p = d.nodes.size + p.number := by
  cases p <;> simp [part, container_createContainer, Part.number]

theorem Part.number_lt (p : Part) : p.number < 3 := by
  cases p <;> decide

theorem Part.number_inj {p q : Part} (h : p.number = q.number) : p = q := by
  cases p <;> cases q <;> first | rfl | cases h

theorem grown_createContainer (d : Dom) : Grown d d.createContainer.1 where
  nodes_size := by
    rw [createContainer_eq]
    exact (grown_withParts d).nodes_size
  size := by
    rw [createContainer_eq]
    simp
  parent n := by
    rw [createContainer_eq]
    exact (grown_withParts d).parent n
  children n := by
    rw [createContainer_eq]
    exact (grown_withParts d).children n
  tag n hn := by
    rw [createContainer_eq]
    exact (grown_withParts d).tag n hn
  label n hn := by
    rw [createContainer_eq]
    exact (grown_withParts d).label n hn
  container c hc := by
    rw [container_createContainer, if_neg (Nat.ne_of_lt hc)]
  fresh c hOld hNew p := by
    rw [size_createContainer] at hNew
    obtain rfl := Nat.le_antisymm hOld (Nat.lt_succ_iff.mp hNew)
    rw [part_createContainer]
    exact Nat.le_add_right _ _
  bare n hn := by
    rw [createContainer_eq]
    exact (grown_withParts d).bare n hn

/-- The parts of the containers that were there, and those of the new one. -/
theorem part_createContainer_cases (d : Dom) {c : ContainerId}
    (hc : c < d.createContainer.1.containers.size) :
    (c < d.containers.size ∧ ∀ p, d.createContainer.1.part c p = d.part c p) ∨
      c = d.containers.size ∧ ∀ p, d.createContainer.1.part c p = d.nodes.size + p.number := by
  rw [size_createContainer] at hc
  rcases Nat.lt_or_eq_of_le (Nat.lt_succ_iff.mp hc) with hOld | rfl
  · exact .inl ⟨hOld, (grown_createContainer d).part hOld⟩
  · exact .inr ⟨rfl, part_createContainer d⟩

theorem owner_createContainer (d : Dom) (p : Part) {n : NodeId} (hn : n < d.nodes.size) :
    d.createContainer.1.owner? p n = d.owner? p n := by
  have hNew : (d.createContainer.1.part d.containers.size p == n) = false := by
    rw [part_createContainer]
    exact beq_false_of_ne (Nat.ne_of_gt (Nat.lt_add_right _ hn))
  rw [owner?, owner?, size_createContainer, List.range_succ, List.find?_append]
  simp only [List.find?_singleton, hNew, Bool.false_eq_true, if_false, Option.or_none]
  refine List.find?_congr fun c hc => ?_
  rw [(grown_createContainer d).part (List.mem_range.mp hc)]

namespace Sound

variable (hd : d.Sound)
include hd

theorem lt_size_of_mem_children {p n : NodeId} (hn : n ∈ d.children p) : n < d.nodes.size :=
  Forest.lt_size_of_parent (hd.mem_children.mp hn)

theorem createContainer : d.createContainer.1.Sound where
  linked := (grown_createContainer d).linked hd
  part_lt c hc p := by
    rw [nodes_size_createContainer]
    rcases part_createContainer_cases d hc with ⟨hOld, hPart⟩ | ⟨_, hPart⟩
    · rw [hPart]
      exact Nat.lt_add_right 3 (hd.part_lt c hOld p)
    · rw [hPart]
      exact Nat.add_lt_add_left p.number_lt _
  part_inj c hc c' hc' p p' hEq := by
    rcases part_createContainer_cases d hc with ⟨hOld, hPart⟩ | ⟨rfl, hPart⟩ <;>
      rcases part_createContainer_cases d hc' with ⟨hOld', hPart'⟩ | ⟨rfl, hPart'⟩ <;>
      rw [hPart, hPart'] at hEq
    · exact hd.part_inj c hOld c' hOld' p p' hEq
    · exact absurd hEq (Nat.ne_of_lt (Nat.lt_add_right _ (hd.part_lt c hOld p)))
    · exact absurd hEq (Nat.ne_of_gt (Nat.lt_add_right _ (hd.part_lt c' hOld' p')))
    · exact ⟨rfl, Part.number_inj (Nat.add_left_cancel hEq)⟩
  fragment_root c hc := by
    rw [(grown_createContainer d).parent_eq]
    rcases part_createContainer_cases d hc with ⟨hOld, hPart⟩ | ⟨_, hPart⟩
    · rw [hPart]
      exact hd.fragment_root c hOld
    · rw [hPart]
      exact Forest.parent?_of_size_le (Nat.le_add_right _ _)
  leaf c hc p hp := by
    rw [(grown_createContainer d).children_eq]
    rcases part_createContainer_cases d hc with ⟨hOld, hPart⟩ | ⟨_, hPart⟩
    · rw [hPart]
      exact hd.leaf c hOld p hp
    · rw [hPart]
      exact Forest.children_of_size_le (Nat.le_add_right _ _)
  live_iff c hc := by
    rw [(grown_createContainer d).parent_eq]
    rcases part_createContainer_cases d hc with ⟨hOld, hPart⟩ | ⟨rfl, hPart⟩
    · rw [hPart, (grown_createContainer d).container c hOld]
      exact hd.live_iff c hOld
    · rw [hPart, container_createContainer, if_pos rfl]
      refine iff_of_false (fun h => by cases h) ?_
      rintro ⟨host, hHost⟩
      rw [show d.parent? _ = _ from Forest.parent?_of_size_le (Nat.le_add_right _ _)] at hHost
      cases hHost
  empty c hc hLive := by
    rw [(grown_createContainer d).children_eq]
    rcases part_createContainer_cases d hc with ⟨hOld, hPart⟩ | ⟨_, hPart⟩
    · rw [(grown_createContainer d).container c hOld] at hLive
      rw [hPart]
      exact hd.empty c hOld hLive
    · rw [hPart]
      exact Forest.children_of_size_le (Nat.le_add_right _ _)
  balanced p := by
    rw [(grown_createContainer d).children_eq]
    refine (Bracket.balanced_congr fun n hn => ?_).mpr (hd.balanced p)
    have hSize := hd.lt_size_of_mem_children hn
    simp only [mark, owner_createContainer d _ hSize]

end Sound

/-! ## Putting nodes into each other -/

theorem insertUnder_eq (d : Dom) (parent : NodeRef) (child : NodeId)
    (reference : Option NodeId) : d.insertUnder parent child reference = (do
      let (host, reference) ← d.landing parent reference
      d.insertBefore host child reference) := by
  cases parent <;> rfl

/-- Putting a node into a node or container that is not inside it leaves the document sound. -/
theorem Sound.insertUnder (hd : d.Sound) {parent : NodeRef} {child : NodeId}
    {reference : Option NodeId} (hChild : d.Plain child) (hParent : d.Known parent)
    (hOut : ¬ d.Inside (.node child) (d.key parent))
    (h : d.insertUnder parent child reference = .ok d') :
    d'.Sound ∧ SameParts d d' ∧ ∀ n, n ≠ child → d'.parent? n = d.parent? n := by
  rw [insertUnder_eq] at h
  cases hLanding : d.landing parent reference with
  | error e =>
    rw [hLanding] at h
    cases h
  | ok x =>
    obtain ⟨host, before⟩ := x
    rw [hLanding] at h
    change d.insertBefore host child before = .ok d' at h
    have hr : d.Known (.node child) := hChild
    have hNe : parent ≠ .node child := by
      rintro rfl
      exact hOut (inside_key _)
    have hHost := hd.host_of_known hr hParent hNe hOut (landing_ok hLanding).1
      (landing_ok hLanding).2
    obtain ⟨hPlaced, hBoxes⟩ := insertBefore_ok hd.linked hHost.lt_size hChild.lt_size h
    have hHoused : Housed d d' (.node child) host before :=
      housed_of_placed hPlaced hBoxes fun c hc => by cases hc
    refine ⟨hHoused.sound hd hr hHost, hHoused.toSameParts, fun n hn => ?_⟩
    rw [hHoused.parent, if_neg (mt mem_runOf_node.mp hn)]

end Dom

end LiveMarkup
