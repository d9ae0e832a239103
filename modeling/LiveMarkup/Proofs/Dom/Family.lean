import LiveMarkup.Proofs.Dom.Kin

/-!
# Families

What the operations on the tree do to the kin of nodes and containers: one list of kin gains a
member, loses one or takes it to another place, and all others stay as they are. What is placed
and what reaches the document follows from the kin alone.

The markup of a node depends on its label and on the markup of its children, however deep the tree
is. So the markup of what stands in a parent is put together from that of its kin, with the
markers around the kin of a container.

* `Sound.gains_of_place`, `Sound.loses_of_takeOut`, `Sound.shifts_of_move`: the operations;
* `Gains.below_iff`, `Shifts.below_iff`: what is reached through kin then;
* `Kept.kin`: nothing changes for what was there while nodes and containers are made;
* `outerHtml_element`, `outerHtml_text`, `outerHtml_comment`: the markup of a node;
* `Sound.contentHtml_eq`: the markup of what stands in a parent.
-/

namespace LiveMarkup

namespace Dom

variable {d d' : Dom} {r parent p q x : NodeRef} {before : Option NodeRef}

namespace Sound

variable (hd : d.Sound)
include hd

theorem isPlaced_iff_kin (hx : d.Known x) :
    d.isPlaced x = true ↔ ∃ p, d.Known p ∧ x ∈ d.kin p := by
  constructor
  · intro hPlaced
    obtain ⟨host, hHost⟩ := (hd.isPlaced_iff hx).mp hPlaced
    have hChild : d.key x ∈ d.children host := hd.mem_children.mpr hHost
    by_cases hPart : ∃ c, c < d.containers.size ∧ ∃ a, host = d.part c a
    · obtain ⟨c, hc, a, rfl⟩ := hPart
      cases a with
      | start =>
        rw [hd.leaf c hc .start (by decide)] at hChild
        cases hChild
      | finish =>
        rw [hd.leaf c hc .finish (by decide)] at hChild
        cases hChild
      | fragment =>
        have hLive : (d.container c).live = false := by
          cases hLive : (d.container c).live with
          | false => rfl
          | true =>
            rw [hd.empty c hc hLive] at hChild
            cases hChild
        rw [← span_of_not_live hLive] at hChild
        exact hd.exists_kin (p := .container c) hc hx hChild
    · have hNode : d.Known (.node host) :=
        ⟨hd.linked.parent_lt_size hHost, fun c hc a hEq => hPart ⟨c, hc, a, hEq⟩⟩
      exact hd.exists_kin hNode hx hChild
  · rintro ⟨p, hp, hMem⟩
    exact hd.isPlaced_of_mem_kin hp hMem

/-- What reaches a node is reached from it through kin. -/
theorem up_iff_below {root : NodeId} (hRoot : d.Plain root) (hx : d.Known x) :
    d.nodes.Up (d.key x) root ↔ d.Below (.node root) x := by
  have hKnown : d.Known (.node root) := hRoot
  rw [← hd.inside_iff_below hKnown hx, inside_node]

end Sound

/-! ## One more -/

/-- A parent has one more among its kin, before a reference or last. -/
structure Gains (d d' : Dom) (r parent : NodeRef) (before : Option NodeRef) : Prop
    extends SameParts d d' where
  sound : d'.Sound
  kin : ∀ q, d.Known q → d'.kin q =
    if q = parent then Forest.splice before [r] (d.kin parent) else d.kin q

namespace Gains

variable (h : Gains d d' r parent before)
include h

theorem mem_kin (hq : d.Known q) : x ∈ d'.kin q ↔ (x = r ∧ q = parent) ∨ x ∈ d.kin q := by
  rw [h.kin q hq]
  split
  · rename_i hEq
    simp [Forest.mem_splice, hEq]
  · rename_i hNe
    simp [hNe]

variable (hd : d.Sound) (hr : d.Known r) (hParent : d.Known parent)
include hd

theorem below_mono (hp : d.Known p) (hx : d.Below p x) : d'.Below p x := by
  induction hx with
  | self => exact .self
  | kin hq hx ih => exact .kin ih ((h.mem_kin (hd.known_of_below hp hq)).mpr (.inr hx))

include hr hParent

/-- What is reached from the parent, or from what is around it, is now all that is in what came
as well. -/
theorem below_iff (hp : d.Known p) (hOff : d.isPlaced r = false) (hOut : ¬ d.Below r parent) :
    d'.Below p x ↔ d.Below p x ∨ (d.Below p parent ∧ d.Below r x) := by
  constructor
  · intro hx
    induction hx with
    | self => exact .inl .self
    | @kin q x _ hx ih =>
      rcases ih with hq | ⟨hpp, hq⟩
      · rcases (h.mem_kin (hd.known_of_below hp hq)).mp hx with ⟨rfl, rfl⟩ | hMem
        · exact .inr ⟨hq, .self⟩
        · exact .inl (.kin hq hMem)
      · rcases (h.mem_kin (hd.known_of_below hr hq)).mp hx with ⟨rfl, rfl⟩ | hMem
        · exact absurd hq hOut
        · exact .inr ⟨hpp, .kin hq hMem⟩
  · rintro (hx | ⟨hpp, hx⟩)
    · exact h.below_mono hd hp hx
    · refine (h.below_mono hd hp hpp).trans ?_
      exact (Below.kin .self ((h.mem_kin hParent).mpr (.inl ⟨rfl, rfl⟩))).trans
        (h.below_mono hd hr hx)

omit hr hParent in
theorem isPlaced_of_ne (hx : d.Known x) (hNe : x ≠ r) : d'.isPlaced x = d.isPlaced x := by
  rw [Bool.eq_iff_iff, hd.isPlaced_iff_kin hx, h.sound.isPlaced_iff_kin (h.known_iff.mpr hx)]
  refine exists_congr fun q => ?_
  rw [h.known_iff]
  refine and_congr_right fun hq => ?_
  rw [h.mem_kin hq]
  exact or_iff_right fun he => hNe he.1

end Gains

/-! ## One less -/

/-- What was taken out is kin of nothing any more. -/
structure Loses (d d' : Dom) (r : NodeRef) : Prop extends SameParts d d' where
  sound : d'.Sound
  kin : ∀ q, d.Known q → d'.kin q = (d.kin q).filter (· ≠ r)

namespace Loses

variable (h : Loses d d' r)
include h

theorem mem_kin (hq : d.Known q) : x ∈ d'.kin q ↔ x ∈ d.kin q ∧ x ≠ r := by
  rw [h.kin q hq, List.mem_filter, decide_eq_true_eq]

theorem isPlaced_self (hr : d.Known r) : d'.isPlaced r = false := by
  rw [Bool.eq_false_iff, ne_eq, h.sound.isPlaced_iff_kin (h.known_iff.mpr hr)]
  rintro ⟨q, hq, hMem⟩
  exact ((h.mem_kin (h.known_iff.mp hq)).mp hMem).2 rfl

theorem below_mono (hd : d.Sound) (hp : d.Known p) (hx : d'.Below p x) : d.Below p x := by
  induction hx with
  | self => exact .self
  | kin _ hx ih => exact .kin ih ((h.mem_kin (hd.known_of_below hp ih)).mp hx).1

end Loses

/-! ## Another place -/

/-- One of the kin of a parent takes another place among them. -/
structure Shifts (d d' : Dom) (r parent : NodeRef) (before : Option NodeRef) : Prop
    extends SameParts d d' where
  sound : d'.Sound
  kin : ∀ q, d.Known q → d'.kin q =
    if q = parent then Forest.splice before [r] ((d.kin parent).filter (· ≠ r)) else d.kin q

namespace Shifts

variable (h : Shifts d d' r parent before) (hIn : r ∈ d.kin parent)
include h hIn

theorem mem_kin (hq : d.Known q) : x ∈ d'.kin q ↔ x ∈ d.kin q := by
  rw [h.kin q hq]
  split
  · rename_i hEq
    subst hEq
    by_cases hx : x = r
    · simp [Forest.mem_splice, hx, hIn]
    · simp [Forest.mem_splice, hx]
  · rfl

variable (hd : d.Sound)
include hd

theorem below_iff (hp : d.Known p) : d'.Below p x ↔ d.Below p x := by
  constructor
  · intro hx
    induction hx with
    | self => exact .self
    | kin _ hx ih => exact .kin ih ((h.mem_kin hIn (hd.known_of_below hp ih)).mp hx)
  · intro hx
    induction hx with
    | self => exact .self
    | kin hq hx ih => exact .kin ih ((h.mem_kin hIn (hd.known_of_below hp hq)).mpr hx)

end Shifts

/-! ## The operations -/

namespace Sound

variable (hd : d.Sound) (hr : d.Known r) (hParent : d.Known parent)
include hd hr hParent

/-- Placing something that is placed nowhere succeeds, and its parent gains it. -/
theorem gains_of_place (hOff : d.isPlaced r = false) (hOut : ¬ d.Below r parent)
    (hBefore : ∀ b, before = some b → b ∈ d.kin parent) :
    ∃ d', d.place r parent before = .ok d' ∧ Gains d d' r parent before := by
  have hInside : ¬ d.Inside r (d.key parent) := mt (hd.below_of_inside hr hParent) hOut
  have hNotKin : ∀ q, d.Known q → r ∉ d.kin q := fun q hq hMem => by
    rw [hd.isPlaced_of_mem_kin hq hMem] at hOff
    cases hOff
  have hApart : ∀ b, before = some b → d.key b ∉ d.runOf r := fun b hb hMem => by
    have hbKnown := hd.known_of_mem_kin hParent (hBefore b hb)
    have hNe : b ≠ r := fun hEq => hNotKin parent hParent (hEq ▸ hBefore b hb)
    exact Reseated.key_not_mem_run hd hr hParent
      (fun hKey => hInside ⟨_, hKey, Forest.up_refl _⟩) (hBefore b hb) hNe hMem
  have hStands : d.Stands parent before := by
    rintro b rfl
    have hb := hBefore b rfl
    exact ⟨d.key b, first?_of_placed (hd.isPlaced_of_mem_kin hParent hb),
      hd.run_subset_childrenOf hParent hb (key_mem_run b)⟩
  obtain ⟨d', hPlace⟩ := (hd.exists_place_iff hr hParent hInside hApart hOff).mpr hStands
  have hNe : parent ≠ r := by
    rintro rfl
    exact hOut .self
  obtain ⟨host, reference, hPoint, hHost, hHoused⟩ :=
    hd.housed_of_place hr hParent hNe hInside hOff hPlace
  have hSits := hd.sits_of_place hr hParent hInside hApart hOff hPlace
  have hd' := hHoused.sound hd hr hHost
  refine ⟨d', hPlace, ⟨hHoused.toSameParts, hd', fun q hq => ?_⟩⟩
  have hKeep : ∀ q, d.Known q → (d.kin q).filter (· ≠ r) = d.kin q := fun q hq =>
    List.filter_eq_self.mpr fun x hx => by
      have hxr : x ≠ r := fun hEq => hNotKin q hq (hEq ▸ hx)
      simpa using hxr
  rw [hSits.kin (hHoused.reseated hSits) hd hd' hr hParent
    (fun hKey => hInside ⟨_, hKey, Forest.up_refl _⟩)
    (fun b hb => ⟨hBefore b hb, fun hEq => hNotKin parent hParent (hEq ▸ hBefore b hb)⟩) hq,
    hKeep q hq, hKeep parent hParent]

/-- Moving one of the kin of a parent before another one or to the end succeeds. -/
theorem shifts_of_move (hIn : r ∈ d.kin parent)
    (hBefore : ∀ b, before = some b → b ∈ d.kin parent ∧ b ≠ r) :
    ∃ d', d.move r parent before = .ok d' ∧ Shifts d d' r parent before := by
  have hOn := hd.isPlaced_of_mem_kin hParent hIn
  have hInside : ¬ d.Inside r (d.key parent) := fun hInside =>
    hd.not_below_kin hParent hIn (hd.below_of_inside hr hParent hInside)
  have hOut : d.key parent ∉ d.runOf r := fun hKey => hInside ⟨_, hKey, Forest.up_refl _⟩
  have hApart : ∀ b, before = some b → d.key b ∉ d.runOf r := fun b hb =>
    Reseated.key_not_mem_run hd hr hParent hOut (hBefore b hb).1 (hBefore b hb).2
  have hStands : d.Stands parent before := by
    rintro b rfl
    have hb := (hBefore b rfl).1
    exact ⟨d.key b, first?_of_placed (hd.isPlaced_of_mem_kin hParent hb),
      hd.run_subset_childrenOf hParent hb (key_mem_run b)⟩
  obtain ⟨host, u, v, hFramed⟩ := hd.exists_framed hParent
  have hPoint := hFramed.point_eq hStands
  have hHost := hd.host_of_away hr hParent hInside hPoint
  obtain ⟨d', hMove, hHoused⟩ := hd.exists_move_of_point hr hHost hPoint
    (fun x hx => hd.reference_apart hr hParent hInside hFramed hStands hApart hx) hOn
  have hSits := hd.sits_of_move hr hParent hInside hApart hOn hMove
  have hd' := hHoused.sound hd hr hHost
  refine ⟨d', hMove, ⟨hHoused.toSameParts, hd', fun q hq => ?_⟩⟩
  rw [hSits.kin (hHoused.reseated hSits) hd hd' hr hParent hOut hBefore hq]
  split
  · rfl
  · rename_i hNe
    refine List.filter_eq_self.mpr fun x hx => ?_
    have hxr : x ≠ r := by
      rintro rfl
      exact hNe (hd.kin_inj hq hParent hx hIn)
    simpa using hxr

end Sound

/-- What is taken out is lost to its parent. -/
theorem Sound.loses_of_takeOut (hd : d.Sound) (hr : d.Known r) (hOn : d.isPlaced r = true) :
    Loses d (d.takeOut r) r := by
  obtain ⟨hUnhoused, hLinked⟩ := hd.unhoused_takeOut hr hOn
  have hd' := hUnhoused.sound hd hr hLinked
  have hLeaves := hUnhoused.leaves hd hr hLinked (.inl hOn)
  exact ⟨hUnhoused.toSameParts, hd', fun q hq =>
    hLeaves.kin (hUnhoused.reseated hLeaves) hd hd' hr hq⟩

/-! ## Growing -/

/-- What was there has the kin that it had. -/
theorem Kept.kin (h : Kept d d') (hd : d.Sound) (hd' : d'.Sound) (hq : d.Known q) :
    d'.kin q = d.kin q := by
  obtain ⟨hKnown, hRow⟩ := hd.row_kin hq
  refine hd'.kin_eq (fun x hx => h.known (hKnown x hx)) ?_
  have hRuns : (d.kin q).flatMap d'.runOf = (d.kin q).flatMap d.runOf :=
    List.flatMap_congr fun x hx => h.runOf hd (hKnown x hx)
  rw [hRuns, ← hRow]
  cases q with
  | node n => exact h.children n hq.lt_size
  | container c => exact h.span hd hq

theorem kin_of_no_children (h : d.childrenOf q = []) : d.kin q = [] := by
  rw [Dom.kin, h]
  rfl

/-! ### Labels of new nodes -/

theorem label_create (d : Dom) (label : Label) : (d.create label).1.label d.nodes.size = label := by
  simp [Dom.label, Dom.create, Forest.create, Forest.label?, Forest.size]

theorem label_of_grown (h : Grown d d') {n : NodeId} (hn : n < d.nodes.size) :
    d'.label n = d.label n := by
  rw [label, label, h.label n hn]

theorem label_withParts (d : Dom) (p : Part) (hp : p ≠ .fragment) :
    d.withParts.label (d.nodes.size + p.number) = .comment "" := by
  let d₁ := (d.create (.comment "")).1
  let d₂ := (d₁.create (.comment "")).1
  have hSize₁ : d₁.nodes.size = d.nodes.size + 1 := nodes_size_create d _
  have hSize₂ : d₂.nodes.size = d.nodes.size + 2 := by rw [nodes_size_create d₁, hSize₁]
  have hStart : d₁.label d.nodes.size = .comment "" := label_create d _
  have hFinish : d₂.label (d.nodes.size + 1) = .comment "" := by rw [← hSize₁, label_create d₁]
  have hLast : ∀ {n}, n < d₂.nodes.size → d.withParts.label n = d₂.label n := fun hn =>
    label_of_grown (grown_create d₂ _) hn
  cases p with
  | fragment => exact absurd rfl hp
  | start =>
    rw [Part.number, Nat.add_zero,
      hLast (by rw [hSize₂]; exact Nat.lt_add_of_pos_right (by decide)),
      label_of_grown (grown_create d₁ _) (by rw [hSize₁]; exact Nat.lt_succ_self _), hStart]
  | finish => rw [Part.number, hLast (by rw [hSize₂]; exact Nat.lt_succ_self _), hFinish]

/-- The markers of containers are empty comments. -/
def Marked (d : Dom) : Prop :=
  ∀ c < d.containers.size, ∀ p : Part, p ≠ .fragment → d.label (d.part c p) = .comment ""

theorem Marked.same {d d' : Dom} (h : d.Marked) (hSame : SameParts d d') : d'.Marked :=
  fun c hc p hp => by
    rw [label, hSame.label, hSame.part]
    exact h c (hSame.size ▸ hc) p hp

/-- What is known in a tree that grew was there or is new and has no kin. -/
structure Sprouts (d d' : Dom) : Prop extends Grown d d' where
  sound : d'.Sound
  new : ∀ q, d'.Known q → d.Known q ∨ d.nodes.size ≤ d'.key q ∧ d'.kin q = []
  marked : d.Marked → d'.Marked

namespace Sprouts

variable (h : d.Sprouts d') (hd : d.Sound)
include h hd

theorem kin_old (hq : d.Known q) : d'.kin q = d.kin q :=
  h.toGrown.toKept.kin hd h.sound hq

theorem below_iff (hp : d.Known p) : d'.Below p x ↔ d.Below p x := by
  constructor
  · intro hBelow
    induction hBelow with
    | self => exact .self
    | kin hq hx ih =>
      rw [h.kin_old hd (hd.known_of_below hp ih)] at hx
      exact .kin ih hx
  · intro hBelow
    induction hBelow with
    | self => exact .self
    | kin hq hx ih =>
      refine .kin ih ?_
      rwa [h.kin_old hd (hd.known_of_below hp hq)]

end Sprouts

theorem Sound.sprouts_create (hd : d.Sound) (label : Label) :
    d.Sprouts (d.create label).1 where
  toGrown := grown_create d label
  sound := hd.create label
  new q hq := by
    have hGrown := grown_create d label
    cases q with
    | container c => exact .inl hq
    | node n =>
      by_cases hn : n < d.nodes.size
      · exact .inl ⟨hn, hq.ne_part⟩
      · refine .inr ⟨Nat.le_of_not_lt hn, kin_of_no_children ?_⟩
        exact (hGrown.bare n (Nat.le_of_not_lt hn)).2
  marked h c hc p hp := by
    have hGrown := grown_create d label
    rw [hGrown.part hc, label_of_grown hGrown (hd.part_lt c hc p)]
    exact h c hc p hp

theorem span_createContainer (d : Dom) : d.createContainer.1.span d.containers.size = [] := by
  rw [span_of_not_live (by rw [container_createContainer, if_pos rfl])]
  exact ((grown_createContainer d).bare _ (Nat.le_trans (Nat.le_add_right _ _)
    (Nat.le_of_eq (part_createContainer d .fragment).symm))).2

theorem Sound.sprouts_createContainer (hd : d.Sound) :
    d.Sprouts d.createContainer.1 where
  toGrown := grown_createContainer d
  sound := hd.createContainer
  new q hq := by
    have hGrown := grown_createContainer d
    cases q with
    | container c =>
      rcases part_createContainer_cases d hq with ⟨hc, -⟩ | ⟨rfl, hPart⟩
      · exact .inl hc
      · exact .inr ⟨Nat.le_trans (Nat.le_add_right _ _) (Nat.le_of_eq (hPart .start).symm),
          kin_of_no_children (span_createContainer d)⟩
    | node n =>
      by_cases hn : n < d.nodes.size
      · refine .inl ⟨hn, fun c hc a => ?_⟩
        have hNe := hq.ne_part c (Nat.lt_of_lt_of_le hc hGrown.size) a
        rwa [hGrown.part hc] at hNe
      · exfalso
        have hLt := hq.lt_size
        rw [nodes_size_createContainer] at hLt
        have hLast : d.containers.size < d.createContainer.1.containers.size := by
          rw [size_createContainer]
          exact Nat.lt_succ_self _
        have hNe := fun a => hq.ne_part _ hLast a
        simp only [part_createContainer] at hNe
        have h0 := hNe .start
        have h1 := hNe .finish
        have h2 := hNe .fragment
        simp only [Part.number] at h0 h1 h2
        have hn' : d.nodes.size ≤ n := Nat.le_of_not_lt hn
        have hCases : n = d.nodes.size + 0 ∨ n = d.nodes.size + 1 ∨ n = d.nodes.size + 2 := by
          have hLt' : (n : Nat) < d.nodes.size + 3 := hLt
          have hLe' : d.nodes.size ≤ (n : Nat) := hn'
          have hGap : ∀ k m : Nat, m ≤ k → k < m + 3 → k = m + 0 ∨ k = m + 1 ∨ k = m + 2 := by omega
          exact hGap n _ hLe' hLt'
        rcases hCases with hEq | hEq | hEq
        · exact h0 hEq
        · exact h1 hEq
        · exact h2 hEq
  marked h c hc p hp := by
    have hGrown := grown_createContainer d
    rcases part_createContainer_cases d hc with ⟨hOld, hPart⟩ | ⟨rfl, hPart⟩
    · rw [hGrown.part hOld, label_of_grown hGrown (hd.part_lt c hOld p)]
      exact h c hOld p hp
    · rw [hPart p]
      exact label_withParts d p hp

/-! ### Attributes of new nodes -/

/-- Setting an attribute of a new element is as good as making it so. -/
theorem setAttribute_create (d : Dom) (tag name value : String)
    (attributes : List (String × String)) :
    (d.create (.element tag attributes)).1.setAttribute d.nodes.size name value =
      (d.create (.element tag (Attributes.set name value attributes))).1 := by
  rw [setAttribute, withAttributes, Dom.attributes, label_create]
  simp only [Dom.create, Forest.create, Forest.setLabel, Forest.size, Label.withAttributes,
    Label.attributes, Dom.mk.injEq, Forest.mk.injEq, and_true]
  apply Array.ext_getElem?
  intro i
  rw [Array.getElem?_modify, Array.getElem?_push, Array.getElem?_push]
  by_cases hi : i = d.nodes.cells.size
  · subst hi
    simp
  · rw [if_neg (Ne.symm hi), if_neg hi, if_neg hi]

end Dom

end LiveMarkup

/-! ## The markup of families -/

namespace LiveMarkup

namespace Forest

variable {α : Type} {f : Forest α}

theorem climb_of_short {k : Nat} {n : NodeId} (h : (f.climb k n).length < k) :
    f.climb (k + 1) n = f.climb k n := by
  induction k generalizing n with
  | zero => cases h
  | succ k ih =>
    cases hParent : f.parent? n with
    | none => simp [climb, hParent]
    | some p =>
      have hClimb : ∀ j, f.climb (j + 1) n = p :: f.climb j p := fun j => by simp [climb, hParent]
      rw [hClimb, List.length_cons] at h
      rw [hClimb, hClimb, ih (by omega)]

theorem Linked.ancestors_of_parent (hf : f.Linked) {n p : NodeId} (h : f.parent? n = some p) :
    f.ancestors n = p :: f.ancestors p := by
  have hn := lt_size_of_parent h
  obtain ⟨k, hk⟩ := Nat.exists_eq_add_one.mpr (Nat.zero_lt_of_lt hn)
  have hClimb : ∀ j, f.climb (j + 1) n = p :: f.climb j p := fun j => by rw [climb, h]
  have hShort := length_le_size (f := f) (hf.climb_nodup (k + 1) n) (by
    intro x hx
    rcases List.mem_cons.mp hx with rfl | hx
    · exact hn
    · exact hf.climb_lt_size hx)
  rw [hClimb, List.length_cons, List.length_cons, hk] at hShort
  rw [ancestors, ancestors, hk, hClimb, climb_of_short (by omega)]

theorem Linked.length_ancestors_lt (hf : f.Linked) {n : NodeId} (hn : n < f.size) :
    (f.ancestors n).length < f.size := by
  have hLength := length_le_size (f := f) (hf.climb_nodup f.size n) (by
    intro x hx
    rcases List.mem_cons.mp hx with rfl | hx
    · exact hn
    · exact hf.climb_lt_size hx)
  rw [List.length_cons] at hLength
  exact hLength

end Forest

namespace Dom

variable {d : Dom}

/-! ### Nodes -/

/-- A depth that goes down to the leaves is as good as any greater one. -/
theorem htmlTo_succ (hLinked : d.nodes.Linked) (k : Nat) : ∀ n,
    d.nodes.size ≤ (d.nodes.ancestors n).length + k → d.htmlTo (k + 1) n = d.htmlTo (k + 2) n := by
  induction k with
  | zero =>
    intro n hn
    have hNone : d.children n = [] := by
      by_cases hLt : n < d.nodes.size
      · have := hLinked.length_ancestors_lt hLt
        omega
      · exact Forest.children_of_size_le (Nat.le_of_not_lt hLt)
    simp [htmlTo, hNone]
  | succ k ih =>
    intro n hn
    have hChildren : (d.children n).map (d.htmlTo (k + 1)) =
      (d.children n).map (d.htmlTo (k + 2)) := by
      refine List.map_congr_left fun m hm => ih m ?_
      rw [hLinked.ancestors_of_parent ((hLinked.mem_children n m).mp hm), List.length_cons]
      omega
    rw [htmlTo, htmlTo.eq_def d (k + 1 + 2)]
    simp only [hChildren]

theorem htmlTo_child (hLinked : d.nodes.Linked) {n m : NodeId} (h : m ∈ d.children n) :
    d.htmlTo d.nodes.size m = d.outerHtml m := by
  have hParent := (hLinked.mem_children n m).mp h
  have hLt := Forest.lt_size_of_parent hParent
  obtain ⟨k, hk⟩ := Nat.exists_eq_add_one.mpr (Nat.zero_lt_of_lt hLt)
  rw [outerHtml, hk]
  refine htmlTo_succ hLinked k m ?_
  rw [hLinked.ancestors_of_parent hParent, List.length_cons]
  omega

theorem innerHtml_eq (hLinked : d.nodes.Linked) (n : NodeId) :
    String.join ((d.children n).map (d.htmlTo d.nodes.size)) = d.innerHtml n := by
  rw [innerHtml]
  congr 1
  exact List.map_congr_left fun m hm => htmlTo_child hLinked hm

def elementHtml (tag : String) (attributes : List (String × String)) (content : String) : String :=
  if voidTags.contains tag then startTag tag attributes
  else startTag tag attributes ++ content ++ "</" ++ tag ++ ">"

def textHtml (content : String) : String :=
  String.ofList (content.toList.flatMap escapeText)

theorem outerHtml_element (hLinked : d.nodes.Linked) {n : NodeId} {tag : String}
    {attributes : List (String × String)} (h : d.label n = .element tag attributes) :
    d.outerHtml n = elementHtml tag attributes (d.innerHtml n) := by
  rw [outerHtml, htmlTo, h, elementHtml, ← innerHtml_eq hLinked]

theorem outerHtml_text {n : NodeId} {content : String} (h : d.label n = .text content) :
    d.outerHtml n = textHtml content := by
  rw [outerHtml, htmlTo, h, textHtml]

theorem outerHtml_comment {n : NodeId} {content : String} (h : d.label n = .comment content) :
    d.outerHtml n = "<!--" ++ content ++ "-->" := by
  rw [outerHtml, htmlTo, h]

/-! ### Runs -/

/-- The markup of a node or container where it stands. -/
def runHtml (d : Dom) (r : NodeRef) : String :=
  String.join ((d.runOf r).map d.outerHtml)

theorem runHtml_node (d : Dom) (n : NodeId) : d.runHtml (.node n) = d.outerHtml n := by
  simp [runHtml, runOf]

theorem runHtml_container (d : Dom) {c : ContainerId}
    (hStart : d.label (d.part c .start) = .comment "")
    (hFinish : d.label (d.part c .finish) = .comment "") :
    d.runHtml (.container c) = "<!---->" ++ d.spanHtml c ++ "<!---->" := by
  simp only [runHtml, runOf_container, List.map_cons, List.map_append, List.map_nil,
    outerHtml_comment hStart, outerHtml_comment hFinish, String.join_cons, String.join_append]
  simp [spanHtml, String.append_assoc]

/-- The markup of what stands in a parent is that of its kin. -/
theorem Sound.contentHtml_eq (hd : d.Sound) {p : NodeRef} (hp : d.Known p) :
    d.contentHtml p = String.join ((d.kin p).map d.runHtml) := by
  have hContent : d.contentHtml p = String.join ((d.childrenOf p).map d.outerHtml) := by
    cases p <;> rfl
  rw [hContent, (hd.row_kin hp).2]
  induction d.kin p with
  | nil => rfl
  | cons x xs ih =>
    rw [List.flatMap_cons, List.map_append, List.map_cons, String.join_append, String.join_cons, ih,
      runHtml]

end Dom

end LiveMarkup
