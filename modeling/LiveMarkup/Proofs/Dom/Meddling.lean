import LiveMarkup.Proofs.Dom.Making
import LiveMarkup.Proofs.Dom.Taking

/-!
# Changes from outside

Nodes can be put into each other, and taken out, without the operations of the document. What is
reached from a node changes only if a node on the way gets another parent.

* `Dom.Meddled`: changes from outside, one after the other;
* `Meddled.sound`, `Meddled.plain_of_moved`: what they leave as it is;
* `Forest.exists_moved`: a node on the way that got another parent.
-/

namespace LiveMarkup

namespace Forest

variable {α : Type} {f f' : Forest α}

/-- If other roots are reached from a node, a node on the way got another parent. The way up to the
first such node is as before. -/
theorem exists_moved (hf' : f'.Linked) {n root : NodeId} (h : ¬ (f'.Up n root ↔ f.Up n root)) :
    ∃ m, f'.Up n m ∧ f.Up n m ∧ f'.parent? m ≠ f.parent? m := by
  have hUp : f'.Up n (f'.root n) := Linked.up_root n
  have hTop := hf'.parent_root n
  generalize f'.root n = top at hUp hTop
  induction hUp using Relation.ReflTransGen.head_induction_on with
  | refl =>
    refine ⟨top, up_refl _, up_refl _, fun hSame => h ?_⟩
    rw [hTop] at hSame
    exact ⟨fun hUp => hUp.eq_of_parent_none hTop ▸ up_refl _,
      fun hUp => hUp.eq_of_parent_none hSame.symm ▸ up_refl _⟩
  | @head n p hParent _ ih =>
    by_cases hSame : f'.parent? n = f.parent? n
    · have hParent' : f.parent? n = some p := hSame ▸ hParent
      have hFirst : ∀ {g : Forest α}, g.parent? n = some p →
          (g.Up n root ↔ n = root ∨ g.Up p root) := by
        intro g hg
        refine ⟨fun hUp => hUp.cases_first.imp_right ?_, ?_⟩
        · rintro ⟨q, hq, hUp⟩
          rw [hg] at hq
          exact Option.some.inj hq ▸ hUp
        · rintro (rfl | hUp)
          · exact up_refl _
          · exact (up_parent hg).trans hUp
      have hRest : ¬ (f'.Up p root ↔ f.Up p root) := fun hIff =>
        h (by rw [hFirst hParent, hFirst hParent', hIff])
      obtain ⟨m, hUp', hUp, hMoved⟩ := ih hRest
      exact ⟨m, (up_parent hParent).trans hUp', (up_parent hParent').trans hUp, hMoved⟩
    · exact ⟨n, up_refl _, up_refl _, hSame⟩

end Forest

namespace Dom

variable {d d' : Dom} {root : NodeId}

/-- Nodes that belong to no container are put into each other and taken out, one after the other. The
root is not moved, and nothing is put into what is inside it. -/
inductive Meddled (root : NodeId) (d : Dom) : Dom → Prop where
  | nothing : Meddled root d d
  | put {d₁ d₂ : Dom} (h : Meddled root d d₁) {parent : NodeRef} {child : NodeId}
      {reference : Option NodeId} (hChild : d₁.Plain child) (hNe : child ≠ root)
      (hParent : d₁.Known parent) (hOut : ¬ d₁.Inside (.node child) (d₁.key parent))
      (hPut : d₁.insertUnder parent child reference = .ok d₂) : Meddled root d d₂
  | take {d₁ : Dom} (h : Meddled root d d₁) {child : NodeId} (hChild : d₁.Plain child) :
      Meddled root d (d₁.remove child)

theorem SameParts.trans {d₁ : Dom} (h₁ : SameParts d d₁) (h₂ : SameParts d₁ d') : SameParts d d' where
  nodes_size := h₂.nodes_size.trans h₁.nodes_size
  size := h₂.size.trans h₁.size
  part c p := (h₂.part c p).trans (h₁.part c p)
  label n := (h₂.label n).trans (h₁.label n)

theorem Sound.remove (hd : d.Sound) {child : NodeId} (hChild : d.Plain child) :
    (d.remove child).Sound ∧ SameParts d (d.remove child) ∧
      ∀ m, (d.remove child).parent? m = if m = child then none else d.parent? m := by
  by_cases hPlaced : d.isPlaced (.node child) = true
  · obtain ⟨hUnhoused, hLinked⟩ := hd.unhoused_takeOut (r := .node child) hChild hPlaced
    refine ⟨hUnhoused.sound hd hChild hLinked, hUnhoused.toSameParts, fun m => ?_⟩
    rw [← if_congr (mem_runOf_node (d := d) (n := child)) rfl rfl]
    exact hUnhoused.parent m
  · have hParent : d.parent? child = none := Option.not_isSome_iff_eq_none.mp hPlaced
    have hSame : d.remove child = d := by
      unfold Dom.remove Forest.remove
      rw [show d.nodes.parent? child = none from hParent]
    refine ⟨hSame.symm ▸ hd, hSame.symm ▸ SameParts.refl d, fun m => ?_⟩
    rw [hSame]
    split
    · rename_i hm
      exact hm ▸ hParent
    · rfl

namespace Meddled

theorem sound (h : Meddled root d d') (hd : d.Sound) : d'.Sound ∧ SameParts d d' := by
  induction h with
  | nothing => exact ⟨hd, SameParts.refl d⟩
  | put _ hChild _ hParent hOut hPut ih =>
    obtain ⟨hd₁, hParts₁⟩ := ih
    obtain ⟨hd₂, hParts₂, -⟩ := hd₁.insertUnder hChild hParent hOut hPut
    exact ⟨hd₂, hParts₁.trans hParts₂⟩
  | take _ hChild ih =>
    obtain ⟨hd₁, hParts₁⟩ := ih
    obtain ⟨hd₂, hParts₂, -⟩ := hd₁.remove hChild
    exact ⟨hd₂, hParts₁.trans hParts₂⟩

theorem parent_root (h : Meddled root d d') (hd : d.Sound) (hTop : d.parent? root = none) :
    d'.parent? root = none := by
  induction h with
  | nothing => exact hTop
  | put h hChild hNe hParent hOut hPut ih =>
    obtain ⟨-, -, hParents⟩ := (h.sound hd).1.insertUnder hChild hParent hOut hPut
    exact (hParents root hNe.symm).trans ih
  | take h hChild ih =>
    obtain ⟨-, -, hParents⟩ := (h.sound hd).1.remove hChild
    rw [hParents]
    split
    · rfl
    · exact ih

/-- What got another parent belongs to no container. -/
theorem plain_of_moved (h : Meddled root d d') (hd : d.Sound) {m : NodeId}
    (hMoved : d'.parent? m ≠ d.parent? m) : d.Plain m := by
  induction h with
  | nothing => exact absurd rfl hMoved
  | @put d₁ _ h _ child _ hChild _ hParent hOut hPut ih =>
    obtain ⟨hd₁, hParts₁⟩ := h.sound hd
    obtain ⟨-, -, hParents⟩ := hd₁.insertUnder hChild hParent hOut hPut
    by_cases hm : m = child
    · exact hm ▸ hParts₁.plain_iff.mp hChild
    · rw [hParents m hm] at hMoved
      exact ih hMoved
  | @take d₁ h child hChild ih =>
    obtain ⟨hd₁, hParts₁⟩ := h.sound hd
    obtain ⟨-, -, hParents⟩ := hd₁.remove hChild
    by_cases hm : m = child
    · exact hm ▸ hParts₁.plain_iff.mp hChild
    · rw [hParents, if_neg hm] at hMoved
      exact ih hMoved

end Meddled

end Dom

end LiveMarkup
