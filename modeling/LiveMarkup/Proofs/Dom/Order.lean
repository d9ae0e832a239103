import LiveMarkup.Proofs.Dom.Taking

/-!
# Document order

A node comes before what is below it, and before its later siblings and what is below them. The
walks over a subtree list it in this order; a container comes before all that is in it.

* `Forest.Before`: document order of the nodes of a forest;
* `Linked.self_descendants_ordered`: the descendants of a node are listed in this order;
* `Sound.subtree_ordered`, `Sound.subtree_encloses`: so is the subtree of a node or container.
-/

namespace LiveMarkup

namespace Forest

variable {α : Type} {f : Forest α} {a b m p s t : NodeId}

/-- A node comes before another one that is below it, or below a later sibling of a node that it is
below itself. -/
def Before (f : Forest α) (a b : NodeId) : Prop :=
  (a ≠ b ∧ f.Up b a) ∨ ∃ p s t, [s, t].Sublist (f.children p) ∧ f.Up a s ∧ f.Up b t

theorem not_swapped {row : List NodeId} (hNodup : row.Nodup) (h : [s, t].Sublist row) :
    ¬ [t, s].Sublist row := by
  induction row with
  | nil => cases h
  | cons n row ih =>
    obtain ⟨hn, hRow⟩ := List.nodup_cons.mp hNodup
    intro hSwap
    rcases List.sublist_cons_iff.mp h with hIn | ⟨_, hEq, hLast⟩
    · have hs := hIn.subset List.mem_cons_self
      rcases List.sublist_cons_iff.mp hSwap with hIn' | ⟨_, hEq', -⟩
      · exact ih hRow hIn hIn'
      · exact hn ((List.cons_eq_cons.mp hEq').1 ▸ hIn.subset (by simp))
    · obtain ⟨rfl, rfl⟩ := List.cons_eq_cons.mp hEq
      have ht : t ∈ row := hLast.subset (List.mem_singleton_self t)
      rcases List.sublist_cons_iff.mp hSwap with hIn' | ⟨_, hEq', -⟩
      · exact hn (hIn'.subset (by simp))
      · exact hn ((List.cons_eq_cons.mp hEq').1 ▸ ht)

theorem pair_sublist {row : List NodeId} (hs : s ∈ row) (ht : t ∈ row) (hNe : s ≠ t) :
    [s, t].Sublist row ∨ [t, s].Sublist row := by
  obtain ⟨u, v, rfl⟩ := List.append_of_mem hs
  rcases List.mem_append.mp ht with hBefore | hBehind
  · exact .inr ((List.singleton_sublist.mpr hBefore).append
      (List.singleton_sublist.mpr List.mem_cons_self))
  · have ht : t ∈ v := (List.mem_cons.mp hBehind).resolve_left hNe.symm
    exact .inl (((List.singleton_sublist.mpr ht).cons_cons s).trans (List.sublist_append_right u _))

namespace Linked

variable (hf : f.Linked)
include hf

theorem siblings_ne (h : [s, t].Sublist (f.children p)) : s ≠ t := fun he =>
  (List.nodup_cons.mp ((hf.nodup p).sublist h)).1 (he ▸ List.mem_singleton_self t)

/-- Nothing is below two children of a node. -/
theorem eq_of_up_siblings (hs : s ∈ f.children p) (ht : t ∈ f.children p) (hms : f.Up m s)
    (hmt : f.Up m t) : s = t := by
  have hLow : ∀ {s t : NodeId}, s ∈ f.children p → t ∈ f.children p → f.Up s t → s = t := by
    intro s t hs ht hUp
    rcases hUp.cases_first with rfl | ⟨q, hq, hUp⟩
    · rfl
    · obtain rfl : p = q := Option.some.inj (((hf.mem_children p s).mp hs).symm.trans hq)
      exact absurd hUp (hf.acyclic t p ((hf.mem_children p t).mp ht))
  rcases hms.total hmt with hUp | hUp
  · exact hLow hs ht hUp
  · exact (hLow ht hs hUp).symm

theorem not_up_of_siblings (h : [s, t].Sublist (f.children p)) (hms : f.Up m s) : ¬ f.Up m t :=
  fun hmt => hf.siblings_ne h (hf.eq_of_up_siblings (h.subset (by simp)) (h.subset (by simp)) hms hmt)

/-- What is below one of two siblings is not above what is below the other one. -/
theorem not_above_siblings (h : [s, t].Sublist (f.children p)) (ha : f.Up a s) (hb : f.Up b t) :
    ¬ f.Up b a ∧ ¬ f.Up a b :=
  ⟨fun hUp => hf.not_up_of_siblings h (hUp.trans ha) hb,
    fun hUp => hf.not_up_of_siblings h ha (hUp.trans hb)⟩

theorem before_asymm (h : f.Before a b) : ¬ f.Before b a := by
  rcases h with ⟨hNe, hUp⟩ | ⟨p, s, t, hRow, ha, hb⟩
  · rintro (⟨-, hUp'⟩ | ⟨p, s, t, hRow, hb, ha⟩)
    · exact hNe (hf.up_antisymm hUp' hUp)
    · exact (hf.not_above_siblings hRow hb ha).2 hUp
  · rintro (⟨-, hUp⟩ | ⟨p', s', t', hRow', hb', ha'⟩)
    · exact (hf.not_above_siblings hRow ha hb).2 hUp
    · have hs := (hf.mem_children p s).mp (hRow.subset (by simp))
      have ht := (hf.mem_children p t).mp (hRow.subset (by simp))
      have hs' := (hf.mem_children p' s').mp (hRow'.subset (by simp))
      have ht' := (hf.mem_children p' t').mp (hRow'.subset (by simp))
      -- the rows are one, or one of them is below a member of the other
      have hSame : s ≠ t' := by
        rintro rfl
        obtain rfl := Option.some.inj (hs.symm.trans ht')
        obtain rfl := hf.eq_of_up_siblings (hRow.subset (by simp)) (hRow'.subset (by simp)) hb hb'
        exact not_swapped (hf.nodup _) hRow hRow'
      rcases ha.total ha' with hUp | hUp
      · rcases hUp.cases_first with rfl | ⟨q, hq, hUp⟩
        · exact hSame rfl
        · obtain rfl := Option.some.inj (hs.symm.trans hq)
          exact hf.not_up_of_siblings hRow' hb' (hb.trans ((up_parent ht).trans hUp))
      · rcases hUp.cases_first with rfl | ⟨q, hq, hUp⟩
        · exact hSame rfl
        · obtain rfl := Option.some.inj (ht'.symm.trans hq)
          exact hf.not_up_of_siblings hRow (hb'.trans ((up_parent hs').trans hUp)) hb

theorem not_before_self (a : NodeId) : ¬ f.Before a a :=
  fun h => hf.before_asymm h h

omit hf in
theorem not_before_root (h : f.parent? b = none) (hf : f.Linked) : ¬ f.Before a b := by
  rintro (⟨hNe, hUp⟩ | ⟨p, s, t, hRow, -, hUp⟩)
  · exact hNe (hUp.eq_of_parent_none h).symm
  · obtain rfl := hUp.eq_of_parent_none h
    rw [(hf.mem_children p b).mp (hRow.subset (by simp))] at h
    cases h

omit hf in
/-- What is listed below siblings in order is listed in order. -/
theorem row_ordered {below : NodeId → List NodeId} {row : List NodeId}
    (hRow : row.Sublist (f.children p)) (hUp : ∀ n ∈ row, ∀ m ∈ below n, f.Up m n)
    (hBelow : ∀ n ∈ row, (below n).Pairwise f.Before) : (row.flatMap below).Pairwise f.Before := by
  refine List.pairwise_flatMap.mpr ⟨hBelow, List.pairwise_iff_forall_sublist.mpr ?_⟩
  intro s t hst a ha b hb
  exact .inr ⟨p, s, t, hst.trans hRow, hUp s (hst.subset (by simp)) a ha,
    hUp t (hst.subset (by simp)) b hb⟩

theorem preorder_ordered (k : Nat) (n : NodeId) : (f.preorder k n).Pairwise f.Before := by
  induction k generalizing n with
  | zero => exact .nil
  | succ k ih =>
    refine List.pairwise_cons.mpr ⟨fun m hm => .inl ?_,
      row_ordered (List.Sublist.refl _) (fun _ _ _ => hf.up_of_mem_preorder) fun c _ => ih c⟩
    obtain ⟨c, hc, hm⟩ := List.mem_flatMap.mp hm
    have hParent := (hf.mem_children n c).mp hc
    have hUp := hf.up_of_mem_preorder hm
    refine ⟨?_, hUp.trans (up_parent hParent)⟩
    rintro rfl
    exact hf.acyclic c _ hParent hUp

theorem self_descendants_ordered (n : NodeId) : (n :: f.descendants n).Pairwise f.Before :=
  hf.preorder_ordered (f.size + 1) n

end Linked

end Forest

namespace Dom

variable {d : Dom} {r x y : NodeRef}

namespace Sound

variable (hd : d.Sound)
include hd

theorem parent_of_enclosed (hx : d.Known x) (hy : d.Known y) (hNe : x ≠ y)
    (h : d.Inside x (d.key y)) : d.parent? (d.key y) ≠ none := by
  intro hNone
  cases x with
  | node n =>
    rw [inside_node] at h
    exact hNe (hd.key_inj hx hy (h.eq_of_parent_none hNone).symm)
  | container c =>
    rcases (hd.inside_container hx).mp h with hStart | ⟨k, hSpan, hUp⟩ | hFinish
    · exact hNe (hd.key_inj hx hy hStart.symm)
    · obtain rfl := hUp.eq_of_parent_none hNone
      obtain ⟨host, hHost⟩ := hd.spanHost_some hx
      rw [hd.parent_of_mem_span hx hSpan, hHost] at hNone
      cases hNone
    · exact hd.key_ne_finish hy hx hFinish

/-- What is in something else comes after its key, unless that is the root of a tree of its own. -/
theorem before_of_enclosed (hx : d.Known x) (hy : d.Known y) (hNe : x ≠ y)
    (h : d.Inside x (d.key y)) :
    d.nodes.Before (d.key x) (d.key y) ∨ d.parent? (d.key x) = none := by
  cases x with
  | node n =>
    rw [inside_node] at h
    exact .inl (.inl ⟨fun he => hNe (hd.key_inj hx hy he), h⟩)
  | container c =>
    rcases (hd.inside_container hx).mp h with hStart | ⟨k, hSpan, hUp⟩ | hFinish
    · exact absurd (hd.key_inj hx hy hStart.symm) hNe
    · cases hLive : (d.container c).live with
      | true =>
        obtain ⟨host, u, v, -, hRow, -⟩ := hd.live_row hx hLive
        refine .inl (.inr ⟨host, d.part c .start, k, ?_, Forest.up_refl _, hUp⟩)
        have hBehind : [k].Sublist (d.span c ++ d.part c .finish :: v) :=
          List.singleton_sublist.mpr (List.mem_append_left _ hSpan)
        change [d.part c .start, k].Sublist (d.children host)
        rw [hRow]
        exact (hBehind.cons_cons _).trans (List.sublist_append_right u _)
      | false => exact .inr (hd.parent_start_of_not_live hx hLive)
    · exact absurd hFinish (hd.key_ne_finish hy hx)

theorem not_before_of_enclosed (hx : d.Known x) (hy : d.Known y) (hNe : x ≠ y)
    (h : d.Inside x (d.key y)) : ¬ d.nodes.Before (d.key y) (d.key x) := by
  rcases hd.before_of_enclosed hx hy hNe h with hBefore | hNone
  · exact hd.linked.before_asymm hBefore
  · exact hd.linked.not_before_root hNone

theorem not_enclosed (hx : d.Known x) (hy : d.Known y) (hNe : x ≠ y)
    (h : d.Inside x (d.key y)) : ¬ d.Inside y (d.key x) := fun h' =>
  (hd.before_of_enclosed hx hy hNe h).elim (hd.not_before_of_enclosed hy hx hNe.symm h')
    (hd.parent_of_enclosed hy hx hNe.symm h')

theorem not_up_span {c : ContainerId} {k : NodeId} (hc : c < d.containers.size)
    (hSpan : k ∈ d.span c) : ¬ d.nodes.Up (d.part c .start) k := by
  intro hUp
  rcases hUp.cases_first with rfl | ⟨p, hParent, hUp⟩
  · exact hd.start_not_mem_span hc hSpan
  · have hLive := (hd.live_iff c hc).mpr ⟨p, hParent⟩
    have hHost := hd.parent_of_mem_span hc hSpan
    rw [spanHost_of_live hLive] at hHost
    exact hd.linked.acyclic k p (hHost.trans hParent) hUp

/-- The subtree of a node or container is listed in document order, with what a container holds
behind it. -/
theorem subtree_ordered (hr : d.Known r) :
    (d.subtree r).Pairwise fun a b => d.nodes.Before a b ∨ a = d.key r ∧ b ≠ a ∧ d.Inside r b := by
  cases r with
  | node n => exact (hd.linked.self_descendants_ordered n).imp fun h => .inl h
  | container c =>
    have hBelow : ∀ n m, m ∈ n :: d.descendants n → d.nodes.Up m n := fun n m =>
      hd.linked.mem_self_descendants.mp
    refine List.pairwise_cons.mpr ⟨fun m hm => .inr ⟨rfl, ?_, ?_⟩,
      List.Pairwise.imp (fun h => .inl h) ?_⟩
    · obtain ⟨k, hSpan, hUp⟩ := List.mem_flatMap.mp hm
      rintro rfl
      exact hd.not_up_span hr hSpan (hBelow k _ hUp)
    · obtain ⟨k, hSpan, hUp⟩ := List.mem_flatMap.mp hm
      exact (hd.inside_container hr).mpr (.inr (.inl ⟨k, hSpan, hBelow k m hUp⟩))
    · have hRow : ∃ p, (d.span c).Sublist (d.children p) := by
        cases hLive : (d.container c).live with
        | true =>
          obtain ⟨host, u, v, -, hRow, -⟩ := hd.live_row hr hLive
          refine ⟨host, hRow ▸ ?_⟩
          exact ((List.sublist_append_left _ _).cons _).trans (List.sublist_append_right u _)
        | false =>
          refine ⟨d.part c .fragment, ?_⟩
          rw [span_of_not_live hLive]
      obtain ⟨p, hRow⟩ := hRow
      exact Forest.Linked.row_ordered hRow (fun n _ m hm => hBelow n m hm)
        fun n _ => hd.linked.self_descendants_ordered n

theorem subtree_nodup (hr : d.Known r) : (d.subtree r).Nodup := by
  refine (hd.subtree_ordered hr).imp ?_
  rintro a b (hBefore | ⟨-, hNe, -⟩)
  · rintro rfl
    exact hd.linked.not_before_self a hBefore
  · exact hNe.symm

/-- What is inside something is listed behind it. -/
theorem subtree_encloses (hr : d.Known r) (hx : d.Known x) (hy : d.Known y)
    (hxr : d.key x ∈ d.subtree r) (hyr : d.key y ∈ d.subtree r) (hNe : x ≠ y)
    (h : d.Inside x (d.key y)) : [d.key x, d.key y].Sublist (d.subtree r) := by
  have hKeys : d.key x ≠ d.key y := fun he => hNe (hd.key_inj hx hy he)
  refine (Forest.pair_sublist hxr hyr hKeys).resolve_right fun hSwap => ?_
  rcases List.pairwise_iff_forall_sublist.mp (hd.subtree_ordered hr) hSwap with
    hBefore | ⟨hHead, -, hIn⟩
  · exact hd.not_before_of_enclosed hx hy hNe h hBefore
  · obtain rfl := hd.key_inj hy hr hHead
    exact hd.not_enclosed hx hy hNe h hIn

end Sound

end Dom

end LiveMarkup
