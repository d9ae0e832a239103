import LiveMarkup.Proofs.Forest.Linked
import Mathlib.Data.List.TakeWhile
import Mathlib.Tactic.Tauto

/-!
# Moving nodes in a forest

What taking nodes out and putting them elsewhere does to parent links and lists of children, and
that the forest stays linked as long as no node is put below itself.

* `Agree.taken_remove`: a node is taken out;
* `insertBefore?_eq_none_iff`: the only way to fail is a reference that is no child;
* `Placed`, `Agree.placed_of_insertBefore`: nodes are put, in order, before a child or last;
* `Placed.agree`, `Placed.linked`: links and lists agree, and the forest stays linked;
* `AgreeOff.up_iff`: ways up that avoid the moved nodes are as before.
-/

namespace LiveMarkup

namespace Forest

variable {α : Type} {f f' : Forest α}

/-! ## Lists of siblings -/

section Splice

variable {β : Type} [BEq β]

/-- A list with others put in before a member, or last. -/
def splice (reference : Option β) (ns : List β) (l : List β) : List β :=
  match reference with
  | none => l ++ ns
  | some r => l.takeWhile (fun m => !(m == r)) ++ ns ++ l.dropWhile (fun m => !(m == r))

@[simp]
theorem splice_nil (reference : Option β) (l : List β) : splice reference [] l = l := by
  cases reference <;> simp [splice]

theorem mem_splice {reference : Option β} {ns l : List β} {m : β} :
    m ∈ splice reference ns l ↔ m ∈ ns ∨ m ∈ l := by
  cases reference with
  | none => simp [splice, or_comm]
  | some r =>
    have hAll : m ∈ l ↔
        m ∈ l.takeWhile (fun x => !(x == r)) ∨ m ∈ l.dropWhile (fun x => !(x == r)) := by
      rw [← List.mem_append, List.takeWhile_append_dropWhile]
    simp only [splice, List.mem_append, hAll]
    tauto

theorem splice_perm (reference : Option β) (ns l : List β) :
    (splice reference ns l).Perm (ns ++ l) := by
  cases reference with
  | none => exact List.perm_append_comm
  | some r =>
    have hSplit := List.takeWhile_append_dropWhile (p := fun m => !(m == r)) (l := l)
    calc splice (some r) ns l
        _ = l.takeWhile (fun m => !(m == r)) ++ (ns ++ l.dropWhile (fun m => !(m == r))) := by
          simp [splice]
        _ |>.Perm (ns ++ (l.takeWhile (fun m => !(m == r)) ++ l.dropWhile (fun m => !(m == r)))) :=
          List.perm_append_comm_assoc _ _ _
        _ = ns ++ l := by rw [hSplit]

variable [LawfulBEq β]

theorem splice_append {r : β} {u v ns : List β} (h : r ∉ u) :
    splice (some r) ns (u ++ r :: v) = u ++ ns ++ r :: v := by
  have hu : ∀ x ∈ u, (!(x == r)) = true := by
    intro x hx
    have : x ≠ r := fun he => h (he ▸ hx)
    simpa using this
  simp only [splice, List.takeWhile_append_of_pos hu, List.dropWhile_append_of_pos hu]
  simp

theorem splice_of_not_mem {r : β} {ns l : List β} (h : r ∉ l) :
    splice (some r) ns l = l ++ ns := by
  have hl : ∀ x ∈ l, (!(x == r)) = true := by
    intro x hx
    have : x ≠ r := fun he => h (he ▸ hx)
    simpa using this
  rw [splice, List.takeWhile_eq_self_iff.mpr hl, List.dropWhile_eq_nil_iff.mpr hl]
  simp

theorem insertIdx_idxOf (r n : NodeId) (l : List NodeId) :
    l.insertIdx ((l.idxOf? r).getD l.length) n = splice (some r) [n] l := by
  induction l with
  | nil => simp [splice]
  | cons x l ih =>
    by_cases hx : x = r
    · subst hx
      simp [splice, List.idxOf?_cons]
    · have hne : (x == r) = false := by simpa using hx
      have hIdx : ((x :: l).idxOf? r).getD (x :: l).length = (l.idxOf? r).getD l.length + 1 := by
        rw [List.idxOf?_cons, hne]
        cases l.idxOf? r <;> simp
      rw [hIdx, List.insertIdx_succ_cons, ih]
      simp [splice, hne]

theorem splice_cons {reference : Option β} {n : β} {ns l : List β}
    (hRef : reference ≠ some n) :
    splice reference ns (splice reference [n] l) = splice reference (n :: ns) l := by
  cases reference with
  | none => simp [splice]
  | some r =>
    have hn : n ≠ r := fun he => hRef (he ▸ rfl)
    have hTake : ∀ x ∈ l.takeWhile (fun m => !(m == r)) ++ [n], (!(x == r)) = true := by
      intro x hx
      rcases List.mem_append.mp hx with hx | hx
      · exact List.mem_takeWhile_imp (p := fun m => !(m == r)) hx
      · simp only [List.mem_singleton] at hx
        subst hx
        simpa using hn
    have hDrop : ∀ y, (l.dropWhile (fun m => !(m == r))).head? = some y → y = r := by
      intro y hy
      have := List.head?_dropWhile_not (fun m => !(m == r)) l
      rw [hy] at this
      simpa using this
    simp only [splice]
    cases hRest : l.dropWhile (fun m => !(m == r)) with
    | nil =>
      rw [List.append_nil, List.takeWhile_eq_self_iff.mpr hTake,
        List.dropWhile_eq_nil_iff.mpr hTake]
      simp
    | cons y rest =>
      obtain rfl : y = r := hDrop y (by rw [hRest]; rfl)
      rw [List.takeWhile_append_of_pos hTake, List.dropWhile_append_of_pos hTake]
      simp

theorem filter_splice {reference : Option β} {ns l : List β} (p : β → Bool)
    (hRef : ∀ r, reference = some r → p r = true) (hns : ∀ n ∈ ns, p n = true) :
    (splice reference ns l).filter p = splice reference ns (l.filter p) := by
  have hKeep : ns.filter p = ns := List.filter_eq_self.mpr hns
  cases reference with
  | none => simp [splice, hKeep]
  | some r =>
    have hr := hRef r rfl
    by_cases hMem : r ∈ l
    · obtain ⟨u, v, rfl, hu⟩ := List.eq_append_cons_of_mem hMem
      rw [splice_append hu]
      have hu' : r ∉ u.filter p := fun h => hu (List.mem_of_mem_filter h)
      simp only [List.filter_append, List.filter_cons, hr, if_true, hKeep]
      rw [splice_append hu']
    · have hMem' : r ∉ l.filter p := fun h => hMem (List.mem_of_mem_filter h)
      rw [splice_of_not_mem hMem, splice_of_not_mem hMem', List.filter_append, hKeep]

end Splice

/-! ## Primitive changes -/

@[simp]
theorem size_setParent (f : Forest α) (n : NodeId) (p : Option NodeId) :
    (f.setParent n p).size = f.size := by
  simp [setParent, size]

@[simp]
theorem size_setChildren (f : Forest α) (n : NodeId) (l : List NodeId) :
    (f.setChildren n l).size = f.size := by
  simp [setChildren, size]

@[simp]
theorem label?_setParent (f : Forest α) (n m : NodeId) (p : Option NodeId) :
    (f.setParent n p).label? m = f.label? m := by
  simp only [setParent, label?, Array.getElem?_modify]
  split <;> cases f.cells[m]? <;> rfl

@[simp]
theorem label?_setChildren (f : Forest α) (n m : NodeId) (l : List NodeId) :
    (f.setChildren n l).label? m = f.label? m := by
  simp only [setChildren, label?, Array.getElem?_modify]
  split <;> cases f.cells[m]? <;> rfl

@[simp]
theorem parent?_setChildren (f : Forest α) (n m : NodeId) (l : List NodeId) :
    (f.setChildren n l).parent? m = f.parent? m := by
  simp only [setChildren, parent?, Array.getElem?_modify]
  split <;> cases f.cells[m]? <;> rfl

@[simp]
theorem children_setParent (f : Forest α) (n m : NodeId) (p : Option NodeId) :
    (f.setParent n p).children m = f.children m := by
  simp only [setParent, children, Array.getElem?_modify]
  split <;> cases f.cells[m]? <;> rfl

theorem parent?_setParent (f : Forest α) {n : NodeId} (hn : n < f.size) (m : NodeId)
    (p : Option NodeId) : (f.setParent n p).parent? m = if m = n then p else f.parent? m := by
  simp only [setParent, parent?, Array.getElem?_modify]
  by_cases h : m = n
  · subst h
    simp [Array.getElem?_eq_getElem hn]
  · rw [if_neg (fun he => h he.symm), if_neg h]

theorem children_setChildren (f : Forest α) {n : NodeId} (hn : n < f.size) (m : NodeId)
    (l : List NodeId) : (f.setChildren n l).children m = if m = n then l else f.children m := by
  simp only [setChildren, children, Array.getElem?_modify]
  by_cases h : m = n
  · subst h
    simp [Array.getElem?_eq_getElem hn]
  · rw [if_neg (fun he => h he.symm), if_neg h]

/-! ## Taking out -/

/-- A node is taken out of wherever it is. -/
structure Taken (f f' : Forest α) (n : NodeId) : Prop where
  size : f'.size = f.size
  label : ∀ m, f'.label? m = f.label? m
  parent : ∀ m, f'.parent? m = if m = n then none else f.parent? m
  children : ∀ q, f'.children q = (f.children q).filter (· ≠ n)

theorem filter_ne_of_not_mem {l : List NodeId} {n : NodeId} (h : n ∉ l) :
    l.filter (· ≠ n) = l := by
  rw [List.filter_eq_self]
  intro x hx
  simp only [decide_eq_true_eq]
  rintro rfl
  exact h hx

theorem Agree.taken_remove (hf : f.Agree) (n : NodeId) : Taken f (f.remove n) n := by
  cases hParent : f.parent? n with
  | none =>
    have hSame : f.remove n = f := by simp [remove, hParent]
    rw [hSame]
    refine ⟨rfl, fun _ => rfl, fun m => ?_, fun q => ?_⟩
    · split
      · subst m
        exact hParent
      · rfl
    · refine (filter_ne_of_not_mem fun hMem => ?_).symm
      rw [hf.mem_children, hParent] at hMem
      cases hMem
  | some p =>
    have hp := hf.parent_lt_size hParent
    have hn := lt_size_of_parent hParent
    have hErase : f.remove n =
        (f.setChildren p ((f.children p).erase n)).setParent n none := by
      simp [remove, hParent]
    rw [hErase]
    refine ⟨by simp, by simp, fun m => ?_, fun q => ?_⟩
    · rw [parent?_setParent _ (by simpa using hn), parent?_setChildren]
    · rw [children_setParent, children_setChildren _ hp]
      split
      · subst q
        rw [(hf.nodup p).erase_eq_filter]
        exact List.filter_congr fun x _ => by by_cases hx : x = n <;> simp [hx]
      · rename_i hq
        refine (filter_ne_of_not_mem fun hMem => hq ?_).symm
        rw [hf.mem_children, hParent] at hMem
        exact (Option.some.inj hMem).symm

theorem Linked.taken_remove (hf : f.Linked) (n : NodeId) : Taken f (f.remove n) n :=
  hf.agree.taken_remove n

theorem Taken.agree {n : NodeId} (h : Taken f f' n) (hf : f.Agree) : f'.Agree where
  mem_children p m := by
    rw [h.children, h.parent, List.mem_filter, hf.mem_children]
    by_cases hm : m = n <;> simp [hm]
  nodup p := by
    rw [h.children]
    exact (hf.nodup p).filter _

theorem Taken.linked {n : NodeId} (h : Taken f f' n) (hf : f.Linked) : f'.Linked where
  mem_children := (h.agree hf.agree).mem_children
  nodup := (h.agree hf.agree).nodup
  ranked := by
    obtain ⟨rank, hRank⟩ := hf.ranked
    refine ⟨rank, fun m p hm => hRank m p ?_⟩
    rw [h.parent] at hm
    split at hm
    · cases hm
    · exact hm

/-! ## Putting in -/

/-- Nodes are put into a parent, in order, before one of its other children or last. -/
structure Placed (f f' : Forest α) (p : NodeId) (ns : List NodeId) (reference : Option NodeId) :
    Prop where
  size : f'.size = f.size
  label : ∀ m, f'.label? m = f.label? m
  parent : ∀ m, f'.parent? m = if m ∈ ns then some p else f.parent? m
  children : ∀ q, f'.children q =
    if q = p then splice reference ns ((f.children p).filter (· ∉ ns))
    else (f.children q).filter (· ∉ ns)

theorem placed_nil (f : Forest α) (p : NodeId) (reference : Option NodeId) :
    Placed f f p [] reference where
  size := rfl
  label _ := rfl
  parent m := by simp
  children q := by
    split
    · subst q
      simp
    · simp

/-- Putting in a first node and then the others puts in all of them. -/
theorem Placed.cons {f₁ : Forest α} {p n : NodeId} {ns : List NodeId}
    {reference : Option NodeId} (h₁ : Placed f f₁ p [n] reference)
    (h₂ : Placed f₁ f' p ns reference) (hn : n ∉ ns)
    (hRef : ∀ r, reference = some r → r ∉ n :: ns) :
    Placed f f' p (n :: ns) reference where
  size := h₂.size.trans h₁.size
  label m := (h₂.label m).trans (h₁.label m)
  parent m := by
    rw [h₂.parent, h₁.parent]
    by_cases hm : m ∈ ns <;> simp [hm]
  children q := by
    have hFilter : ∀ l : List NodeId,
        (l.filter (· ∉ [n])).filter (· ∉ ns) = l.filter (· ∉ n :: ns) := by
      intro l
      rw [List.filter_filter]
      exact List.filter_congr fun x _ => by simp [Bool.and_comm]
    rw [h₂.children]
    split
    · subst q
      have hSkip : reference ≠ some n := fun he => hRef n he List.mem_cons_self
      rw [h₁.children, if_pos rfl, filter_splice, hFilter, splice_cons hSkip]
      · intro r hr
        have := hRef r hr
        simp only [List.mem_cons, not_or] at this
        simp [this.2]
      · intro x hx
        simp only [List.mem_singleton] at hx
        subst hx
        simp [hn]
    · rename_i hq
      rw [h₁.children, if_neg hq, hFilter]

/-- An insertion fails exactly when its reference is no child of the parent. -/
theorem insertBefore?_eq_none_iff {p n : NodeId} {reference : Option NodeId} :
    f.insertBefore? p n reference = none ↔ ∃ r, reference = some r ∧ r ∉ f.children p := by
  cases reference with
  | none => simp [insertBefore?]
  | some r =>
    simp only [insertBefore?, index?]
    cases hIdx : (f.children p).idxOf? r with
    | none => simpa using List.idxOf?_eq_none_iff.mp hIdx
    | some i =>
      have hMem : r ∈ f.children p := by
        by_contra hOut
        rw [List.idxOf?_eq_none_iff.mpr hOut] at hIdx
        cases hIdx
      simp [hMem]

theorem Agree.placed_place (hf : f.Agree) {p n : NodeId} (hp : p < f.size) (hn : n < f.size)
    (reference : Option NodeId) (i : Nat) (hi : ∀ l : List NodeId, l = (f.remove n).children p →
      l.insertIdx i n = splice reference [n] l) :
    Placed f ((f.remove n).place p n i) p [n] reference := by
  have hTaken := hf.taken_remove n
  have hp' : p < (f.remove n).size := hTaken.size ▸ hp
  have hn' : n < (f.remove n).size := hTaken.size ▸ hn
  have hFilter : ∀ l : List NodeId, l.filter (· ≠ n) = l.filter (· ∉ [n]) := by
    intro l
    exact List.filter_congr fun x _ => by simp
  refine ⟨by simp [place, hTaken.size], by simp [place, hTaken.label], fun m => ?_, fun q => ?_⟩
  · rw [place, parent?_setParent _ (by simpa using hn'), parent?_setChildren, hTaken.parent]
    by_cases hm : m = n <;> simp [hm]
  · rw [place, children_setParent, children_setChildren _ hp']
    split
    · subst q
      rw [hi _ rfl, hTaken.children, hFilter]
    · rw [hTaken.children, hFilter]

/-- What an insertion does when it succeeds. -/
theorem Agree.placed_of_insertBefore (hf : f.Agree) {p n : NodeId} {reference : Option NodeId}
    (hp : p < f.size) (hn : n < f.size) (h : f.insertBefore? p n reference = some f') :
    Placed f f' p [n] reference := by
  cases reference with
  | none =>
    obtain rfl := Option.some.inj h
    refine hf.placed_place hp hn none _ fun l hl => ?_
    subst hl
    simp [splice, List.insertIdx_length_self]
  | some r =>
    simp only [insertBefore?] at h
    split at h
    · cases h
    · obtain rfl := Option.some.inj h
      refine hf.placed_place hp hn (some r) _ fun l hl => ?_
      subst hl
      exact insertIdx_idxOf r n _

theorem Linked.placed_of_insertBefore (hf : f.Linked) {p n : NodeId} {reference : Option NodeId}
    (hp : p < f.size) (hn : n < f.size) (h : f.insertBefore? p n reference = some f') :
    Placed f f' p [n] reference :=
  hf.agree.placed_of_insertBefore hp hn h

namespace Placed

variable {p : NodeId} {ns : List NodeId} {reference : Option NodeId}

/-- Links and lists agree again, whatever the parent is below. -/
theorem agree (h : Placed f f' p ns reference) (hf : f.Agree) (hns : ns.Nodup) : f'.Agree where
  mem_children q m := by
    rw [h.children, h.parent]
    by_cases hm : m ∈ ns
    · by_cases hq : q = p
      · simp [hq, mem_splice, hm]
      · simp only [hq, if_false, hm, if_true, List.mem_filter]
        constructor
        · rintro ⟨_, hOut⟩
          simp at hOut
        · intro he
          exact absurd (Option.some.inj he).symm hq
    · by_cases hq : q = p
      · subst hq
        simp [mem_splice, hm, hf.mem_children]
      · simp [hq, hm, hf.mem_children]
  nodup q := by
    rw [h.children]
    split
    · refine ((splice_perm _ _ _).nodup_iff).mpr ?_
      rw [List.nodup_append]
      refine ⟨hns, (hf.nodup p).filter _, ?_⟩
      intro a ha b hb hab
      subst hab
      simp [ha] at hb
    · exact (hf.nodup q).filter _

/-- The forest stays linked if the parent is below none of the nodes. -/
theorem linked (h : Placed f f' p ns reference) (hf : f.Linked) (hns : ns.Nodup)
    (hUp : ∀ n ∈ ns, ¬ f.Up p n) : f'.Linked where
  mem_children := (h.agree hf.agree hns).mem_children
  nodup := (h.agree hf.agree hns).nodup
  ranked := by
    classical
    obtain ⟨rank, hRank⟩ := hf.ranked
    -- what is below the moved nodes is lifted above the rank of the parent
    refine ⟨fun m => if ∃ n ∈ ns, f.Up m n then rank m + rank p + 1 else rank m, ?_⟩
    intro m q hm
    rw [h.parent] at hm
    by_cases hMoved : m ∈ ns
    · rw [if_pos hMoved] at hm
      obtain rfl := Option.some.inj hm
      have hBelow : ∃ n ∈ ns, f.Up m n := ⟨m, hMoved, up_refl m⟩
      have hAbove : ¬ ∃ n ∈ ns, f.Up p n := fun ⟨n, hn, hpn⟩ => hUp n hn hpn
      simp only [if_pos hBelow, if_neg hAbove]
      omega
    · rw [if_neg hMoved] at hm
      have hLt := hRank m q hm
      have hSame : (∃ n ∈ ns, f.Up m n) ↔ ∃ n ∈ ns, f.Up q n := by
        constructor
        · rintro ⟨n, hn, hmn⟩
          rcases hmn.cases_first with rfl | ⟨q', hq', hUp'⟩
          · exact absurd hn hMoved
          · rw [hm] at hq'
            obtain rfl := Option.some.inj hq'
            exact ⟨n, hn, hUp'⟩
        · rintro ⟨n, hn, hqn⟩
          exact ⟨n, hn, Up.trans (up_parent hm) hqn⟩
      by_cases hBelow : ∃ n ∈ ns, f.Up m n
      · simp only [if_pos hBelow, if_pos (hSame.mp hBelow)]
        omega
      · simp only [if_neg hBelow, if_neg (mt hSame.mpr hBelow)]
        exact hLt

end Placed

/-! ## Ways up that avoid what moved -/

/-- Two forests have the same parent links but for some nodes. -/
def AgreeOff (moved : NodeId → Prop) (f f' : Forest α) : Prop :=
  ∀ m, ¬ moved m → f'.parent? m = f.parent? m

namespace AgreeOff

variable {moved : NodeId → Prop}

theorem symm (h : AgreeOff moved f f') : AgreeOff moved f' f :=
  fun m hm => (h m hm).symm

/-- A way up to a moved node leads in the other forest to a moved node as well. -/
theorem exists_up (h : AgreeOff moved f f') {m k : NodeId} (hk : moved k) (hUp : f.Up m k) :
    ∃ j, moved j ∧ f'.Up m j ∧ f.Up m j := by
  induction hUp using Relation.ReflTransGen.head_induction_on with
  | refl => exact ⟨k, hk, up_refl k, up_refl k⟩
  | @head m p hParent _ ih =>
    by_cases hm : moved m
    · exact ⟨m, hm, up_refl m, up_refl m⟩
    · obtain ⟨j, hj, hUp', hUp⟩ := ih
      have hParent' : f'.parent? m = some p := (h m hm).trans hParent
      exact ⟨j, hj, Up.trans (up_parent hParent') hUp', Up.trans (up_parent hParent) hUp⟩

/-- The same nodes are below moved ones. -/
theorem below_iff (h : AgreeOff moved f f') {m : NodeId} :
    (∃ k, moved k ∧ f.Up m k) ↔ ∃ k, moved k ∧ f'.Up m k := by
  constructor
  · rintro ⟨k, hk, hUp⟩
    obtain ⟨j, hj, hUp', _⟩ := h.exists_up hk hUp
    exact ⟨j, hj, hUp'⟩
  · rintro ⟨k, hk, hUp⟩
    obtain ⟨j, hj, hUp', _⟩ := h.symm.exists_up hk hUp
    exact ⟨j, hj, hUp'⟩

theorem up (h : AgreeOff moved f f') {m x : NodeId} (hm : ∀ k, moved k → ¬ f.Up m k)
    (hUp : f.Up m x) : f'.Up m x := by
  induction hUp using Relation.ReflTransGen.head_induction_on with
  | refl => exact up_refl x
  | @head m p hParent _ ih =>
    have hKeep : ¬ moved m := fun hMoved => hm m hMoved (up_refl m)
    have hParent' : f'.parent? m = some p := (h m hKeep).trans hParent
    refine Up.trans (up_parent hParent') (ih fun k hk hpk => hm k hk ?_)
    exact Up.trans (up_parent hParent) hpk

/-- A node that is below no moved one is below the same nodes as before. -/
theorem up_iff (h : AgreeOff moved f f') {m x : NodeId} (hm : ∀ k, moved k → ¬ f.Up m k) :
    f'.Up m x ↔ f.Up m x := by
  refine ⟨h.symm.up fun k hk hUp => ?_, h.up hm⟩
  obtain ⟨j, hj, hUp'⟩ := h.below_iff.mpr ⟨k, hk, hUp⟩
  exact hm j hj hUp'

end AgreeOff

theorem Placed.agreeOff {p : NodeId} {ns : List NodeId} {reference : Option NodeId}
    (h : Placed f f' p ns reference) : AgreeOff (· ∈ ns) f f' := by
  intro m hm
  rw [h.parent, if_neg hm]

theorem Placed.up_parent_of_up {p n m : NodeId} {ns : List NodeId} {reference : Option NodeId}
    (h : Placed f f' p ns reference) (hn : n ∈ ns) (hUp : f.Up m n) : f'.Up m p := by
  obtain ⟨j, hj, hUp', _⟩ := h.agreeOff.exists_up hn hUp
  refine Up.trans hUp' (up_parent ?_)
  rw [h.parent, if_pos hj]

end Forest

end LiveMarkup
