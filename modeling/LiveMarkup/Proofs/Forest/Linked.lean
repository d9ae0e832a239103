import LiveMarkup.Tree.Forest
import Mathlib.Data.List.Nodup
import Mathlib.Data.List.Perm.Subperm
import Mathlib.Logic.Relation

/-!
# Linked forests

In a linked forest the parent links and the lists of children say the same, no child is listed
twice, and no way up leads back to where it began. Then the functions that walk the forest with
a bounded number of steps miss nothing:

* `Linked.mem_ancestors`: the ancestors are all that is reached by one parent link or more;
* `Linked.root_eq_iff`: the root is the node without a parent that is reached upwards;
* `Linked.mem_descendants`: the descendants are all from which the node is reached.
-/

namespace LiveMarkup

namespace Forest

variable {α : Type} {f : Forest α}

/-- A node is reached from another by parent links, none or more of them. -/
def Up (f : Forest α) : NodeId → NodeId → Prop :=
  Relation.ReflTransGen fun n p => f.parent? n = some p

/-- Parent links and lists of children agree: a node is listed once by its parent and by no other. -/
structure Agree (f : Forest α) : Prop where
  mem_children : ∀ p n, n ∈ f.children p ↔ f.parent? n = some p
  nodup : ∀ p, (f.children p).Nodup

/-- Parent links and lists of children agree, and nodes can be ranked so that every parent comes
before its children. -/
structure Linked (f : Forest α) : Prop where
  mem_children : ∀ p n, n ∈ f.children p ↔ f.parent? n = some p
  nodup : ∀ p, (f.children p).Nodup
  ranked : ∃ rank : NodeId → Nat, ∀ n p, f.parent? n = some p → rank p < rank n

/-! ## The way up -/

theorem up_refl (n : NodeId) : f.Up n n :=
  Relation.ReflTransGen.refl

theorem up_parent {n p : NodeId} (h : f.parent? n = some p) : f.Up n p :=
  Relation.ReflTransGen.single h

theorem Up.trans {a b c : NodeId} (h₁ : f.Up a b) (h₂ : f.Up b c) : f.Up a c :=
  Relation.ReflTransGen.trans h₁ h₂

theorem Up.cases_first {n m : NodeId} (h : f.Up n m) :
    n = m ∨ ∃ p, f.parent? n = some p ∧ f.Up p m :=
  Relation.ReflTransGen.cases_head h

theorem Up.cases_last {n m : NodeId} (h : f.Up n m) :
    n = m ∨ ∃ c, f.Up n c ∧ f.parent? c = some m := by
  rcases Relation.ReflTransGen.cases_tail h with rfl | ⟨c, hUp, hParent⟩
  · exact .inl rfl
  · exact .inr ⟨c, hUp, hParent⟩

theorem Up.eq_of_parent_none {n m : NodeId} (h : f.Up n m) (hRoot : f.parent? n = none) :
    n = m := by
  rcases h.cases_first with rfl | ⟨p, hParent, _⟩
  · rfl
  · rw [hRoot] at hParent
    cases hParent

/-- Two nodes that are reached from the same node lie on one way up. -/
theorem Up.total {n a b : NodeId} (ha : f.Up n a) (hb : f.Up n b) : f.Up a b ∨ f.Up b a := by
  induction ha using Relation.ReflTransGen.head_induction_on with
  | refl => exact .inl hb
  | @head n p hParent hUp ih =>
    rcases hb.cases_first with rfl | ⟨q, hParent', hUp'⟩
    · exact .inr (Up.trans (up_parent hParent) hUp)
    · rw [hParent] at hParent'
      cases hParent'
      exact ih hUp'

theorem lt_size_of_parent {n p : NodeId} (h : f.parent? n = some p) : n < f.size := by
  by_contra hOut
  rw [parent?, Array.getElem?_eq_none (by simpa [size] using hOut)] at h
  cases h

theorem lt_size_of_mem_children {p n : NodeId} (h : n ∈ f.children p) : p < f.size := by
  by_contra hOut
  rw [children, Array.getElem?_eq_none (by simpa [size] using hOut)] at h
  cases h

/-! ## Climbing -/

theorem up_of_mem_climb {k : Nat} {n m : NodeId} (h : m ∈ f.climb k n) :
    ∃ p, f.parent? n = some p ∧ f.Up p m := by
  induction k generalizing n with
  | zero => cases h
  | succ k ih =>
    unfold climb at h
    split at h
    · cases h
    · rename_i p hParent
      rcases List.mem_cons.mp h with rfl | hRest
      · exact ⟨m, hParent, up_refl m⟩
      · obtain ⟨q, hParent', hUp⟩ := ih hRest
        exact ⟨p, hParent, Up.trans (up_parent hParent') hUp⟩

/-- A bounded climb reaches every node on the way up, unless it is cut at its bound. -/
theorem mem_climb_or_cut {n m : NodeId} (h : f.Up n m) (k : Nat) :
    m ∈ n :: f.climb k n ∨ (f.climb k n).length = k ∧ m ∉ n :: f.climb k n := by
  induction k generalizing n with
  | zero =>
    by_cases hm : m = n
    · exact .inl (by simp [hm])
    · exact .inr ⟨rfl, by simpa [climb] using hm⟩
  | succ k ih =>
    rcases h.cases_first with rfl | ⟨p, hParent, hUp⟩
    · exact .inl (by simp)
    · have hClimb : f.climb (k + 1) n = p :: f.climb k p := by simp [climb, hParent]
      rw [hClimb]
      rcases ih hUp with hMem | ⟨hCut, hOut⟩
      · exact .inl (List.mem_cons_of_mem _ hMem)
      · by_cases hm : m = n
        · exact .inl (by simp [hm])
        · refine .inr ⟨by simp [hCut], ?_⟩
          intro hMem
          rcases List.mem_cons.mp hMem with rfl | hMem
          · exact hm rfl
          · exact hOut hMem

theorem Agree.parent_lt_size (hf : f.Agree) {n p : NodeId} (h : f.parent? n = some p) :
    p < f.size :=
  lt_size_of_mem_children ((hf.mem_children p n).mpr h)

namespace Linked

variable (hf : f.Linked)
include hf

theorem agree : f.Agree :=
  ⟨hf.mem_children, hf.nodup⟩

theorem parent_lt_size {n p : NodeId} (h : f.parent? n = some p) : p < f.size :=
  hf.agree.parent_lt_size h

theorem lt_size_of_up {n m : NodeId} (h : f.Up n m) (hn : n < f.size) : m < f.size := by
  rcases h.cases_last with rfl | ⟨c, _, hParent⟩
  · exact hn
  · exact hf.parent_lt_size hParent

theorem acyclic (n p : NodeId) (h : f.parent? n = some p) : ¬ f.Up p n := by
  intro hUp
  obtain ⟨rank, hRank⟩ := hf.ranked
  have hLe : ∀ m, f.Up p m → rank m ≤ rank p := by
    intro m hm
    induction hm with
    | refl => exact Nat.le_refl _
    | tail _ hParent ih => exact Nat.le_trans (Nat.le_of_lt (hRank _ _ hParent)) ih
  exact absurd (hRank n p h) (Nat.not_lt.mpr (hLe n hUp))

theorem up_antisymm {n m : NodeId} (h₁ : f.Up n m) (h₂ : f.Up m n) : n = m := by
  rcases h₁.cases_first with rfl | ⟨p, hParent, hUp⟩
  · rfl
  · exact absurd (Up.trans hUp h₂) (hf.acyclic n p hParent)

theorem climb_nodup (k : Nat) (n : NodeId) : (n :: f.climb k n).Nodup := by
  induction k generalizing n with
  | zero => simp [climb]
  | succ k ih =>
    rw [List.nodup_cons]
    constructor
    · intro hMem
      obtain ⟨p, hParent, hUp⟩ := up_of_mem_climb hMem
      exact hf.acyclic n p hParent hUp
    · unfold climb
      split
      · exact List.nodup_nil
      · exact ih _

theorem climb_lt_size {k : Nat} {n m : NodeId} (h : m ∈ f.climb k n) : m < f.size := by
  obtain ⟨p, hParent, hUp⟩ := up_of_mem_climb h
  exact hf.lt_size_of_up hUp (hf.parent_lt_size hParent)

omit hf in
theorem length_le_size {l : List NodeId} (hNodup : l.Nodup) (hIn : ∀ n ∈ l, n < f.size) :
    l.length ≤ f.size := by
  have hSub : l ⊆ List.range f.size := fun n hn => List.mem_range.mpr (hIn n hn)
  have hLen := (List.subperm_of_subset hNodup hSub).length_le
  simpa using hLen

/-- A climb with as many steps as there are nodes is not cut. -/
theorem mem_climb_of_up {n m : NodeId} {k : Nat} (hk : f.size ≤ k + 1) (h : f.Up n m) :
    m ∈ n :: f.climb k n := by
  rcases mem_climb_or_cut h k with hMem | ⟨hCut, hOut⟩
  · exact hMem
  · -- the nodes of the climb and the one that it missed are too many for the store
    rcases h.cases_first with rfl | ⟨p, hParent, hUp⟩
    · simp
    · have hn := lt_size_of_parent hParent
      have hLen := length_le_size (l := m :: n :: f.climb k n)
        (List.nodup_cons.mpr ⟨hOut, hf.climb_nodup k n⟩) (by
          intro x hx
          rcases List.mem_cons.mp hx with rfl | hx
          · exact hf.lt_size_of_up hUp (hf.parent_lt_size hParent)
          · rcases List.mem_cons.mp hx with rfl | hx
            · exact hn
            · exact hf.climb_lt_size hx)
      simp only [List.length_cons, hCut] at hLen
      omega

theorem mem_ancestors {n m : NodeId} :
    m ∈ f.ancestors n ↔ ∃ p, f.parent? n = some p ∧ f.Up p m := by
  constructor
  · exact up_of_mem_climb
  · rintro ⟨p, hParent, hUp⟩
    have hMem := hf.mem_climb_of_up (k := f.size) (by omega) (Up.trans (up_parent hParent) hUp)
    rcases List.mem_cons.mp hMem with rfl | hMem
    · exact absurd hUp (hf.acyclic m p hParent)
    · exact hMem

theorem contains_iff {a n : NodeId} : f.contains a n = true ↔ f.Up n a := by
  simp only [contains, Bool.or_eq_true, beq_iff_eq, List.contains_iff_mem, hf.mem_ancestors]
  constructor
  · rintro (rfl | ⟨p, hParent, hUp⟩)
    · exact up_refl a
    · exact Up.trans (up_parent hParent) hUp
  · intro hUp
    rcases hUp.cases_first with rfl | hStep
    · exact .inl rfl
    · exact .inr hStep

/-! ## The root -/

omit hf in
theorem up_getLast_climb (k : Nat) (n : NodeId) : f.Up n ((f.climb k n).getLast?.getD n) := by
  cases hLast : (f.climb k n).getLast? with
  | none => exact up_refl n
  | some m =>
    obtain ⟨p, hParent, hUp⟩ := up_of_mem_climb (List.mem_of_getLast? hLast)
    exact Up.trans (up_parent hParent) hUp

omit hf in
theorem parent_getLast_climb {k : Nat} {n : NodeId} (hShort : (f.climb k n).length < k) :
    f.parent? ((f.climb k n).getLast?.getD n) = none := by
  induction k generalizing n with
  | zero => cases hShort
  | succ k ih =>
    cases hParent : f.parent? n with
    | none => simp [climb, hParent]
    | some p =>
      have hClimb : f.climb (k + 1) n = p :: f.climb k p := by simp [climb, hParent]
      rw [hClimb] at hShort ⊢
      have hRest := ih (n := p) (by simpa using hShort)
      rw [List.getLast?_cons]
      simpa using hRest

omit hf in
theorem up_root (n : NodeId) : f.Up n (f.root n) :=
  up_getLast_climb f.size n

theorem parent_root (n : NodeId) : f.parent? (f.root n) = none := by
  cases hParent : f.parent? n with
  | none =>
    have hClimb : ∀ k, f.climb k n = [] := by
      intro k
      cases k <;> simp [climb, hParent]
    simpa [root, ancestors, hClimb] using hParent
  | some p =>
    have hn := lt_size_of_parent hParent
    have hLen := length_le_size (hf.climb_nodup f.size n) (by
      intro x hx
      rcases List.mem_cons.mp hx with rfl | hx
      · exact hn
      · exact hf.climb_lt_size hx)
    exact parent_getLast_climb (by simp only [List.length_cons] at hLen; omega)

/-- The root of a node is the node without a parent that is reached from it. -/
theorem root_eq_iff {n r : NodeId} : f.root n = r ↔ f.Up n r ∧ f.parent? r = none := by
  constructor
  · rintro rfl
    exact ⟨up_root n, hf.parent_root n⟩
  · rintro ⟨hUp, hNone⟩
    rcases Up.total (up_root n) hUp with h | h
    · exact h.eq_of_parent_none (hf.parent_root n)
    · exact (h.eq_of_parent_none hNone).symm

/-! ## What is below -/

omit hf in
theorem preorder_mono {k : Nat} {n m : NodeId} (h : m ∈ f.preorder k n) :
    m ∈ f.preorder (k + 1) n := by
  induction k generalizing n with
  | zero => cases h
  | succ k ih =>
    rw [preorder] at h ⊢
    rcases List.mem_cons.mp h with rfl | h
    · exact List.mem_cons_self
    · obtain ⟨c, hc, hMem⟩ := List.mem_flatMap.mp h
      exact List.mem_cons_of_mem _ (List.mem_flatMap.mpr ⟨c, hc, ih hMem⟩)

theorem up_of_mem_preorder {k : Nat} {n m : NodeId} (h : m ∈ f.preorder k n) : f.Up m n := by
  induction k generalizing n with
  | zero => cases h
  | succ k ih =>
    rw [preorder] at h
    rcases List.mem_cons.mp h with rfl | h
    · exact up_refl m
    · obtain ⟨c, hc, hMem⟩ := List.mem_flatMap.mp h
      exact Up.trans (ih hMem) (up_parent ((hf.mem_children n c).mp hc))

/-- What is listed below a node is listed below all that a climb from it meets. -/
theorem mem_preorder_of_mem_climb {k j : Nat} {m q n : NodeId} (hm : m ∈ f.preorder k q)
    (hn : n ∈ q :: f.climb j q) : m ∈ f.preorder (k + j) n := by
  induction j generalizing q k with
  | zero =>
    obtain rfl : n = q := by simpa [climb] using hn
    exact hm
  | succ j ih =>
    rcases List.mem_cons.mp hn with rfl | hn
    · have hMono : ∀ i, m ∈ f.preorder (k + i) n := by
        intro i
        induction i with
        | zero => exact hm
        | succ i ih => exact preorder_mono ih
      exact hMono (j + 1)
    · unfold climb at hn
      split at hn
      · cases hn
      · rename_i p hParent
        have hStep : m ∈ f.preorder (k + 1) p := by
          rw [preorder]
          exact List.mem_cons_of_mem _
            (List.mem_flatMap.mpr ⟨q, (hf.mem_children p q).mpr hParent, hm⟩)
        have hRest := ih hStep hn
        rwa [show k + 1 + j = k + (j + 1) by omega] at hRest

theorem mem_preorder_of_up {n m : NodeId} {k : Nat} (hk : f.size ≤ k) (hPos : 0 < k)
    (h : f.Up m n) : m ∈ f.preorder k n := by
  obtain ⟨j, rfl⟩ : ∃ j, k = 1 + j := ⟨k - 1, by omega⟩
  have hSelf : m ∈ f.preorder 1 m := by simp [preorder]
  exact hf.mem_preorder_of_mem_climb hSelf (hf.mem_climb_of_up (by omega) h)

/-- The descendants of a node are the nodes from whose parent it is reached. -/
theorem mem_descendants {n m : NodeId} :
    m ∈ f.descendants n ↔ ∃ p, f.parent? m = some p ∧ f.Up p n := by
  simp only [descendants, List.mem_flatMap]
  constructor
  · rintro ⟨c, hc, hMem⟩
    have hParent := (hf.mem_children n c).mp hc
    rcases (hf.up_of_mem_preorder hMem).cases_first with rfl | ⟨p, hp, hUp⟩
    · exact ⟨n, hParent, up_refl n⟩
    · exact ⟨p, hp, Up.trans hUp (up_parent hParent)⟩
  · rintro ⟨p, hp, hUp⟩
    rcases (Up.trans (up_parent hp) hUp).cases_last with rfl | ⟨c, hc, hParent⟩
    · exact absurd hUp (hf.acyclic m p hp)
    · have hSize := lt_size_of_parent hParent
      exact ⟨c, (hf.mem_children n c).mpr hParent,
        hf.mem_preorder_of_up (Nat.le_refl f.size) (Nat.zero_lt_of_lt hSize) hc⟩

theorem mem_self_descendants {n m : NodeId} : m ∈ n :: f.descendants n ↔ f.Up m n := by
  rw [List.mem_cons, hf.mem_descendants]
  constructor
  · rintro (rfl | ⟨p, hp, hUp⟩)
    · exact up_refl m
    · exact Up.trans (up_parent hp) hUp
  · intro hUp
    rcases hUp.cases_first with rfl | hStep
    · exact .inl rfl
    · exact .inr hStep

end Linked

end Forest

end LiveMarkup
