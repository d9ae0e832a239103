import LiveMarkup.Proofs.Dom.Order
import Mathlib.Data.List.Sort

/-!
# What selectors find

A chain of compounds asks for nodes one inside the other. The matcher goes up from a node once and
takes every compound at the nearest ancestor that fits. Whatever fits further out could have been
taken there too, so that this walk finds a match if there is one.

* `Forest.Above`: proper ancestors, `Linked.sublist_ancestors_iff`: some of them in order;
* `Selector.Nested`, `Selector.Matches`: what a chain and a selector mean, without a walk;
* `Selector.climbs_iff`, `Selector.acceptsChain_iff`: the walk is the meaning;
* `Dom.Lists`: the nodes with a property in document order, each once;
* `Dom.selects_exactly`: the answers for a node and for a container, live or not.
-/

namespace LiveMarkup

namespace Forest

variable {α : Type} {f : Forest α} {a m n : NodeId}

/-- The first of two nodes is a proper ancestor of the second. -/
def Above (f : Forest α) (a n : NodeId) : Prop :=
  a ≠ n ∧ f.Up n a

namespace Linked

variable (hf : f.Linked)
include hf

theorem above_iff : f.Above a n ↔ ∃ p, f.parent? n = some p ∧ f.Up p a := by
  constructor
  · rintro ⟨hNe, hUp⟩
    exact hUp.cases_first.resolve_left fun h => hNe h.symm
  · rintro ⟨p, hParent, hUp⟩
    refine ⟨?_, (up_parent hParent).trans hUp⟩
    rintro rfl
    exact hf.acyclic a p hParent hUp

theorem above_iff_children : f.Above a n ↔ ∃ k ∈ f.children a, f.Up n k := by
  constructor
  · rintro ⟨hNe, hUp⟩
    obtain ⟨k, hk, hParent⟩ := hUp.cases_last.resolve_left fun h => hNe h.symm
    exact ⟨k, (hf.mem_children a k).mpr hParent, hk⟩
  · rintro ⟨k, hk, hUp⟩
    have hParent := (hf.mem_children a k).mp hk
    refine ⟨?_, hUp.trans (up_parent hParent)⟩
    rintro rfl
    exact hf.acyclic k a hParent hUp

theorem mem_ancestors_iff_above : m ∈ f.ancestors n ↔ f.Above m n :=
  hf.mem_ancestors.trans hf.above_iff.symm

theorem mem_descendants_iff_above : m ∈ f.descendants n ↔ f.Above n m :=
  hf.mem_descendants.trans hf.above_iff.symm

theorem above_asymm (h : f.Above a n) : ¬ f.Above n a :=
  fun h' => h.1 (hf.up_antisymm h'.2 h.2)

theorem above_of_up (h : f.Above a n) (hUp : f.Up m n) : f.Above a m := by
  refine ⟨?_, hUp.trans h.2⟩
  rintro rfl
  exact h.1 (hf.up_antisymm hUp h.2)

theorem climb_nested (k : Nat) (n : NodeId) :
    (n :: f.climb k n).Pairwise fun b a => f.Above a b := by
  induction k generalizing n with
  | zero => exact List.pairwise_singleton _ n
  | succ k ih =>
    refine List.pairwise_cons.mpr ⟨fun a ha => hf.above_iff.mpr (up_of_mem_climb ha), ?_⟩
    unfold climb
    split
    · exact .nil
    · exact ih _

/-- Nodes that are one inside the other around a node are some of its ancestors, in order. -/
theorem sublist_ancestors_iff {found : List NodeId} :
    found.Sublist (f.ancestors n) ↔ (n :: found).Pairwise fun b a => f.Above a b := by
  have hNested := hf.climb_nested f.size n
  constructor
  · exact fun h => hNested.sublist (h.cons_cons n)
  · intro h
    have hAsymm : ∀ b a : NodeId, f.Above a b → f.Above b a → b = a :=
      fun b a h h' => absurd h' (hf.above_asymm h)
    have : Std.Antisymm fun b a : NodeId => f.Above a b := ⟨hAsymm⟩
    obtain ⟨hFirst, hFound⟩ := List.pairwise_cons.mp h
    have hNodup : found.Nodup := hFound.imp fun h => h.1.symm
    have hSubset : found ⊆ f.ancestors n := fun a ha =>
      hf.mem_ancestors_iff_above.mpr (hFirst a ha)
    exact List.sublist_of_subperm_of_pairwise (List.subperm_of_subset hNodup hSubset) hFound
      (List.pairwise_cons.mp hNested).2

end Linked

/-- Parent links that agree with the lists of children and go from later nodes to earlier ones are
those of a tree. -/
theorem linked_of_numbered
    (hRows : ∀ p < f.size, (f.children p).Nodup ∧ ∀ n ∈ f.children p, f.parent? n = some p)
    (hParents : ∀ n < f.size, ∀ p ∈ f.parent? n, p < n ∧ n ∈ f.children p) :
    f.Linked where
  mem_children p n :=
    ⟨fun h => (hRows p (lt_size_of_mem_children h)).2 n h,
      fun h => (hParents n (lt_size_of_parent h) p h).2⟩
  nodup p := by
    by_cases hp : p < f.size
    · exact (hRows p hp).1
    · rw [List.eq_nil_iff_forall_not_mem.mpr fun n hn => hp (lt_size_of_mem_children hn)]
      exact .nil
  ranked := ⟨id, fun n p h => (hParents n (lt_size_of_parent h) p h).1⟩

end Forest

namespace Selector

variable {d : Dom} {n : NodeId}

/-- Whether the last entry of a chain fits a node and the entries before fit nodes around it, one
inside the other, in this order. -/
def Nested {β : Type} (Fits : β → NodeId → Prop) (d : Dom) (chain : List β) (n : NodeId) : Prop :=
  ∃ before last around, chain = before ++ [last] ∧ Fits last n ∧
    List.Forall₂ Fits before around ∧ (around ++ [n]).Pairwise d.nodes.Above

section

variable {β γ : Type} {Fits Fits' : β → NodeId → Prop} {chain : List β}

theorem Nested.imp (h : Nested Fits d chain n) (hImp : ∀ c ∈ chain, ∀ a, Fits c a → Fits' c a) :
    Nested Fits' d chain n := by
  obtain ⟨before, last, around, rfl, hLast, hAround, hNested⟩ := h
  refine ⟨before, last, around, rfl, hImp last (by simp) n hLast, ?_, hNested⟩
  have hBefore : ∀ c ∈ before, ∀ a, Fits c a → Fits' c a := fun c hc =>
    hImp c (List.mem_append_left _ hc)
  exact ((List.forall₂_and_left before around).mpr ⟨hBefore, hAround⟩).imp fun _ _ h => h.1 _ h.2

theorem nested_singleton {c : β} : Nested Fits d [c] n ↔ Fits c n := by
  constructor
  · rintro ⟨before, last, around, hChain, hLast, -, -⟩
    obtain ⟨-, hEq⟩ := List.append_inj' ((List.nil_append [c]).trans hChain) rfl
    exact (List.singleton_inj.mp hEq) ▸ hLast
  · exact fun h => ⟨[], c, [], rfl, h, .nil, List.pairwise_singleton _ n⟩

theorem nested_map {Fits : γ → NodeId → Prop} {f : β → γ} :
    Nested Fits d (chain.map f) n ↔ Nested (fun c a => Fits (f c) a) d chain n := by
  constructor
  · rintro ⟨before, last, around, hChain, hLast, hAround, hNested⟩
    obtain ⟨before, tail, rfl, rfl, hTail⟩ := List.map_eq_append_iff.mp hChain
    obtain ⟨last, rfl, rfl⟩ := List.map_eq_singleton_iff.mp hTail
    exact ⟨before, last, around, rfl, hLast, List.forall₂_map_left_iff.mp hAround, hNested⟩
  · rintro ⟨before, last, around, rfl, hLast, hAround, hNested⟩
    exact ⟨before.map f, f last, around, by simp, hLast, List.forall₂_map_left_iff.mpr hAround,
      hNested⟩

end

/-- What a selector means: an alternative of it is nested around the node. -/
def Matches (s : Selector) (d : Dom) (n : NodeId) : Prop :=
  ∃ chain ∈ s.alternatives, Nested (fun c a => Compound.accepts c d a = true) d chain n

/-- The walk finds compounds in order at the nearest nodes that fit if they can be found in order
at all. -/
theorem climbs_iff {compounds : List Compound} {above : List NodeId} :
    climbs d compounds above = true ↔
      ∃ found, found.Sublist above ∧
        List.Forall₂ (fun c a => Compound.accepts c d a = true) compounds found := by
  induction above generalizing compounds with
  | nil =>
    cases compounds with
    | nil => exact iff_of_true rfl ⟨[], .slnil, .nil⟩
    | cons c rest =>
      refine iff_of_false Bool.false_ne_true ?_
      rintro ⟨found, hSub, hFound⟩
      obtain rfl := List.sublist_nil.mp hSub
      cases hFound
  | cons n above ih =>
    cases compounds with
    | nil => exact iff_of_true rfl ⟨[], List.nil_sublist _, .nil⟩
    | cons c rest =>
      unfold climbs
      split
      next hFits =>
        rw [ih]
        constructor
        · rintro ⟨found, hSub, hFound⟩
          exact ⟨n :: found, hSub.cons_cons n, .cons hFits hFound⟩
        -- wherever the compound is found, those after it are found above this node
        · rintro ⟨_, hSub, hFound⟩
          obtain ⟨m, found, -, hRest, rfl⟩ := List.forall₂_cons_left_iff.mp hFound
          exact ⟨found, hSub.tail, hRest⟩
      next hOther =>
        rw [ih]
        constructor
        · rintro ⟨found, hSub, hFound⟩
          exact ⟨found, hSub.cons n, hFound⟩
        · rintro ⟨_, hSub, hFound⟩
          obtain ⟨m, found, hFits, hRest, rfl⟩ := List.forall₂_cons_left_iff.mp hFound
          refine ⟨m :: found, ?_, .cons hFits hRest⟩
          rcases List.sublist_cons_iff.mp hSub with hIn | ⟨_, hEq, -⟩
          · exact hIn
          · exact absurd ((List.cons_eq_cons.mp hEq).1 ▸ hFits) hOther

theorem acceptsChain_iff (hf : d.nodes.Linked) {chain : List Compound} :
    acceptsChain d n chain = true ↔ Nested (fun c a => c.accepts d a = true) d chain n := by
  unfold acceptsChain
  split
  next hNil =>
    obtain rfl := List.reverse_eq_nil_iff.mp hNil
    refine iff_of_false Bool.false_ne_true ?_
    rintro ⟨before, last, -, hChain, -⟩
    exact List.append_ne_nil_of_right_ne_nil before (List.cons_ne_nil last []) hChain.symm
  next last rest hRev =>
    have hChain : chain = rest.reverse ++ [last] := by
      rw [← List.reverse_cons, ← hRev, List.reverse_reverse]
    rw [Bool.and_eq_true, climbs_iff, hChain]
    constructor
    · rintro ⟨hLast, found, hSub, hFound⟩
      refine ⟨rest.reverse, last, found.reverse, rfl, hLast, List.rel_reverse hFound, ?_⟩
      rw [← List.reverse_cons, List.pairwise_reverse]
      exact hf.sublist_ancestors_iff.mp hSub
    · rintro ⟨before, last', around, hEq, hLast, hAround, hNested⟩
      obtain ⟨rfl, hSame⟩ := List.append_inj' hEq rfl
      obtain rfl := List.singleton_inj.mp hSame
      refine ⟨hLast, around.reverse, hf.sublist_ancestors_iff.mpr ?_, ?_⟩
      · rw [← List.pairwise_reverse, List.reverse_cons, List.reverse_reverse]
        exact hNested
      · simpa only [List.reverse_reverse] using List.rel_reverse hAround

theorem accepts_iff (hf : d.nodes.Linked) (s : Selector) (n : NodeId) :
    s.accepts d n = true ↔ s.Matches d n := by
  simp only [accepts, List.any_eq_true, acceptsChain_iff hf, Matches]

end Selector

namespace Dom

variable {d : Dom} {m : NodeId} {s : Selector} {c : ContainerId}

/-- The nodes with a property, in document order, each of them once. -/
structure Lists (d : Dom) (found : List NodeId) (P : NodeId → Prop) : Prop where
  ordered : found.Pairwise d.nodes.Before
  nodup : found.Nodup
  mem_iff : ∀ m, m ∈ found ↔ P m

theorem mem_select (hf : d.nodes.Linked) {root : NodeId} :
    m ∈ d.select root s ↔ d.nodes.Above root m ∧ s.Matches d m := by
  unfold select descendants
  rw [List.mem_filter, hf.mem_descendants_iff_above, Selector.accepts_iff hf]

theorem select_ordered (hf : d.nodes.Linked) (root : NodeId) (s : Selector) :
    (d.select root s).Pairwise d.nodes.Before :=
  ((List.pairwise_cons.mp (hf.self_descendants_ordered root)).2).filter _

theorem lists_of_ordered (hf : d.nodes.Linked) {found : List NodeId} {P : NodeId → Prop}
    (hOrdered : found.Pairwise d.nodes.Before) (hMem : ∀ m, m ∈ found ↔ P m) :
    d.Lists found P where
  ordered := hOrdered
  nodup := by
    refine hOrdered.imp ?_
    rintro a b hBefore rfl
    exact hf.not_before_self a hBefore
  mem_iff := hMem

theorem mem_of_mem_between {start finish : NodeId} {row : List NodeId}
    (h : m ∈ between start finish row) : m ∈ row :=
  (List.dropWhile_sublist _).subset (List.mem_of_mem_drop ((List.takeWhile_sublist _).subset h))

theorem spanContains_iff (hf : d.nodes.Linked) :
    d.spanContains c m = true ↔ ∃ k ∈ d.span c, d.nodes.Up m k := by
  have hSelf : ∀ k, k ∈ m :: d.nodes.ancestors m ↔ d.nodes.Up m k := fun k => by
    rw [← hf.contains_iff, Forest.contains, Bool.or_eq_true, beq_iff_eq, List.mem_cons,
      List.contains_iff_mem]
  simp only [spanContains, List.any_eq_true, hSelf, List.contains_iff_mem, and_comm]

/-- What is in the span of a live container is in the tree that its first marker is in. -/
theorem above_root_of_mem_span (hf : d.nodes.Linked) (hLive : (d.container c).live = true)
    {k : NodeId} (hk : k ∈ d.span c) (hUp : d.nodes.Up m k) :
    d.nodes.Above (d.nodes.root (d.container c).start) m := by
  simp only [span, hLive, if_true] at hk
  cases hParent : d.parent? (d.container c).start with
  | none =>
    rw [hParent] at hk
    cases hk
  | some p =>
    rw [hParent] at hk
    have hParent' : d.nodes.parent? k = some p := (hf.mem_children p k).mp (mem_of_mem_between hk)
    refine hf.above_of_up (hf.above_iff.mpr ⟨p, hParent', ?_⟩) hUp
    rcases (Forest.Linked.up_root (d.container c).start).cases_first with hSelf | ⟨q, hq, hRoot⟩
    · have hNone := hf.parent_root (d.container c).start
      rw [← hSelf] at hNone
      cases hNone.symm.trans hParent
    · obtain rfl := Option.some.inj (hParent.symm.trans hq)
      exact hRoot

theorem mem_selectIn (hf : d.nodes.Linked) :
    m ∈ d.selectIn c s ↔ (∃ k ∈ d.span c, d.nodes.Up m k) ∧ s.Matches d m := by
  simp only [selectIn]
  split
  next hLive =>
    rw [List.mem_filter, mem_select hf, spanContains_iff hf]
    constructor
    · exact fun h => ⟨h.2, h.1.2⟩
    · rintro ⟨⟨k, hk, hUp⟩, hMatch⟩
      exact ⟨⟨above_root_of_mem_span hf hLive hk hUp, hMatch⟩, k, hk, hUp⟩
  next hLive =>
    rw [mem_select hf, span_of_not_live (Bool.eq_false_of_not_eq_true hLive),
      hf.above_iff_children]
    exact Iff.rfl

theorem selectIn_ordered (hf : d.nodes.Linked) (c : ContainerId) (s : Selector) :
    (d.selectIn c s).Pairwise d.nodes.Before := by
  simp only [selectIn]
  split
  · exact (select_ordered hf _ s).filter _
  · exact select_ordered hf _ s

/-- A node matches a selector exactly if nodes around it make the chain complete. The answer for a
node lists what matches below it, the answer for a container what matches among its children and
below them, both in document order and without repetition. -/
theorem selects_exactly (hf : d.nodes.Linked) :
    (∀ s : Selector, ∀ n, s.accepts d n = true ↔ s.Matches d n) ∧
    (∀ s root, d.Lists (d.select root s) fun m => d.nodes.Above root m ∧ s.Matches d m) ∧
    ∀ s c, d.Lists (d.selectIn c s) fun m =>
      (∃ k ∈ d.span c, d.nodes.Up m k) ∧ s.Matches d m :=
  ⟨fun s n => Selector.accepts_iff hf s n,
    fun s root => lists_of_ordered hf (select_ordered hf root s) fun _ => mem_select hf,
    fun s c => lists_of_ordered hf (selectIn_ordered hf c s) fun _ => mem_selectIn hf⟩

/-- A live container in an element: an item in an item of a list is in it, another item behind. -/
def gallery : Dom where
  nodes := ⟨#[⟨.element "div" [], none, [1, 2, 3, 4]⟩, ⟨.comment "", some 0, []⟩,
    ⟨.element "ul" [], some 0, [6]⟩, ⟨.comment "", some 0, []⟩, ⟨.element "li" [], some 0, []⟩,
    ⟨.document, none, []⟩, ⟨.element "li" [], some 2, [7]⟩, ⟨.element "li" [], some 6, []⟩]⟩
  containers := #[{ start := 1, finish := 3, fragment := 5, live := true }]

/-- The selector `div li`. -/
def items : Selector :=
  ⟨[[{ tag := some "div" }, { tag := some "li" }]]⟩

theorem selects_exactly_gallery :
    gallery.nodes.Linked ∧ Selector.parse? "div li" = some items ∧
      gallery.select 0 items = [6, 7, 4] ∧ gallery.selectIn 0 items = [6, 7] ∧
      items.Matches gallery 7 ∧
      ∀ m, m ∈ [6, 7] ↔ (∃ k ∈ [2], gallery.nodes.Up m k) ∧ items.Matches gallery m := by
  have hf : gallery.nodes.Linked := Forest.linked_of_numbered (by decide) (by decide)
  obtain ⟨hAccepts, -, hContainer⟩ := selects_exactly hf
  have hFound : gallery.selectIn 0 items = [6, 7] := by decide +kernel
  have hIn := (hContainer items 0).mem_iff
  rw [hFound] at hIn
  exact ⟨hf, by decide +kernel, by decide +kernel, hFound,
    (hAccepts items 7).mp (by decide +kernel), hIn⟩

end Dom

end LiveMarkup
