import LiveMarkup.Proofs.Dom.Taking
import LiveMarkup.Proofs.Dom.Shelf
import Mathlib.Data.List.Nodup
import Mathlib.Data.List.Pairwise

/-!
# The nodes and containers in a parent

The children of a node or container stand in one row, and those of the containers among them stand
in the same row between their markers. Read with the markers as brackets, the row is a list of
nodes and containers: the kin of the parent.

* `Sound.row_kin`: the row of a parent is made of the runs of its kin;
* `Sound.kin_inj`: nothing is kin of two parents;
* `Sound.below_of_inside`: what is inside a node or container is reached from it through kin;
* `Sits.kin`, `Leaves.kin`: the kin of all parents after a change of place.
-/

namespace LiveMarkup

namespace Dom

variable {d d' : Dom}

/-! ## Reading a row -/

/-- The nodes and containers in a row: what follows the start marker of a container is skipped up
to its end marker. -/
def units (mark : NodeId → Bracket) : Option ContainerId → List NodeId → List NodeRef
  | _, [] => []
  | some c, n :: rest =>
    if mark n = .closes c then units mark none rest else units mark (some c) rest
  | none, n :: rest =>
    match mark n with
    | .plain => .node n :: units mark none rest
    | .opens c => .container c :: units mark (some c) rest
    | .closes _ => units mark none rest

/-- The nodes and containers that stand in a node or container. -/
def kin (d : Dom) (p : NodeRef) : List NodeRef :=
  units d.mark none (d.childrenOf p)

/-- The part of a row that stands for a node or container. -/
def Block (mark : NodeId → Bracket) : NodeRef → List NodeId → Prop
  | .node n, l => l = [n] ∧ mark n = .plain
  | .container c, l => ∃ n s m, l = n :: (s ++ [m]) ∧ mark n = .opens c ∧ mark m = .closes c ∧
      ∀ k ∈ s, mark k ≠ .closes c

theorem units_skip {mark : NodeId → Bracket} {c : ContainerId} {s rest : List NodeId}
    (h : ∀ k ∈ s, mark k ≠ .closes c) :
    units mark (some c) (s ++ rest) = units mark (some c) rest := by
  induction s with
  | nil => rfl
  | cons k s ih =>
    rw [List.cons_append, units, if_neg (h k List.mem_cons_self)]
    exact ih fun j hj => h j (List.mem_cons_of_mem _ hj)

theorem units_block {mark : NodeId → Bracket} {x : NodeRef} {l rest : List NodeId}
    (h : Block mark x l) : units mark none (l ++ rest) = x :: units mark none rest := by
  cases x with
  | node n =>
    obtain ⟨rfl, hn⟩ := h
    simp [units, hn]
  | container c =>
    obtain ⟨n, s, m, rfl, hn, hm, hs⟩ := h
    have hSkip : units mark (some c) (s ++ (m :: rest)) = units mark none rest := by
      rw [units_skip hs, units, if_pos hm]
    simp [units, hn, hSkip]

theorem units_append {mark : NodeId → Bracket} {xs : List NodeRef} {f : NodeRef → List NodeId}
    (h : ∀ x ∈ xs, Block mark x (f x)) (rest : List NodeId) :
    units mark none (xs.flatMap f ++ rest) = xs ++ units mark none rest := by
  induction xs with
  | nil => rfl
  | cons x xs ih =>
    rw [List.flatMap_cons, List.append_assoc, units_block (h x List.mem_cons_self),
      ih fun y hy => h y (List.mem_cons_of_mem _ hy), List.cons_append]

theorem units_flatMap {mark : NodeId → Bracket} {xs : List NodeRef} {f : NodeRef → List NodeId}
    (h : ∀ x ∈ xs, Block mark x (f x)) : units mark none (xs.flatMap f) = xs := by
  simpa [units] using units_append h []

theorem Block.filter {mark : NodeId → Bracket} {x : NodeRef} {l : List NodeId}
    (h : Block mark x l) (p : NodeId → Bool)
    (hKeep : ∀ k ∈ l, (mark k = .plain ∧ x = .node k) ∨ (∃ c, x = .container c ∧
      (mark k = .opens c ∨ mark k = .closes c)) → p k = true) : Block mark x (l.filter p) := by
  cases x with
  | node n =>
    obtain ⟨rfl, hn⟩ := h
    have hp : p n = true := hKeep n (by simp) (.inl ⟨hn, rfl⟩)
    exact ⟨by simp [hp], hn⟩
  | container c =>
    obtain ⟨n, s, m, rfl, hn, hm, hs⟩ := h
    have hpn : p n = true := hKeep n (by simp) (.inr ⟨c, rfl, .inl hn⟩)
    have hpm : p m = true := hKeep m (by simp) (.inr ⟨c, rfl, .inr hm⟩)
    refine ⟨n, s.filter p, m, ?_, hn, hm, fun k hk => hs k (List.mem_filter.mp hk).1⟩
    simp [hpn, hpm]

namespace Sound

variable (hd : d.Sound)
include hd

/-! ## Runs as blocks -/

theorem block_run {x : NodeRef} (hx : d.Known x) : Block d.mark x (d.runOf x) := by
  cases x with
  | node n => exact ⟨rfl, Plain.mark hx⟩
  | container c =>
    refine ⟨_, d.span c, _, runOf_container d c, hd.mark_start hx, hd.mark_finish hx, ?_⟩
    intro k hk hMark
    obtain ⟨_, rfl⟩ := eq_part_of_closes hMark
    exact hd.finish_not_mem_span hx hk

theorem finish_mem_run_iff {r : NodeRef} {c : ContainerId} (hr : d.Known r)
    (hc : c < d.containers.size) :
    d.part c .finish ∈ d.runOf r ↔ d.part c .start ∈ d.runOf r := by
  cases r with
  | node n =>
    refine iff_of_false (fun h => ?_) fun h => ?_
    · exact hr.ne_part c hc .finish (mem_runOf_node.mp h).symm
    · exact hr.ne_part c hc .start (mem_runOf_node.mp h).symm
  | container c' =>
    by_cases hEq : c = c'
    · subst hEq
      exact iff_of_true (mem_run.mpr (.inr (.inr rfl))) (mem_run.mpr (.inl rfl))
    have hNe : ∀ p q, d.part c p ≠ d.part c' q := fun p q he =>
      hEq (hd.part_inj c hc c' hr p q he).1
    have hIff : ∀ p, d.part c p ∈ d.runOf (.container c') ↔ d.part c p ∈ d.span c' := fun p => by
      rw [mem_run, or_iff_right (hNe p .start), or_iff_left (hNe p .finish)]
    rw [hIff, hIff]
    constructor
    · intro hMem
      obtain ⟨n, hn, hMark⟩ := (hd.balanced_span hr).opens_of_closes hMem (hd.mark_finish hc)
      obtain ⟨_, rfl⟩ := eq_part_of_opens hMark
      exact hn
    · intro hMem
      obtain ⟨u, rest, hSplit⟩ := List.append_of_mem hMem
      have hBalanced := hd.balanced_span hr
      rw [hSplit] at hBalanced ⊢
      obtain ⟨inner, m, v, rfl, hm, _⟩ := hBalanced.split (hd.mark_start hc)
      obtain ⟨_, rfl⟩ := eq_part_of_closes hm
      simp

/-- What stands in the run of something else is a whole run between its markers. -/
theorem run_within {x y : NodeRef} (hx : d.Known x) (hy : d.Known y) (hNe : x ≠ y)
    (hIn : d.key x ∈ d.runOf y) : ∃ c u v, y = .container c ∧ d.span c = u ++ d.runOf x ++ v := by
  cases y with
  | node m =>
    have hKey : d.key x = d.key (.node m) := mem_runOf_node.mp hIn
    exact absurd (hd.key_inj hx hy hKey) hNe
  | container c =>
    refine ⟨c, ?_⟩
    have hSpan : d.key x ∈ d.span c := by
      rcases mem_run.mp hIn with hEq | hSpan | hEq
      · exact absurd (hd.key_inj hx hy hEq) hNe
      · exact hSpan
      · exact absurd hEq (hd.key_ne_finish hx hy)
    obtain ⟨u, rest, hSplit⟩ := List.append_of_mem hSpan
    cases x with
    | node n => exact ⟨u, rest, rfl, by simpa [runOf, key] using hSplit⟩
    | container c' =>
      have hBalanced := hd.balanced_span hy
      rw [hSplit] at hBalanced
      obtain ⟨inner, m, v, rfl, hm, _⟩ := hBalanced.split (hd.mark_start hx)
      obtain ⟨_, rfl⟩ := eq_part_of_closes hm
      have hHost : d.parent? (d.part c' .start) = d.spanHost? c := hd.parent_of_mem_span hy hSpan
      obtain ⟨host, a, b, hSome, hRow, _⟩ := hd.flanked_row hy
      have hInner : d.span c' = inner := by
        refine span_eq_of_row (u := a ++ u) (v := v ++ b)
          ((hd.live_iff c' hx).mpr ⟨host, hHost.trans hSome⟩) (hHost.trans hSome) ?_ (hd.nodup host)
        rw [hRow, hSplit, key_container]
        simp
      refine ⟨u, v, rfl, ?_⟩
      rw [hSplit, runOf_container, hInner, key_container]
      simp

theorem run_subset_within {x y : NodeRef} (hx : d.Known x) (hy : d.Known y)
    (hIn : d.key x ∈ d.runOf y) : ∀ k ∈ d.runOf x, k ∈ d.runOf y := by
  by_cases hEq : x = y
  · rw [hEq]
    exact fun _ hk => hk
  · obtain ⟨c, u, v, rfl, hSpan⟩ := hd.run_within hx hy hEq hIn
    intro k hk
    refine mem_run.mpr (.inr (.inl ?_))
    rw [hSpan]
    simp [hk]

omit hd in
theorem childrenOf_subset_run {c : ContainerId} {k : NodeId} (h : k ∈ d.childrenOf (.container c)) :
    k ∈ d.runOf (.container c) :=
  mem_run.mpr (.inr (.inl h))

/-! ## Rows of runs -/

/-- A balanced part of a row is made of runs. -/
theorem exists_runs {host : NodeId} (k : Nat) : ∀ (u l v : List NodeId), l.length ≤ k →
    d.children host = u ++ l ++ v → Bracket.Balanced d.mark l →
      ∃ xs : List NodeRef, (∀ x ∈ xs, d.Known x) ∧ l = xs.flatMap d.runOf := by
  induction k with
  | zero =>
    intro u l v hLength _ _
    obtain rfl := List.length_eq_zero_iff.mp (Nat.le_zero.mp hLength)
    exact ⟨[], by simp, rfl⟩
  | succ k ih =>
    intro u l v hLength hRow hBalanced
    cases l with
    | nil => exact ⟨[], by simp, rfl⟩
    | cons n rest =>
      have hChild : d.parent? n = some host := hd.mem_children.mp (by rw [hRow]; simp)
      rw [List.length_cons] at hLength
      cases hMark : d.mark n with
      | plain =>
        have hn : d.Known (.node n) := by
          refine ⟨Forest.lt_size_of_parent hChild, fun c hc p hEq => ?_⟩
          cases p with
          | start =>
            rw [hEq, hd.mark_start hc] at hMark
            cases hMark
          | finish =>
            rw [hEq, hd.mark_finish hc] at hMark
            cases hMark
          | fragment =>
            rw [hEq, hd.fragment_root c hc] at hChild
            cases hChild
        have hRest : Bracket.Balanced d.mark rest := by
          have hRemove := Bracket.Balanced.remove (u := []) (w := [n]) (v := rest)
            (by simpa using hBalanced) (Bracket.balanced_singleton hMark)
          simpa using hRemove
        obtain ⟨xs, hKnown, hEq⟩ := ih (u ++ [n]) rest v (by omega) (by simp [hRow]) hRest
        exact ⟨.node n :: xs, List.forall_mem_cons.mpr ⟨hn, hKnown⟩, by simp [runOf, ← hEq]⟩
      | opens c =>
        obtain ⟨hc, rfl⟩ := eq_part_of_opens hMark
        obtain ⟨inner, m, w, rfl, hm, hInner⟩ :=
          Bracket.Balanced.split (u := []) (by simpa using hBalanced) hMark
        obtain ⟨_, rfl⟩ := eq_part_of_closes hm
        have hSpan : d.span c = inner :=
          span_eq_of_row (u := u) (v := w ++ v) ((hd.live_iff c hc).mpr ⟨host, hChild⟩) hChild
            (by simp [hRow]) (hd.nodup host)
        have hRun : d.runOf (.container c) = d.part c .start :: (inner ++ [d.part c .finish]) := by
          rw [runOf_container, hSpan]
        have hRest : Bracket.Balanced d.mark w := by
          have hRemove := Bracket.Balanced.remove (u := []) (w := d.runOf (.container c)) (v := w)
            (by simpa [hRun] using hBalanced) (hd.balanced_run hc)
          simpa using hRemove
        rw [List.length_append, List.length_cons] at hLength
        obtain ⟨xs, hKnown, hEq⟩ := ih (u ++ d.runOf (.container c)) w v (by omega)
          (by simp [hRow, hRun]) hRest
        exact ⟨.container c :: xs, List.forall_mem_cons.mpr ⟨hc, hKnown⟩, by
          rw [List.flatMap_cons, ← hEq, hRun]
          simp⟩
      | closes c =>
        exfalso
        simp [Bracket.Balanced, Bracket.scan_cons, Bracket.step, hMark] at hBalanced

theorem balanced_childrenOf {p : NodeRef} (hp : d.Known p) :
    Bracket.Balanced d.mark (d.childrenOf p) := by
  cases p with
  | node n => exact hd.balanced n
  | container c => exact hd.balanced_span hp

theorem kin_eq {p : NodeRef} {xs : List NodeRef} (hKnown : ∀ x ∈ xs, d.Known x)
    (hRow : d.childrenOf p = xs.flatMap d.runOf) : d.kin p = xs := by
  rw [kin, hRow]
  exact units_flatMap fun x hx => hd.block_run (hKnown x hx)

/-- The row of a parent is made of the runs of its kin. -/
theorem row_kin {p : NodeRef} (hp : d.Known p) :
    (∀ x ∈ d.kin p, d.Known x) ∧ d.childrenOf p = (d.kin p).flatMap d.runOf := by
  obtain ⟨host, u, v, hFramed⟩ := hd.exists_framed hp
  obtain ⟨xs, hKnown, hRow⟩ := hd.exists_runs _ u (d.childrenOf p) v le_rfl hFramed.row
    (hd.balanced_childrenOf hp)
  rw [hd.kin_eq hKnown hRow]
  exact ⟨hKnown, hRow⟩

variable {p q r x y : NodeRef}

theorem known_of_mem_kin (hp : d.Known p) (hx : x ∈ d.kin p) : d.Known x :=
  (hd.row_kin hp).1 x hx

theorem nodup_childrenOf (hp : d.Known p) : (d.childrenOf p).Nodup := by
  cases p with
  | node n => exact hd.nodup n
  | container c => exact hd.nodup_span hp

theorem run_subset_childrenOf (hp : d.Known p) (hx : x ∈ d.kin p) {k : NodeId}
    (hk : k ∈ d.runOf x) : k ∈ d.childrenOf p := by
  rw [(hd.row_kin hp).2]
  exact List.mem_flatMap.mpr ⟨x, hx, hk⟩

theorem pairwise_kin (hp : d.Known p) :
    (d.kin p).Pairwise fun x y => List.Disjoint (d.runOf x) (d.runOf y) := by
  have hNodup := hd.nodup_childrenOf hp
  rw [(hd.row_kin hp).2] at hNodup
  exact (List.nodup_flatMap.mp hNodup).2

theorem kin_apart (hp : d.Known p) (hx : x ∈ d.kin p) (hy : y ∈ d.kin p) {k : NodeId}
    (hkx : k ∈ d.runOf x) (hky : k ∈ d.runOf y) : x = y := by
  by_contra hNe
  have : Std.Symm fun x y => List.Disjoint (d.runOf x) (d.runOf y) := ⟨fun _ _ h _ ha hb => h hb ha⟩
  exact (hd.pairwise_kin hp).forall hx hy hNe hkx hky

theorem nodup_kin (hp : d.Known p) : (d.kin p).Nodup := by
  refine (hd.pairwise_kin hp).imp ?_
  rintro x _ hDisjoint rfl
  exact hDisjoint (key_mem_run x) (key_mem_run x)

theorem isPlaced_of_mem_kin (hp : d.Known p) (hx : x ∈ d.kin p) : d.isPlaced x = true := by
  refine (hd.isPlaced_iff (hd.known_of_mem_kin hp hx)).mpr ?_
  have hKey := hd.run_subset_childrenOf hp hx (key_mem_run x)
  cases p with
  | node n => exact ⟨n, hd.mem_children.mp hKey⟩
  | container c =>
    obtain ⟨host, hHost⟩ := hd.spanHost_some hp
    exact ⟨host, (hd.parent_of_mem_span hp hKey).trans hHost⟩

/-! ## One parent -/

theorem not_mem_childrenOf_self (hp : d.Known p) : d.key p ∉ d.childrenOf p := by
  cases p with
  | node n => exact fun h => hd.linked.acyclic n n (hd.mem_children.mp h) (Forest.up_refl n)
  | container c => exact hd.start_not_mem_span hp

theorem start_mem_children {c : ContainerId} {host : NodeId} (hLive : (d.container c).live = true)
    (hHost : d.spanHost? c = some host) : d.part c .start ∈ d.children host :=
  hd.mem_children.mpr ((spanHost_of_live hLive).symm.trans hHost)

/-- The rows of two parents that share a node are one, or one parent stands in the row of the
other. -/
theorem rows_cases (hp : d.Known p) (hq : d.Known q) {k : NodeId} (hkp : k ∈ d.childrenOf p)
    (hkq : k ∈ d.childrenOf q) :
    p = q ∨ d.key p ∈ d.childrenOf q ∨ d.key q ∈ d.childrenOf p := by
  have hBox : ∀ {c host}, d.Known (.container c) → k ∈ d.span c → d.parent? k = some host →
      d.spanHost? c = some host := fun hc hk hHost => (hd.parent_of_mem_span hc hk).symm.trans hHost
  have hDead : ∀ {c host}, (d.container c).live = false → d.spanHost? c = some host →
      d.part c .fragment = host := fun hLive hHost => by simpa [spanHost?, hLive, part] using hHost
  -- a container with its span among the children of a node
  have hNode : ∀ {m c}, d.Known (.node m) → d.Known (.container c) → k ∈ d.children m →
      k ∈ d.span c → d.part c .start ∈ d.children m := by
    intro m c hm hc hkm hkc
    have hHost := hBox hc hkc (hd.mem_children.mp hkm)
    cases hLive : (d.container c).live with
    | true => exact hd.start_mem_children hLive hHost
    | false => exact absurd (hDead hLive hHost).symm (hm.ne_part c hc .fragment)
  cases p with
  | node m =>
    cases q with
    | node m' =>
      have hSame := (hd.mem_children.mp hkp).symm.trans (hd.mem_children.mp hkq)
      exact .inl (congrArg NodeRef.node (Option.some.inj hSame))
    | container c => exact .inr (.inr (hNode hp hq hkp hkq))
  | container c =>
    cases q with
    | node m => exact .inr (.inl (hNode hq hp hkq hkp))
    | container c' =>
      obtain ⟨host, hHost⟩ := hd.spanHost_some hp
      have hHost' := hBox hq hkq ((hd.parent_of_mem_span hp hkp).trans hHost)
      by_cases hEq : c = c'
      · exact .inl (congrArg NodeRef.container hEq)
      cases hLive : (d.container c).live with
      | true =>
        cases hLive' : (d.container c').live with
        | true =>
          have hStart := (spanHost_of_live hLive).symm.trans hHost
          have hStart' := (spanHost_of_live hLive').symm.trans hHost'
          rcases hd.apart_or_nested hp hq hEq hLive hLive' (hStart.trans hStart'.symm) with
            hApart | hIn | hIn
          · exact absurd (childrenOf_subset_run hkq) (hApart k (childrenOf_subset_run hkp))
          · exact .inr (.inl (hIn _ (key_mem_run (.container c))))
          · exact .inr (.inr (hIn _ (key_mem_run (.container c'))))
        | false =>
          refine .inr (.inl ?_)
          have hMem := hd.start_mem_children hLive hHost
          rwa [← hDead hLive' hHost', ← span_of_not_live hLive'] at hMem
      | false =>
        cases hLive' : (d.container c').live with
        | true =>
          refine .inr (.inr ?_)
          have hMem := hd.start_mem_children hLive' hHost'
          rwa [← hDead hLive hHost, ← span_of_not_live hLive] at hMem
        | false =>
          have hSame := (hDead hLive hHost).trans (hDead hLive' hHost').symm
          exact absurd (hd.part_inj c hp c' hq _ _ hSame).1 hEq

theorem parent_eq_of_row (hp : d.Known p) {k j : NodeId} (hk : k ∈ d.childrenOf p)
    (hj : j ∈ d.childrenOf p) : d.parent? k = d.parent? j := by
  cases p with
  | node n => exact (hd.mem_children.mp hk).trans (hd.mem_children.mp hj).symm
  | container c => exact (hd.parent_of_mem_span hp hk).trans (hd.parent_of_mem_span hp hj).symm

/-- What is kin of a parent stands in the row of another one only if that is around the parent. -/
theorem kin_row_cases (hp : d.Known p) (hq : d.Known q) (hx : x ∈ d.kin q)
    (hIn : d.key x ∈ d.childrenOf p) : p = q ∨ d.key q ∈ d.childrenOf p := by
  have hKnown := hd.known_of_mem_kin hq hx
  have hKey := hd.run_subset_childrenOf hq hx (key_mem_run x)
  rcases hd.rows_cases hp hq hIn hKey with hEq | hUnder | hOver
  · exact .inl hEq
  · exfalso
    cases p with
    | node n =>
      have hSame := hd.parent_eq_of_row hq hKey hUnder
      rw [hd.mem_children.mp hIn] at hSame
      exact hd.linked.acyclic n n hSame.symm (Forest.up_refl n)
    | container c =>
      -- the kin whose run is around the container would be the one in it
      rw [(hd.row_kin hq).2] at hUnder
      obtain ⟨y, hy, hMem⟩ := List.mem_flatMap.mp hUnder
      have hyKnown := hd.known_of_mem_kin hq hy
      obtain rfl := hd.kin_apart hq hx hy (key_mem_run x)
        (hd.run_subset_within hp hyKnown hMem _ (childrenOf_subset_run hIn))
      by_cases hSelf : NodeRef.container c = x
      · subst hSelf
        exact hd.not_mem_childrenOf_self hp hIn
      · obtain ⟨c', u, v, rfl, hSpan⟩ := hd.run_within hp hKnown hSelf hMem
        refine hd.not_mem_childrenOf_self hKnown ?_
        change _ ∈ d.span c'
        rw [hSpan]
        exact List.mem_append_left _ (List.mem_append_right _ (childrenOf_subset_run hIn))
  · exact .inr hOver

theorem not_mutual (hp : d.Known p) (hq : d.Known q) (hpq : d.key p ∈ d.childrenOf q)
    (hqp : d.key q ∈ d.childrenOf p) : False := by
  have hMixed : ∀ {n c}, d.Known (.container c) → d.part c .start ∈ d.children n →
      n ∈ d.span c → False := by
    intro n c hc hStart hn
    have hHost := hd.mem_children.mp hStart
    have hParent := hd.parent_of_mem_span hc hn
    rw [spanHost_of_live ((hd.live_iff c hc).mpr ⟨n, hHost⟩), hHost] at hParent
    exact hd.linked.acyclic n n hParent (Forest.up_refl n)
  cases p with
  | node n =>
    cases q with
    | node m =>
      have hParent : d.parent? m = some n := hd.mem_children.mp hqp
      exact hd.linked.acyclic n m (hd.mem_children.mp hpq) (Forest.up_parent hParent)
    | container c => exact hMixed hq hqp hpq
  | container c =>
    cases q with
    | node m => exact hMixed hp hpq hqp
    | container c' =>
      by_cases hSelf : NodeRef.container c = .container c'
      · cases hSelf
        exact hd.not_mem_childrenOf_self hp hpq
      · obtain ⟨b, u, v, hb, hSpan⟩ := hd.run_within hp hq hSelf (childrenOf_subset_run hpq)
        cases hb
        refine hd.not_mem_childrenOf_self hq ?_
        change _ ∈ d.span c'
        rw [hSpan]
        exact List.mem_append_left _ (List.mem_append_right _ (childrenOf_subset_run hqp))

/-- Nothing is kin of two parents. -/
theorem kin_inj (hp : d.Known p) (hq : d.Known q) (hxp : x ∈ d.kin p) (hxq : x ∈ d.kin q) :
    p = q := by
  have hKeyP := hd.run_subset_childrenOf hp hxp (key_mem_run x)
  have hKeyQ := hd.run_subset_childrenOf hq hxq (key_mem_run x)
  rcases hd.kin_row_cases hp hq hxq hKeyP with hEq | hqp
  · exact hEq
  · rcases hd.kin_row_cases hq hp hxp hKeyQ with hEq | hpq
    · exact hEq.symm
    · exact (hd.not_mutual hp hq hpq hqp).elim

end Sound

/-! ## The way down -/

/-- What is reached from a node or container through kin. -/
inductive Below (d : Dom) (r : NodeRef) : NodeRef → Prop
  | self : Below d r r
  | kin {p x : NodeRef} (hp : Below d r p) (hx : x ∈ d.kin p) : Below d r x

theorem Below.trans {r p x : NodeRef} (h : d.Below r p) (h' : d.Below p x) : d.Below r x := by
  induction h' with
  | self => exact h
  | kin _ hx ih => exact ih.kin hx

namespace Sound

variable (hd : d.Sound) {p q r x : NodeRef}
include hd

theorem known_of_below (hr : d.Known r) (h : d.Below r x) : d.Known x := by
  induction h with
  | self => exact hr
  | kin _ hx ih => exact hd.known_of_mem_kin ih hx

/-- What stands in the row of a parent is reached from it: as its kin, or through a container that
takes up a part of the row. -/
theorem below_of_row (k : Nat) : ∀ {p}, d.Known p → (d.childrenOf p).length ≤ k → d.Known x →
    d.key x ∈ d.childrenOf p → d.Below p x := by
  induction k with
  | zero =>
    intro p _ hLength _ hIn
    rw [List.length_eq_zero_iff.mp (Nat.le_zero.mp hLength)] at hIn
    cases hIn
  | succ k ih =>
    intro p hp hLength hx hIn
    have hMem := hIn
    rw [(hd.row_kin hp).2] at hMem
    obtain ⟨y, hy, hKey⟩ := List.mem_flatMap.mp hMem
    by_cases hEq : x = y
    · exact .kin .self (hEq ▸ hy)
    · have hyKnown := hd.known_of_mem_kin hp hy
      obtain ⟨c, u, v, rfl, hSpan⟩ := hd.run_within hx hyKnown hEq hKey
      have hLess : (d.span c).length < (d.childrenOf p).length := by
        have hSub : d.runOf (.container c) ⊆ d.childrenOf p := fun n hn =>
          hd.run_subset_childrenOf hp hy hn
        have hLe := ((hd.nodup_run hyKnown).subperm hSub).length_le
        rw [runOf_container, List.length_cons, List.length_append] at hLe
        omega
      refine (Below.kin .self hy).trans (ih hyKnown (by change (d.span c).length ≤ k; omega) hx ?_)
      change _ ∈ d.span c
      rw [hSpan]
      exact List.mem_append_left _ (List.mem_append_right _ (key_mem_run x))

theorem exists_kin (hp : d.Known p) (hx : d.Known x) (hIn : d.key x ∈ d.childrenOf p) :
    ∃ q, d.Known q ∧ x ∈ d.kin q := by
  have hNe : x ≠ p := by
    rintro rfl
    exact hd.not_mem_childrenOf_self hp hIn
  cases hd.below_of_row _ hp le_rfl hx hIn with
  | self => exact absurd rfl hNe
  | kin hq hxq => exact ⟨_, hd.known_of_below hp hq, hxq⟩

theorem inside_of_below (hr : d.Known r) (h : d.Below r x) : d.Inside r (d.key x) := by
  induction h with
  | self => exact inside_key r
  | @kin p x hp hx ih =>
    have hpKnown := hd.known_of_below hr hp
    have hRow := hd.run_subset_childrenOf hpKnown hx (key_mem_run x)
    cases p with
    | node n => exact ih.of_up (Forest.up_parent (hd.mem_children.mp hRow))
    | container c =>
      obtain ⟨k, hk, hUp⟩ := ih
      rcases hUp.cases_first with rfl | ⟨host, hHost, hUp⟩
      · exact ⟨_, hd.run_subset_within hpKnown hr hk _ (childrenOf_subset_run hRow),
          Forest.up_refl _⟩
      · have hLive := (hd.live_iff c hpKnown).mpr ⟨host, hHost⟩
        have hParent := (hd.parent_of_mem_span hpKnown hRow).trans (spanHost_of_live hLive)
        exact ⟨k, hk, (Forest.up_parent (hParent.trans hHost)).trans hUp⟩

/-- What is inside a node or container is reached from it through kin. -/
theorem below_of_inside (hr : d.Known r) (hx : d.Known x) (h : d.Inside r (d.key x)) :
    d.Below r x := by
  obtain ⟨k, hk, hUp⟩ := h
  generalize hm : d.key x = m at hUp
  induction hUp using Relation.ReflTransGen.head_induction_on generalizing x with
  | refl =>
    by_cases hEq : x = r
    · exact hEq ▸ .self
    · obtain ⟨c, u, v, rfl, hSpan⟩ := hd.run_within hx hr hEq (hm ▸ hk)
      refine hd.below_of_row _ hr le_rfl hx ?_
      change _ ∈ d.span c
      rw [hSpan]
      exact List.mem_append_left _ (List.mem_append_right _ (key_mem_run x))
  | @head m p hParent hUp ih =>
    subst hm
    have hChild : d.key x ∈ d.children p := hd.mem_children.mpr hParent
    have hp : d.Known (.node p) := by
      refine ⟨hd.linked.parent_lt_size hParent, fun c hc q hEq => ?_⟩
      cases q with
      | start =>
        rw [hEq, hd.leaf c hc .start (by decide)] at hChild
        cases hChild
      | finish =>
        rw [hEq, hd.leaf c hc .finish (by decide)] at hChild
        cases hChild
      | fragment =>
        have hTop : d.parent? p = none := hEq ▸ hd.fragment_root c hc
        have hTopUp : d.nodes.Up p k := hUp
        rw [← hTopUp.eq_of_parent_none hTop, hEq] at hk
        exact hd.fragment_not_mem_run hr hc hk
    exact (ih hp rfl).trans (hd.below_of_row _ hp le_rfl hx hChild)

theorem inside_iff_below (hr : d.Known r) (hx : d.Known x) :
    d.Inside r (d.key x) ↔ d.Below r x :=
  ⟨hd.below_of_inside hr hx, hd.inside_of_below hr⟩

theorem not_below_kin (hp : d.Known p) (hx : x ∈ d.kin p) : ¬ d.Below x p := by
  intro hBelow
  obtain ⟨k, hk, hUp⟩ := hd.inside_of_below (hd.known_of_mem_kin hp hx) hBelow
  have hRow := hd.run_subset_childrenOf hp hx hk
  cases p with
  | node n => exact hd.linked.acyclic k n (hd.mem_children.mp hRow) hUp
  | container c =>
    rcases hUp.cases_first with rfl | ⟨host, hHost, hUp⟩
    · exact hd.start_not_mem_span hp hRow
    · have hLive := (hd.live_iff c hp).mpr ⟨host, hHost⟩
      have hParent := (hd.parent_of_mem_span hp hRow).trans (spanHost_of_live hLive)
      exact hd.linked.acyclic k host (hParent.trans hHost) hUp

/-- The parent of what is below a node or container, and not that itself, is below it as well. -/
theorem below_parent (hr : d.Known r) (hp : d.Known p) (hx : x ∈ d.kin p) (hNe : x ≠ r)
    (h : d.Below r x) : d.Below r p := by
  cases h with
  | self => exact absurd rfl hNe
  | kin hq hxq =>
    obtain rfl := hd.kin_inj hp (hd.known_of_below hr hq) hx hxq
    exact hq

/-- No member of a run is a child of another one. -/
theorem not_mem_children_of_run (hr : d.Known r) {m k : NodeId} (hm : m ∈ d.runOf r)
    (hk : k ∈ d.runOf r) : k ∉ d.children m := by
  intro hChild
  have hLoop : d.parent? m ≠ some m := fun hSelf =>
    hd.linked.acyclic m m hSelf (Forest.up_refl m)
  have hParent := hd.mem_children.mp hChild
  cases r with
  | node n =>
    obtain rfl := mem_runOf_node.mp hm
    obtain rfl := mem_runOf_node.mp hk
    exact hLoop hParent
  | container c =>
    rcases mem_run.mp hm with rfl | hSpan | rfl
    · rw [hd.leaf c hr .start (by decide)] at hChild
      cases hChild
    · refine hLoop ((hd.parent_of_mem_span hr hSpan).trans ?_)
      have hMarker : d.parent? (d.part c .start) = some m → d.spanHost? c = some m := fun hStart =>
        (spanHost_of_live ((hd.live_iff c hr).mpr ⟨m, hStart⟩)).trans hStart
      rcases mem_run.mp hk with rfl | hSpan' | rfl
      · exact hMarker hParent
      · exact (hd.parent_of_mem_span hr hSpan').symm.trans hParent
      · exact hMarker ((hd.parent_finish hr).symm.trans hParent)
    · rw [hd.leaf c hr .finish (by decide)] at hChild
      cases hChild

end Sound

/-! ## Changes of place -/

/-- A node or container changed its place as one run, and everything else is in the same order as
before. -/
structure Reseated (d d' : Dom) (r : NodeRef) : Prop extends SameParts d d' where
  run : d'.runOf r = d.runOf r
  live : ∀ c < d.containers.size, r ≠ .container c → (d'.container c).live = (d.container c).live
  rest : ∀ q, (d'.children q).filter (· ∉ d.runOf r) = (d.children q).filter (· ∉ d.runOf r)

namespace Reseated

variable {r q x : NodeRef} (h : Reseated d d' r) (hd : d.Sound) (hd' : d'.Sound) (hr : d.Known r)

include h hd hd'

theorem parent {m : NodeId} (hm : m ∉ d.runOf r) : d'.parent? m = d.parent? m := by
  have hIff : ∀ p, d'.parent? m = some p ↔ d.parent? m = some p := by
    intro p
    have hMem : m ∈ (d'.children p).filter (· ∉ d.runOf r) ↔
        m ∈ (d.children p).filter (· ∉ d.runOf r) := by rw [h.rest]
    rw [List.mem_filter, List.mem_filter, hd'.mem_children, hd.mem_children] at hMem
    simpa [hm] using hMem
  cases hParent : d.parent? m with
  | none =>
    cases hParent' : d'.parent? m with
    | none => rfl
    | some p =>
      rw [(hIff p).mp hParent'] at hParent
      cases hParent
  | some p => exact (hIff p).mpr hParent

include hr

theorem row_rest (hq : d.Known q) (hOut : d.key q ∉ d.runOf r) :
    (d'.childrenOf q).filter (· ∉ d.runOf r) = (d.childrenOf q).filter (· ∉ d.runOf r) := by
  cases q with
  | node n => exact h.rest n
  | container c =>
    change (d'.span c).filter _ = (d.span c).filter _
    have hStart : d.part c .start ∉ d.runOf r := hOut
    have hFinish : d.part c .finish ∉ d.runOf r := mt (hd.finish_mem_run_iff hr hq).mp hOut
    have hNe : r ≠ .container c := fun hEq => hOut (hEq ▸ key_mem_run _)
    have hLive := h.live c hq hNe
    cases hOld : (d.container c).live with
    | false =>
      rw [span_of_not_live hOld, span_of_not_live (hLive.trans hOld), h.part]
      exact h.rest _
    | true =>
      obtain ⟨host, u, v, hHost, hRow, _⟩ := hd.live_row hq hOld
      obtain ⟨host', u', v', hHost', hRow', _⟩ := hd'.live_row (h.size ▸ hq) (hLive.trans hOld)
      rw [h.part, h.parent hd hd' hStart, hHost] at hHost'
      obtain rfl := Option.some.inj hHost'
      rw [h.part, h.part] at hRow'
      have hFilter : ∀ u s v : List NodeId,
          (u ++ d.part c .start :: (s ++ d.part c .finish :: v)).filter (· ∉ d.runOf r) =
            u.filter (· ∉ d.runOf r) ++ d.part c .start :: (s.filter (· ∉ d.runOf r) ++
              d.part c .finish :: v.filter (· ∉ d.runOf r)) := by
        intro u s v
        simp [hStart, hFinish]
      have hRest := h.rest host
      have hNodup := (hd.nodup host).filter (· ∉ d.runOf r)
      rw [hRow', hRow, hFilter, hFilter] at hRest
      rw [hRow, hFilter] at hNodup
      rw [← between_eq hNodup, ← hRest, between_eq (hRest ▸ hNodup)]

theorem row_within (hq : d.Known q) (hIn : d.key q ∈ d.runOf r) :
    d'.childrenOf q = d.childrenOf q := by
  have hr' : d'.Known r := h.known_iff.mpr hr
  cases q with
  | node m =>
    have hNone : ∀ {e : Dom}, e.Sound → e.Known r → m ∈ e.runOf r →
        (e.children m).filter (· ∉ e.runOf r) = e.children m := fun he hk hm =>
      List.filter_eq_self.mpr fun k hMem => by
        simpa using fun hkRun => he.not_mem_children_of_run hk hm hkRun hMem
    have hIn' : m ∈ d'.runOf r := h.run ▸ hIn
    have hRest := h.rest m
    rw [hNone hd hr hIn, ← h.run, hNone hd' hr' hIn'] at hRest
    exact hRest
  | container c =>
    change d'.span c = d.span c
    by_cases hEq : NodeRef.container c = r
    · subst hEq
      have hRun := h.run
      rw [runOf_container, runOf_container, h.part, h.part] at hRun
      exact List.append_cancel_right (List.cons.inj hRun).2
    · have hIn' : d'.key (.container c) ∈ d'.runOf r := by
        rw [h.key, h.run]
        exact hIn
      obtain ⟨b, u, v, rfl, hSpan⟩ := hd.run_within hq hr hEq hIn
      obtain ⟨b', u', v', hb, hSpan'⟩ := hd'.run_within (h.known_iff.mpr hq) hr' hEq hIn'
      cases hb
      have hRun := h.run
      rw [runOf_container, runOf_container, h.part, h.part] at hRun
      have hSame : d'.span b = d.span b := List.append_cancel_right (List.cons.inj hRun).2
      have hNodup := hd.nodup_span hr
      rw [hSpan', hSpan, runOf_container, runOf_container, h.part, h.part] at hSame
      rw [hSpan, runOf_container] at hNodup
      simp only [List.append_assoc, List.cons_append, List.nil_append] at hSame hNodup
      rw [← between_eq hNodup, ← hSame, between_eq (hSame ▸ hNodup)]

omit h hd' in
/-- What is kin of a parent outside of the run is not in the run, but for what changed its
place. -/
theorem key_not_mem_run (hq : d.Known q) (hOut : d.key q ∉ d.runOf r) (hx : x ∈ d.kin q)
    (hNe : x ≠ r) : d.key x ∉ d.runOf r := by
  intro hMem
  have hxKnown := hd.known_of_mem_kin hq hx
  obtain ⟨c, u, v, rfl, hSpan⟩ := hd.run_within hxKnown hr hNe hMem
  have hRow : d.key x ∈ d.childrenOf (.container c) := by
    change _ ∈ d.span c
    rw [hSpan]
    exact List.mem_append_left _ (List.mem_append_right _ (key_mem_run x))
  rcases hd.kin_row_cases hr hq hx hRow with rfl | hUnder
  · exact hOut (key_mem_run _)
  · exact hOut (Sound.childrenOf_subset_run hUnder)

omit h hd' hr in
theorem rest_row (hq : d.Known q) : (d.childrenOf q).filter (· ∉ d.runOf r) =
    ((d.kin q).filter (· ≠ r)).flatMap fun x => (d.runOf x).filter (· ∉ d.runOf r) := by
  have hSelf : (d.runOf r).filter (· ∉ d.runOf r) = [] :=
    List.filter_eq_nil_iff.mpr fun k hk => by simpa using hk
  rw [(hd.row_kin hq).2, List.filter_flatMap]
  induction d.kin q with
  | nil => rfl
  | cons x xs ih =>
    rw [List.flatMap_cons, ih]
    by_cases hx : x = r
    · rw [hx, hSelf, List.filter_cons_of_neg (by simp), List.nil_append]
    · rw [List.filter_cons_of_pos (by simpa using hx), List.flatMap_cons]

omit h hd' in
theorem rest_block (hq : d.Known q) (hOut : d.key q ∉ d.runOf r)
    (hx : x ∈ (d.kin q).filter (· ≠ r)) :
    Block d.mark x ((d.runOf x).filter (· ∉ d.runOf r)) := by
  obtain ⟨hMem, hNe⟩ := List.mem_filter.mp hx
  have hKnown := hd.known_of_mem_kin hq hMem
  have hKey := key_not_mem_run hd hr hq hOut hMem (by simpa using hNe)
  refine (hd.block_run hKnown).filter _ fun k _ hMark => ?_
  suffices hk : k ∉ d.runOf r by simpa using hk
  rcases hMark with ⟨_, rfl⟩ | ⟨c, rfl, hOpens | hCloses⟩
  · exact hKey
  · rw [(eq_part_of_opens hOpens).2]
    exact hKey
  · rw [(eq_part_of_closes hCloses).2]
    exact mt (hd.finish_mem_run_iff hr hKnown).mp hKey

omit h hd' in
theorem units_rest (hq : d.Known q) (hOut : d.key q ∉ d.runOf r) :
    units d.mark none ((d.childrenOf q).filter (· ∉ d.runOf r)) = (d.kin q).filter (· ≠ r) := by
  rw [rest_row hd hq]
  exact units_flatMap fun x hx => rest_block hd hr hq hOut hx

theorem kin_rest (hq : d.Known q) : (d'.kin q).filter (· ≠ r) = (d.kin q).filter (· ≠ r) := by
  by_cases hOut : d.key q ∈ d.runOf r
  · rw [kin, kin, h.row_within hd hd' hr hq hOut, h.mark]
  · have hOut' : d'.key q ∉ d'.runOf r := by
      rwa [h.key, h.run]
    rw [← units_rest hd hr hq hOut,
      ← units_rest hd' (h.known_iff.mpr hr) (h.known_iff.mpr hq) hOut',
      h.run, h.mark, h.row_rest hd hd' hr hq hOut]

theorem kin_of_not_mem (hq : d.Known q) (hNot : r ∉ d'.kin q) :
    d'.kin q = (d.kin q).filter (· ≠ r) := by
  rw [← h.kin_rest hd hd' hr hq]
  exact (List.filter_eq_self.mpr fun x hx => by
    have hNe : x ≠ r := fun he => hNot (he ▸ hx)
    simpa using hNe).symm

end Reseated

/-! ### Taking out and putting in -/

theorem Unhoused.reseated {r : NodeRef} (h : Unhoused d d' r) (hLeaves : Leaves d d' r) :
    Reseated d d' r where
  toSameParts := h.toSameParts
  run := hLeaves.run
  live c hc hNe := Bool.eq_iff_iff.mpr ((h.live c hc).trans (and_iff_left hNe))
  rest := hLeaves.rest

theorem Housed.reseated {r parent : NodeRef} {host : NodeId} {before : Option NodeRef}
    {reference : Option NodeId} (h : Housed d d' r host reference)
    (hSits : Sits d d' r parent before) : Reseated d d' r where
  toSameParts := h.toSameParts
  run := hSits.run
  live c hc hNe := Bool.eq_iff_iff.mpr ((h.live c hc).trans (or_iff_left hNe))
  rest := hSits.rest

/-- What was taken out is kin of nothing, and all else is kin of what it was. -/
theorem Leaves.kin {r q : NodeRef} (hLeaves : Leaves d d' r) (h : Reseated d d' r) (hd : d.Sound)
    (hd' : d'.Sound) (hr : d.Known r) (hq : d.Known q) : d'.kin q = (d.kin q).filter (· ≠ r) := by
  refine h.kin_of_not_mem hd hd' hr hq fun hMem => ?_
  have hPlaced := hd'.isPlaced_of_mem_kin (h.known_iff.mpr hq) hMem
  rw [hLeaves.off] at hPlaced
  cases hPlaced

/-- The kin of the parent that something is put into. -/
theorem Sits.kin_parent {r parent : NodeRef} {before : Option NodeRef}
    (hSits : Sits d d' r parent before) (h : Reseated d d' r) (hd : d.Sound) (hr : d.Known r)
    (hParent : d.Known parent) (hOut : d.key parent ∉ d.runOf r)
    (hBefore : ∀ b, before = some b → b ∈ d.kin parent ∧ b ≠ r) :
    d'.kin parent = Forest.splice before [r] ((d.kin parent).filter (· ≠ r)) := by
  obtain ⟨u, v, hSplit, hRow, hHead⟩ := hSits.row
  have hNodup := (hd.nodup_childrenOf hParent).filter (· ∉ d.runOf r)
  rw [Reseated.rest_row hd hParent] at hSplit hNodup
  have hBlock := fun x => Reseated.rest_block (x := x) hd hr hParent hOut
  -- the row is made of the other blocks and that of what was put in
  have hBlocks : ∀ as bs : List NodeRef, (∀ x ∈ as ++ bs, x ∈ (d.kin parent).filter (· ≠ r)) →
      units d.mark none (as.flatMap (fun x => (d.runOf x).filter (· ∉ d.runOf r)) ++ d.runOf r ++
        bs.flatMap fun x => (d.runOf x).filter (· ∉ d.runOf r)) = as ++ [r] ++ bs := by
    intro as bs hMem
    rw [List.append_assoc, units_append fun x hx => hBlock x (hMem x (List.mem_append_left _ hx)),
      units_block (hd.block_run hr),
      units_flatMap fun x hx => hBlock x (hMem x (List.mem_append_right _ hx))]
    simp
  rw [kin, hRow, h.mark]
  cases before with
  | none =>
    obtain rfl : v = [] := List.head?_eq_none_iff.mp hHead
    rw [List.append_nil] at hSplit ⊢
    have hAll := hBlocks ((d.kin parent).filter (· ≠ r)) [] (by simp)
    rw [hSplit] at hAll
    simpa [Forest.splice] using hAll
  | some b =>
    obtain ⟨hMem, hNe⟩ := hBefore b rfl
    have hFirst : d.first? b = some (d.key b) :=
      Sound.first?_of_placed (hd.isPlaced_of_mem_kin hParent hMem)
    have hb : b ∈ (d.kin parent).filter (· ≠ r) := List.mem_filter.mpr ⟨hMem, by simpa using hNe⟩
    obtain ⟨as, bs, hxs, has⟩ := List.eq_append_cons_of_mem hb
    have hKey : d.key b ∉ d.runOf r :=
      Reseated.key_not_mem_run hd hr hParent hOut hMem hNe
    obtain ⟨tail, hTail⟩ : ∃ tail, (d.runOf b).filter (· ∉ d.runOf r) = d.key b :: tail := by
      obtain ⟨rest, hRun⟩ := d.runOf_eq_cons b
      exact ⟨_, by rw [hRun, List.filter_cons_of_pos (by simpa using hKey)]⟩
    obtain ⟨w, rfl⟩ : ∃ w, v = d.key b :: w := by
      rw [Option.bind_some, hFirst] at hHead
      cases v with
      | nil => cases hHead
      | cons k w => exact ⟨w, by rw [Option.some.inj hHead]⟩
    rw [hxs] at hNodup hSplit hBlocks ⊢
    simp only [List.flatMap_append, List.flatMap_cons, hTail, List.cons_append] at hNodup hSplit
    have hOnce := List.nodup_append.mp hNodup
    have hu : d.key b ∉ as.flatMap fun x => (d.runOf x).filter (· ∉ d.runOf r) := fun hIn =>
      hOnce.2.2 _ hIn _ List.mem_cons_self rfl
    obtain ⟨rfl, _, rfl⟩ :=
      (List.append_cons_inj_of_notMem hu (List.nodup_cons.mp hOnce.2.1).1).mp hSplit
    have hAll := hBlocks as (b :: bs) fun x hx => hx
    rw [List.flatMap_cons, hTail, List.cons_append] at hAll
    rw [hAll, Forest.splice_append has]

/-- What was put in is kin of its parent, before the reference or last. -/
theorem Sits.kin {r parent q : NodeRef} {before : Option NodeRef}
    (hSits : Sits d d' r parent before)
    (h : Reseated d d' r) (hd : d.Sound) (hd' : d'.Sound) (hr : d.Known r)
    (hParent : d.Known parent)
    (hOut : d.key parent ∉ d.runOf r)
    (hBefore : ∀ b, before = some b → b ∈ d.kin parent ∧ b ≠ r) (hq : d.Known q) :
    d'.kin q = if q = parent then Forest.splice before [r] ((d.kin parent).filter (· ≠ r))
      else (d.kin q).filter (· ≠ r) := by
  have hKin := hSits.kin_parent h hd hr hParent hOut hBefore
  by_cases hqp : q = parent
  · rw [if_pos hqp, hqp, hKin]
  · rw [if_neg hqp]
    refine h.kin_of_not_mem hd hd' hr hq fun hMem => hqp ?_
    refine hd'.kin_inj (h.known_iff.mpr hq) (h.known_iff.mpr hParent) hMem ?_
    rw [hKin]
    exact Forest.mem_splice.mpr (.inl List.mem_cons_self)

end Dom

end LiveMarkup
