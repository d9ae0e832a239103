import LiveMarkup.Proofs.Dom.Placing

/-!
# Taking nodes and containers out of their places

A node is taken out of its parent. A live container is unmounted: what is between its markers goes
to its fragment, and the markers are nowhere.

In a sound document the children of a container are one run: all of them are in its fragment, or
all of them are between its markers. The runs of two containers among the same siblings do not
cross.

A container is spread over its markers, its fragment and a row of siblings. A condition on nodes,
which counts for a container if it holds of its start marker, can hold of everything in a tree or
of nothing in it.

* `Sound.unhoused_takeOut`: what taking out does;
* `Unhoused.sound`: the document stays sound;
* `Unhoused.not_up_of_inside`, `Unhoused.up_iff_of_outside`: what was inside reaches no root, all
  else reaches what it reached before;
* `Sound.whole`: where the markers of a container and its children are;
* `Sound.apart_or_nested`: two runs have no node in common, or one is in the span of the other;
* `Uniform.inside`: then what is inside a node or container has it if that does;
* `Uniform.housed`, `Uniform.unhoused`, `Uniform.subtree`: what keeps it so.
-/

namespace LiveMarkup

namespace Dom

variable {d d' : Dom} {r : NodeRef}

/-- The parent of a member of a run that was taken out. -/
def shelter? (d : Dom) (r : NodeRef) (m : NodeId) : Option NodeId :=
  match r with
  | .node _ => none
  | .container c => if m ∈ d.span c then some (d.part c .fragment) else none

/-- The run of a node or container is taken out. What a container holds goes to its fragment. -/
structure Unhoused (d d' : Dom) (r : NodeRef) : Prop extends SameParts d d' where
  parent : ∀ m, d'.parent? m = if m ∈ d.runOf r then d.shelter? r m else d.parent? m
  children : ∀ q, (∀ c, r = .container c → q ≠ d.part c .fragment) →
    d'.children q = (d.children q).filter (· ∉ d.runOf r)
  sheltered : ∀ c, r = .container c → d'.children (d.part c .fragment) = d.span c
  live : ∀ c < d.containers.size,
    (d'.container c).live = true ↔ (d.container c).live = true ∧ r ≠ .container c

/-! ## Unmounting -/

/-- What appending several nodes to a node without children below it does. -/
theorem placed_appendAll {ns : List NodeId} {p : NodeId} (hLinked : d.nodes.Linked)
    (hp : p < d.nodes.size) (hns : ∀ n ∈ ns, n < d.nodes.size) (hNodup : ns.Nodup)
    (hAway : ∀ n ∈ ns, ¬ d.nodes.Up p n) :
    Forest.Placed d.nodes (ns.foldl (fun d n => d.append p n) d).nodes p ns none ∧
      (ns.foldl (fun d n => d.append p n) d).containers = d.containers := by
  obtain ⟨d', hOk, hPlaced, hBoxes⟩ := exists_insertAll hLinked hp hns hNodup hAway
    (show ∀ x, none = some x → x ∈ d.children p ∧ x ∉ ns from fun x hx => by cases hx)
  rw [insertAll_none] at hOk
  obtain rfl := Except.ok.inj hOk
  exact ⟨hPlaced, hBoxes⟩

namespace Sound

variable (hd : d.Sound)
include hd

theorem start_not_mem_span {c : ContainerId} (hc : c < d.containers.size) :
    d.part c .start ∉ d.span c := by
  have hNodup := hd.nodup_run (r := .container c) hc
  rw [runOf_container, List.nodup_cons] at hNodup
  exact fun hMem => hNodup.1 (List.mem_append_left _ hMem)

theorem finish_not_mem_span {c : ContainerId} (hc : c < d.containers.size) :
    d.part c .finish ∉ d.span c := by
  have hNodup := hd.nodup_run (r := .container c) hc
  rw [runOf_container, List.nodup_cons, List.nodup_append] at hNodup
  exact fun hMem => hNodup.2.2.2 _ hMem _ (List.mem_singleton.mpr rfl) rfl

theorem nodup_span {c : ContainerId} (hc : c < d.containers.size) : (d.span c).Nodup := by
  have hNodup := hd.nodup_run (r := .container c) hc
  rw [runOf_container, List.nodup_cons, List.nodup_append] at hNodup
  exact hNodup.2.1

omit hd in
theorem nodes_remove (d : Dom) (n : NodeId) : (d.remove n).nodes = d.nodes.remove n := rfl

omit hd in
theorem nodes_setLive (d : Dom) (c : ContainerId) (live : Bool) :
    (d.setLive c live).nodes = d.nodes := rfl

omit hd in
/-- Unmounting is appending the span to the fragment and taking out both markers. -/
theorem nodes_unmount (d : Dom) (c : ContainerId) : (d.unmount c).nodes = (((d.span c).foldl
    (fun e n => e.append (d.part c .fragment) n) d).nodes.remove (d.part c .start)).remove
      (d.part c .finish) := by
  simp only [unmount, nodes_setLive, nodes_remove, part]

theorem unhoused_remove (n : NodeId) :
    Unhoused d (d.remove n) (.node n) ∧ (d.remove n).nodes.Linked := by
  have hTaken := hd.linked.taken_remove n
  refine ⟨⟨⟨hTaken.size, rfl, fun c p => (by cases p <;> rfl), hTaken.label⟩, fun m => ?_,
    fun q _ => ?_, fun c hc => (by cases hc), fun c _ => ?_⟩, hTaken.linked hd.linked⟩
  · rw [show (d.remove n).parent? m = _ from hTaken.parent m]
    simp [runOf, shelter?, parent?]
  · rw [show (d.remove n).children q = _ from hTaken.children q]
    simp [runOf, Dom.children]
  · simp [container, remove]

theorem unhoused_unmount {c : ContainerId} (hc : d.Known (.container c))
    (hLive : (d.container c).live = true) :
    Unhoused d (d.unmount c) (.container c) ∧ (d.unmount c).nodes.Linked := by
  have hFragment := hd.fragment_root c hc
  have hOff : ∀ n ∈ d.span c, ¬ d.nodes.Up (d.part c .fragment) n := by
    intro n hn hUp
    refine hd.fragment_not_mem_run (r := .container c) hc hc (mem_run.mpr (.inr (.inl ?_)))
    rwa [hUp.eq_of_parent_none hFragment]
  obtain ⟨hPlaced, hBoxes⟩ := placed_appendAll hd.linked (hd.part_lt c hc .fragment)
    (fun n hn => hd.lt_size_of_mem_run (r := .container c) hc (mem_run.mpr (.inr (.inl hn))))
    (hd.nodup_span hc) hOff
  have hLinked₁ := hPlaced.linked hd.linked (hd.nodup_span hc) hOff
  have hTaken₂ := hLinked₁.taken_remove (d.part c .start)
  have hLinked₂ := hTaken₂.linked hLinked₁
  have hTaken₃ := hLinked₂.taken_remove (d.part c .finish)
  have hNodes := nodes_unmount d c
  rw [← hNodes] at hTaken₃
  have hUnmounted : (d.unmount c).containers = d.containers.modify c fun box =>
      { box with live := false } := congrArg (fun boxes : Array Container =>
    boxes.modify c fun box => { box with live := false }) hBoxes
  have hContainer : ∀ c', (d.unmount c).container c' = (d.setLive c false).container c' := by
    intro c'
    simp only [container, setLive, hUnmounted]
  have hFilter : ∀ l : List NodeId, ((l.filter (· ∉ d.span c)).filter (· ≠ d.part c .start)).filter
      (· ≠ d.part c .finish) = l.filter (· ∉ d.runOf (.container c)) := by
    intro l
    rw [List.filter_filter, List.filter_filter]
    refine List.filter_congr fun m _ => ?_
    rw [Bool.eq_iff_iff]
    simp only [Bool.and_eq_true, decide_eq_true_eq, mem_run]
    tauto
  refine ⟨⟨⟨?_, ?_, fun c' p => ?_, fun m => ?_⟩, fun m => ?_, fun q hq => ?_, fun c' hc' => ?_,
    fun c' _ => ?_⟩, hTaken₃.linked hLinked₂⟩
  · rw [hTaken₃.size, hTaken₂.size, hPlaced.size]
  · rw [hUnmounted, Array.size_modify]
  · rw [← part_setLive d c false c' p]
    cases p <;> simp only [part, hContainer]
  · rw [hTaken₃.label, hTaken₂.label, hPlaced.label]
  · change (d.unmount c).nodes.parent? m = _
    rw [hTaken₃.parent, hTaken₂.parent, hPlaced.parent]
    by_cases hSpan : m ∈ d.span c
    · have hStart : m ≠ d.part c .start := fun he => hd.start_not_mem_span hc (he ▸ hSpan)
      have hFinish : m ≠ d.part c .finish := fun he => hd.finish_not_mem_span hc (he ▸ hSpan)
      rw [if_neg hFinish, if_neg hStart, if_pos hSpan, if_pos (mem_run.mpr (.inr (.inl hSpan)))]
      simp [shelter?, hSpan]
    · by_cases hRun : m ∈ d.runOf (.container c)
      · rw [if_pos hRun]
        rcases mem_run.mp hRun with rfl | hMem | rfl
        · simp [shelter?, hSpan]
        · exact absurd hMem hSpan
        · simp [shelter?, hSpan]
      · rw [if_neg hRun, if_neg fun he => hRun (mem_run.mpr (.inr (.inr he))),
          if_neg fun he => hRun (mem_run.mpr (.inl he)), if_neg hSpan]
        rfl
  · change (d.unmount c).nodes.children q = _
    rw [hTaken₃.children, hTaken₂.children, hPlaced.children, if_neg (hq c rfl), hFilter]
    rfl
  · cases hc'
    change (d.unmount c).nodes.children _ = _
    have hEmpty : d.nodes.children (d.part c .fragment) = [] := hd.empty c hc hLive
    rw [hTaken₃.children, hTaken₂.children, hPlaced.children, if_pos rfl, hEmpty]
    have hStart := Forest.filter_ne_of_not_mem (hd.start_not_mem_span hc)
    have hFinish := Forest.filter_ne_of_not_mem (hd.finish_not_mem_span hc)
    simp only [List.filter_nil, Forest.splice, List.nil_append]
    rw [hStart, hFinish]
  · rw [hContainer, container_setLive d hc]
    by_cases hEq : c' = c
    · simp [hEq]
    · have hNe : NodeRef.container c ≠ .container c' := fun he => hEq (by cases he; rfl)
      simp [hEq, hNe]

/-- What taking something out does that is placed somewhere. -/
theorem unhoused_takeOut (hr : d.Known r) (hOn : d.isPlaced r = true) :
    Unhoused d (d.takeOut r) r ∧ (d.takeOut r).nodes.Linked := by
  cases r with
  | node n => exact hd.unhoused_remove n
  | container c => exact hd.unhoused_unmount hr hOn

end Sound

namespace Unhoused

variable (h : Unhoused d d' r) (hd : d.Sound) (hr : d.Known r)
include h

theorem agreeOff : Forest.AgreeOff (· ∈ d.runOf r) d.nodes d'.nodes := by
  intro m hm
  exact (h.parent m).trans (if_neg hm)

/-- What is outside reaches the same nodes as before. -/
theorem up_iff_of_outside {m x : NodeId} (hOut : ¬ d.Inside r m) :
    d'.nodes.Up m x ↔ d.nodes.Up m x :=
  h.agreeOff.up_iff fun k hk hUp => hOut ⟨k, hk, hUp⟩

include hr

theorem runOf_eq : d'.runOf r = d.runOf r := by
  cases r with
  | node n => rfl
  | container c =>
    have hLive : (d'.container c).live = false := by
      cases hLive : (d'.container c).live with
      | false => rfl
      | true => exact absurd rfl ((h.live c hr).mp hLive).2
    rw [runOf_container, runOf_container, span_of_not_live hLive, h.part, h.part, h.part,
      h.sheltered c rfl]

theorem inside_iff {m : NodeId} : d'.Inside r m ↔ d.Inside r m := by
  simp only [Inside, h.runOf_eq hr]
  exact h.agreeOff.below_iff.symm

include hd

/-- Taking out leaves the document sound. -/
theorem sound (hLinked : d'.nodes.Linked) : d'.Sound where
  linked := hLinked
  part_lt c hc p := by
    rw [h.part, h.nodes_size]
    exact hd.part_lt c (h.size ▸ hc) p
  part_inj c hc c' hc' p p' hEq := by
    rw [h.part, h.part] at hEq
    exact hd.part_inj c (h.size ▸ hc) c' (h.size ▸ hc') p p' hEq
  fragment_root c hc := by
    rw [h.size] at hc
    rw [h.part, h.parent, if_neg (hd.fragment_not_mem_run hr hc)]
    exact hd.fragment_root c hc
  leaf c hc p hp := by
    rw [h.size] at hc
    rw [h.part, h.children, hd.leaf c hc p hp]
    · rfl
    · rintro c' rfl hEq
      exact hp (hd.part_inj c hc c' hr _ _ hEq).2
  live_iff c hc := by
    rw [h.size] at hc
    rw [h.live c hc, h.part, h.parent, hd.live_iff c hc]
    by_cases hMem : d.part c .start ∈ d.runOf r
    · rw [if_pos hMem]
      cases r with
      | node n => exact absurd (mem_runOf_node.mp hMem).symm (hr.ne_part c hc .start)
      | container c' =>
        rcases mem_run.mp hMem with hEq | hSpan | hEq
        · obtain ⟨rfl, _⟩ := hd.part_inj c hc c' hr _ _ hEq
          simp [shelter?, hd.start_not_mem_span hc]
        · obtain ⟨host, hHost⟩ := hd.spanHost_some hr
          refine iff_of_true ⟨⟨host, (hd.parent_of_mem_span hr hSpan).trans hHost⟩, ?_⟩
            ⟨d.part c' .fragment, by simp [shelter?, hSpan]⟩
          rintro he
          cases he
          exact hd.start_not_mem_span hc hSpan
        · cases (hd.part_inj c hc c' hr _ _ hEq).2
    · rw [if_neg hMem]
      refine and_iff_left ?_
      rintro rfl
      exact hMem (mem_run.mpr (.inl rfl))
  empty c hc hLive := by
    rw [h.size] at hc
    obtain ⟨hOld, hNe⟩ := (h.live c hc).mp hLive
    rw [h.part, h.children, hd.empty c hc hOld]
    · rfl
    · rintro c' rfl hEq
      exact hNe (by rw [(hd.part_inj c hc c' hr _ _ hEq).1])
  balanced q := by
    rw [h.mark]
    by_cases hq : ∃ c, r = .container c ∧ q = d.part c .fragment
    · obtain ⟨c, rfl, rfl⟩ := hq
      rw [h.sheltered c rfl]
      exact hd.balanced_span hr
    · rw [h.children q fun c hc he => hq ⟨c, hc, he⟩]
      exact hd.balanced_filter hr q

/-- What is inside reaches no root outside. -/
theorem not_up_of_inside {m root : NodeId} (hIn : d.Inside r m) (hRoot : d.Plain root)
    (hTop : d.parent? root = none) (hNotRoot : ¬ d.Inside r root) : ¬ d'.nodes.Up m root := by
  intro hUpRoot
  obtain ⟨k, hk, hUp⟩ := (h.inside_iff hr).mpr hIn
  rw [h.runOf_eq hr] at hk
  have hTop' : d'.parent? root = none := by
    rw [h.parent, if_neg fun hMem => hNotRoot ⟨root, hMem, Forest.up_refl root⟩]
    exact hTop
  have hkRoot : d'.nodes.Up k root := by
    rcases hUp.total hUpRoot with hUp' | hUp'
    · exact hUp'
    · rw [← hUp'.eq_of_parent_none hTop']
      exact Forest.up_refl _
  have hParent : d'.parent? k = d.shelter? r k := by
    rw [h.parent, if_pos hk]
  rcases hkRoot.cases_first with rfl | ⟨p, hp, hpRoot⟩
  · exact hNotRoot ⟨k, hk, Forest.up_refl k⟩
  · rw [show d'.nodes.parent? k = _ from hParent] at hp
    cases r with
    | node n => cases hp
    | container c =>
      simp only [shelter?] at hp
      split at hp
      · obtain rfl := Option.some.inj hp
        have hFragment : d'.parent? (d.part c .fragment) = none := by
          rw [h.parent, if_neg (hd.fragment_not_mem_run (r := .container c) hr hr)]
          exact hd.fragment_root c hr
        exact hRoot.ne_part c hr .fragment (hpRoot.eq_of_parent_none hFragment).symm
      · cases hp

end Unhoused

end Dom

end LiveMarkup

/-! ## Spans among siblings -/

namespace LiveMarkup

namespace Dom

variable {d : Dom}

/-- A container that is not live has its markers nowhere and its children in the fragment. A live
one has an empty fragment, and its children are all that stands between its markers. -/
def Whole (d : Dom) (c : ContainerId) : Prop :=
  ((d.container c).live = false ∧ d.parent? (d.part c .start) = none ∧
    d.parent? (d.part c .finish) = none ∧ d.span c = d.children (d.part c .fragment)) ∨
  ((d.container c).live = true ∧ d.children (d.part c .fragment) = [] ∧
    ∃ host u v, d.parent? (d.part c .start) = some host ∧ d.parent? (d.part c .finish) = some host ∧
      d.children host = u ++ d.part c .start :: (d.span c ++ d.part c .finish :: v))

/-! ### Positions in a row -/

/-- Between two members of a row that has no member twice stand those whose positions are between
theirs. -/
theorem idxOf_between {u s v : List NodeId} {a b : NodeId} (h : (u ++ a :: (s ++ b :: v)).Nodup) :
    (u ++ a :: (s ++ b :: v)).idxOf a < (u ++ a :: (s ++ b :: v)).idxOf b ∧
      ∀ n, n ∈ s ↔ (u ++ a :: (s ++ b :: v)).idxOf a < (u ++ a :: (s ++ b :: v)).idxOf n ∧
        (u ++ a :: (s ++ b :: v)).idxOf n < (u ++ a :: (s ++ b :: v)).idxOf b := by
  obtain ⟨_, hRest, hu⟩ := List.nodup_append.mp h
  obtain ⟨ha, hRest⟩ := List.nodup_cons.mp hRest
  obtain ⟨_, _, hs⟩ := List.nodup_append.mp hRest
  have hau : a ∉ u := fun hMem => hu a hMem a (by simp) rfl
  have hbu : b ∉ u := fun hMem => hu b hMem b (by simp) rfl
  have hbs : b ∉ s := fun hMem => hs b hMem b (by simp) rfl
  have hab : a ≠ b := fun hEq => ha (by simp [hEq])
  have hPosA : (u ++ a :: (s ++ b :: v)).idxOf a = u.length := by
    rw [List.idxOf_append_of_notMem hau, List.idxOf_cons_self, Nat.add_zero]
  have hPosB : (u ++ a :: (s ++ b :: v)).idxOf b = u.length + (s.length + 1) := by
    rw [List.idxOf_append_of_notMem hbu, List.idxOf_cons_ne _ hab,
      List.idxOf_append_of_notMem hbs, List.idxOf_cons_self, Nat.add_zero]
  rw [hPosA, hPosB]
  refine ⟨by omega, fun n => ?_⟩
  by_cases hnu : n ∈ u
  · rw [List.idxOf_append_of_mem hnu]
    have hLt := List.idxOf_lt_length_iff.mpr hnu
    exact iff_of_false (fun hns => hu n hnu n (by simp [hns]) rfl) (by omega)
  rw [List.idxOf_append_of_notMem hnu]
  by_cases hna : a = n
  · subst hna
    rw [List.idxOf_cons_self]
    exact iff_of_false (fun hns => ha (by simp [hns])) (by omega)
  rw [List.idxOf_cons_ne _ hna]
  by_cases hns : n ∈ s
  · rw [List.idxOf_append_of_mem hns]
    have hLt := List.idxOf_lt_length_iff.mpr hns
    exact iff_of_true hns (by omega)
  · rw [List.idxOf_append_of_notMem hns]
    exact iff_of_false hns (by omega)

namespace Sound

variable (hd : d.Sound)
include hd

/-- The children of a container are one run. -/
theorem whole {c : ContainerId} (hc : c < d.containers.size) : d.Whole c := by
  cases hLive : (d.container c).live with
  | false =>
    have hStart := hd.parent_start_of_not_live hc hLive
    exact .inl ⟨hLive, hStart, (hd.parent_finish hc).trans hStart, span_of_not_live hLive⟩
  | true =>
    obtain ⟨host, u, v, hHost, hRow, _⟩ := hd.live_row hc hLive
    exact .inr ⟨hLive, hd.empty c hc hLive, host, u, v, hHost, (hd.parent_finish hc).trans hHost, hRow⟩

/-- A container whose start marker stands in the span of another one is there as a whole. -/
theorem run_subset_span {c c' : ContainerId} (hc : c < d.containers.size)
    (hc' : c' < d.containers.size) (hLive : (d.container c).live = true)
    (hLive' : (d.container c').live = true) (hIn : d.part c' .start ∈ d.span c) :
    ∀ n ∈ d.runOf (.container c'), n ∈ d.span c := by
  obtain ⟨host, u, v, _, hRow, hBalanced⟩ := hd.live_row hc hLive
  -- the span is balanced, so from the start marker it goes on to the end marker
  obtain ⟨a, rest, hSpan⟩ := List.append_of_mem hIn
  rw [hSpan] at hBalanced
  obtain ⟨inner, m, b, rfl, hm, _⟩ := hBalanced.split (hd.mark_start hc')
  obtain ⟨_, rfl⟩ := eq_part_of_closes hm
  have hInner : d.span c' = inner := by
    have hHost' : d.parent? (d.part c' .start) = some host := by
      rw [← hd.mem_children, hRow]
      simp [hIn]
    refine span_eq_of_row (u := u ++ d.part c .start :: a) (v := b ++ d.part c .finish :: v)
      hLive' hHost' ?_ (hd.nodup host)
    rw [hRow, hSpan]
    simp
  intro n hn
  rw [mem_run, hInner] at hn
  rw [hSpan]
  simp only [List.mem_append, List.mem_cons]
  rcases hn with rfl | hn | rfl
  · exact .inr (.inl rfl)
  · exact .inr (.inr (.inl hn))
  · exact .inr (.inr (.inr (.inl rfl)))

/-- The runs of two containers with their markers among the same siblings have no node in common,
or one of them is in the span of the other. -/
theorem apart_or_nested {c c' : ContainerId} (hc : c < d.containers.size)
    (hc' : c' < d.containers.size) (hNe : c ≠ c') (hLive : (d.container c).live = true)
    (hLive' : (d.container c').live = true)
    (hSame : d.parent? (d.part c .start) = d.parent? (d.part c' .start)) :
    (∀ n ∈ d.runOf (.container c), n ∉ d.runOf (.container c')) ∨
      (∀ n ∈ d.runOf (.container c), n ∈ d.span c') ∨
        ∀ n ∈ d.runOf (.container c'), n ∈ d.span c := by
  obtain ⟨host, u, v, hHost, hRow, _⟩ := hd.live_row hc hLive
  obtain ⟨host', u', v', hHost', hRow', _⟩ := hd.live_row hc' hLive'
  obtain rfl : host = host' := Option.some.inj (hHost.symm.trans (hSame.trans hHost'))
  obtain ⟨hLt, hSpan⟩ := idxOf_between (hRow ▸ hd.nodup host)
  obtain ⟨hLt', hSpan'⟩ := idxOf_between (hRow' ▸ hd.nodup host)
  rw [← hRow] at hLt hSpan
  rw [← hRow'] at hLt' hSpan'
  by_cases hIn : d.part c' .start ∈ d.span c
  · exact .inr (.inr (hd.run_subset_span hc hc' hLive hLive' hIn))
  by_cases hIn' : d.part c .start ∈ d.span c'
  · exact .inr (.inl (hd.run_subset_span hc' hc hLive' hLive hIn'))
  refine .inl fun n hn hn' => ?_
  -- markers of different containers are at different positions
  have hApart : ∀ p, (d.children host).idxOf (d.part c .start) ≠
      (d.children host).idxOf (d.part c' p) := by
    intro p hEq
    rw [List.idxOf_inj (by rw [hRow]; simp)] at hEq
    exact hNe (hd.part_inj c hc c' hc' _ _ hEq).1
  have hApart' : (d.children host).idxOf (d.part c' .start) ≠
      (d.children host).idxOf (d.part c .finish) := by
    intro hEq
    rw [List.idxOf_inj (by rw [hRow']; simp)] at hEq
    exact hNe (hd.part_inj c' hc' c hc _ _ hEq).1.symm
  -- a common node is within both pairs of markers, so one pair begins within the other
  have hWithin : (d.children host).idxOf (d.part c .start) ≤ (d.children host).idxOf n ∧
      (d.children host).idxOf n ≤ (d.children host).idxOf (d.part c .finish) := by
    rcases mem_run.mp hn with rfl | hMem | rfl
    · omega
    · rw [hSpan] at hMem
      omega
    · omega
  have hWithin' : (d.children host).idxOf (d.part c' .start) ≤ (d.children host).idxOf n ∧
      (d.children host).idxOf n ≤ (d.children host).idxOf (d.part c' .finish) := by
    rcases mem_run.mp hn' with rfl | hMem | rfl
    · omega
    · rw [hSpan'] at hMem
      omega
    · omega
  have hStart := hApart .start
  have hFinish := hApart .finish
  rw [hSpan] at hIn
  rw [hSpan'] at hIn'
  omega

end Sound

end Dom

end LiveMarkup

/-! ## Conditions on whole trees -/

namespace LiveMarkup

namespace Dom

variable {d d' : Dom} {P : NodeId → Prop}

/-! ### Heads -/

/-- The node that stands for a node: for all nodes of a container its start marker. -/
def head (d : Dom) (n : NodeId) : NodeId :=
  match d.owner? .finish n, d.owner? .fragment n with
  | some c, _ => d.part c .start
  | none, some c => d.part c .start
  | none, none => n

theorem SameParts.head (h : SameParts d d') : d'.head = d.head := by
  funext n
  simp only [Dom.head, owner?, h.size, h.part]

theorem head_of_ne_part {n : NodeId} (h : ∀ c < d.containers.size, ∀ p, n ≠ d.part c p) :
    d.head n = n := by
  have hNone : ∀ p, d.owner? p n = none := fun p => by
    cases hOwner : d.owner? p n with
    | none => rfl
    | some c => exact absurd (owner_some hOwner).2 (h c (owner_some hOwner).1 p)
  rw [head, hNone, hNone]

namespace Sound

variable (hd : d.Sound) {c : ContainerId}
include hd

theorem head_part (hc : c < d.containers.size) (p : Part) :
    d.head (d.part c p) = d.part c .start := by
  have hOwner : ∀ {q c'}, d.owner? q (d.part c p) = some c' → c' = c ∧ q = p := fun h => by
    obtain ⟨hc', hEq⟩ := owner_some h
    obtain ⟨hSame, hPart⟩ := hd.part_inj c hc _ hc' _ _ hEq
    exact ⟨hSame.symm, hPart.symm⟩
  unfold head
  split
  · rename_i h
    rw [(hOwner h).1]
  · rename_i h
    rw [(hOwner h).1]
  · rename_i hFinish hFragment
    cases p with
    | start => rfl
    | finish => exact absurd hFinish (owner_ne_none hc)
    | fragment => exact absurd hFragment (owner_ne_none hc)

theorem head_key {r : NodeRef} (hr : d.Known r) : d.head (d.key r) = d.key r := by
  cases r with
  | node n => exact head_of_ne_part hr.ne_part
  | container c => exact hd.head_part hr .start

theorem parent_head {n p : NodeId} (h : d.parent? n = some p) : d.parent? (d.head n) = some p := by
  by_cases hPart : ∃ c, c < d.containers.size ∧ ∃ q, n = d.part c q
  · obtain ⟨c, hc, q, rfl⟩ := hPart
    rw [hd.head_part hc]
    cases q with
    | start => exact h
    | finish => exact (hd.parent_finish hc).symm.trans h
    | fragment =>
      rw [hd.fragment_root c hc] at h
      cases h
  · rwa [head_of_ne_part fun c hc q hq => hPart ⟨c, hc, q, hq⟩]

end Sound

/-! ### Uniform conditions -/

/-- A condition on heads goes from parents to children and back. -/
def Uniform (d : Dom) (P : NodeId → Prop) : Prop :=
  ∀ n p, d.parent? n = some p → (P (d.head n) ↔ P (d.head p))

namespace Uniform

variable (h : d.Uniform P) (hd : d.Sound) {r x parent : NodeRef} {c : ContainerId} {host : NodeId}
include h

theorem up {n m : NodeId} (hUp : d.nodes.Up n m) : P (d.head n) ↔ P (d.head m) := by
  induction hUp with
  | refl => exact Iff.rfl
  | tail _ hParent ih => exact ih.trans (h _ _ hParent)

include hd

theorem spanHost (hc : c < d.containers.size) (hHost : d.spanHost? c = some host) :
    P (d.head host) ↔ P (d.part c .start) := by
  cases hLive : (d.container c).live with
  | true =>
    rw [Sound.spanHost_of_live hLive] at hHost
    rw [← h _ _ hHost, hd.head_part hc]
  | false =>
    obtain rfl : d.part c .fragment = host := by simpa [spanHost?, hLive, part] using hHost
    rw [hd.head_part hc]

theorem run (hr : d.Known r) {k : NodeId} (hk : k ∈ d.runOf r) : P (d.head k) ↔ P (d.key r) := by
  cases r with
  | node n =>
    obtain rfl := mem_runOf_node.mp hk
    exact iff_of_eq (congrArg P (hd.head_key hr))
  | container c =>
    rcases mem_run.mp hk with rfl | hSpan | rfl
    · rw [hd.head_part hr, key_container]
    · obtain ⟨host, hHost⟩ := hd.spanHost_some hr
      rw [h _ _ ((hd.parent_of_mem_span hr hSpan).trans hHost), h.spanHost hd hr hHost,
        key_container]
    · rw [hd.head_part hr, key_container]

/-- Of what is inside, the condition holds as of the whole. -/
theorem inside (hr : d.Known r) (hx : d.Known x) (hIn : d.Inside r (d.key x)) :
    P (d.key x) ↔ P (d.key r) := by
  obtain ⟨k, hk, hUp⟩ := hIn
  rw [← h.run hd hr hk, ← h.up hUp, hd.head_key hx]

theorem point {before : Option NodeRef} {reference : Option NodeId} (hParent : d.Known parent)
    (hPoint : d.point parent before = .ok (host, reference)) :
    P (d.head host) ↔ P (d.key parent) := by
  obtain ⟨hNode, hBox⟩ := point_ok hPoint
  cases parent with
  | node n =>
    obtain rfl := hNode n rfl
    exact iff_of_eq (congrArg P (hd.head_key hParent))
  | container c => exact h.spanHost hd hParent (hBox c rfl)

/-- What does not have it is put into what does not have it. -/
theorem housed {reference : Option NodeId} (hr : d.Known r) (hHoused : Housed d d' r host reference)
    (hNot : ¬ P (d.key r)) (hNotHost : ¬ P (d.head host)) : d'.Uniform P := by
  intro n p hParent
  rw [hHoused.parent] at hParent
  rw [hHoused.toSameParts.head]
  split at hParent
  · rename_i hn
    obtain rfl := Option.some.inj hParent
    rw [h.run hd hr hn]
    exact iff_of_false hNot hNotHost
  · exact h n p hParent

theorem unhoused (hr : d.Known r) (hUnhoused : Unhoused d d' r) : d'.Uniform P := by
  intro n p hParent
  rw [hUnhoused.parent] at hParent
  rw [hUnhoused.toSameParts.head]
  split at hParent
  · rename_i hn
    cases r with
    | node m => cases hParent
    | container c =>
      rw [shelter?] at hParent
      by_cases hSpan : n ∈ d.span c
      · rw [if_pos hSpan] at hParent
        obtain rfl := Option.some.inj hParent
        rw [h.run hd hr hn, hd.head_part hr, key_container]
      · rw [if_neg hSpan] at hParent
        cases hParent
  · exact h n p hParent

end Uniform

/-! ### Subtrees -/

namespace Sound

variable (hd : d.Sound) {r : NodeRef} (hr : d.Known r) (hOff : d.isPlaced r = false)
include hd hr

theorem head_mem_subtree (n : NodeId) : d.head n ∈ d.subtree r ↔ d.Inside r (d.head n) := by
  rw [hd.mem_subtree hr]
  refine and_iff_left ?_
  rintro c rfl hEq
  have hFinish : ∀ m, d.head m ≠ d.part c .finish := by
    intro m hm
    by_cases hPart : ∃ c', c' < d.containers.size ∧ ∃ q, m = d.part c' q
    · obtain ⟨c', hc', q, rfl⟩ := hPart
      rw [hd.head_part hc'] at hm
      cases (hd.part_inj c' hc' c hr _ _ hm).2
    · rw [head_of_ne_part fun c' hc' q hq => hPart ⟨c', hc', q, hq⟩] at hm
      exact hPart ⟨c, hr, _, hm⟩
  exact hFinish n hEq

include hOff

/-- Of what is placed nowhere, only children that wait in a fragment have a parent. -/
theorem parent_of_mem_run {k p : NodeId} (hk : k ∈ d.runOf r) (hParent : d.parent? k = some p) :
    ∃ c, r = .container c ∧ k ∈ d.span c ∧ p = d.part c .fragment := by
  cases r with
  | node n =>
    obtain rfl := mem_runOf_node.mp hk
    have hNone : d.parent? k = none := Option.not_isSome_iff_eq_none.mp (Bool.eq_false_iff.mp hOff)
    rw [hNone] at hParent
    cases hParent
  | container c =>
    have hStart := hd.parent_start_of_not_live hr hOff
    rcases mem_run.mp hk with rfl | hSpan | rfl
    · rw [hStart] at hParent
      cases hParent
    · rw [hd.parent_of_mem_span hr hSpan] at hParent
      have hLive : (d.container c).live = false := hOff
      exact ⟨c, rfl, hSpan, by simpa [spanHost?, hLive, part] using hParent.symm⟩
    · rw [hd.parent_finish hr, hStart] at hParent
      cases hParent

/-- A subtree that hangs nowhere has all of a tree or nothing of it. -/
theorem inside_head_iff {n p : NodeId} (hParent : d.parent? n = some p) :
    d.Inside r (d.head n) ↔ d.Inside r (d.head p) := by
  have hHead := hd.parent_head hParent
  by_cases hPart : ∃ c, c < d.containers.size ∧ ∃ q, p = d.part c q
  · -- a part of a container that has children is the fragment of one that is not live
    obtain ⟨c, hc, q, rfl⟩ := hPart
    have hMem := hd.mem_children.mpr hHead
    obtain rfl : q = .fragment := by
      by_contra hq
      rw [hd.leaf c hc q hq] at hMem
      cases hMem
    have hLive : (d.container c).live = false := by
      rw [Bool.eq_false_iff]
      intro hLive
      rw [hd.empty c hc hLive] at hMem
      cases hMem
    rw [hd.head_part hc]
    constructor
    · rintro ⟨k, hk, hUp⟩
      rcases hUp.cases_first with rfl | ⟨m, hm, hUp⟩
      · obtain ⟨c', rfl, _, hEq⟩ := hd.parent_of_mem_run hr hOff hk hHead
        obtain ⟨rfl, _⟩ := hd.part_inj c hc c' hr _ _ hEq
        exact inside_key (.container c)
      · obtain rfl : d.part c .fragment = m := Option.some.inj (hHead.symm.trans hm)
        obtain rfl := hUp.eq_of_parent_none (hd.fragment_root c hc)
        exact absurd hk (hd.fragment_not_mem_run hr hc)
    · rintro ⟨k, hk, hUp⟩
      obtain rfl := hUp.eq_of_parent_none (hd.parent_start_of_not_live hc hLive)
      obtain rfl : r = .container c := by
        cases r with
        | node m => exact absurd (mem_runOf_node.mp hk).symm (hr.ne_part c hc .start)
        | container c' =>
          rcases mem_run.mp hk with hEq | hSpan | hEq
          · rw [(hd.part_inj c hc c' hr _ _ hEq).1]
          · have hNone := hd.parent_start_of_not_live hc hLive
            obtain ⟨host, hHost⟩ := hd.spanHost_some hr
            rw [(hd.parent_of_mem_span hr hSpan).trans hHost] at hNone
            cases hNone
          · cases (hd.part_inj c hc c' hr _ _ hEq).2
      rw [← span_of_not_live hLive] at hMem
      exact ⟨_, mem_run.mpr (.inr (.inl hMem)), Forest.up_refl _⟩
  · rw [head_of_ne_part fun c hc q hq => hPart ⟨c, hc, q, hq⟩]
    constructor
    · rintro ⟨k, hk, hUp⟩
      rcases hUp.cases_first with rfl | ⟨m, hm, hUp⟩
      · obtain ⟨c, rfl, _, hEq⟩ := hd.parent_of_mem_run hr hOff hk hHead
        exact absurd ⟨c, hr, _, hEq⟩ hPart
      · obtain rfl : p = m := Option.some.inj (hHead.symm.trans hm)
        exact ⟨k, hk, hUp⟩
    · exact fun hIn => hIn.of_up (Forest.up_parent hHead)

end Sound

/-- It holds of one more tree. -/
theorem Uniform.subtree (h : d.Uniform P) (hd : d.Sound) {r : NodeRef} (hr : d.Known r)
    (hOff : d.isPlaced r = false) : d.Uniform fun n => n ∈ d.subtree r ∨ P n := fun n p hParent => by
  refine or_congr ?_ (h n p hParent)
  rw [hd.head_mem_subtree hr, hd.head_mem_subtree hr]
  exact hd.inside_head_iff hr hOff hParent

end Dom

end LiveMarkup
