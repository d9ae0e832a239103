import LiveMarkup.Proofs.Dom.Sound

/-!
# Putting nodes and containers into their places

A node is inside another node if that is reached from it upwards, and inside a container if one of
its markers or of the nodes between them is.

A node or container is put into a host as one run of siblings. If the host is not inside it, the
document stays sound, and what is inside moves with it.

* `Sound.mem_subtree`: the subtree lists what is inside;
* `Sound.inside_up_root_iff`: all that is inside reaches a root outside if one of it does;
* `Sound.host_of_point`: a place that is asked for has a proper host;
* `Sound.housed_of_place`, `Sound.housed_of_move`: what placing and moving do;
* `Housed.sound`: the document stays sound;
* `Housed.up_iff_of_inside`, `Housed.up_iff_of_outside`: which nodes reach a root afterwards.
-/

/-! ## What is inside a node or container -/

namespace LiveMarkup

namespace Dom

variable {d : Dom}

theorem key_container (d : Dom) (c : ContainerId) : d.key (.container c) = d.part c .start := rfl

theorem key_mem_run (r : NodeRef) : d.key r ∈ d.runOf r := by
  cases r with
  | node n => exact mem_runOf_node.mpr rfl
  | container c => exact mem_run.mpr (.inl rfl)

theorem inside_key (r : NodeRef) : d.Inside r (d.key r) :=
  ⟨d.key r, key_mem_run r, Forest.up_refl _⟩

theorem inside_node {n m : NodeId} : d.Inside (.node n) m ↔ d.nodes.Up m n := by
  constructor
  · rintro ⟨k, hk, hUp⟩
    rwa [← mem_runOf_node.mp hk]
  · exact fun hUp => ⟨n, mem_runOf_node.mpr rfl, hUp⟩

theorem Inside.of_up {r : NodeRef} {m k : NodeId} (h : d.Inside r k) (hUp : d.nodes.Up m k) :
    d.Inside r m := by
  obtain ⟨j, hj, hUp'⟩ := h
  exact ⟨j, hj, hUp.trans hUp'⟩

namespace Sound

variable (hd : d.Sound)
include hd

/-- Nothing is inside a node or container that has no member of its run on the way up. -/
theorem not_inside {r : NodeRef} {n : NodeId}
    (hOut : ∀ k ∈ d.runOf r, k ∉ n :: d.nodes.ancestors n) : ¬ d.Inside r n := by
  rintro ⟨k, hk, hUp⟩
  refine hOut k hk ?_
  rcases hUp.cases_first with rfl | hUp
  · exact List.mem_cons_self
  · exact List.mem_cons_of_mem _ (hd.linked.mem_ancestors.mpr hUp)

/-! ### Keys -/

theorem key_lt_size {r : NodeRef} (hr : d.Known r) : d.key r < d.nodes.size :=
  hd.lt_size_of_mem_run hr (key_mem_run r)

theorem key_inj {r x : NodeRef} (hr : d.Known r) (hx : d.Known x) (h : d.key r = d.key x) :
    r = x := by
  cases r with
  | node n =>
    cases x with
    | node m => exact congrArg NodeRef.node h
    | container c => exact absurd h (hr.ne_part c hx .start)
  | container c =>
    cases x with
    | node m => exact absurd h.symm (hx.ne_part c hr .start)
    | container c' => exact congrArg NodeRef.container (hd.part_inj c hr c' hx .start .start h).1

theorem key_ne_finish {r : NodeRef} {c : ContainerId} (hr : d.Known r)
    (hc : c < d.containers.size) : d.key r ≠ d.part c .finish := by
  intro h
  cases r with
  | node n => exact hr.ne_part c hc .finish h
  | container c' => cases (hd.part_inj c' hr c hc .start .finish h).2

/-- A node is placed if it has a parent, a container if its start marker has one. -/
theorem isPlaced_iff {r : NodeRef} (hr : d.Known r) :
    d.isPlaced r = true ↔ ∃ p, d.parent? (d.key r) = some p := by
  cases r with
  | node n => exact Option.isSome_iff_exists
  | container c => exact hd.live_iff c hr

omit hd in
theorem first?_of_placed {r : NodeRef} (h : d.isPlaced r = true) :
    d.first? r = some (d.key r) := by
  cases r with
  | node n => rfl
  | container c =>
    have hLive : (d.container c).live = true := h
    simp [first?, hLive, key]

/-! ### Leaves -/

theorem eq_of_up_marker {c : ContainerId} {p : Part} {m : NodeId} (hc : c < d.containers.size)
    (hp : p ≠ .fragment) (h : d.nodes.Up m (d.part c p)) : m = d.part c p := by
  rcases h.cases_last with rfl | ⟨k, _, hParent⟩
  · rfl
  · have hMem := hd.mem_children.mpr hParent
    rw [hd.leaf c hc p hp] at hMem
    cases hMem

theorem inside_container {c : ContainerId} {m : NodeId} (hc : c < d.containers.size) :
    d.Inside (.container c) m ↔
      m = d.part c .start ∨ (∃ k ∈ d.span c, d.nodes.Up m k) ∨ m = d.part c .finish := by
  constructor
  · rintro ⟨k, hk, hUp⟩
    rcases mem_run.mp hk with rfl | hSpan | rfl
    · exact .inl (hd.eq_of_up_marker hc (by decide) hUp)
    · exact .inr (.inl ⟨k, hSpan, hUp⟩)
    · exact .inr (.inr (hd.eq_of_up_marker hc (by decide) hUp))
  · rintro (rfl | ⟨k, hSpan, hUp⟩ | rfl)
    · exact ⟨_, mem_run.mpr (.inl rfl), Forest.up_refl _⟩
    · exact ⟨k, mem_run.mpr (.inr (.inl hSpan)), hUp⟩
    · exact ⟨_, mem_run.mpr (.inr (.inr rfl)), Forest.up_refl _⟩

/-- The subtree of a node or container lists what is inside, but for an end marker of its own. -/
theorem mem_subtree {r : NodeRef} {m : NodeId} (hr : d.Known r) :
    m ∈ d.subtree r ↔ d.Inside r m ∧ ∀ c, r = .container c → m ≠ d.part c .finish := by
  cases r with
  | node n =>
    rw [inside_node]
    simpa [subtree, descendants] using hd.linked.mem_self_descendants (n := n) (m := m)
  | container c =>
    have hBelow : m ∈ (d.span c).flatMap (fun n => n :: d.descendants n) ↔
        ∃ k ∈ d.span c, d.nodes.Up m k := by
      simp only [List.mem_flatMap]
      exact exists_congr fun k => and_congr_right fun _ => hd.linked.mem_self_descendants
    have hFinish : ∀ k ∈ d.span c, d.nodes.Up m k → m ≠ d.part c .finish := by
      rintro k hk hUp rfl
      -- the end marker has no place in the span, and a parent of a span member is no member
      rcases hUp.cases_first with rfl | ⟨p, hParent, hUp⟩
      · have hNodup := hd.nodup_run hr
        rw [runOf_container, List.nodup_cons, List.nodup_append] at hNodup
        exact hNodup.2.2.2 _ hk _ (List.mem_singleton.mpr rfl) rfl
      · change d.parent? _ = some p at hParent
        rw [hd.parent_finish hr] at hParent
        have hHost : d.parent? k = some p := by
          rw [hd.parent_of_mem_span hr hk, spanHost_of_live, hParent]
          exact (hd.live_iff c hr).mpr ⟨p, hParent⟩
        exact hd.linked.acyclic k p hHost hUp
    rw [hd.inside_container hr]
    simp only [subtree, List.mem_cons, hBelow]
    constructor
    · rintro (rfl | ⟨k, hk, hUp⟩)
      · refine ⟨.inl rfl, ?_⟩
        rintro c' hEq hMark
        cases hEq
        cases (hd.part_inj c hr c hr .start .finish hMark).2
      · refine ⟨.inr (.inl ⟨k, hk, hUp⟩), ?_⟩
        rintro c' hEq
        cases hEq
        exact hFinish k hk hUp
    · rintro ⟨rfl | hSpan | rfl, hNe⟩
      · exact .inl rfl
      · exact .inr hSpan
      · exact absurd rfl (hNe c rfl)

theorem lt_size_of_inside {r : NodeRef} {m : NodeId} (hr : d.Known r) (h : d.Inside r m) :
    m < d.nodes.size := by
  obtain ⟨k, hk, hUp⟩ := h
  rcases hUp.cases_first with rfl | ⟨p, hParent, -⟩
  · exact hd.lt_size_of_mem_run hr hk
  · exact Forest.lt_size_of_parent hParent

theorem key_mem_subtree {r x : NodeRef} (hr : d.Known r) (hx : d.Known x) :
    d.key x ∈ d.subtree r ↔ d.Inside r (d.key x) := by
  rw [hd.mem_subtree hr]
  refine and_iff_left_of_imp fun _ c hc => ?_
  subst hc
  exact hd.key_ne_finish hx hr

/-! ### Reaching a root -/

variable {root : NodeId}

/-- All members of a run reach a root that belongs to no container, or none does. -/
theorem up_root_of_mem_run {r : NodeRef} {k : NodeId} (hr : d.Known r) (hk : k ∈ d.runOf r)
    (hRoot : d.Plain root) (hTop : d.parent? root = none) :
    d.nodes.Up k root ↔ d.nodes.Up (d.key r) root := by
  cases r with
  | node n =>
    obtain rfl := mem_runOf_node.mp hk
    rfl
  | container c =>
    have hParent : ∀ m p, d.parent? m = some p →
        (d.nodes.Up m root ↔ d.nodes.Up p root) := by
      intro m p hm
      constructor
      · intro hUp
        rcases hUp.cases_first with rfl | ⟨q, hq, hUp⟩
        · rw [hTop] at hm
          cases hm
        · rw [show d.nodes.parent? m = some p from hm] at hq
          rwa [Option.some.inj hq]
      · exact fun hUp => (Forest.up_parent hm).trans hUp
    have hMarker : ∀ p, p ≠ Part.fragment → d.parent? (d.part c p) = none →
        ¬ d.nodes.Up (d.part c p) root := fun p _ hNone hUp =>
      hRoot.ne_part c hr p (hUp.eq_of_parent_none hNone).symm
    cases hLive : (d.container c).live with
    | true =>
      obtain ⟨host, hHost⟩ := (hd.live_iff c hr).mp hLive
      have hk' : d.parent? k = some host := by
        rcases mem_run.mp hk with rfl | hSpan | rfl
        · exact hHost
        · rw [hd.parent_of_mem_span hr hSpan, spanHost_of_live hLive, hHost]
        · rw [hd.parent_finish hr, hHost]
      rw [hParent k host hk', key_container, hParent _ host hHost]
    | false =>
      have hStart := hd.parent_start_of_not_live hr hLive
      have hFinish := (hd.parent_finish hr).trans hStart
      have hNo := hMarker .start (by decide) hStart
      rcases mem_run.mp hk with rfl | hSpan | rfl
      · exact Iff.rfl
      · refine iff_of_false (fun hUp => ?_) hNo
        have hk' : d.parent? k = some (d.part c .fragment) := by
          rw [hd.parent_of_mem_span hr hSpan]
          simp [spanHost?, hLive, part]
        rw [hParent k _ hk'] at hUp
        exact hRoot.ne_part c hr .fragment (hUp.eq_of_parent_none (hd.fragment_root c hr)).symm
      · exact iff_of_false (hMarker .finish (by decide) hFinish) hNo

/-- What is inside a node or container reaches a root without a parent exactly if the node or
container does. -/
theorem inside_up_root_iff {r : NodeRef} {m : NodeId} (hr : d.Known r) (hIn : d.Inside r m)
    (hRoot : d.Plain root) (hTop : d.parent? root = none) :
    d.nodes.Up m root ↔ d.nodes.Up (d.key r) root := by
  obtain ⟨k, hk, hUp⟩ := hIn
  rw [← hd.up_root_of_mem_run hr hk hRoot hTop]
  constructor
  · intro hm
    rcases hUp.total hm with h | h
    · exact h
    · rw [← h.eq_of_parent_none hTop]
      exact Forest.up_refl _
  · exact fun hk => hUp.trans hk

theorem not_inside_root {r : NodeRef} (hr : d.Known r) (hRoot : d.Plain root)
    (hTop : d.parent? root = none) (hNe : r ≠ .node root) : ¬ d.Inside r root := by
  rintro ⟨k, hk, hUp⟩
  obtain rfl := hUp.eq_of_parent_none hTop
  cases r with
  | node n => exact hNe (by rw [mem_runOf_node.mp hk])
  | container c =>
    rcases mem_run.mp hk with rfl | hSpan | rfl
    · exact hRoot.ne_part c hr .start rfl
    · obtain ⟨host, hHost⟩ := hd.spanHost_some hr
      rw [hd.parent_of_mem_span hr hSpan, hHost] at hTop
      cases hTop
    · exact hRoot.ne_part c hr .finish rfl

theorem not_up_of_not_placed {r : NodeRef} (hr : d.Known r) (hRoot : d.Plain root)
    (hNe : r ≠ .node root) (hOff : d.isPlaced r = false) : ¬ d.nodes.Up (d.key r) root := by
  intro hUp
  have hNone : d.parent? (d.key r) = none := by
    cases hParent : d.parent? (d.key r) with
    | none => rfl
    | some p =>
      rw [(hd.isPlaced_iff hr).mpr ⟨p, hParent⟩] at hOff
      cases hOff
  have hEq := hUp.eq_of_parent_none hNone
  cases r with
  | node n => exact hNe (congrArg NodeRef.node hEq)
  | container c => exact hRoot.ne_part c hr .start hEq.symm

theorem first_up_root_iff {r : NodeRef} (hr : d.Known r) (hRoot : d.Plain root) :
    (∃ n, d.first? r = some n ∧ d.nodes.Up n root) ↔ d.nodes.Up (d.key r) root := by
  cases r with
  | node n => simp [first?, key]
  | container c =>
    cases hLive : (d.container c).live with
    | true => simp [first?, hLive, key]
    | false =>
      refine iff_of_false (by simp [first?, hLive]) fun hUp => ?_
      have hStart := hd.parent_start_of_not_live hr hLive
      exact hRoot.ne_part c hr .start (hUp.eq_of_parent_none hStart).symm

end Sound

end Dom

end LiveMarkup

namespace LiveMarkup

namespace Dom

variable {d d' : Dom} {r : NodeRef} {host : NodeId} {reference : Option NodeId}

/-! ## Documents with the same nodes and containers -/

/-- The nodes and containers are the same, wherever they stand. -/
structure SameParts (d d' : Dom) : Prop where
  nodes_size : d'.nodes.size = d.nodes.size
  size : d'.containers.size = d.containers.size
  part : ∀ c p, d'.part c p = d.part c p
  label : ∀ n, d'.nodes.label? n = d.nodes.label? n

namespace SameParts

theorem refl (d : Dom) : SameParts d d :=
  ⟨rfl, rfl, fun _ _ => rfl, fun _ => rfl⟩

variable (h : SameParts d d')
include h

theorem mark : d'.mark = d.mark := by
  funext n
  simp only [Dom.mark, owner?, h.size, h.part]

theorem key (r : NodeRef) : d'.key r = d.key r := by
  cases r with
  | node n => rfl
  | container c => exact h.part c .start

theorem plain_iff {n : NodeId} : d'.Plain n ↔ d.Plain n := by
  constructor
  · rintro ⟨hLt, hNe⟩
    refine ⟨h.nodes_size ▸ hLt, fun c hc p => ?_⟩
    rw [← h.part]
    exact hNe c (h.size ▸ hc) p
  · rintro ⟨hLt, hNe⟩
    refine ⟨h.nodes_size ▸ hLt, fun c hc p => ?_⟩
    rw [h.part]
    exact hNe c (h.size ▸ hc) p

theorem known_iff {r : NodeRef} : d'.Known r ↔ d.Known r := by
  cases r with
  | node n => exact h.plain_iff
  | container c =>
    change c < d'.containers.size ↔ c < d.containers.size
    rw [h.size]

end SameParts

theorem container_setLive (d : Dom) {c : ContainerId} (hc : c < d.containers.size)
    (live : Bool) (c' : ContainerId) : (d.setLive c live).container c' =
      if c' = c then { d.container c with live } else d.container c' := by
  simp only [setLive, container, Array.getD_eq_getD_getElem?, Array.getElem?_modify]
  by_cases h : c' = c
  · subst h
    simp [Array.getElem?_eq_getElem hc]
  · rw [if_neg (fun he => h he.symm), if_neg h]

theorem part_setLive (d : Dom) (c : ContainerId) (live : Bool) (c' : ContainerId) (p : Part) :
    (d.setLive c live).part c' p = d.part c' p := by
  have hParts : ((d.setLive c live).container c').start = (d.container c').start ∧
      ((d.setLive c live).container c').finish = (d.container c').finish ∧
      ((d.setLive c live).container c').fragment = (d.container c').fragment := by
    simp only [setLive, container, Array.getD_eq_getD_getElem?, Array.getElem?_modify]
    split
    · cases d.containers[c']? <;> exact ⟨rfl, rfl, rfl⟩
    · exact ⟨rfl, rfl, rfl⟩
  cases p with
  | start => exact hParts.1
  | finish => exact hParts.2.1
  | fragment => exact hParts.2.2

/-! ## Runs put into a host -/

/-- A node that a node or container can be put into: no marker, not inside it, and not the unused
fragment of a live container. -/
structure Host (d : Dom) (r : NodeRef) (host : NodeId) : Prop where
  lt_size : host < d.nodes.size
  away : ∀ k ∈ d.runOf r, ¬ d.nodes.Up host k
  of_part : ∀ c < d.containers.size, ∀ p, host = d.part c p →
    p = .fragment ∧ (d.container c).live = false ∧ r ≠ .container c

/-- The run of a node or container is put into a host, and is live from then on. -/
structure Housed (d d' : Dom) (r : NodeRef) (host : NodeId) (reference : Option NodeId) :
    Prop extends SameParts d d' where
  placed : Forest.Placed d.nodes d'.nodes host (d.runOf r) reference
  live : ∀ c < d.containers.size,
    (d'.container c).live = true ↔ (d.container c).live = true ∨ r = .container c

namespace Housed

theorem parent (h : Housed d d' r host reference) (m : NodeId) :
    d'.parent? m = if m ∈ d.runOf r then some host else d.parent? m :=
  h.placed.parent m

theorem children (h : Housed d d' r host reference) (q : NodeId) : d'.children q =
    if q = host then Forest.splice reference (d.runOf r) ((d.children host).filter (· ∉ d.runOf r))
    else (d.children q).filter (· ∉ d.runOf r) :=
  h.placed.children q

/-- The row of the host: the run stands in one piece among the other siblings. -/
theorem row (h : Housed d d' r host reference) : ∃ u v,
    (d.children host).filter (· ∉ d.runOf r) = u ++ v ∧
      d'.children host = u ++ d.runOf r ++ v := by
  rw [h.children, if_pos rfl]
  cases reference with
  | none => exact ⟨_, [], (List.append_nil _).symm, (List.append_nil _).symm⟩
  | some x => exact ⟨_, _, (List.takeWhile_append_dropWhile (p := fun m => !(m == x))).symm, rfl⟩

theorem rest (h : Housed d d' r host reference) (q : NodeId) :
    (d'.children q).filter (· ∉ d.runOf r) = (d.children q).filter (· ∉ d.runOf r) := by
  by_cases hq : q = host
  · subst hq
    obtain ⟨u, v, hOld, hNew⟩ := h.row
    have hNone : (d.runOf r).filter (· ∉ d.runOf r) = [] :=
      List.filter_eq_nil_iff.mpr fun k hk => by simpa using hk
    rw [hNew, List.filter_append, List.filter_append, hNone, List.append_nil, ← List.filter_append,
      ← hOld, List.filter_filter]
    simp
  · rw [h.children, if_neg hq, List.filter_filter]
    simp

/-- A container whose start does not move is as live as before, and has the same host. -/
theorem spanHost (h : Housed d d' r host reference) {c : ContainerId} (hc : c < d.containers.size)
    (hStart : d.part c .start ∉ d.runOf r) :
    (d'.container c).live = (d.container c).live ∧ d'.spanHost? c = d.spanHost? c := by
  have hLive : (d'.container c).live = (d.container c).live := by
    have hNe : r ≠ .container c := by
      rintro rfl
      exact hStart (key_mem_run (.container c))
    have hIff := h.live c hc
    rw [or_iff_left hNe] at hIff
    exact Bool.eq_iff_iff.mpr hIff
  refine ⟨hLive, ?_⟩
  unfold spanHost?
  change (if (d'.container c).live then d'.parent? (d'.part c .start) else
    some (d'.part c .fragment)) = if (d.container c).live then d.parent? (d.part c .start) else
      some (d.part c .fragment)
  rw [hLive, h.part, h.part, h.parent, if_neg hStart]

/-- What may be put in leaves the document sound. -/
theorem sound (h : Housed d d' r host reference) (hd : d.Sound) (hr : d.Known r)
    (hHost : d.Host r host) : d'.Sound where
  linked := h.placed.linked hd.linked (hd.nodup_run hr) hHost.away
  part_lt c hc p := by
    rw [h.part, h.nodes_size]
    exact hd.part_lt c (h.size ▸ hc) p
  part_inj c hc c' hc' p p' hEq := by
    rw [h.part, h.part] at hEq
    exact hd.part_inj c (h.size ▸ hc) c' (h.size ▸ hc') p p' hEq
  fragment_root c hc := by
    rw [h.size] at hc
    rw [h.part, h.parent, if_neg (hd.fragment_not_mem_run hr hc)]
    exact hd.fragment_root c hc
  leaf c hc p hp := by
    rw [h.size] at hc
    have hNe : d.part c p ≠ host := fun hEq => hp (hHost.of_part c hc p hEq.symm).1
    rw [h.part, h.children, if_neg hNe, hd.leaf c hc p hp]
    rfl
  live_iff c hc := by
    rw [h.size] at hc
    rw [h.live c hc, h.part, h.parent]
    by_cases hMem : d.part c .start ∈ d.runOf r
    · refine iff_of_true ?_ ⟨host, by rw [if_pos hMem]⟩
      cases r with
      | node n => exact absurd (mem_runOf_node.mp hMem).symm (hr.ne_part c hc .start)
      | container c' =>
        rcases mem_run.mp hMem with hEq | hSpan | hEq
        · rw [(hd.part_inj c hc c' hr _ _ hEq).1]
          exact .inr rfl
        · obtain ⟨q, hq⟩ := hd.spanHost_some hr
          exact .inl ((hd.live_iff c hc).mpr ⟨q, (hd.parent_of_mem_span hr hSpan).trans hq⟩)
        · cases (hd.part_inj c hc c' hr _ _ hEq).2
    · rw [if_neg hMem, hd.live_iff c hc]
      refine or_iff_left ?_
      rintro rfl
      exact hMem (mem_run.mpr (.inl rfl))
  empty c hc hLive := by
    rw [h.size] at hc
    rw [h.part, h.children]
    rcases (h.live c hc).mp hLive with hOld | rfl
    · have hNe : d.part c .fragment ≠ host := by
        intro hEq
        rw [(hHost.of_part c hc .fragment hEq.symm).2.1] at hOld
        cases hOld
      rw [if_neg hNe, hd.empty c hc hOld]
      rfl
    · have hNe : d.part c .fragment ≠ host := fun hEq =>
        (hHost.of_part c hc .fragment hEq.symm).2.2 rfl
      rw [if_neg hNe, List.filter_eq_nil_iff]
      intro k hk
      cases hOld : (d.container c).live with
      | true =>
        rw [hd.empty c hc hOld] at hk
        cases hk
      | false =>
        rw [← span_of_not_live hOld] at hk
        simpa using mem_run.mpr (.inr (.inl hk))
  balanced q := by
    rw [h.mark]
    have hRest := hd.balanced_filter hr q
    by_cases hq : q = host
    · subst hq
      obtain ⟨u, v, hFilter, hRow⟩ := h.row
      rw [hFilter] at hRest
      rw [hRow]
      exact hRest.insert (hd.balanced_run hr)
    · rw [h.children, if_neg hq]
      exact hRest

theorem runOf_eq (h : Housed d d' r host reference) (hd : d.Sound) (hr : d.Known r)
    (hHost : d.Host r host) : d'.runOf r = d.runOf r := by
  cases r with
  | node n => rfl
  | container c =>
    have hd' := h.sound hd hr hHost
    obtain ⟨u, v, _, hRow⟩ := h.row
    have hStart : d'.parent? (d'.part c .start) = some host := by
      rw [h.part, h.parent, if_pos (mem_run.mpr (.inl rfl))]
    have hSpan : d'.span c = d.span c := by
      refine span_eq_of_row (u := u) (v := v) ((h.live c hr).mpr (.inr rfl)) hStart ?_
        (hd'.nodup host)
      rw [hRow, h.part, h.part, runOf_container]
      simp
    rw [runOf_container, runOf_container, hSpan, h.part, h.part]

/-- What is inside stays inside, and nothing comes in. -/
theorem inside_iff (h : Housed d d' r host reference) (hd : d.Sound) (hr : d.Known r)
    (hHost : d.Host r host) {m : NodeId} : d'.Inside r m ↔ d.Inside r m := by
  simp only [Inside, h.runOf_eq hd hr hHost]
  exact h.placed.agreeOff.below_iff.symm

/-- What is outside reaches the same nodes as before. -/
theorem up_iff_of_outside (h : Housed d d' r host reference) {m x : NodeId}
    (hOut : ¬ d.Inside r m) : d'.nodes.Up m x ↔ d.nodes.Up m x :=
  h.placed.agreeOff.up_iff fun k hk hUp => hOut ⟨k, hk, hUp⟩

/-- What is inside reaches a root if the host does. -/
theorem up_iff_of_inside (h : Housed d d' r host reference) (hHost : d.Host r host)
    {m root : NodeId} (hIn : d.Inside r m) (hTop : d.parent? root = none)
    (hNotRoot : ¬ d.Inside r root) : d'.nodes.Up m root ↔ d.nodes.Up host root := by
  obtain ⟨k, hk, hUp⟩ := hIn
  have hmHost : d'.nodes.Up m host := h.placed.up_parent_of_up hk hUp
  have hTop' : d'.parent? root = none := by
    rw [h.parent, if_neg fun hMem => hNotRoot ⟨root, hMem, Forest.up_refl root⟩]
    exact hTop
  have hAway : ¬ d.Inside r host := fun ⟨k, hk, hUp⟩ => hHost.away k hk hUp
  rw [← h.up_iff_of_outside hAway]
  constructor
  · intro hm
    rcases hmHost.total hm with hHostRoot | hRootHost
    · exact hHostRoot
    · rw [← hRootHost.eq_of_parent_none hTop']
      exact Forest.up_refl _
  · exact fun hHostRoot => hmHost.trans hHostRoot

end Housed

/-! ## Putting in one after the other -/

theorem insertBefore_ok {n p : NodeId} (hLinked : d.nodes.Linked) (hp : p < d.nodes.size)
    (hn : n < d.nodes.size) (h : d.insertBefore p n reference = .ok d') :
    Forest.Placed d.nodes d'.nodes p [n] reference ∧ d'.containers = d.containers := by
  unfold insertBefore at h
  split at h
  · rename_i nodes hNodes
    obtain rfl := Except.ok.inj h
    exact ⟨hLinked.placed_of_insertBefore hp hn hNodes, rfl⟩
  · cases h

theorem exists_insertBefore {n p : NodeId} (h : ∀ x, reference = some x → x ∈ d.children p) :
    ∃ d', d.insertBefore p n reference = .ok d' := by
  unfold insertBefore
  split
  · exact ⟨_, rfl⟩
  · rename_i hNone
    obtain ⟨x, hx, hOut⟩ := Forest.insertBefore?_eq_none_iff.mp hNone
    exact absurd (h x hx) hOut

theorem mem_children_of_insertBefore {n p x : NodeId}
    (h : d.insertBefore p n (some x) = .ok d') : x ∈ d.children p := by
  by_contra hOut
  unfold insertBefore at h
  rw [Forest.insertBefore?_eq_none_iff.mpr ⟨x, rfl, hOut⟩] at h
  cases h

/-- Nodes are put in, one after the other, before a node that is none of them. -/
theorem exists_insertAll {ns : List NodeId} (hLinked : d.nodes.Linked)
    (hHost : host < d.nodes.size) (hns : ∀ n ∈ ns, n < d.nodes.size) (hNodup : ns.Nodup)
    (hAway : ∀ n ∈ ns, ¬ d.nodes.Up host n)
    (hRef : ∀ x, reference = some x → x ∈ d.children host ∧ x ∉ ns) :
    ∃ d', insertAll host reference ns d = .ok d' ∧
      Forest.Placed d.nodes d'.nodes host ns reference ∧ d'.containers = d.containers := by
  induction ns generalizing d with
  | nil => exact ⟨d, rfl, Forest.placed_nil _ _ _, rfl⟩
  | cons n ns ih =>
    obtain ⟨d₁, hFirst⟩ := exists_insertBefore (n := n) fun x hx => (hRef x hx).1
    have hn := hns n List.mem_cons_self
    obtain ⟨hPlaced, hBoxes⟩ := insertBefore_ok hLinked hHost hn hFirst
    have hOff : ¬ d.nodes.Up host n := hAway n List.mem_cons_self
    have hLinked₁ := hPlaced.linked hLinked (List.nodup_singleton n) (by simpa using hOff)
    have hUp : ∀ x, d₁.nodes.Up host x ↔ d.nodes.Up host x := fun x =>
      hPlaced.agreeOff.up_iff (by simpa using hOff)
    obtain ⟨hNot, hNodup⟩ := List.nodup_cons.mp hNodup
    obtain ⟨d', hRest, hPlaced', hBoxes'⟩ := ih (d := d₁) hLinked₁ (hPlaced.size ▸ hHost)
      (fun m hm => hPlaced.size ▸ hns m (List.mem_cons_of_mem _ hm)) hNodup
      (fun m hm => by
        rw [hUp]
        exact hAway m (List.mem_cons_of_mem _ hm))
      (fun x hx => by
        obtain ⟨hMem, hOut⟩ := hRef x hx
        simp only [List.mem_cons, not_or] at hOut
        refine ⟨?_, hOut.2⟩
        change x ∈ d₁.nodes.children host
        rw [hPlaced.children, if_pos rfl, Forest.mem_splice]
        exact .inr (List.mem_filter.mpr ⟨hMem, by simpa using hOut.1⟩))
    refine ⟨d', ?_, hPlaced.cons hPlaced' hNot fun x hx => (hRef x hx).2, hBoxes'.trans hBoxes⟩
    rw [insertAll, hFirst]
    exact hRest

theorem insertAll_none (ns : List NodeId) (d : Dom) (p : NodeId) :
    insertAll p none ns d = .ok (ns.foldl (fun d n => d.append p n) d) := by
  induction ns generalizing d with
  | nil => rfl
  | cons n ns ih =>
    rw [insertAll, List.foldl_cons, ← ih]
    rfl

theorem mem_children_of_insertAll {x : NodeId}
    (h : insertAll host (some x) (d.runOf r) d = .ok d') : x ∈ d.children host := by
  have hHead : ∀ n ns, insertAll host (some x) (n :: ns) d = .ok d' → x ∈ d.children host := by
    intro n ns h
    rw [insertAll] at h
    cases hFirst : d.insertBefore host n (some x) with
    | error e =>
      rw [hFirst] at h
      cases h
    | ok d₁ => exact mem_children_of_insertBefore hFirst
  cases r with
  | node n => exact hHead n [] h
  | container c => exact hHead _ _ h

namespace Sound

variable (hd : d.Sound)
include hd

theorem exists_insertRun (hr : d.Known r) (hHost : d.Host r host)
    (hRef : ∀ x, reference = some x → x ∈ d.children host ∧ x ∉ d.runOf r) :
    ∃ d', insertAll host reference (d.runOf r) d = .ok d' ∧
      Forest.Placed d.nodes d'.nodes host (d.runOf r) reference ∧ d'.containers = d.containers :=
  exists_insertAll hd.linked hHost.lt_size (fun _ hn => hd.lt_size_of_mem_run hr hn)
    (hd.nodup_run hr) hHost.away hRef

/-- What putting in a run does, if it can be done. -/
theorem placed_of_insertRun (hr : d.Known r) (hHost : d.Host r host)
    (hRef : ∀ c, r = .container c → ∀ x, reference = some x → x ∉ d.runOf r)
    (h : insertAll host reference (d.runOf r) d = .ok d') :
    Forest.Placed d.nodes d'.nodes host (d.runOf r) reference ∧ d'.containers = d.containers := by
  cases r with
  | node n =>
    refine insertBefore_ok hd.linked hHost.lt_size hr.lt_size ?_
    simp only [runOf, insertAll] at h
    cases hFirst : d.insertBefore host n reference with
    | error e =>
      rw [hFirst] at h
      cases h
    | ok d₁ =>
      rw [hFirst] at h
      exact h
  | container c =>
    have hIn : ∀ x, reference = some x → x ∈ d.children host ∧ x ∉ d.runOf (.container c) := by
      rintro x rfl
      exact ⟨mem_children_of_insertAll h, hRef c rfl x rfl⟩
    obtain ⟨d₁, hOk, hPlaced, hBoxes⟩ := hd.exists_insertRun hr hHost hIn
    rw [h] at hOk
    obtain rfl := Except.ok.inj hOk
    exact ⟨hPlaced, hBoxes⟩

end Sound

/-! ## Places -/

/-- Where an insertion into a node or container, before one of its children or last, lands. -/
def landing (d : Dom) (parent : NodeRef) (reference : Option NodeId) :
    Except NotAChild (NodeId × Option NodeId) :=
  match parent with
  | .node n => .ok (n, reference)
  | .container c => d.spanPoint c reference

theorem point_none (d : Dom) (parent : NodeRef) :
    d.point parent none = d.landing parent none := by
  cases parent <;> rfl

theorem point_some {before : NodeRef} {n : NodeId} (parent : NodeRef)
    (h : d.first? before = some n) : d.point parent (some before) = d.landing parent (some n) := by
  unfold point
  simp only [h]
  cases parent <;> rfl

theorem landing_of_point {parent : NodeRef} {before : Option NodeRef}
    {place : NodeId × Option NodeId} (h : d.point parent before = .ok place) :
    ∃ x, d.landing parent x = .ok place := by
  cases before with
  | none => exact ⟨none, (point_none d parent) ▸ h⟩
  | some before =>
    cases hFirst : d.first? before with
    | some n => exact ⟨some n, (point_some parent hFirst) ▸ h⟩
    | none =>
      unfold point at h
      simp only [hFirst] at h
      cases h

/-- An insertion into a node lands in that node, one into a container in what holds its span. -/
theorem landing_ok {parent : NodeRef} {x reference : Option NodeId} {host : NodeId}
    (h : d.landing parent x = .ok (host, reference)) :
    (∀ n, parent = .node n → host = n) ∧ ∀ c, parent = .container c → d.spanHost? c = some host := by
  cases parent with
  | node n =>
    obtain ⟨rfl, _⟩ := Prod.mk.inj (Except.ok.inj h)
    exact ⟨fun m hm => by cases hm; rfl, fun c hc => by cases hc⟩
  | container c =>
    refine ⟨fun m hm => (by cases hm), fun c' hc => ?_⟩
    cases hc
    change d.spanPoint c x = .ok (host, reference) at h
    unfold spanPoint at h
    simp only at h
    split at h
    · cases h
    · split at h
      · cases h
      · rename_i hHost
        obtain ⟨rfl, _⟩ := Prod.mk.inj (Except.ok.inj h)
        exact hHost

theorem point_ok {parent : NodeRef} {before : Option NodeRef}
    (h : d.point parent before = .ok (host, reference)) :
    (∀ n, parent = .node n → host = n) ∧ ∀ c, parent = .container c → d.spanHost? c = some host := by
  obtain ⟨x, hx⟩ := landing_of_point h
  exact landing_ok hx

theorem Sound.host_of_known (hd : d.Sound) (hr : d.Known r) {parent : NodeRef}
    (hParent : d.Known parent) (hNe : parent ≠ r) (hOut : ¬ d.Inside r (d.key parent))
    (hNode : ∀ n, parent = .node n → host = n)
    (hBox : ∀ c, parent = .container c → d.spanHost? c = some host) : d.Host r host := by
  cases parent with
  | node n =>
    obtain rfl := hNode n rfl
    exact ⟨hParent.lt_size, fun k hk hUp => hOut ⟨k, hk, hUp⟩,
      fun c hc p hEq => absurd hEq (hParent.ne_part c hc p)⟩
  | container c =>
    have hHost := hBox c rfl
    cases hLive : (d.container c).live with
    | true =>
      rw [spanHost_of_live hLive] at hHost
      have hChild := hd.mem_children.mpr hHost
      refine ⟨hd.linked.parent_lt_size hHost, fun k hk hUp => ?_, fun c' hc' p hEq => ?_⟩
      · exact hOut ⟨k, hk, (Forest.up_parent hHost).trans hUp⟩
      · have hFragment : p = .fragment := by
          by_contra hp
          rw [hEq, hd.leaf c' hc' p hp] at hChild
          cases hChild
        subst hFragment
        have hDead : (d.container c').live = false := by
          cases hLive' : (d.container c').live with
          | false => rfl
          | true =>
            rw [hEq, hd.empty c' hc' hLive'] at hChild
            cases hChild
        refine ⟨rfl, hDead, ?_⟩
        rintro rfl
        refine hOut ⟨d.part c .start, mem_run.mpr (.inr (.inl ?_)), Forest.up_refl _⟩
        rw [span_of_not_live hDead, ← hEq]
        exact hChild
    | false =>
      have hEq : d.part c .fragment = host := by simpa [spanHost?, hLive, part] using hHost
      subst hEq
      refine ⟨hd.part_lt c hParent .fragment, fun k hk hUp => ?_, fun c' hc' p hEq => ?_⟩
      · rw [← hUp.eq_of_parent_none (hd.fragment_root c hParent)] at hk
        exact hd.fragment_not_mem_run hr hParent hk
      · obtain ⟨rfl, rfl⟩ := hd.part_inj c hParent c' hc' _ _ hEq
        exact ⟨rfl, hLive, fun hSelf => hNe hSelf.symm⟩

/-- The host of a place that is not inside a node or container. -/
theorem Sound.host_of_point (hd : d.Sound) (hr : d.Known r) {parent : NodeRef}
    {before : Option NodeRef} (hParent : d.Known parent) (hNe : parent ≠ r)
    (hOut : ¬ d.Inside r (d.key parent)) (h : d.point parent before = .ok (host, reference)) :
    d.Host r host :=
  hd.host_of_known hr hParent hNe hOut (point_ok h).1 (point_ok h).2

/-! ## Placing and moving -/

namespace Sound

variable (hd : d.Sound)
include hd

omit hd in
theorem housed_of_placed (hPlaced : Forest.Placed d.nodes d'.nodes host (d.runOf r) reference)
    (hBoxes : d'.containers = d.containers) (hLive : ∀ c, r = .container c →
      (d.container c).live = true) : Housed d d' r host reference where
  nodes_size := hPlaced.size
  size := by rw [hBoxes]
  part c p := by cases p <;> simp [part, container, hBoxes]
  label := hPlaced.label
  placed := hPlaced
  live c _ := by
    simp only [container, hBoxes]
    refine (or_iff_left_of_imp ?_).symm
    rintro rfl
    exact hLive c rfl

omit hd in
theorem housed_of_mounted {c : ContainerId} (hc : d.Known (.container c))
    (hPlaced : Forest.Placed d.nodes d'.nodes host (d.runOf (.container c)) reference)
    (hBoxes : d'.containers = d.containers) :
    Housed d (d'.setLive c true) (.container c) host reference where
  nodes_size := hPlaced.size
  size := by simp [setLive, hBoxes]
  part c' p := by
    rw [part_setLive]
    cases p <;> simp [part, container, hBoxes]
  label := hPlaced.label
  placed := hPlaced
  live c' _ := by
    have hc' : c < d'.containers.size := by
      rw [hBoxes]
      exact hc
    rw [container_setLive _ hc']
    by_cases hEq : c' = c
    · simp [hEq]
    · have hNe : NodeRef.container c ≠ .container c' := fun he => hEq (by cases he; rfl)
      simp [hEq, hNe, container, hBoxes]

/-- What placing something does that is placed nowhere, if it can be done. -/
theorem housed_of_place {parent : NodeRef} {before : Option NodeRef} (hr : d.Known r)
    (hParent : d.Known parent) (hNe : parent ≠ r) (hOut : ¬ d.Inside r (d.key parent))
    (hOff : d.isPlaced r = false) (h : d.place r parent before = .ok d') :
    ∃ host reference, d.point parent before = .ok (host, reference) ∧ d.Host r host ∧
      Housed d d' r host reference := by
  unfold place at h
  cases hPoint : d.point parent before with
  | error e =>
    rw [hPoint] at h
    cases h
  | ok x =>
    obtain ⟨host, reference⟩ := x
    rw [hPoint] at h
    have hHost := hd.host_of_point hr hParent hNe hOut hPoint
    refine ⟨host, reference, rfl, hHost, ?_⟩
    cases r with
    | node n =>
      obtain ⟨hPlaced, hBoxes⟩ := insertBefore_ok hd.linked hHost.lt_size hr.lt_size h
      exact housed_of_placed hPlaced hBoxes fun c hc => by cases hc
    | container c =>
      have hLive : (d.container c).live = false := hOff
      have hRun : (d.container c).start :: (d.children (d.container c).fragment ++
          [(d.container c).finish]) = d.runOf (.container c) := by
        rw [runOf_container, span_of_not_live hLive]
        rfl
      change d.mount c host reference = .ok d' at h
      unfold mount at h
      simp only [hRun] at h
      cases hAll : insertAll host reference (d.runOf (.container c)) d with
      | error e =>
        rw [hAll] at h
        cases h
      | ok d₁ =>
        rw [hAll] at h
        obtain rfl := Except.ok.inj h
        obtain ⟨hPlaced, hBoxes⟩ := hd.placed_of_insertRun hr hHost (by
          rintro c' - x rfl hMem
          have hChild := hd.mem_children.mp (mem_children_of_insertAll hAll)
          have hStart := hd.parent_start_of_not_live hr hLive
          -- a child of the host is no marker of its own, and the host is not its fragment
          rcases mem_run.mp hMem with rfl | hSpan | rfl
          · rw [hStart] at hChild
            cases hChild
          · rw [hd.parent_of_mem_span hr hSpan] at hChild
            have hEq : host = d.part c .fragment := by
              simpa [spanHost?, hLive, part] using hChild.symm
            exact (hHost.of_part c hr .fragment hEq).2.2 rfl
          · rw [hd.parent_finish hr, hStart] at hChild
            cases hChild) hAll
        exact housed_of_mounted hr hPlaced hBoxes

/-- What moving something does that is placed somewhere, if it can be done. -/
theorem housed_of_move {parent : NodeRef} {before : Option NodeRef} (hr : d.Known r)
    (hParent : d.Known parent) (hNe : parent ≠ r) (hOut : ¬ d.Inside r (d.key parent))
    (hOn : d.isPlaced r = true) (h : d.move r parent before = .ok d') :
    d' = d ∨ ∃ host reference, d.point parent before = .ok (host, reference) ∧ d.Host r host ∧
      Housed d d' r host reference := by
  unfold move at h
  cases hPoint : d.point parent before with
  | error e =>
    rw [hPoint] at h
    cases h
  | ok x =>
    obtain ⟨host, reference⟩ := x
    rw [hPoint] at h
    have hHost := hd.host_of_point hr hParent hNe hOut hPoint
    cases r with
    | node n =>
      obtain ⟨hPlaced, hBoxes⟩ := insertBefore_ok hd.linked hHost.lt_size hr.lt_size h
      exact .inr ⟨host, reference, rfl, hHost,
        housed_of_placed hPlaced hBoxes fun c hc => by cases hc⟩
    | container c =>
      have hLive : (d.container c).live = true := hOn
      change d.relocate c host reference = .ok d' at h
      unfold relocate at h
      split at h
      · exact .inl (Except.ok.inj h).symm
      · rename_i hAny
        obtain ⟨hPlaced, hBoxes⟩ := hd.placed_of_insertRun hr hHost (by
          rintro c' - x rfl hMem
          refine hAny ?_
          simpa [runOf] using hMem) h
        exact .inr ⟨host, reference, rfl, hHost, housed_of_placed hPlaced hBoxes
          fun c' hc' => by cases hc'; exact hLive⟩

end Sound

end Dom

end LiveMarkup
