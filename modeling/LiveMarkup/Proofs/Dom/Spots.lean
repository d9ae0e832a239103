import LiveMarkup.Proofs.Dom.Taking

/-!
# Where things are put

What is put into a node or container comes to stand among its children in one piece, right before
the reference or last, and nothing else changes its place. That fails exactly if the reference is
no child.

* `Sound.exists_place_iff`, `Sound.exists_move_iff`: when placing and moving succeed;
* `Sound.sits_of_place`, `Sound.sits_of_move`: where what was put in stands then;
* `Unhoused.leaves`: what taking out leaves.
-/

namespace LiveMarkup

namespace Dom

variable {d d' : Dom} {host : NodeId} {u v : List NodeId}

/-! ## The row of a container -/

/-- What stands around the children of a container: its markers and what is beyond them, or
nothing while it is not live. -/
def Flanked (d : Dom) (c : ContainerId) (u v : List NodeId) : Prop :=
  if (d.container c).live then
    (∃ u', u = u' ++ [d.part c .start]) ∧ ∃ v', v = d.part c .finish :: v'
  else u = [] ∧ v = []

theorem Flanked.of_live {c : ContainerId} (hLive : (d.container c).live = true) (u v : List NodeId) :
    d.Flanked c (u ++ [d.part c .start]) (d.part c .finish :: v) := by
  rw [Flanked, if_pos hLive]
  exact ⟨⟨u, rfl⟩, v, rfl⟩

theorem Sound.flanked_row (hd : d.Sound) {c : ContainerId} (hc : c < d.containers.size) :
    ∃ host u v, d.spanHost? c = some host ∧ d.children host = u ++ d.span c ++ v ∧
      d.Flanked c u v := by
  cases hLive : (d.container c).live with
  | true =>
    obtain ⟨host, u, v, hHost, hRow, _⟩ := hd.live_row hc hLive
    refine ⟨host, _, _, (Sound.spanHost_of_live hLive).trans hHost, ?_, Flanked.of_live hLive u v⟩
    rw [hRow]
    simp
  | false =>
    refine ⟨d.part c .fragment, [], [], by simp [spanHost?, hLive, part], ?_, ?_⟩
    · rw [span_of_not_live hLive]
      simp
    · simp [Flanked, hLive]

theorem Flanked.span_eq {c : ContainerId} {s : List NodeId} (h : d.Flanked c u v)
    (hHost : d.spanHost? c = some host) (hRow : d.children host = u ++ s ++ v)
    (hNodup : (d.children host).Nodup) : d.span c = s := by
  cases hLive : (d.container c).live with
  | true =>
    rw [Flanked, if_pos hLive] at h
    obtain ⟨⟨u', rfl⟩, v', rfl⟩ := h
    rw [Sound.spanHost_of_live hLive] at hHost
    refine span_eq_of_row (u := u') (v := v') hLive hHost ?_ hNodup
    rw [hRow]
    simp
  | false =>
    rw [Flanked, hLive] at h
    obtain ⟨rfl, rfl⟩ := h
    have hEq : d.part c .fragment = host := by simpa [spanHost?, hLive, part] using hHost
    rw [span_of_not_live hLive, hEq, hRow]
    simp

/-- An insertion into a container lands before one of its children, or before what flanks them. -/
theorem Flanked.spanPoint_eq {c : ContainerId} {reference : Option NodeId} (h : d.Flanked c u v)
    (hHost : d.spanHost? c = some host) (hRef : ∀ x, reference = some x → x ∈ d.span c) :
    d.spanPoint c reference = .ok (host, reference.or v.head?) := by
  have hFilter : reference.filter (fun r => !(d.span c).contains r) = none := by
    cases reference with
    | none => rfl
    | some x => simp [Option.filter, hRef x rfl]
  unfold spanPoint
  simp only [hFilter, hHost]
  cases hLive : (d.container c).live with
  | true =>
    rw [Flanked, if_pos hLive] at h
    obtain ⟨_, v', rfl⟩ := h
    rfl
  | false =>
    rw [Flanked, hLive] at h
    obtain ⟨_, rfl⟩ := h
    simp

theorem Flanked.filter {c : ContainerId} (h : d.Flanked c u v) (p : NodeId → Bool)
    (hStart : p (d.part c .start) = true) (hFinish : p (d.part c .finish) = true) :
    d.Flanked c (u.filter p) (v.filter p) := by
  unfold Flanked at h ⊢
  split
  · rename_i hLive
    rw [if_pos hLive] at h
    obtain ⟨⟨u', rfl⟩, v', rfl⟩ := h
    refine ⟨⟨u'.filter p, ?_⟩, v'.filter p, ?_⟩
    · simp [List.filter_append, hStart]
    · simp [hFinish]
  · rename_i hLive
    rw [if_neg hLive] at h
    obtain ⟨rfl, rfl⟩ := h
    exact ⟨rfl, rfl⟩

theorem Flanked.head_eq {c : ContainerId} (h : d.Flanked c u v) :
    v.head? = if (d.container c).live then some (d.part c .finish) else none := by
  unfold Flanked at h
  split at h
  · rename_i hLive
    obtain ⟨_, v', rfl⟩ := h
    rw [if_pos hLive]
    rfl
  · rename_i hLive
    obtain ⟨_, rfl⟩ := h
    rw [if_neg hLive]
    rfl

theorem Flanked.congr {c : ContainerId} (h : d.Flanked c u v)
    (hPart : ∀ p, d'.part c p = d.part c p) (hLive : (d'.container c).live = (d.container c).live) :
    d'.Flanked c u v := by
  unfold Flanked at h ⊢
  rw [hLive, hPart, hPart]
  exact h

/-! ## Among the children -/

/-- In a row between others, what is put before a member or last comes before it or before what
follows. -/
theorem splice_middle {s ns : List NodeId} {reference : Option NodeId} (hNodup : (u ++ s ++ v).Nodup)
    (hIn : ∀ x, reference = some x → x ∈ s) :
    Forest.splice (reference.or v.head?) ns (u ++ s ++ v) =
      u ++ Forest.splice reference ns s ++ v := by
  cases reference with
  | none =>
    rw [Option.none_or]
    cases v with
    | nil => simp [Forest.splice]
    | cons y v =>
      have hy : y ∉ u ++ s := fun hMem =>
        (List.nodup_append.mp hNodup).2.2 y hMem y List.mem_cons_self rfl
      rw [List.head?_cons, Forest.splice_append hy]
      simp [Forest.splice]
  | some x =>
    obtain ⟨p, q, rfl, hp⟩ := List.eq_append_cons_of_mem (hIn x rfl)
    have hx : x ∉ u ++ p := by
      intro hMem
      rw [← List.append_assoc, List.append_assoc, List.nodup_append] at hNodup
      exact hNodup.2.2 x hMem x (by simp) rfl
    have hSplice : Forest.splice (some x) ns (u ++ p ++ x :: (q ++ v)) =
        u ++ p ++ ns ++ x :: (q ++ v) := Forest.splice_append hx
    rw [Forest.splice_append hp, Option.some_or]
    simpa using hSplice

theorem exists_splice {s ns : List NodeId} {reference : Option NodeId}
    (hIn : ∀ x, reference = some x → x ∈ s) :
    ∃ u v, s = u ++ v ∧ Forest.splice reference ns s = u ++ ns ++ v ∧ v.head? = reference := by
  cases reference with
  | none => exact ⟨s, [], by simp, by simp [Forest.splice], rfl⟩
  | some x =>
    obtain ⟨p, q, rfl, hp⟩ := List.eq_append_cons_of_mem (hIn x rfl)
    exact ⟨p, x :: q, rfl, Forest.splice_append hp, rfl⟩

/-- Whether a reference, if there is one, stands among the children of a parent. -/
def Stands (d : Dom) (parent : NodeRef) (before : Option NodeRef) : Prop :=
  ∀ b, before = some b → ∃ n, d.first? b = some n ∧ n ∈ d.childrenOf parent

/-- A node or container came to stand in a parent, right before a reference or last: its run is in
one piece among the other children, and all others are in the same order as before. -/
structure Sits (d d' : Dom) (r parent : NodeRef) (before : Option NodeRef) : Prop where
  run : d'.runOf r = d.runOf r
  row : ∃ u v, (d.childrenOf parent).filter (· ∉ d.runOf r) = u ++ v ∧
    d'.childrenOf parent = u ++ d.runOf r ++ v ∧ v.head? = before.bind d.first?
  rest : ∀ q, (d'.children q).filter (· ∉ d.runOf r) = (d.children q).filter (· ∉ d.runOf r)

/-- A node or container came out of its place, and all others are in the same order as before. -/
structure Leaves (d d' : Dom) (r : NodeRef) : Prop where
  run : d'.runOf r = d.runOf r
  off : d'.isPlaced r = false
  rest : ∀ q, (d'.children q).filter (· ∉ d.runOf r) = (d.children q).filter (· ∉ d.runOf r)

theorem first?_eq_key {b : NodeRef} {n : NodeId} (h : d.first? b = some n) : n = d.key b := by
  cases b with
  | node m => exact (Option.some.inj h).symm
  | container c =>
    rw [first?] at h
    split at h
    · exact (Option.some.inj h).symm
    · cases h

/-! ## The row of a parent -/

/-- The row that the children of a parent stand in: its own, or that around the span. -/
structure Framed (d : Dom) (parent : NodeRef) (host : NodeId) (u v : List NodeId) : Prop where
  row : d.children host = u ++ d.childrenOf parent ++ v
  node : ∀ n, parent = .node n → host = n ∧ u = [] ∧ v = []
  container : ∀ c, parent = .container c → d.spanHost? c = some host ∧ d.Flanked c u v

theorem Sound.exists_framed (hd : d.Sound) {parent : NodeRef} (hParent : d.Known parent) :
    ∃ host u v, d.Framed parent host u v := by
  cases parent with
  | node n =>
    refine ⟨n, [], [], by simp [childrenOf], fun m hm => ?_, fun c hc => by cases hc⟩
    cases hm
    exact ⟨rfl, rfl, rfl⟩
  | container c =>
    obtain ⟨host, u, v, hHost, hRow, hFlanked⟩ := hd.flanked_row hParent
    refine ⟨host, u, v, hRow, fun m hm => (by cases hm), fun c' hc => ?_⟩
    cases hc
    exact ⟨hHost, hFlanked⟩

/-- An insertion lands before one of the children, or before what comes after them. -/
theorem Framed.landing_eq {parent : NodeRef} (h : d.Framed parent host u v)
    {reference : Option NodeId} (hIn : ∀ x, reference = some x → x ∈ d.childrenOf parent) :
    d.landing parent reference = .ok (host, reference.or v.head?) := by
  cases parent with
  | node n =>
    obtain ⟨rfl, rfl, rfl⟩ := h.node n rfl
    simp [landing]
  | container c =>
    obtain ⟨hHost, hFlanked⟩ := h.container c rfl
    exact hFlanked.spanPoint_eq hHost hIn

theorem Framed.point_eq {parent : NodeRef} {before : Option NodeRef}
    (h : d.Framed parent host u v) (hStands : d.Stands parent before) :
    d.point parent before = .ok (host, (before.bind d.first?).or v.head?) := by
  cases before with
  | none =>
    rw [point_none]
    exact h.landing_eq fun x hx => by cases hx
  | some b =>
    obtain ⟨n, hFirst, hMem⟩ := hStands b rfl
    rw [point_some parent hFirst, Option.bind_some, hFirst]
    exact h.landing_eq fun x hx => Option.some.inj hx ▸ hMem

/-- The children of a parent are what is framed. -/
theorem Framed.childrenOf_eq {parent : NodeRef} {s : List NodeId}
    (hRow : d.children host = u ++ s ++ v) (hNodup : (d.children host).Nodup)
    (hNode : ∀ n, parent = .node n → host = n ∧ u = [] ∧ v = [])
    (hContainer : ∀ c, parent = .container c → d.spanHost? c = some host ∧ d.Flanked c u v) :
    d.childrenOf parent = s := by
  cases parent with
  | node n =>
    obtain ⟨rfl, rfl, rfl⟩ := hNode n rfl
    rw [childrenOf, hRow]
    simp
  | container c =>
    obtain ⟨hHost, hFlanked⟩ := hContainer c rfl
    exact hFlanked.span_eq hHost hRow hNodup

namespace Sound

variable (hd : d.Sound) {r parent : NodeRef} {before : Option NodeRef}
variable (hr : d.Known r) (hParent : d.Known parent) (hOut : ¬ d.Inside r (d.key parent))
include hd hr hOut

theorem markers_not_mem_run {c : ContainerId} (hc : c < d.containers.size)
    (hc' : parent = .container c) : d.part c .start ∉ d.runOf r ∧ d.part c .finish ∉ d.runOf r := by
  subst hc'
  have hStart : d.part c .start ∉ d.runOf r := fun hMem => hOut ⟨_, hMem, Forest.up_refl _⟩
  refine ⟨hStart, fun hMem => ?_⟩
  cases r with
  | node n => exact hr.ne_part c hc .finish (mem_runOf_node.mp hMem).symm
  | container c' =>
    rcases mem_run.mp hMem with hEq | hSpan | hEq
    · cases (hd.part_inj c hc c' hr _ _ hEq).2
    · obtain ⟨n, hn, hMark⟩ := (hd.balanced_span hr).opens_of_closes hSpan (hd.mark_finish hc)
      obtain ⟨_, rfl⟩ := eq_part_of_opens hMark
      exact hStart (mem_run.mpr (.inr (.inl hn)))
    · obtain rfl := (hd.part_inj c hc c' hr _ _ hEq).1
      exact hStart (mem_run.mpr (.inl rfl))

include hParent

theorem reference_apart (hFramed : d.Framed parent host u v) (hStands : d.Stands parent before)
    (hBefore : ∀ b, before = some b → d.key b ∉ d.runOf r) {x : NodeId}
    (hx : (before.bind d.first?).or v.head? = some x) : x ∈ d.children host ∧ x ∉ d.runOf r := by
  rw [hFramed.row]
  cases before with
  | none =>
    have hHead : v.head? = some x := hx
    refine ⟨List.mem_append_right _ (List.mem_of_head? hHead), ?_⟩
    cases parent with
    | node n =>
      obtain ⟨_, _, rfl⟩ := hFramed.node n rfl
      cases hHead
    | container c =>
      rw [(hFramed.container c rfl).2.head_eq] at hHead
      split at hHead
      · obtain rfl := Option.some.inj hHead
        exact (hd.markers_not_mem_run hr hOut hParent rfl).2
      · cases hHead
  | some b =>
    obtain ⟨n, hFirst, hMem⟩ := hStands b rfl
    rw [Option.bind_some, hFirst] at hx
    obtain rfl : n = x := Option.some.inj hx
    refine ⟨List.mem_append_left _ (List.mem_append_right _ hMem), ?_⟩
    rw [first?_eq_key hFirst]
    exact hBefore b rfl

end Sound

/-! ## When it succeeds -/

section Existence

variable {r parent : NodeRef} {before : Option NodeRef} {reference : Option NodeId}
variable (hd : d.Sound) (hr : d.Known r) (hHost : d.Host r host)
variable (hPoint : d.point parent before = .ok (host, reference))
variable (hRef : ∀ x, reference = some x → x ∈ d.children host ∧ x ∉ d.runOf r)
include hd hr hHost hPoint hRef

theorem Sound.exists_place_of_point (hOff : d.isPlaced r = false) :
    ∃ d', d.place r parent before = .ok d' := by
  unfold place
  rw [hPoint]
  cases r with
  | node n => exact exists_insertBefore fun x hx => (hRef x hx).1
  | container c =>
    obtain ⟨d₁, hAll, _, _⟩ := hd.exists_insertRun hr hHost hRef
    rw [runOf_container, span_of_not_live hOff] at hAll
    refine ⟨d₁.setLive c true, ?_⟩
    change d.mount c host _ = _
    unfold mount
    simp only [part] at hAll
    simp only [hAll]
    rfl

theorem Sound.exists_move_of_point (hOn : d.isPlaced r = true) :
    ∃ d', d.move r parent before = .ok d' ∧ Housed d d' r host reference := by
  obtain ⟨d', hAll, hPlaced, hBoxes⟩ := hd.exists_insertRun hr hHost hRef
  refine ⟨d', ?_, Sound.housed_of_placed hPlaced hBoxes ?_⟩
  · unfold move
    rw [hPoint]
    cases r with
    | node n =>
      rw [runOf, insertAll] at hAll
      cases hFirst : d.insertBefore host n reference with
      | error e =>
        rw [hFirst] at hAll
        cases hAll
      | ok d₁ =>
        rw [hFirst] at hAll
        exact hFirst.trans hAll
    | container c =>
      change d.relocate c host _ = _
      have hNot : ¬ reference.any (d.run c).contains = true := by
        rw [Option.any_eq_true]
        rintro ⟨x, hx, hMem⟩
        exact (hRef x hx).2 (List.contains_iff_mem.mp hMem)
      rw [relocate, if_neg hNot]
      exact hAll
  · rintro c rfl
    exact hOn

end Existence

/-- What was to come before a reference lands before its first node. -/
theorem reference_of_point {parent b : NodeRef} {host : NodeId} {reference : Option NodeId}
    (h : d.point parent (some b) = .ok (host, reference)) :
    ∃ n, d.first? b = some n ∧ reference = some n := by
  cases hFirst : d.first? b with
  | none =>
    unfold point at h
    simp only [hFirst] at h
    cases h
  | some n =>
    refine ⟨n, rfl, ?_⟩
    rw [point_some parent hFirst] at h
    cases parent with
    | node m => exact (Prod.mk.inj (Except.ok.inj h)).2.symm
    | container c =>
      change d.spanPoint c (some n) = _ at h
      unfold spanPoint at h
      split at h
      · cases h
      · split at h
        · cases h
        · obtain ⟨-, rfl⟩ := Prod.mk.inj (Except.ok.inj h)
          simp

/-- A reference that a point was found for stands among the children if it is a child of the host. -/
theorem stands_of_point {parent : NodeRef} {before : Option NodeRef} {reference : Option NodeId}
    (hPoint : d.point parent before = .ok (host, reference))
    (hChild : ∀ x, reference = some x → (∃ b, before = some b ∧ x = d.key b) → x ∈ d.children host) :
    d.Stands parent before := by
  rintro b rfl
  obtain ⟨n, hFirst, rfl⟩ := reference_of_point hPoint
  refine ⟨n, hFirst, ?_⟩
  rw [point_some parent hFirst] at hPoint
  cases parent with
  | node m =>
    obtain ⟨rfl, -⟩ := Prod.mk.inj (Except.ok.inj hPoint)
    exact hChild n rfl ⟨b, rfl, first?_eq_key hFirst⟩
  | container c =>
    change d.spanPoint c (some n) = _ at hPoint
    unfold spanPoint at hPoint
    simp only [Option.filter] at hPoint
    by_contra hNot
    have hOut : (!(d.span c).contains n) = true := by simpa [childrenOf] using hNot
    rw [if_pos hOut] at hPoint
    cases hPoint

namespace Sound

variable (hd : d.Sound) {r parent : NodeRef} {before : Option NodeRef} {reference : Option NodeId}
variable (hr : d.Known r) (hParent : d.Known parent) (hOut : ¬ d.Inside r (d.key parent))
variable (hBefore : ∀ b, before = some b → d.key b ∉ d.runOf r)
include hd hr hParent hOut hBefore

omit hBefore in
theorem host_of_away (hPoint : d.point parent before = .ok (host, reference)) : d.Host r host := by
  refine hd.host_of_point hr hParent ?_ hOut hPoint
  rintro rfl
  exact hOut (inside_key _)

omit hd hr hParent hOut hBefore in
theorem stands_of_place (hOff : d.isPlaced r = false) (h : d.place r parent before = .ok d') :
    d.Stands parent before := by
  unfold place at h
  cases hPoint : d.point parent before with
  | error e =>
    rw [hPoint] at h
    cases h
  | ok place =>
    obtain ⟨host, reference⟩ := place
    rw [hPoint] at h
    refine stands_of_point hPoint fun x hx _ => ?_
    subst hx
    cases r with
    | node n => exact mem_children_of_insertBefore h
    | container c =>
      change d.mount c host (some x) = .ok d' at h
      have hRun : (d.container c).start :: (d.children (d.container c).fragment ++
          [(d.container c).finish]) = d.runOf (.container c) := by
        rw [runOf_container, span_of_not_live hOff]
        rfl
      unfold mount at h
      simp only [hRun] at h
      cases hAll : insertAll host (some x) (d.runOf (.container c)) d with
      | error e =>
        rw [hAll] at h
        cases h
      | ok d₁ => exact mem_children_of_insertAll hAll

/-- What is placed nowhere can be placed exactly if the reference is a child. -/
theorem exists_place_iff (hOff : d.isPlaced r = false) :
    (∃ d', d.place r parent before = .ok d') ↔ d.Stands parent before := by
  constructor
  · rintro ⟨d', h⟩
    exact stands_of_place hOff h
  · intro hStands
    obtain ⟨host, u, v, hFramed⟩ := hd.exists_framed hParent
    have hPoint := hFramed.point_eq hStands
    exact hd.exists_place_of_point hr (hd.host_of_away hr hParent hOut hPoint) hPoint
      (fun x hx => hd.reference_apart hr hParent hOut hFramed hStands hBefore hx) hOff

/-- What is placed somewhere can be moved exactly if the reference is a child. -/
theorem exists_move_iff (hOn : d.isPlaced r = true) :
    (∃ d', d.move r parent before = .ok d') ↔ d.Stands parent before := by
  constructor
  · rintro ⟨d', h⟩
    unfold move at h
    cases hPoint : d.point parent before with
    | error e =>
      rw [hPoint] at h
      cases h
    | ok place =>
      obtain ⟨host, reference⟩ := place
      rw [hPoint] at h
      refine stands_of_point hPoint fun x hx hKey => ?_
      subst hx
      cases r with
      | node n => exact mem_children_of_insertBefore h
      | container c =>
        change d.relocate c host (some x) = .ok d' at h
        obtain ⟨b, rfl, rfl⟩ := hKey
        have hNot : ¬ (some (d.key b)).any (d.run c).contains = true := fun hAny =>
          hBefore b rfl (List.contains_iff_mem.mp hAny)
        rw [relocate, if_neg hNot] at h
        exact mem_children_of_insertAll (r := .container c) h
  · intro hStands
    obtain ⟨host, u, v, hFramed⟩ := hd.exists_framed hParent
    have hPoint := hFramed.point_eq hStands
    obtain ⟨d', hMove, _⟩ := hd.exists_move_of_point hr (hd.host_of_away hr hParent hOut hPoint) hPoint
      (fun x hx => hd.reference_apart hr hParent hOut hFramed hStands hBefore hx) hOn
    exact ⟨d', hMove⟩

/-- What was put in sits where it was to be. -/
theorem sits_of_housed (hStands : d.Stands parent before)
    (hPoint : d.point parent before = .ok (host, reference))
    (hHoused : Housed d d' r host reference) : Sits d d' r parent before := by
  have hHost := hd.host_of_away hr hParent hOut hPoint
  have hd' := hHoused.sound hd hr hHost
  obtain ⟨host', u, v, hFramed⟩ := hd.exists_framed hParent
  have hApart := fun x => hd.reference_apart (x := x) hr hParent hOut hFramed hStands hBefore
  rw [hFramed.point_eq hStands] at hPoint
  obtain ⟨rfl, rfl⟩ := Prod.mk.inj (Except.ok.inj hPoint)
  -- the row without the run, and what flanks the children in it
  have hRest : (d.children host').filter (· ∉ d.runOf r) = u.filter (· ∉ d.runOf r) ++
      (d.childrenOf parent).filter (· ∉ d.runOf r) ++ v.filter (· ∉ d.runOf r) := by
    rw [hFramed.row, List.filter_append, List.filter_append]
  have hFlanked : ∀ c, parent = .container c →
      d.Flanked c (u.filter (· ∉ d.runOf r)) (v.filter (· ∉ d.runOf r)) := by
    rintro c rfl
    obtain ⟨hStart, hFinish⟩ := hd.markers_not_mem_run hr hOut hParent rfl
    exact (hFramed.container c rfl).2.filter _ (by simpa using hStart) (by simpa using hFinish)
  have hHead : (v.filter (· ∉ d.runOf r)).head? = v.head? := by
    cases parent with
    | node n =>
      obtain ⟨_, _, rfl⟩ := hFramed.node n rfl
      rfl
    | container c => rw [(hFlanked c rfl).head_eq, (hFramed.container c rfl).2.head_eq]
  have hIn : ∀ x, before.bind d.first? = some x →
      x ∈ (d.childrenOf parent).filter (· ∉ d.runOf r) := by
    intro x hx
    refine List.mem_filter.mpr ⟨?_, by simpa using (hApart x (by rw [hx]; rfl)).2⟩
    obtain ⟨b, rfl, hFirst⟩ := Option.bind_eq_some_iff.mp hx
    obtain ⟨n, hFirst', hMem⟩ := hStands b rfl
    rw [hFirst] at hFirst'
    exact Option.some.inj hFirst' ▸ hMem
  have hNodup := (hd.nodup host').filter (· ∉ d.runOf r)
  rw [hRest] at hNodup
  have hRow : d'.children host' = u.filter (· ∉ d.runOf r) ++
      Forest.splice (before.bind d.first?) (d.runOf r)
        ((d.childrenOf parent).filter (· ∉ d.runOf r)) ++ v.filter (· ∉ d.runOf r) := by
    rw [hHoused.children, if_pos rfl, hRest, ← hHead, splice_middle hNodup hIn]
  have hChildren : d'.childrenOf parent = Forest.splice (before.bind d.first?) (d.runOf r)
      ((d.childrenOf parent).filter (· ∉ d.runOf r)) := by
    refine Framed.childrenOf_eq hRow (hd'.nodup host') (fun n hn => ?_) fun c hc => ?_
    · obtain ⟨hEq, rfl, rfl⟩ := hFramed.node n hn
      exact ⟨hEq, rfl, rfl⟩
    · subst hc
      have hStart := (hd.markers_not_mem_run hr hOut hParent rfl).1
      obtain ⟨hLive, hSpanHost⟩ := hHoused.spanHost hParent hStart
      exact ⟨hSpanHost.trans (hFramed.container c rfl).1,
        (hFlanked c rfl).congr (hHoused.part c) hLive⟩
  refine ⟨hHoused.runOf_eq hd hr hHost, ?_, hHoused.rest⟩
  rw [hChildren]
  exact exists_splice hIn

theorem sits_of_place (hOff : d.isPlaced r = false) (h : d.place r parent before = .ok d') :
    Sits d d' r parent before := by
  have hNe : parent ≠ r := by
    rintro rfl
    exact hOut (inside_key _)
  obtain ⟨host, reference, hPoint, _, hHoused⟩ := hd.housed_of_place hr hParent hNe hOut hOff h
  exact hd.sits_of_housed hr hParent hOut hBefore
    ((hd.exists_place_iff hr hParent hOut hBefore hOff).mp ⟨d', h⟩) hPoint hHoused

theorem sits_of_move (hOn : d.isPlaced r = true) (h : d.move r parent before = .ok d') :
    Sits d d' r parent before := by
  have hStands := (hd.exists_move_iff hr hParent hOut hBefore hOn).mp ⟨d', h⟩
  obtain ⟨host, u, v, hFramed⟩ := hd.exists_framed hParent
  have hPoint := hFramed.point_eq hStands
  obtain ⟨d₁, hMove, hHoused⟩ := hd.exists_move_of_point hr
    (hd.host_of_away hr hParent hOut hPoint) hPoint
    (fun x hx => hd.reference_apart hr hParent hOut hFramed hStands hBefore hx) hOn
  obtain rfl := Except.ok.inj (hMove.symm.trans h)
  exact hd.sits_of_housed hr hParent hOut hBefore hStands hPoint hHoused

end Sound

namespace Unhoused

variable {r : NodeRef} (h : Unhoused d d' r) (hd : d.Sound) (hr : d.Known r)
include h hr

theorem isPlaced_eq (hd' : d'.Sound) (hd : d.Sound) : d'.isPlaced r = false := by
  rw [Bool.eq_false_iff, ne_eq, hd'.isPlaced_iff (h.known_iff.mpr hr), h.key, h.parent,
    if_pos (key_mem_run r)]
  rintro ⟨p, hp⟩
  cases r with
  | node n => cases hp
  | container c =>
    have hNot : d.key (.container c) ∉ d.span c := hd.start_not_mem_span hr
    rw [shelter?, if_neg hNot] at hp
    cases hp

include hd

/-- What was taken out left its place. -/
theorem leaves (hLinked : d'.nodes.Linked) (hOn : d.isPlaced r = true ∨ ∃ n, r = .node n) :
    Leaves d d' r := by
  refine ⟨h.runOf_eq hr, h.isPlaced_eq hr (h.sound hd hr hLinked) hd, fun q => ?_⟩
  by_cases hq : ∃ c, r = .container c ∧ q = d.part c .fragment
  · obtain ⟨c, rfl, rfl⟩ := hq
    have hLive : (d.container c).live = true := hOn.resolve_right fun ⟨n, hn⟩ => by cases hn
    rw [h.sheltered c rfl, hd.empty c hr hLive, List.filter_nil]
    exact List.filter_eq_nil_iff.mpr fun k hk => by simpa using mem_run.mpr (.inr (.inl hk))
  · rw [h.children q fun c hc he => hq ⟨c, hc, he⟩, List.filter_filter]
    simp

end Unhoused

end Dom

end LiveMarkup
