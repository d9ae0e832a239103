import LiveMarkup.Proofs.Dom.Making
import LiveMarkup.Proofs.Dom.Spots
import Mathlib.Data.List.Pairwise

/-!
# Items in a container

A container that is used as a shelf holds items, which are nodes and containers themselves, and
nothing else. Some items stand in it, one after the other; the others are placed nowhere.

A container takes the items that stand in it along when it is put somewhere or taken out. They stand
in it in the same order, and what is inside them stays inside.

* `Shelf.disjoint`: nothing is inside two items;
* `Shelf.housed`, `Shelf.unhoused`: an item is put before another one, or taken out;
* `Shelf.exists_place`, `Shelf.exists_move`: putting in and moving succeed;
* `Shelf.carried`: what a change of the place of the container leaves of its items;
* `Shelf.carried_in`, `Shelf.carried_out`: a container that is put into a host, or taken out.
-/

namespace LiveMarkup

namespace Dom

variable {d d' : Dom} {box : ContainerId} {host : NodeId} {u v : List NodeId}

/-! ## Items -/

/-- A container holds some of the items it could hold, in an order, and nothing else. The others
are placed nowhere, and the container is in none of them. -/
structure Shelf (d : Dom) (box : ContainerId) (rs order : List NodeRef) : Prop where
  box_lt : box < d.containers.size
  known : ∀ r ∈ rs, d.Known r
  away : ∀ r ∈ rs, ¬ d.Inside r (d.part box .start)
  subset : ∀ r ∈ order, r ∈ rs
  nodup : order.Nodup
  placed : ∀ r ∈ rs, (d.isPlaced r = true ↔ r ∈ order)
  row : d.span box = order.flatMap d.runOf

namespace Shelf

variable {rs order : List NodeRef} {r x : NodeRef}

/-- Items may be left out that do not stand in the container. -/
theorem mono (h : d.Shelf box rs order) {rs' : List NodeRef} (hLess : ∀ r ∈ rs', r ∈ rs)
    (hOrder : ∀ r ∈ order, r ∈ rs') : d.Shelf box rs' order where
  box_lt := h.box_lt
  known r hr := h.known r (hLess r hr)
  away r hr := h.away r (hLess r hr)
  subset := hOrder
  nodup := h.nodup
  placed r hr := h.placed r (hLess r hr)
  row := h.row

/-- The way from a member of a run up: to the host, or to no parent or a fragment of its own. -/
theorem parent_cases (h : d.Shelf box rs order) (hd : d.Sound) (hHost : d.spanHost? box = some host)
    (hr : r ∈ rs) {k : NodeId} (hk : k ∈ d.runOf r) :
    (r ∈ order ∧ d.parent? k = some host) ∨ r ∉ order ∧
      ((d.parent? k = none ∧ (k = d.key r ∨ ∃ c, r = .container c ∧ k = d.part c .finish)) ∨
        ∃ c, r = .container c ∧ d.parent? k = some (d.part c .fragment)) := by
  by_cases hIn : r ∈ order
  · refine .inl ⟨hIn, ?_⟩
    rw [hd.parent_of_mem_span h.box_lt, hHost]
    rw [h.row]
    exact List.mem_flatMap.mpr ⟨r, hIn, hk⟩
  · refine .inr ⟨hIn, ?_⟩
    have hOff : d.isPlaced r = false := Bool.eq_false_iff.mpr (mt (h.placed r hr).mp hIn)
    cases r with
    | node n =>
      obtain rfl := mem_runOf_node.mp hk
      exact .inl ⟨Option.not_isSome_iff_eq_none.mp (Bool.eq_false_iff.mp hOff), .inl rfl⟩
    | container c =>
      have hc := h.known _ hr
      have hStart := hd.parent_start_of_not_live hc hOff
      rcases mem_run.mp hk with rfl | hSpan | rfl
      · exact .inl ⟨hStart, .inl rfl⟩
      · refine .inr ⟨c, rfl, ?_⟩
        rw [hd.parent_of_mem_span hc hSpan]
        have hLive : (d.container c).live = false := hOff
        simp [spanHost?, hLive, part]
      · exact .inl ⟨(hd.parent_finish hc).trans hStart, .inr ⟨c, rfl, rfl⟩⟩

theorem known_box (h : d.Shelf box rs order) : d.Known (.container box) := h.box_lt

theorem out (h : d.Shelf box rs order) (hr : r ∈ rs) :
    ¬ d.Inside r (d.key (.container box)) := h.away r hr

theorem ne_box (h : d.Shelf box rs order) (hr : r ∈ rs) : NodeRef.container box ≠ r := by
  rintro rfl
  exact h.away _ hr (inside_key _)

theorem hosted (h : d.Shelf box rs order) (hd : d.Sound) (hr : r ∈ rs)
    (hHost : d.spanHost? box = some host) : d.Host r host :=
  hd.host_of_known (h.known r hr) h.known_box (h.ne_box hr) (h.out hr)
    (fun n hn => by cases hn) (fun c hc => by cases hc; exact hHost)

theorem apart (h : d.Shelf box rs order) (hd : d.Sound) (hx : x ∈ rs) (hr : r ∈ rs) (hNe : x ≠ r)
    {k : NodeId} (hk : k ∈ d.runOf x) : k ∉ d.runOf r := by
  intro hkr
  obtain ⟨host, hHost⟩ := hd.spanHost_some h.box_lt
  have hFragment : ∀ y ∈ rs, y ∉ order → ∀ c, y = .container c → host ≠ d.part c .fragment := by
    rintro y hy - c rfl hEq
    exact ((h.hosted hd hy hHost).of_part c (h.known _ hy) .fragment hEq).2.2 rfl
  rcases h.parent_cases hd hHost hx hk with ⟨hIn, hParent⟩ | ⟨hOut, hCase⟩ <;>
    rcases h.parent_cases hd hHost hr hkr with ⟨hIn', hParent'⟩ | ⟨hOut', hCase'⟩
  · have hNodup := hd.nodup_span h.box_lt
    rw [h.row, List.nodup_flatMap] at hNodup
    have : Std.Symm (Function.onFun List.Disjoint d.runOf) := ⟨fun _ _ h _ hk hk' => h hk' hk⟩
    exact hNodup.2.forall hIn hIn' hNe hk hkr
  · rcases hCase' with ⟨hNone, _⟩ | ⟨c, hc, hParent'⟩
    · rw [hParent] at hNone
      cases hNone
    · rw [hParent] at hParent'
      exact hFragment r hr hOut' c hc (Option.some.inj hParent')
  · rcases hCase with ⟨hNone, _⟩ | ⟨c, hc, hParent⟩
    · rw [hParent'] at hNone
      cases hNone
    · rw [hParent'] at hParent
      exact hFragment x hx hOut c hc (Option.some.inj hParent)
  · rcases hCase with ⟨hNone, hEdge⟩ | ⟨c, rfl, hParent⟩ <;>
      rcases hCase' with ⟨hNone', hEdge'⟩ | ⟨c', rfl, hParent'⟩
    · rcases hEdge with rfl | ⟨c, rfl, rfl⟩ <;> rcases hEdge' with hEq | ⟨c', rfl, hEq⟩
      · exact hNe (hd.key_inj (h.known x hx) (h.known r hr) hEq)
      · exact hd.key_ne_finish (h.known x hx) (h.known _ hr) hEq
      · exact hd.key_ne_finish (h.known r hr) (h.known _ hx) hEq.symm
      · exact hNe (by rw [(hd.part_inj c (h.known _ hx) c' (h.known _ hr) _ _ hEq).1])
    · rw [hNone] at hParent'
      cases hParent'
    · rw [hNone'] at hParent
      cases hParent
    · rw [hParent] at hParent'
      exact hNe (by
        rw [(hd.part_inj c (h.known _ hx) c' (h.known _ hr) _ _ (Option.some.inj hParent')).1])

/-- Nothing is inside two items. -/
theorem disjoint (h : d.Shelf box rs order) (hd : d.Sound) (hx : x ∈ rs) (hr : r ∈ rs) (hNe : x ≠ r)
    {m : NodeId} (hIn : d.Inside x m) : ¬ d.Inside r m := by
  obtain ⟨host, hHost⟩ := hd.spanHost_some h.box_lt
  -- no way up leads from one item into another
  have hNoWay : ∀ y ∈ rs, ∀ z ∈ rs, y ≠ z → ∀ j ∈ d.runOf y, ∀ k ∈ d.runOf z, ¬ d.nodes.Up j k := by
    intro y hy z hz hyz j hj k hk hUp
    rcases hUp.cases_first with rfl | ⟨p, hp, hUp⟩
    · exact h.apart hd hy hz hyz hj hk
    · have hp : d.parent? j = some p := hp
      rcases h.parent_cases hd hHost hy hj with ⟨_, hParent⟩ | ⟨_, ⟨hNone, _⟩ | ⟨c, rfl, hParent⟩⟩
      · rw [hp] at hParent
        obtain rfl := Option.some.inj hParent
        exact (h.hosted hd hz hHost).away k hk hUp
      · rw [hp] at hNone
        cases hNone
      · rw [hp] at hParent
        obtain rfl := Option.some.inj hParent
        have hc := h.known _ hy
        rw [← hUp.eq_of_parent_none (hd.fragment_root c hc)] at hk
        exact hd.fragment_not_mem_run (h.known z hz) hc hk
  rintro ⟨k, hk, hUp⟩
  obtain ⟨j, hj, hUp'⟩ := hIn
  rcases hUp'.total hUp with hWay | hWay
  · exact hNoWay x hx r hr hNe j hj k hk hWay
  · exact hNoWay r hr x hx hNe.symm k hk j hj hWay

end Shelf

/-! ## Moving one item -/

/-- One item changes its place, within the row of a host or into it or out of it. -/
structure Shifted (d d' : Dom) (r : NodeRef) (host : NodeId) : Prop extends SameParts d d' where
  parent : ∀ m ∉ d.runOf r, d'.parent? m = d.parent? m
  children : ∀ q ≠ host, (∀ c, r = .container c → q ≠ d.part c .fragment) →
    d'.children q = (d.children q).filter (· ∉ d.runOf r)
  live : ∀ c < d.containers.size, r ≠ .container c →
    (d'.container c).live = (d.container c).live
  runOf_eq : d'.runOf r = d.runOf r

theorem Housed.shifted {r : NodeRef} {reference : Option NodeId}
    (h : Housed d d' r host reference) (hd : d.Sound) (hr : d.Known r) (hHost : d.Host r host) :
    Shifted d d' r host where
  toSameParts := h.toSameParts
  parent m hm := by rw [h.parent, if_neg hm]
  children q hq _ := by rw [h.children, if_neg hq]
  live c hc hNe := by
    rw [Bool.eq_iff_iff, h.live c hc]
    exact or_iff_left hNe
  runOf_eq := h.runOf_eq hd hr hHost

theorem Unhoused.shifted {r : NodeRef} (h : Unhoused d d' r) (hr : d.Known r) (host : NodeId) :
    Shifted d d' r host where
  toSameParts := h.toSameParts
  parent m hm := by rw [h.parent, if_neg hm]
  children q _ hq := h.children q hq
  live c hc hNe := by
    rw [Bool.eq_iff_iff, h.live c hc]
    exact and_iff_left hNe
  runOf_eq := h.runOf_eq hr

theorem Sound.mem_subtree_congr (hd : d.Sound) (hd' : d'.Sound) (hParts : SameParts d d')
    {r : NodeRef} (hr : d.Known r) (hInside : ∀ m, d'.Inside r m ↔ d.Inside r m) (n : NodeId) :
    n ∈ d'.subtree r ↔ n ∈ d.subtree r := by
  rw [hd'.mem_subtree (hParts.known_iff.mpr hr), hd.mem_subtree hr, hInside]
  simp only [hParts.part]

namespace Shelf

variable {rs order order' : List NodeRef} {r x : NodeRef}

/-- The children of other items stay where they are, if the row of the host is known. -/
theorem runOf_shifted (h : d.Shelf box rs order) (hd : d.Sound) (hd' : d'.Sound)
    (hS : Shifted d d' r host) (hr : r ∈ rs) (hHost : d.spanHost? box = some host)
    (hRow : d'.children host = u ++ order'.flatMap d.runOf ++ v)
    (hOthers : ∀ x, x ≠ r → (x ∈ order' ↔ x ∈ order)) (hx : x ∈ rs) :
    d'.runOf x = d.runOf x := by
  by_cases hxr : x = r
  · rw [hxr, hS.runOf_eq]
  · cases x with
    | node n => rfl
    | container c =>
      have hc := h.known _ hx
      have hNe : r ≠ .container c := fun he => hxr he.symm
      have hApart : ∀ k ∈ d.runOf (.container c), k ∉ d.runOf r := fun k =>
        h.apart hd hx hr hxr
      have hLive := hS.live c hc hNe
      have hSpan : d'.span c = d.span c := by
        cases hOld : (d.container c).live with
        | true =>
          -- the item stands in the row of the host, in one piece
          have hIn : NodeRef.container c ∈ order := (h.placed _ hx).mp hOld
          obtain ⟨p, q, hSplit⟩ := List.append_of_mem ((hOthers _ hxr).mpr hIn)
          have hStart : d'.parent? (d'.part c .start) = some host := by
            have hMem : d.part c .start ∈ d.runOf (.container c) := mem_run.mpr (.inl rfl)
            rw [hS.part, hS.parent _ (hApart _ hMem)]
            rcases h.parent_cases hd hHost hx hMem with ⟨_, hParent⟩ | ⟨hOut, _⟩
            · exact hParent
            · exact absurd hIn hOut
          refine span_eq_of_row (u := u ++ p.flatMap d.runOf) (v := q.flatMap d.runOf ++ v)
            (hLive.trans hOld) hStart ?_ (hd'.nodup host)
          rw [hRow, hSplit, hS.part, hS.part]
          simp [runOf_container]
        | false =>
          have hFragment : d.part c .fragment ≠ host := fun he =>
            ((h.hosted hd hx hHost).of_part c hc .fragment he.symm).2.2 rfl
          rw [span_of_not_live (hLive.trans hOld), span_of_not_live hOld, hS.part,
            hS.children _ hFragment]
          · refine List.filter_eq_self.mpr fun k hk => ?_
            rw [← span_of_not_live hOld] at hk
            simpa using hApart k (mem_run.mpr (.inr (.inl hk)))
          · rintro c' rfl he
            exact hNe (by rw [(hd.part_inj c hc c' (h.known _ hr) _ _ he).1])
      rw [runOf_container, runOf_container, hSpan, hS.part, hS.part]

theorem shifted (h : d.Shelf box rs order) (hd : d.Sound) (hd' : d'.Sound)
    (hS : Shifted d d' r host) (hr : r ∈ rs) (hHost : d.spanHost? box = some host)
    (hRow : d'.children host = u ++ order'.flatMap d.runOf ++ v) (hFlanked : d.Flanked box u v)
    (hNodup : order'.Nodup) (hOthers : ∀ x, x ≠ r → (x ∈ order' ↔ x ∈ order))
    (hSelf : d'.isPlaced r = true ↔ r ∈ order') : d'.Shelf box rs order' := by
  have hRuns : ∀ x ∈ rs, d'.runOf x = d.runOf x := fun x hx =>
    h.runOf_shifted hd hd' hS hr hHost hRow hOthers hx
  have hSubset : ∀ x ∈ order', x ∈ rs := by
    intro x hx
    by_cases hxr : x = r
    · rw [hxr]
      exact hr
    · exact h.subset x ((hOthers x hxr).mp hx)
  have hStart : d.part box .start ∉ d.runOf r := fun hMem =>
    h.away r hr ⟨_, hMem, Forest.up_refl _⟩
  have hLive : (d'.container box).live = (d.container box).live :=
    hS.live box h.box_lt (h.ne_box hr).symm
  have hAgree : Forest.AgreeOff (· ∈ d.runOf r) d.nodes d'.nodes := hS.parent
  refine ⟨hS.size ▸ h.box_lt, fun x hx => hS.known_iff.mpr (h.known x hx), fun x hx => ?_, hSubset,
    hNodup, fun x hx => ?_, ?_⟩
  · rintro ⟨k, hk, hUp⟩
    rw [hRuns x hx] at hk
    rw [hS.part, hAgree.up_iff fun k hk hUp => h.away r hr ⟨k, hk, hUp⟩] at hUp
    exact h.away x hx ⟨k, hk, hUp⟩
  · by_cases hxr : x = r
    · rw [hxr]
      exact hSelf
    · rw [hOthers x hxr, ← h.placed x hx, hd.isPlaced_iff (h.known x hx),
        hd'.isPlaced_iff (hS.known_iff.mpr (h.known x hx)), hS.key,
        hS.parent _ (h.apart hd hx hr hxr (key_mem_run x))]
  · have hHost' : d'.spanHost? box = some host := by
      rw [← hHost]
      have hParent : d'.parent? (d'.part box .start) = d.parent? (d.part box .start) := by
        rw [hS.part, hS.parent _ hStart]
      have hFragment := hS.part box .fragment
      simp only [part] at hParent hFragment
      simp only [spanHost?, hLive, hParent, hFragment]
    rw [(hFlanked.congr (hS.part box) hLive).span_eq hHost' hRow (hd'.nodup host)]
    exact List.flatMap_congr fun x hx => (hRuns x (hSubset x hx)).symm

/-- What is inside an item stays inside while one of the items changes its place. -/
theorem inside_shifted (h : d.Shelf box rs order) (hd : d.Sound) (hd' : d'.Sound)
    (hS : Shifted d d' r host) (h' : d'.Shelf box rs order')
    (hRuns : ∀ x ∈ rs, d'.runOf x = d.runOf x) (hr : r ∈ rs) (hx : x ∈ rs) {m : NodeId} :
    d'.Inside x m ↔ d.Inside x m := by
  have hAgree : Forest.AgreeOff (· ∈ d.runOf r) d.nodes d'.nodes := hS.parent
  have hSelf : d'.Inside r m ↔ d.Inside r m := by
    simp only [Inside, hS.runOf_eq]
    exact hAgree.below_iff.symm
  by_cases hxr : x = r
  · rw [hxr]
    exact hSelf
  · by_cases hIn : d.Inside r m
    · exact iff_of_false (h'.disjoint hd' hr hx (Ne.symm hxr) (hSelf.mpr hIn))
        (h.disjoint hd hr hx (Ne.symm hxr) hIn)
    · simp only [Inside, hRuns x hx]
      refine exists_congr fun k => and_congr_right fun _ => ?_
      exact hAgree.up_iff fun k hk hUp => hIn ⟨k, hk, hUp⟩

end Shelf

/-! ## Putting in and taking out -/

theorem runOf_eq_cons (d : Dom) (r : NodeRef) : ∃ rest, d.runOf r = d.key r :: rest := by
  cases r with
  | node n => exact ⟨[], rfl⟩
  | container c => exact ⟨_, runOf_container d c⟩

/-- Among runs, a run that is put before another one comes before all of it. -/
theorem splice_runs {order : List NodeRef} {before : Option NodeRef} {r : NodeRef}
    (hNodup : (order.flatMap d.runOf).Nodup) (hBefore : ∀ a, before = some a → a ∈ order) :
    Forest.splice (before.map d.key) (d.runOf r) (order.flatMap d.runOf) =
      (Forest.splice before [r] order).flatMap d.runOf := by
  cases before with
  | none => simp [Forest.splice]
  | some a =>
    obtain ⟨p, q, rfl, hp⟩ := List.eq_append_cons_of_mem (hBefore a rfl)
    obtain ⟨rest, hRun⟩ := d.runOf_eq_cons a
    simp only [List.flatMap_append, List.flatMap_cons, hRun, List.cons_append] at hNodup ⊢
    have hFirst : d.key a ∉ p.flatMap d.runOf := fun hMem =>
      (List.nodup_append.mp hNodup).2.2 _ hMem _ List.mem_cons_self rfl
    rw [Forest.splice_append hp, Option.map_some, Forest.splice_append hFirst]
    simp [hRun]

namespace Shelf

variable {rs order : List NodeRef} {r : NodeRef} {before : Option NodeRef}
variable {reference : Option NodeId}

theorem flanked_without (h : d.Shelf box rs order) (hd : d.Sound) (hr : r ∈ rs)
    (hFlanked : d.Flanked box u v) :
    d.Flanked box (u.filter (· ∉ d.runOf r)) (v.filter (· ∉ d.runOf r)) := by
  obtain ⟨hStart, hFinish⟩ := hd.markers_not_mem_run (h.known r hr) (h.out hr) h.box_lt rfl
  exact hFlanked.filter _ (by simpa using hStart) (by simpa using hFinish)

/-- The row without an item is the row of the other items. -/
theorem row_without (h : d.Shelf box rs order) (hd : d.Sound) (hr : r ∈ rs) :
    (order.flatMap d.runOf).filter (· ∉ d.runOf r) =
      (order.filter (· ≠ r)).flatMap d.runOf := by
  have hAll : ∀ l : List NodeRef, (∀ x ∈ l, x ∈ rs) →
      (l.flatMap d.runOf).filter (· ∉ d.runOf r) = (l.filter (· ≠ r)).flatMap d.runOf := by
    intro l hl
    induction l with
    | nil => rfl
    | cons x l ih =>
      have hRest := ih fun y hy => hl y (List.mem_cons_of_mem _ hy)
      rw [List.flatMap_cons, List.filter_append, hRest]
      by_cases hxr : x = r
      · have hNone : (d.runOf x).filter (· ∉ d.runOf r) = [] :=
          List.filter_eq_nil_iff.mpr fun k hk => by simpa [hxr] using hk
        rw [hNone, hxr, List.filter_cons_of_neg (by simp)]
        rfl
      · have hSame : (d.runOf x).filter (· ∉ d.runOf r) = d.runOf x :=
          List.filter_eq_self.mpr fun k hk => by
            simpa using h.apart hd (hl x List.mem_cons_self) hr hxr hk
        rw [hSame, List.filter_cons_of_pos (by simpa using hxr), List.flatMap_cons]
  exact hAll order h.subset

theorem framed (hHost : d.spanHost? box = some host) (hRow : d.children host = u ++ d.span box ++ v)
    (hFlanked : d.Flanked box u v) : d.Framed (.container box) host u v := by
  refine ⟨hRow, fun n hn => (by cases hn), fun c hc => ?_⟩
  cases hc
  exact ⟨hHost, hFlanked⟩

theorem first_eq_key (h : d.Shelf box rs order) (hBefore : ∀ a, before = some a → a ∈ order) :
    before.bind d.first? = before.map d.key := by
  cases before with
  | none => rfl
  | some a =>
    have ha := hBefore a rfl
    exact Sound.first?_of_placed ((h.placed a (h.subset a ha)).mpr ha)

theorem stands (h : d.Shelf box rs order) (hBefore : ∀ a, before = some a → a ∈ order) :
    d.Stands (.container box) before := by
  rintro a rfl
  have ha := hBefore a rfl
  refine ⟨d.key a, h.first_eq_key hBefore, ?_⟩
  change _ ∈ d.span box
  rw [h.row]
  exact List.mem_flatMap.mpr ⟨a, ha, key_mem_run a⟩

theorem point_eq (h : d.Shelf box rs order) (hFramed : d.Framed (.container box) host u v)
    (hBefore : ∀ a, before = some a → a ∈ order) :
    d.point (.container box) before = .ok (host, (before.map d.key).or v.head?) := by
  rw [hFramed.point_eq (h.stands hBefore), h.first_eq_key hBefore]

theorem key_apart (h : d.Shelf box rs order) (hd : d.Sound) (hr : r ∈ rs)
    (hBefore : ∀ a, before = some a → a ∈ order ∧ a ≠ r) (a : NodeRef) (ha : before = some a) :
    d.key a ∉ d.runOf r :=
  h.apart hd (h.subset a (hBefore a ha).1) hr (hBefore a ha).2 (key_mem_run a)

/-- An item is put before another one that stands in the container, or last. -/
theorem housed (h : d.Shelf box rs order) (hd : d.Sound) (hr : r ∈ rs)
    (hBefore : ∀ a, before = some a → a ∈ order ∧ a ≠ r)
    (hPoint : d.point (.container box) before = .ok (host, reference))
    (hHoused : Housed d d' r host reference) :
    d'.Sound ∧ d'.Shelf box rs (Forest.splice before [r] (order.filter (· ≠ r))) ∧
      ∀ x ∈ rs, ∀ m, d'.Inside x m ↔ d.Inside x m := by
  obtain ⟨host', u, v, hHost, hRow, hFlanked⟩ := hd.flanked_row h.box_lt
  rw [h.point_eq (framed hHost hRow hFlanked) fun a ha => (hBefore a ha).1] at hPoint
  obtain ⟨rfl, rfl⟩ := Prod.mk.inj (Except.ok.inj hPoint)
  have hIn := h.hosted hd hr hHost
  have hd' := hHoused.sound hd (h.known r hr) hIn
  have hS := hHoused.shifted hd (h.known r hr) hIn
  have hFlanked' := h.flanked_without hd hr hFlanked
  have hRest : (d.children host').filter (· ∉ d.runOf r) = u.filter (· ∉ d.runOf r) ++
      (order.filter (· ≠ r)).flatMap d.runOf ++ v.filter (· ∉ d.runOf r) := by
    rw [hRow, List.filter_append, List.filter_append, h.row, h.row_without hd hr]
  have hNodup := (hd.nodup host').filter (· ∉ d.runOf r)
  rw [hRest] at hNodup
  have hRow' : d'.children host' = u.filter (· ∉ d.runOf r) ++
      (Forest.splice before [r] (order.filter (· ≠ r))).flatMap d.runOf ++
      v.filter (· ∉ d.runOf r) := by
    rw [hHoused.children, if_pos rfl, hRest]
    have hKeep : ∀ a, before = some a → a ∈ order.filter (· ≠ r) := fun a ha =>
      List.mem_filter.mpr ⟨(hBefore a ha).1, by simpa using (hBefore a ha).2⟩
    have hRuns := (List.nodup_append.mp (List.nodup_append.mp hNodup).1).2.1
    rw [hFlanked.head_eq, ← hFlanked'.head_eq, splice_middle hNodup, splice_runs hRuns hKeep]
    intro x hx
    obtain ⟨a, ha, rfl⟩ := Option.map_eq_some_iff.mp hx
    exact List.mem_flatMap.mpr ⟨a, hKeep a ha, key_mem_run a⟩
  have hOthers : ∀ x, x ≠ r → (x ∈ Forest.splice before [r] (order.filter (· ≠ r)) ↔ x ∈ order) := by
    intro x hx
    simp [Forest.mem_splice, hx]
  have hOrder : (Forest.splice before [r] (order.filter (· ≠ r))).Nodup := by
    rw [(Forest.splice_perm before [r] _).nodup_iff]
    exact List.nodup_cons.mpr ⟨by simp, h.nodup.filter _⟩
  have hPlaced : d'.isPlaced r = true := by
    rw [hd'.isPlaced_iff (hHoused.known_iff.mpr (h.known r hr)), hHoused.key, hHoused.parent,
      if_pos (key_mem_run r)]
    exact ⟨host', rfl⟩
  have hShelf := h.shifted hd hd' hS hr hHost hRow' hFlanked' hOrder hOthers
    (iff_of_true hPlaced (Forest.mem_splice.mpr (.inl List.mem_cons_self)))
  refine ⟨hd', hShelf, fun x hx m => ?_⟩
  exact h.inside_shifted hd hd' hS hShelf
    (fun y hy => h.runOf_shifted hd hd' hS hr hHost hRow' hOthers hy) hr hx

/-- An item is taken out of the container. -/
theorem unhoused (h : d.Shelf box rs order) (hd : d.Sound) (hIn : r ∈ order)
    (hUnhoused : Unhoused d d' r) (hLinked : d'.nodes.Linked) :
    d'.Sound ∧ d'.Shelf box rs (order.filter (· ≠ r)) ∧
      ∀ x ∈ rs, ∀ m, d'.Inside x m ↔ d.Inside x m := by
  have hr := h.subset r hIn
  obtain ⟨host, u, v, hHost, hRow, hFlanked⟩ := hd.flanked_row h.box_lt
  have hd' := hUnhoused.sound hd (h.known r hr) hLinked
  have hS := hUnhoused.shifted (h.known r hr) host
  have hFlanked' := h.flanked_without hd hr hFlanked
  have hRow' : d'.children host = u.filter (· ∉ d.runOf r) ++
      (order.filter (· ≠ r)).flatMap d.runOf ++ v.filter (· ∉ d.runOf r) := by
    rw [hUnhoused.children host, hRow, List.filter_append, List.filter_append, h.row,
      h.row_without hd hr]
    rintro c rfl he
    exact ((h.hosted hd hr hHost).of_part c (h.known _ hr) .fragment he).2.2 rfl
  have hOthers : ∀ x, x ≠ r → (x ∈ order.filter (· ≠ r) ↔ x ∈ order) := by
    intro x hx
    simp [hx]
  have hOff : ¬ d'.isPlaced r = true :=
    Bool.eq_false_iff.mp (hUnhoused.isPlaced_eq (h.known r hr) hd' hd)
  have hShelf := h.shifted hd hd' hS hr hHost hRow' hFlanked' (h.nodup.filter _) hOthers
    (iff_of_false hOff (by simp))
  refine ⟨hd', hShelf, fun x hx m => ?_⟩
  exact h.inside_shifted hd hd' hS hShelf
    (fun y hy => h.runOf_shifted hd hd' hS hr hHost hRow' hOthers hy) hr hx

/-- An item that is placed nowhere can be put into the container. -/
theorem exists_place (h : d.Shelf box rs order) (hd : d.Sound) (hr : r ∈ rs) (hOut : r ∉ order)
    (hBefore : ∀ a, before = some a → a ∈ order) :
    ∃ d', d.place r (.container box) before = .ok d' :=
  (hd.exists_place_iff (h.known r hr) h.known_box (h.out hr)
    (h.key_apart hd hr fun a ha => ⟨hBefore a ha, fun he => hOut (he ▸ hBefore a ha)⟩)
    (Bool.eq_false_iff.mpr (mt (h.placed r hr).mp hOut))).mpr (h.stands hBefore)

/-- An item can be moved before another one or to the end. -/
theorem exists_move (h : d.Shelf box rs order) (hd : d.Sound) (hIn : r ∈ order)
    (hBefore : ∀ a, before = some a → a ∈ order ∧ a ≠ r) :
    ∃ d' host reference, d.move r (.container box) before = .ok d' ∧
      d.point (.container box) before = .ok (host, reference) ∧
      Housed d d' r host reference := by
  have hr := h.subset r hIn
  obtain ⟨host, u, v, hHost, hRow, hFlanked⟩ := hd.flanked_row h.box_lt
  have hFramed := framed hHost hRow hFlanked
  have hStands := h.stands fun a ha => (hBefore a ha).1
  have hPoint := hFramed.point_eq hStands
  obtain ⟨d', hMove, hHoused⟩ := hd.exists_move_of_point (h.known r hr) (h.hosted hd hr hHost)
    hPoint (fun x hx => hd.reference_apart (h.known r hr) h.known_box (h.out hr) hFramed
      hStands (h.key_apart hd hr hBefore) hx) ((h.placed r hr).mpr hIn)
  exact ⟨d', host, _, hMove, hPoint, hHoused⟩

/-! ## New items -/

theorem kept (h : d.Shelf box rs order) (hd : d.Sound) (hd' : d'.Sound) (hKept : Kept d d') :
    d'.Shelf box rs order where
  box_lt := Nat.lt_of_lt_of_le h.box_lt hKept.size
  known r hr := hKept.known (h.known r hr)
  away r hr := by
    rw [hKept.part h.box_lt, hKept.inside_iff hd hd' (h.known r hr)]
    exact h.away r hr
  subset := h.subset
  nodup := h.nodup
  placed r hr := by
    rw [hKept.isPlaced (h.known r hr)]
    exact h.placed r hr
  row := by
    rw [hKept.span hd h.box_lt, h.row]
    exact List.flatMap_congr fun r hr => (hKept.runOf hd (h.known r (h.subset r hr))).symm

theorem add (h : d.Shelf box rs order) (hd : d.Sound) (hd' : d'.Sound) (hKept : Kept d d')
    (hr : d'.Known r) (hOff : d'.isPlaced r = false)
    (hNew : ∀ k ∈ d'.runOf r, d.nodes.size ≤ k) : d'.Shelf box (r :: rs) order := by
  have h' := h.kept hd hd' hKept
  have hOut : r ∉ rs := fun hMem => by
    have hLt := hd.key_lt_size (h.known r hMem)
    rw [← hKept.key (h.known r hMem)] at hLt
    exact Nat.not_lt.mpr (hNew _ (key_mem_run r)) hLt
  refine ⟨h'.box_lt, ?_, ?_, fun x hx => List.mem_cons_of_mem _ (h.subset x hx), h.nodup, ?_, h'.row⟩
  · exact List.forall_mem_cons.mpr ⟨hr, h'.known⟩
  · refine List.forall_mem_cons.mpr ⟨?_, h'.away⟩
    rintro ⟨k, hk, hUp⟩
    rw [hKept.part h.box_lt] at hUp
    exact Nat.not_lt.mpr (hNew k hk) (hKept.up_of_lt hd (hd.part_lt box h.box_lt .start) hUp).2
  · refine List.forall_mem_cons.mpr ⟨?_, h'.placed⟩
    exact iff_of_false (by simp [hOff]) fun hMem => hOut (h.subset r hMem)

end Shelf

end Dom

end LiveMarkup

/-! ## Items of a container that is moved -/

namespace LiveMarkup

namespace Forest

variable {α : Type} {f f' : Forest α} {moved : NodeId → Prop}

/-- A way up that may only end at a moved node is as before. -/
theorem AgreeOff.up_of_last (h : AgreeOff moved f f') {m x : NodeId}
    (hLast : ∀ j, moved j → f.Up j x → j = x) (hUp : f.Up m x) : f'.Up m x := by
  induction hUp using Relation.ReflTransGen.head_induction_on with
  | refl => exact up_refl x
  | @head m p hParent hUp ih =>
    by_cases hm : moved m
    · rw [hLast m hm (Up.trans (up_parent hParent) hUp)]
      exact up_refl x
    · have hParent' : f'.parent? m = some p := (h m hm).trans hParent
      exact Up.trans (up_parent hParent') ih

end Forest

namespace Dom

namespace Shelf

variable {d d' : Dom} {box : ContainerId} {host : NodeId} {reference : Option NodeId}
variable {rs order : List NodeRef} {r : NodeRef}

theorem mem_span_of_run (h : d.Shelf box rs order) (hd : d.Sound) (hr : r ∈ rs) {k : NodeId}
    (hk : k ∈ d.runOf r) (hBox : k ∈ d.runOf (.container box)) : k ∈ d.span box := by
  obtain ⟨hStart, hFinish⟩ := hd.markers_not_mem_run (h.known r hr) (h.out hr) h.box_lt rfl
  rcases mem_run.mp hBox with rfl | hSpan | rfl
  · exact absurd hk hStart
  · exact hSpan
  · exact absurd hk hFinish

theorem key_mem_iff (h : d.Shelf box rs order) (hd : d.Sound) (hr : r ∈ rs) :
    d.key r ∈ d.runOf (.container box) ↔ r ∈ order := by
  constructor
  · intro hMem
    have hSpan := h.mem_span_of_run hd hr (key_mem_run r) hMem
    refine (h.placed r hr).mp ((hd.isPlaced_iff (h.known r hr)).mpr ?_)
    rw [hd.parent_of_mem_span h.box_lt hSpan]
    exact hd.spanHost_some h.box_lt
  · intro hIn
    refine mem_run.mpr (.inr (.inl ?_))
    rw [h.row]
    exact List.mem_flatMap.mpr ⟨r, hIn, key_mem_run r⟩

/-- From the run of the container no way leads up into an item, unless it begins there. -/
theorem eq_of_up_run (h : d.Shelf box rs order) (hd : d.Sound) (hr : r ∈ rs) {j k : NodeId}
    (hj : j ∈ d.runOf (.container box)) (hk : k ∈ d.runOf r) (hUp : d.nodes.Up j k) : j = k := by
  have hAway : ∀ m, d.parent? m = d.parent? (d.part box .start) → d.nodes.Up m k → m = k := by
    intro m hm hUp
    rcases hUp.cases_first with hEq | ⟨p, hp, hUp⟩
    · exact hEq
    · rw [show d.nodes.parent? m = _ from hm] at hp
      exact absurd ⟨k, hk, (Forest.up_parent hp).trans hUp⟩ (h.away r hr)
  rcases mem_run.mp hj with rfl | hSpan | rfl
  · exact hAway _ rfl hUp
  · rcases hUp.cases_first with hEq | ⟨p, hp, hUp⟩
    · exact hEq
    · obtain ⟨host, hHost⟩ := hd.spanHost_some h.box_lt
      rw [show d.nodes.parent? j = _ from hd.parent_of_mem_span h.box_lt hSpan, hHost] at hp
      obtain rfl := Option.some.inj hp
      exact absurd hUp ((h.hosted hd hr hHost).away k hk)
  · exact hAway _ (hd.parent_finish h.box_lt) hUp

section Carried

variable (h : d.Shelf box rs order) (hd : d.Sound) (hd' : d'.Sound)
variable (hS : Shifted d d' (.container box) host)
variable (hHost : ∀ r ∈ rs, ∀ c, r = .container c → host ≠ d.part c .fragment)
include h hd hd' hS hHost

theorem runOf_carried (hr : r ∈ rs) : d'.runOf r = d.runOf r := by
  cases r with
  | node n => rfl
  | container c =>
    have hc := h.known _ hr
    have hNe : box ≠ c := fun he => h.ne_box hr (by rw [he])
    have hLive := hS.live c hc (h.ne_box hr)
    have hBox' : box < d'.containers.size := hS.size ▸ h.box_lt
    have hSpanBox : d'.span box = d.span box := by
      have hRun := hS.runOf_eq
      rw [runOf_container, runOf_container, hS.part, hS.part] at hRun
      exact List.append_cancel_right (List.cons.inj hRun).2
    have hSpan : d'.span c = d.span c := by
      cases hOld : (d.container c).live with
      | true =>
        -- the item is one piece of the children of the container
        obtain ⟨p, q, rfl⟩ := List.append_of_mem ((h.placed _ hr).mp hOld)
        obtain ⟨host', u, v, hHost', hRow', -⟩ := hd'.flanked_row hBox'
        have hPiece : d'.span box = p.flatMap d.runOf ++
            d.part c .start :: (d.span c ++ d.part c .finish :: q.flatMap d.runOf) := by
          rw [hSpanBox, h.row]
          simp [runOf_container]
        have hStart : d'.parent? (d'.part c .start) = some host' := by
          rw [hS.part, hd'.parent_of_mem_span hBox', hHost']
          rw [hPiece]
          simp
        refine span_eq_of_row (u := u ++ p.flatMap d.runOf) (v := q.flatMap d.runOf ++ v)
          (hLive.trans hOld) hStart ?_ (hd'.nodup host')
        rw [hRow', hPiece, hS.part, hS.part]
        simp
      | false =>
        have hOther : ∀ c', NodeRef.container box = .container c' →
            d.part c .fragment ≠ d.part c' .fragment := by
          rintro c' hEq he
          cases hEq
          exact hNe (hd.part_inj c hc box h.box_lt _ _ he).1.symm
        rw [span_of_not_live (hLive.trans hOld), span_of_not_live hOld, hS.part,
          hS.children _ (hHost _ hr c rfl).symm hOther]
        refine List.filter_eq_self.mpr fun k hk => ?_
        rw [← span_of_not_live hOld] at hk
        rw [decide_eq_true_iff]
        intro hMem
        have hSpanHost := hd.parent_of_mem_span h.box_lt
          (h.mem_span_of_run hd hr (mem_run.mpr (.inr (.inl hk))) hMem)
        obtain ⟨host', hHost'⟩ := hd.spanHost_some h.box_lt
        rw [hd.parent_of_mem_span hc hk, hHost'] at hSpanHost
        have hFragment : d.spanHost? c = some (d.part c .fragment) := by
          simp [spanHost?, hOld, part]
        rw [hFragment] at hSpanHost
        exact ((h.hosted hd hr hHost').of_part c hc .fragment
          (Option.some.inj hSpanHost).symm).2.2 rfl
    rw [runOf_container, runOf_container, hSpan, hS.part, hS.part]

/-- The items of a container that is moved, into no item, stand in it as before. -/
theorem carried (hAway : ∀ r ∈ rs, ∀ k ∈ d.runOf r, ¬ d'.nodes.Up (d.part box .start) k)
    (hPlaced : ∀ k ∈ d.span box, ∃ p, d'.parent? k = some p) :
    d'.Shelf box rs order ∧ ∀ r ∈ rs, ∀ m, d'.Inside r m ↔ d.Inside r m := by
  have hRuns : ∀ r ∈ rs, d'.runOf r = d.runOf r := fun r hr => h.runOf_carried hd hd' hS hHost hr
  have hAgree : Forest.AgreeOff (· ∈ d.runOf (.container box)) d.nodes d'.nodes := hS.parent
  have hShelf : d'.Shelf box rs order := by
    refine ⟨hS.size ▸ h.box_lt, fun r hr => hS.known_iff.mpr (h.known r hr), ?_, h.subset, h.nodup,
      fun r hr => ?_, ?_⟩
    · rintro r hr ⟨k, hk, hUp⟩
      rw [hRuns r hr] at hk
      rw [hS.part] at hUp
      exact hAway r hr k hk hUp
    · rw [hd'.isPlaced_iff (hS.known_iff.mpr (h.known r hr)), hS.key]
      by_cases hIn : r ∈ order
      · have hSpan : d.key r ∈ d.span box := by
          rw [h.row]
          exact List.mem_flatMap.mpr ⟨r, hIn, key_mem_run r⟩
        exact iff_of_true (hPlaced _ hSpan) hIn
      · rw [hS.parent _ (mt (h.key_mem_iff hd hr).mp hIn), ← hd.isPlaced_iff (h.known r hr)]
        exact h.placed r hr
    · have hRun := hS.runOf_eq
      rw [runOf_container, runOf_container, hS.part, hS.part] at hRun
      rw [List.append_cancel_right (List.cons.inj hRun).2, h.row]
      exact List.flatMap_congr fun r hr => (hRuns r (h.subset r hr)).symm
  refine ⟨hShelf, fun r hr m => ?_⟩
  unfold Inside
  rw [hRuns r hr]
  refine exists_congr fun k => and_congr_right fun hk => ⟨?_, ?_⟩
  · refine hAgree.symm.up_of_last fun j hj => ?_
    rw [← hS.runOf_eq] at hj
    exact hShelf.eq_of_up_run hd' hr hj ((hRuns r hr).symm ▸ hk)
  · exact hAgree.up_of_last fun j hj => h.eq_of_up_run hd hr hj hk

end Carried

/-- The container is put into a host that can take each item as well. -/
theorem carried_in (h : d.Shelf box rs order) (hd : d.Sound)
    (hHoused : Housed d d' (.container box) host reference) (hHost : d.Host (.container box) host)
    (hHosts : ∀ r ∈ rs, d.Host r host) :
    d'.Shelf box rs order ∧ ∀ r ∈ rs, ∀ m, d'.Inside r m ↔ d.Inside r m := by
  have hKnown : d.Known (.container box) := h.box_lt
  have hStart : d.part box .start ∈ d.runOf (.container box) := mem_run.mpr (.inl rfl)
  refine h.carried hd (hHoused.sound hd hKnown hHost) (hHoused.shifted hd hKnown hHost)
    (fun r hr c hc he => ?_) (fun r hr k hk hUp => ?_) fun k hk => ?_
  · subst hc
    exact ((hHosts _ hr).of_part c (h.known _ hr) .fragment he).2.2 rfl
  · rcases hUp.cases_first with rfl | ⟨p, hp, hUp⟩
    · exact h.away r hr ⟨_, hk, Forest.up_refl _⟩
    · rw [show d'.nodes.parent? _ = _ from hHoused.parent _, if_pos hStart] at hp
      obtain rfl := Option.some.inj hp
      rw [hHoused.up_iff_of_outside fun ⟨j, hj, hUp⟩ => hHost.away j hj hUp] at hUp
      exact (hHosts r hr).away k hk hUp
  · rw [hHoused.parent, if_pos (mem_run.mpr (.inr (.inl hk)))]
    exact ⟨host, rfl⟩

/-- The container is taken out. -/
theorem carried_out (h : d.Shelf box rs order) (hd : d.Sound)
    (hUnhoused : Unhoused d d' (.container box)) (hLinked : d'.nodes.Linked) :
    d'.Shelf box rs order ∧ ∀ r ∈ rs, ∀ m, d'.Inside r m ↔ d.Inside r m := by
  have hKnown : d.Known (.container box) := h.box_lt
  have hStart : d.part box .start ∈ d.runOf (.container box) := mem_run.mpr (.inl rfl)
  refine h.carried hd (hUnhoused.sound hd hKnown hLinked)
    (hUnhoused.shifted hKnown (d.part box .fragment)) (fun r hr c hc he => ?_)
    (fun r hr k hk hUp => ?_) fun k hk => ?_
  · subst hc
    exact h.ne_box hr (by rw [(hd.part_inj box h.box_lt c (h.known _ hr) _ _ he).1])
  · rcases hUp.cases_first with rfl | ⟨p, hp, -⟩
    · exact h.away r hr ⟨_, hk, Forest.up_refl _⟩
    · rw [show d'.nodes.parent? _ = _ from hUnhoused.parent _, if_pos hStart] at hp
      simp [shelter?, hd.start_not_mem_span h.box_lt] at hp
  · rw [hUnhoused.parent, if_pos (mem_run.mpr (.inr (.inl hk)))]
    exact ⟨d.part box .fragment, by simp [shelter?, hk]⟩

end Shelf

end Dom

end LiveMarkup
