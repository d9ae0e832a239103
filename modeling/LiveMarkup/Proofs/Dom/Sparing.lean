import LiveMarkup.Proofs.Dom.Making
import LiveMarkup.Proofs.Dom.Spots

/-!
# What is left as it is

Two ways in which a document can change and still be the same in part. Nothing changes its place
while only texts and attributes are written and nodes and containers are made. And when one node or
container is put somewhere, moved or taken out, all others stay in the order in which they are.

A node or container sits in a parent if its run is in one piece among the children, right before
the first node of a reference or last. That is what the check before a second attachment looks for,
by the parent of the first node and by what follows the last one; and it is what is left after
something was put there, as putting it there once more would change nothing.

* `Dom.Extends`: all nodes and containers are still there;
* `Dom.Spared`: every node stands where it stood;
* `Dom.Carried`: all but one node or container stand in the same order;
* `Dom.Carried.restored`: what was nowhere and is nowhere again has left no trace;
* `Dom.Carried.isPlaced_eq`: all others are placed if they were;
* `Dom.Sound.placed`, `Dom.Sound.moved`, `Dom.Sound.taken`: what placing, moving and taking out come
  to, and `Dom.Sound.carried_of_move`, also if the reference is a container's own node;
* `Forest.Linked.next?_eq`: what follows a child;
* `Sound.housed_self`: a run that stands somewhere stands where it would be put;
* `Sound.standsAt_iff`: what the check comes to;
* `Sits.seated`: what was put somewhere sits there;
* `Carried.stands_iff`: what is still a reference after something else was taken out.
-/

namespace LiveMarkup

namespace Dom

variable {d d₁ d₂ d' : Dom} {r x parent : NodeRef} {before : Option NodeRef} {c : ContainerId}

/-! ## Documents that have grown -/

theorem lt_size_of_live (h : (d.container c).live = true) : c < d.containers.size := by
  by_contra hc
  rw [container, Array.getD_eq_getD_getElem?, Array.getElem?_eq_none (Nat.le_of_not_lt hc)] at h
  cases h

/-- All nodes and containers are still there. New containers have new nodes. -/
structure Extends (d d' : Dom) : Prop where
  nodes_size : d.nodes.size ≤ d'.nodes.size
  size : d.containers.size ≤ d'.containers.size
  part : ∀ c < d.containers.size, ∀ p, d'.part c p = d.part c p
  fresh : ∀ c, d.containers.size ≤ c → c < d'.containers.size → ∀ p, d.nodes.size ≤ d'.part c p

theorem SameParts.extends (h : SameParts d d') : Extends d d' where
  nodes_size := h.nodes_size.ge
  size := h.size.ge
  part c _ := h.part c
  fresh _ hOld hNew := absurd (h.size ▸ hNew) (Nat.not_lt.mpr hOld)

namespace Extends

theorem refl (d : Dom) : Extends d d :=
  (SameParts.refl d).extends

theorem trans (h₁ : Extends d d₁) (h₂ : Extends d₁ d') : Extends d d' where
  nodes_size := h₁.nodes_size.trans h₂.nodes_size
  size := h₁.size.trans h₂.size
  part c hc p := (h₂.part c (hc.trans_le h₁.size) p).trans (h₁.part c hc p)
  fresh c hOld hNew p := by
    by_cases hc : c < d₁.containers.size
    · rw [h₂.part c hc]
      exact h₁.fresh c hOld hc p
    · exact h₁.nodes_size.trans (h₂.fresh c (Nat.le_of_not_lt hc) hNew p)

variable (h : Extends d d')
include h

theorem known (hr : d.Known r) : d'.Known r := by
  cases r with
  | node n =>
    refine ⟨hr.lt_size.trans_le h.nodes_size, fun c hc p => ?_⟩
    by_cases hOld : c < d.containers.size
    · rw [h.part c hOld]
      exact hr.ne_part c hOld p
    · exact (hr.lt_size.trans_le (h.fresh c (Nat.le_of_not_lt hOld) hc p)).ne
  | container c => exact hr.trans_le h.size

theorem key (hr : d.Known r) : d'.key r = d.key r := by
  cases r with
  | node n => rfl
  | container c => exact h.part c hr .start

/-- If nothing new stands anywhere, then new containers are not live. -/
theorem first?_eq (hd' : d'.Sound) (hNew : ∀ n, d.nodes.size ≤ n → d'.parent? n = none)
    {b : NodeRef} (hOld : ∀ c < d.containers.size, b = .container c →
      (d'.container c).live = (d.container c).live) : d'.first? b = d.first? b := by
  cases b with
  | node n => rfl
  | container c =>
    by_cases hc : c < d.containers.size
    · have hStart : (d'.container c).start = (d.container c).start := h.part c hc .start
      rw [first?, first?, hOld c hc rfl, hStart]
    · have hDead : (d.container c).live = false :=
        Bool.eq_false_iff.mpr fun hLive => hc (lt_size_of_live hLive)
      have hDead' : (d'.container c).live = false := Bool.eq_false_iff.mpr fun hLive => by
        have hc' := lt_size_of_live hLive
        obtain ⟨host, hHost⟩ := (hd'.live_iff c hc').mp hLive
        rw [hNew _ (h.fresh c (Nat.le_of_not_lt hc) hc' .start)] at hHost
        cases hHost
      simp [first?, hDead, hDead']

end Extends

/-! ## Everything stays -/

/-- Every node has the parent and the children that it had, and every container is as live. What
nodes and containers there are besides, and what is written in them, does not matter. -/
structure Spared (d d' : Dom) : Prop extends Extends d d' where
  parent : ∀ n, d'.parent? n = d.parent? n
  children : ∀ n, d'.children n = d.children n
  live : ∀ c < d.containers.size, (d'.container c).live = (d.container c).live

namespace Spared

theorem refl (d : Dom) : Spared d d where
  toExtends := .refl d
  parent _ := rfl
  children _ := rfl
  live _ _ := rfl

theorem trans (h₁ : Spared d d₁) (h₂ : Spared d₁ d') : Spared d d' where
  toExtends := h₁.toExtends.trans h₂.toExtends
  parent n := (h₂.parent n).trans (h₁.parent n)
  children n := (h₂.children n).trans (h₁.children n)
  live c hc := (h₂.live c (hc.trans_le h₁.size)).trans (h₁.live c hc)

variable (h : Spared d d')
include h

theorem up_iff {n m : NodeId} : d'.nodes.Up n m ↔ d.nodes.Up n m := by
  have hParent : d'.nodes.parent? = d.nodes.parent? := funext h.parent
  rw [Forest.Up, Forest.Up, hParent]

theorem span (hc : c < d.containers.size) : d'.span c = d.span c := by
  have hStart : (d'.container c).start = (d.container c).start := h.part c hc .start
  have hFinish : (d'.container c).finish = (d.container c).finish := h.part c hc .finish
  have hFragment : (d'.container c).fragment = (d.container c).fragment := h.part c hc .fragment
  simp only [Dom.span, h.live c hc, hStart, hFinish, hFragment, h.parent, h.children]

theorem runOf (hr : d.Known r) : d'.runOf r = d.runOf r := by
  cases r with
  | node n => rfl
  | container c => rw [runOf_container, runOf_container, h.span hr, h.part c hr, h.part c hr]

theorem inside_iff (hr : d.Known r) {m : NodeId} : d'.Inside r m ↔ d.Inside r m := by
  simp only [Inside, h.runOf hr, h.up_iff]

theorem isPlaced (hr : d.Known r) : d'.isPlaced r = d.isPlaced r := by
  cases r with
  | node n => rw [Dom.isPlaced, Dom.isPlaced, h.parent]
  | container c => exact h.live c hr

theorem childrenOf (hr : d.Known r) : d'.childrenOf r = d.childrenOf r := by
  cases r with
  | node n => exact h.children n
  | container c => exact h.span hr

theorem first?_eq (hd' : d'.Sound) (b : NodeRef) : d'.first? b = d.first? b := by
  refine h.toExtends.first?_eq hd' (fun n hn => ?_) fun c hc _ => h.live c hc
  rw [h.parent]
  by_contra hSome
  obtain ⟨q, hq⟩ := Option.ne_none_iff_exists'.mp hSome
  exact absurd (Forest.lt_size_of_parent hq) (Nat.not_lt.mpr hn)

theorem stands_iff (hd' : d'.Sound) (hParent : d.Known parent) :
    d'.Stands parent before ↔ d.Stands parent before := by
  simp only [Stands, h.first?_eq hd', h.childrenOf hParent]

end Spared

/-- Where something came to sit does not depend on what is left as it is before and after. -/
theorem Sits.spared (h : Sits d₁ d₂ r parent before) (h₁ : Spared d d₁) (h₂ : Spared d₂ d')
    (hd₁ : d₁.Sound) (hKnown : Extends d₁ d₂) (hr : d.Known r) (hParent : d.Known parent) :
    Sits d d' r parent before := by
  obtain ⟨hRun, ⟨u, v, hOld, hNew, hHead⟩, hRest⟩ := h
  have hr₂ := hKnown.known (h₁.known hr)
  have hParent₂ := hKnown.known (h₁.known hParent)
  rw [h₁.runOf hr] at hRun hOld hNew hRest
  refine ⟨(h₂.runOf hr₂).trans hRun, ⟨u, v, ?_, ?_, ?_⟩, fun q => ?_⟩
  · rw [← h₁.childrenOf hParent, hOld]
  · rw [h₂.childrenOf hParent₂, hNew]
  · rw [hHead, funext (h₁.first?_eq hd₁)]
  · rw [h₂.children, hRest, h₁.children]

/-! ## Everything else stays -/

theorem Host.ne_fragment {host : NodeId} (h : d.Host r host) (hr : d.Known r) :
    ∀ c, r = .container c → host ≠ d.part c .fragment := by
  rintro c rfl hFragment
  exact (h.of_part c hr .fragment hFragment).2.2 rfl

/-- No row but that in its own fragment has anything of what is placed nowhere. -/
theorem Sound.filter_of_unplaced (hd : d.Sound) (hr : d.Known r) (hOff : d.isPlaced r = false)
    {q : NodeId} (hq : ∀ c, r = .container c → q ≠ d.part c .fragment) :
    (d.children q).filter (· ∉ d.runOf r) = d.children q := by
  refine List.filter_eq_self.mpr fun k hk => ?_
  rcases hd.row_cases hr q with ⟨u, v, hRow⟩ | hOut | ⟨c, hEq, hFragment, -⟩
  · -- the key has no parent
    have hKey : d.key r ∈ d.children q := by
      rw [hRow]
      simp [key_mem_run]
    have hPlaced := (hd.isPlaced_iff hr).mpr ⟨q, hd.mem_children.mp hKey⟩
    exact absurd (hOff.symm.trans hPlaced) Bool.false_ne_true
  · simpa using fun hRun => hOut k hRun hk
  · exact absurd hFragment (hq c hEq)

/-- One node or container has the run that it had, and all other nodes stand in the same order. -/
structure Carried (d d' : Dom) (r : NodeRef) : Prop extends Extends d d' where
  run : d'.runOf r = d.runOf r
  rest : ∀ q, (d'.children q).filter (· ∉ d.runOf r) = (d.children q).filter (· ∉ d.runOf r)

theorem Spared.carried (h : Spared d d') (hr : d.Known r) : Carried d d' r where
  toExtends := h.toExtends
  run := h.runOf hr
  rest q := by rw [h.children]

theorem Sits.carried (h : Sits d d' r parent before) (hExtends : Extends d d') :
    Carried d d' r :=
  ⟨hExtends, h.run, h.rest⟩

theorem Leaves.carried (h : Leaves d d' r) (hExtends : Extends d d') : Carried d d' r :=
  ⟨hExtends, h.run, h.rest⟩

namespace Carried

theorem trans (h₁ : Carried d d₁ r) (h₂ : Carried d₁ d' r) : Carried d d' r where
  toExtends := h₁.toExtends.trans h₂.toExtends
  run := h₂.run.trans h₁.run
  rest q := by
    have hRest := h₂.rest q
    rw [h₁.run] at hRest
    exact hRest.trans (h₁.rest q)

variable (h : Carried d d' r)
include h

theorem span {c : ContainerId} (hr : r = .container c) (hc : c < d.containers.size) :
    d'.span c = d.span c := by
  subst hr
  have hRun := h.run
  rw [runOf_container, runOf_container, h.part c hc, h.part c hc] at hRun
  exact List.append_cancel_right (List.cons.inj hRun).2

variable (hd : d.Sound) (hd' : d'.Sound)
include hd hd'

theorem parent_eq {m : NodeId} (hm : m ∉ d.runOf r) : d'.parent? m = d.parent? m := by
  refine Option.ext fun q => ?_
  have hIff : m ∈ (d'.children q).filter (· ∉ d.runOf r) ↔
      m ∈ (d.children q).filter (· ∉ d.runOf r) := by
    rw [h.rest]
  simpa [hm, hd.mem_children, hd'.mem_children] using hIff

theorem live_eq (hc : c < d.containers.size)
    (hSome : (d'.parent? (d.part c .start)).isSome = (d.parent? (d.part c .start)).isSome) :
    (d'.container c).live = (d.container c).live := by
  rw [Bool.eq_iff_iff, hd.live_iff c hc, hd'.live_iff c (hc.trans_le h.size), h.part c hc,
    ← Option.isSome_iff_exists, ← Option.isSome_iff_exists, hSome]

variable (hr : d.Known r)
include hr

/-- All others are placed if they were. What a container holds has a parent in any case. -/
theorem isPlaced_eq (hx : d.Known x) (hNe : x ≠ r) : d'.isPlaced x = d.isPlaced x := by
  have hKey : d.key x ≠ d.key r := fun he => hNe (hd.key_inj hx hr he)
  have hSome : (d'.parent? (d.key x)).isSome = (d.parent? (d.key x)).isSome := by
    by_cases hMem : d.key x ∈ d.runOf r
    · cases r with
      | node n => exact absurd (mem_runOf_node.mp hMem) hKey
      | container c =>
        rcases mem_run.mp hMem with hStart | hSpan | hFinish
        · exact absurd hStart hKey
        · obtain ⟨host, hHost⟩ := hd.spanHost_some hr
          obtain ⟨host', hHost'⟩ := hd'.spanHost_some (h.known hr)
          have hSpan' : d.key x ∈ d'.span c := h.span rfl hr ▸ hSpan
          rw [hd.parent_of_mem_span hr hSpan, hd'.parent_of_mem_span (h.known hr) hSpan', hHost,
            hHost']
          rfl
        · exact absurd hFinish (hd.key_ne_finish hx hr)
    · rw [h.parent_eq hd hd' hMem]
  cases x with
  | node n => exact hSome
  | container c => exact h.live_eq hd hd' hx hSome

/-- What was nowhere and is nowhere again has left no trace. -/
theorem restored (hOff : d.isPlaced r = false) (hOff' : d'.isPlaced r = false) : Spared d d' := by
  have hChildren : ∀ q, d'.children q = d.children q := by
    intro q
    by_cases hq : ∃ c, r = .container c ∧ q = d.part c .fragment
    · obtain ⟨c, rfl, rfl⟩ := hq
      have hLive : (d.container c).live = false := hOff
      have hLive' : (d'.container c).live = false := hOff'
      have hSpan := h.span rfl hr
      rwa [span_of_not_live hLive, span_of_not_live hLive', h.part c hr] at hSpan
    · have hNot : ∀ c, r = .container c → q ≠ d.part c .fragment := fun c hc he => hq ⟨c, hc, he⟩
      have hNot' : ∀ c, r = .container c → q ≠ d'.part c .fragment := by
        rintro c rfl
        rw [h.part c hr]
        exact hNot c rfl
      rw [← hd.filter_of_unplaced hr hOff hNot,
        ← hd'.filter_of_unplaced (h.known hr) hOff' hNot', h.run, h.rest]
  have hParent : ∀ n, d'.parent? n = d.parent? n := by
    refine fun n => Option.ext fun q => ?_
    rw [← hd.mem_children, ← hd'.mem_children, hChildren]
  exact ⟨h.toExtends, hParent, hChildren, fun c hc => h.live_eq hd hd' hc (by rw [hParent])⟩

end Carried

/-! ## What placing, moving and taking out come to -/

namespace Sound

variable (hd : d.Sound) (hr : d.Known r)
include hd hr

/-- What is placed somewhere can be taken out. -/
theorem taken (hOn : d.isPlaced r = true) :
    (d.takeOut r).Sound ∧ SameParts d (d.takeOut r) ∧ Leaves d (d.takeOut r) r := by
  obtain ⟨hUnhoused, hLinked⟩ := hd.unhoused_takeOut hr hOn
  exact ⟨hUnhoused.sound hd hr hLinked, hUnhoused.toSameParts,
    hUnhoused.leaves hd hr hLinked (.inl hOn)⟩

variable (hParent : d.Known parent) (hOut : ¬ d.Inside r (d.key parent))
include hParent hOut

theorem host_of_framed {host : NodeId} {u v : List NodeId} (h : d.Framed parent host u v) :
    d.Host r host := by
  have hNe : parent ≠ r := by
    rintro rfl
    exact hOut (inside_key _)
  exact hd.host_of_known hr hParent hNe hOut (fun m hm => (h.node m hm).1)
    fun c hc => (h.container c hc).1

/-- What is placed nowhere is not among the children of a parent that is not inside it. -/
theorem apart_of_unplaced (hOff : d.isPlaced r = false) {n : NodeId}
    (hn : n ∈ d.childrenOf parent) : n ∉ d.runOf r := by
  obtain ⟨host, u, v, hFramed⟩ := hd.exists_framed hParent
  have hRow := hd.filter_of_unplaced hr hOff
    ((hd.host_of_framed hr hParent hOut hFramed).ne_fragment hr)
  have hMem : n ∈ (d.children host).filter (· ∉ d.runOf r) := by
    rw [hRow, hFramed.row]
    simp [hn]
  simpa using (List.mem_filter.mp hMem).2

theorem before_apart_of_unplaced (hOff : d.isPlaced r = false) (hStands : d.Stands parent before) :
    ∀ b, before = some b → d.key b ∉ d.runOf r := by
  rintro b rfl
  obtain ⟨n, hFirst, hMem⟩ := hStands b rfl
  exact first?_eq_key hFirst ▸ hd.apart_of_unplaced hr hParent hOut hOff hMem

/-- What is placed nowhere can be placed before a child or last. -/
theorem placed (hOff : d.isPlaced r = false) (hStands : d.Stands parent before) :
    ∃ d', d.place r parent before = .ok d' ∧ d'.Sound ∧ SameParts d d' ∧
      Sits d d' r parent before := by
  have hBefore := hd.before_apart_of_unplaced hr hParent hOut hOff hStands
  obtain ⟨d', hPlace⟩ := (hd.exists_place_iff hr hParent hOut hBefore hOff).mpr hStands
  have hNe : parent ≠ r := by
    rintro rfl
    exact hOut (inside_key _)
  obtain ⟨host, reference, -, hHost, hHoused⟩ :=
    hd.housed_of_place hr hParent hNe hOut hOff hPlace
  exact ⟨d', hPlace, hHoused.sound hd hr hHost, hHoused.toSameParts,
    hd.sits_of_place hr hParent hOut hBefore hOff hPlace⟩

/-- What is placed somewhere can be moved before a child that is not its own, or last. -/
theorem moved (hOn : d.isPlaced r = true) (hStands : d.Stands parent before)
    (hBefore : ∀ b, before = some b → d.key b ∉ d.runOf r) :
    ∃ d', d.move r parent before = .ok d' ∧ d'.Sound ∧ SameParts d d' ∧
      Sits d d' r parent before := by
  obtain ⟨host, u, v, hFramed⟩ := hd.exists_framed hParent
  have hPoint := hFramed.point_eq hStands
  have hHost := hd.host_of_away hr hParent hOut hPoint
  obtain ⟨d', hMove, hHoused⟩ := hd.exists_move_of_point hr hHost hPoint
    (fun x hx => hd.reference_apart hr hParent hOut hFramed hStands hBefore hx) hOn
  exact ⟨d', hMove, hHoused.sound hd hr hHost, hHoused.toSameParts,
    hd.sits_of_move hr hParent hOut hBefore hOn hMove⟩

omit hOut in
theorem isPlaced_of_sits {e : Dom} (h : Sits e d r parent before) (hRun : d.runOf r = e.runOf r) :
    d.isPlaced r = true := by
  obtain ⟨u, v, -, hNew, -⟩ := h.row
  obtain ⟨host, u', v', hFramed⟩ := hd.exists_framed hParent
  have hKey : d.key r ∈ d.children host := by
    rw [hFramed.row, hNew, ← hRun]
    simp [key_mem_run]
  exact (hd.isPlaced_iff hr).mpr ⟨host, hd.mem_children.mp hKey⟩

/-- A container that is moved anywhere outside of itself is carried there. Before one of its own
nodes it stays where it is. -/
theorem carried_of_move {c : ContainerId} (hc : r = .container c) (hOn : d.isPlaced r = true)
    (hMove : d.move r parent before = .ok d') :
    d'.Sound ∧ SameParts d d' ∧ Carried d d' r ∧ d'.isPlaced r = true := by
  by_cases hBefore : ∀ b, before = some b → d.key b ∉ d.runOf r
  · have hStands := (hd.exists_move_iff hr hParent hOut hBefore hOn).mp ⟨d', hMove⟩
    obtain ⟨d₁, hMove₁, hSound, hParts, hSits⟩ := hd.moved hr hParent hOut hOn hStands hBefore
    obtain rfl := Except.ok.inj (hMove₁.symm.trans hMove)
    exact ⟨hSound, hParts, hSits.carried hParts.extends, hSound.isPlaced_of_sits
      (hParts.extends.known hr) (hParts.extends.known hParent) hSits hSits.run⟩
  · push Not at hBefore
    obtain ⟨b, rfl, hOwn⟩ := hBefore
    subst hc
    cases hPoint : d.point parent (some b) with
    | error e =>
      unfold move at hMove
      rw [hPoint] at hMove
      cases hMove
    | ok place =>
      obtain ⟨host, reference⟩ := place
      obtain ⟨n, hFirst, rfl⟩ := reference_of_point hPoint
      have hIn : (d.run c).contains n = true :=
        List.contains_iff_mem.mpr (first?_eq_key hFirst ▸ hOwn)
      have hStays : d.move (.container c) parent (some b) = .ok d := by
        unfold move
        rw [hPoint]
        exact if_pos hIn
      obtain rfl := Except.ok.inj (hStays.symm.trans hMove)
      exact ⟨hd, .refl d, (Spared.refl d).carried hr, hOn⟩

end Sound

/-- What was spared before does not matter for placing: it succeeds exactly if the reference is a
child, and then what was placed sits there. -/
theorem Spared.placed (h : Spared d d₁) (hd₁ : d₁.Sound) (hr : d.Known r)
    (hParent : d.Known parent) (hOut : ¬ d.Inside r (d.key parent)) (hOff : d.isPlaced r = false)
    (before : Option NodeRef) :
    (∀ cause, d₁.place r parent before = .error cause → ¬ d.Stands parent before) ∧
      ∀ d', d₁.place r parent before = .ok d' → d.Stands parent before ∧ d'.Sound ∧
        SameParts d₁ d' ∧ Sits d₁ d' r parent before := by
  have hStands : d₁.Stands parent before ↔ d.Stands parent before := h.stands_iff hd₁ hParent
  have hOut₁ : ¬ d₁.Inside r (d₁.key parent) := by
    rwa [h.toExtends.key hParent, h.inside_iff hr]
  have hOff₁ := (h.isPlaced hr).trans hOff
  have hPlaced := fun (hs : d₁.Stands parent before) => hd₁.placed (h.toExtends.known hr)
    (h.toExtends.known hParent) hOut₁ hOff₁ hs
  constructor
  · intro cause hError hStand
    obtain ⟨d', hOk, -⟩ := hPlaced (hStands.mpr hStand)
    rw [hError] at hOk
    cases hOk
  · intro d' hOk
    have hStand := Sound.stands_of_place hOff₁ hOk
    obtain ⟨d₂, hOk₂, hDone⟩ := hPlaced hStand
    obtain rfl := Except.ok.inj (hOk.symm.trans hOk₂)
    exact ⟨hStands.mp hStand, hDone⟩

end Dom

end LiveMarkup

/-! ## What sits where -/

namespace LiveMarkup

namespace Forest

theorem splice_head {β : Type} [DecidableEq β] {u v : List β} (ns : List β) (h : (u ++ v).Nodup) :
    splice v.head? ns (u ++ v) = u ++ ns ++ v := by
  cases v with
  | nil => simp [splice]
  | cons x v =>
    have hx : x ∉ u := fun hu => (List.nodup_append.mp h).2.2 x hu x List.mem_cons_self rfl
    exact splice_append hx

/-- Nodes that stand before another one are as if they had been put there. -/
theorem Linked.placed_self {α : Type} {f : Forest α} (h : f.Linked) {p : NodeId}
    {u ns v : List NodeId} (hRow : f.children p = u ++ ns ++ v) : Placed f f p ns v.head? where
  size := rfl
  label _ := rfl
  parent m := by
    split
    · rename_i hm
      refine (h.mem_children p m).mp ?_
      rw [hRow]
      simp [hm]
    · rfl
  children q := by
    split
    · rename_i hq
      have hNodup := h.nodup p
      rw [hRow] at hNodup
      have hu : u.filter (· ∉ ns) = u := List.filter_eq_self.mpr fun m hm => by
        simpa using fun hns =>
          (List.nodup_append.mp (List.nodup_append.mp hNodup).1).2.2 m hm m hns rfl
      have hns : ns.filter (· ∉ ns) = [] := List.filter_eq_nil_iff.mpr fun m hm => by simpa using hm
      have hv : v.filter (· ∉ ns) = v := List.filter_eq_self.mpr fun m hm => by
        simpa using fun hns =>
          (List.nodup_append.mp hNodup).2.2 m (List.mem_append_right _ hns) m hm rfl
      have hRest : (f.children p).filter (· ∉ ns) = u ++ v := by
        rw [hRow, List.filter_append, List.filter_append, hu, hns, hv, List.append_nil]
      rw [hq, hRest, splice_head ns (hRest ▸ (h.nodup p).filter _), hRow]
    · rename_i hq
      refine (List.filter_eq_self.mpr fun m hm => ?_).symm
      have hNot : m ∉ ns := fun hns => by
        have hp : f.parent? m = some p := (h.mem_children p m).mp (by rw [hRow]; simp [hns])
        exact hq (Option.some.inj (((h.mem_children q m).mp hm).symm.trans hp))
      simpa using hNot

/-- What follows a child is the head of what is behind it. -/
theorem Linked.next?_eq {α : Type} {f : Forest α} (h : f.Linked) {p n : NodeId}
    {u v : List NodeId} (hRow : f.children p = u ++ n :: v) : f.next? n = v.head? := by
  have hParent : f.parent? n = some p := (h.mem_children p n).mp (by rw [hRow]; simp)
  have hNodup := h.nodup p
  rw [hRow] at hNodup
  have hOut : n ∉ u := fun hn => (List.nodup_append.mp hNodup).2.2 n hn n List.mem_cons_self rfl
  have hIndex : (u ++ n :: v).idxOf? n = some u.length := by
    clear hRow hNodup
    induction u with
    | nil => simp [List.idxOf?_cons]
    | cons x u ih =>
      have hx : x ≠ n := fun he => hOut (he ▸ List.mem_cons_self)
      have hRest := ih fun hu => hOut (List.mem_cons_of_mem x hu)
      simp [List.idxOf?_cons, hx, hRest]
  have hAt : (u ++ n :: v)[u.length + 1]? = v.head? := by
    rw [List.getElem?_append_right (Nat.le_succ _)]
    cases v <;> simp
  rw [← hRow] at hIndex hAt
  simp [next?, index?, hParent, hIndex, hAt]

end Forest

namespace Dom

variable {d d' : Dom} {r parent : NodeRef} {before : Option NodeRef} {host : NodeId}
variable {u v : List NodeId}

/-- A node or container sits in a parent, right before a reference or last. -/
def Seated (d : Dom) (r parent : NodeRef) (before : Option NodeRef) : Prop :=
  d.Stands parent before ∧
    ∃ u v, d.childrenOf parent = u ++ d.runOf r ++ v ∧ v.head? = before.bind d.first?

/-- A reference, if there is one, stands among the children of a parent, and is none of the nodes of
what is put there. -/
def Offers (d : Dom) (r parent : NodeRef) (before : Option NodeRef) : Prop :=
  d.Stands parent before ∧ ∀ b, before = some b → d.key b ∉ d.runOf r

theorem exists_runOf_last (d : Dom) (r : NodeRef) : ∃ w, d.runOf r = w ++ [d.last r] := by
  cases r with
  | node n => exact ⟨[], rfl⟩
  | container c => exact ⟨d.part c .start :: d.span c, rfl⟩

namespace Sound

variable (hd : d.Sound)
include hd

theorem next?_last (hRow : d.children host = u ++ d.runOf r ++ v) :
    d.nodes.next? (d.last r) = v.head? := by
  obtain ⟨w, hRun⟩ := d.exists_runOf_last r
  refine hd.linked.next?_eq (p := host) (u := u ++ w) ?_
  change d.children host = _
  rw [hRow, hRun]
  simp

variable (hr : d.Known r)
include hr

/-- A run that stands somewhere stands where it would be put. -/
theorem housed_self (hRow : d.children host = u ++ d.runOf r ++ v) :
    Housed d d r host v.head? := by
  refine housed_of_placed (hd.linked.placed_self hRow) rfl ?_
  rintro c rfl
  refine (hd.isPlaced_iff hr).mpr ⟨host, hd.mem_children.mp ?_⟩
  rw [hRow]
  simp [key_mem_run]

/-- The run of what has a parent is in one piece there. -/
theorem exists_row (hHost : d.parent? (d.key r) = some host) :
    ∃ u v, d.children host = u ++ d.runOf r ++ v := by
  rcases hd.row_cases hr host with hRow | hOut | ⟨c, rfl, -, hDead, -⟩
  · exact hRow
  · exact absurd (hd.mem_children.mpr hHost) (hOut _ (key_mem_run r))
  · exact nomatch (hd.parent_start_of_not_live hr hDead).symm.trans hHost

variable (hParent : d.Known parent) (hOut : ¬ d.Inside r (d.key parent))
include hParent hOut

/-- What stands at a place sits there, and nothing else does. -/
theorem standsAt_iff : d.standsAt r parent before = true ↔ d.Seated r parent before := by
  constructor
  · intro hAt
    unfold standsAt at hAt
    split at hAt
    · rename_i first host' reference hFirst hPoint
      obtain ⟨hHost, hNext⟩ := Bool.and_eq_true_iff.mp hAt
      obtain rfl := first?_eq_key hFirst
      obtain ⟨u₁, v₁, hRow⟩ := hd.exists_row hr (beq_iff_eq.mp hHost)
      obtain rfl : v₁.head? = reference := (hd.next?_last hRow).symm.trans (beq_iff_eq.mp hNext)
      have hNodup := hd.nodup host'
      rw [hRow] at hNodup
      have hBehind : ∀ x, v₁.head? = some x → x ∈ d.children host' ∧ x ∉ d.runOf r := by
        intro x hx
        have hMem := List.mem_of_head? hx
        refine ⟨?_, fun hRun => (List.nodup_append.mp hNodup).2.2 x
          (List.mem_append_right _ hRun) x hMem rfl⟩
        rw [hRow]
        exact List.mem_append_right _ hMem
      have hStands := stands_of_point hPoint fun x hx _ => (hBehind x hx).1
      have hBefore : ∀ b, before = some b → d.key b ∉ d.runOf r := by
        rintro b rfl
        obtain ⟨n, hb, hn⟩ := reference_of_point hPoint
        exact first?_eq_key hb ▸ (hBehind n hn).2
      obtain ⟨u₂, v₂, -, hChildren, hHead⟩ :=
        (hd.sits_of_housed hr hParent hOut hBefore hStands hPoint (hd.housed_self hr hRow)).row
      exact ⟨hStands, u₂, v₂, hChildren, hHead⟩
    · cases hAt
  · rintro ⟨hStands, u₁, v₁, hChildren, hHead⟩
    obtain ⟨host, u, v, hFramed⟩ := hd.exists_framed hParent
    have hRow : d.children host = (u ++ u₁) ++ d.runOf r ++ (v₁ ++ v) := by
      rw [hFramed.row, hChildren]
      simp
    have hKey : d.parent? (d.key r) = some host := hd.mem_children.mp (by
      rw [hRow]
      simp [key_mem_run])
    have hFirst := first?_of_placed ((hd.isPlaced_iff hr).mpr ⟨host, hKey⟩)
    have hNext := hd.next?_last hRow
    rw [List.head?_append, hHead] at hNext
    unfold standsAt
    rw [hFirst, hFramed.point_eq hStands]
    simp [hKey, hNext]

end Sound

/-! ### After something was carried off -/

namespace Carried

variable (h : Carried d d' r) (hd : d.Sound) (hd' : d'.Sound)
include h hd hd'

theorem inside_iff {m : NodeId} : d'.Inside r m ↔ d.Inside r m := by
  have hAgree : Forest.AgreeOff (· ∈ d.runOf r) d.nodes d'.nodes := fun k hk =>
    h.parent_eq hd hd' hk
  simp only [Inside, h.run]
  exact hAgree.below_iff.symm

variable (hr : d.Known r)
include hr

theorem first?_eq {b : NodeRef} (hb : b ≠ r) : d'.first? b = d.first? b := by
  refine h.toExtends.first?_eq hd' (fun n hn => ?_) fun c hc hEq => ?_
  · by_contra hSome
    obtain ⟨q, hq⟩ := Option.ne_none_iff_exists'.mp hSome
    have hRun : n ∉ d.runOf r := fun hMem =>
      absurd (hd.lt_size_of_mem_run hr hMem) (Nat.not_lt.mpr hn)
    rw [h.parent_eq hd hd' hRun] at hq
    exact absurd (Forest.lt_size_of_parent hq) (Nat.not_lt.mpr hn)
  · subst hEq
    exact h.isPlaced_eq hd hd' hr (x := .container c) hc hb

variable (hParent : d.Known parent) (hOut : ¬ d.Inside r (d.key parent))
variable (hOff : d'.isPlaced r = false)
include hParent hOut hOff

theorem childrenOf_eq : d'.childrenOf parent = (d.childrenOf parent).filter (· ∉ d.runOf r) := by
  obtain ⟨host, u, v, hFramed⟩ := hd.exists_framed hParent
  have hFragment := (hd.host_of_framed hr hParent hOut hFramed).ne_fragment hr
  have hRow : d'.children host = u.filter (· ∉ d.runOf r) ++
      (d.childrenOf parent).filter (· ∉ d.runOf r) ++ v.filter (· ∉ d.runOf r) := by
    have hSame := hd'.filter_of_unplaced (h.known hr) hOff (q := host) fun c hc => by
      subst hc
      rw [h.part c hr]
      exact hFragment c rfl
    rw [← hSame, h.run, h.rest, hFramed.row, List.filter_append, List.filter_append]
  refine Framed.childrenOf_eq hRow (hd'.nodup host) (fun n hn => ?_) fun c hc => ?_
  · obtain ⟨hEq, rfl, rfl⟩ := hFramed.node n hn
    exact ⟨hEq, rfl, rfl⟩
  · subst hc
    obtain ⟨hStart, hFinish⟩ := hd.markers_not_mem_run hr hOut hParent rfl
    obtain ⟨hHost, hFlanked⟩ := hFramed.container c rfl
    have hNe : .container c ≠ r := by
      rintro rfl
      exact hStart (key_mem_run (.container c))
    have hLive : (d'.container c).live = (d.container c).live :=
      h.isPlaced_eq hd hd' hr hParent hNe
    refine ⟨?_, (hFlanked.filter _ (by simpa using hStart) (by simpa using hFinish)).congr
      (h.part c hParent) hLive⟩
    rw [← hHost]
    change (if (d'.container c).live then d'.parent? (d'.part c .start) else
      some (d'.part c .fragment)) = if (d.container c).live then d.parent? (d.part c .start) else
        some (d.part c .fragment)
    rw [hLive, h.part c hParent, h.part c hParent, h.parent_eq hd hd' hStart]

/-- References are those children that are none of what was taken out. -/
theorem stands_iff : d'.Stands parent before ↔ d.Offers r parent before := by
  have hChildren := h.childrenOf_eq hd hd' hr hParent hOut hOff
  constructor
  · intro hStands
    have hOne : ∀ b, before = some b → (∃ n, d.first? b = some n ∧ n ∈ d.childrenOf parent) ∧
        d.key b ∉ d.runOf r := by
      intro b hb
      obtain ⟨n, hFirst, hMem⟩ := hStands b hb
      rw [hChildren, List.mem_filter] at hMem
      have hNot : n ∉ d.runOf r := by simpa using hMem.2
      have hNe : b ≠ r := by
        rintro rfl
        exact hNot (first?_eq_key hFirst ▸ h.run ▸ key_mem_run b)
      rw [h.first?_eq hd hd' hr hNe] at hFirst
      exact ⟨⟨n, hFirst, hMem.1⟩, first?_eq_key hFirst ▸ hNot⟩
    exact ⟨fun b hb => (hOne b hb).1, fun b hb => (hOne b hb).2⟩
  · rintro ⟨hStands, hBefore⟩ b hb
    obtain ⟨n, hFirst, hMem⟩ := hStands b hb
    have hNot := hBefore b hb
    have hNe : b ≠ r := by
      rintro rfl
      exact hNot (key_mem_run b)
    refine ⟨n, (h.first?_eq hd hd' hr hNe).trans hFirst, ?_⟩
    rw [hChildren, List.mem_filter]
    exact ⟨hMem, by simpa [first?_eq_key hFirst] using hNot⟩

end Carried

/-- What came to sit somewhere sits there. -/
theorem Sits.seated (h : Sits d d' r parent before) (hExtends : Extends d d') (hd : d.Sound)
    (hd' : d'.Sound) (hr : d.Known r) (hOffers : d.Offers r parent before) :
    d'.Seated r parent before := by
  obtain ⟨hStands, hBefore⟩ := hOffers
  obtain ⟨hRun, ⟨u, v, -, hChildren, hHead⟩, -⟩ := id h
  have hFirst : ∀ b, before = some b → d'.first? b = d.first? b := by
    intro b hb
    refine (h.carried hExtends).first?_eq hd hd' hr ?_
    rintro rfl
    exact hBefore b hb (key_mem_run b)
  refine ⟨fun b hb => ?_, u, v, hRun ▸ hChildren, ?_⟩
  · obtain ⟨n, hn, -⟩ := hStands b hb
    refine ⟨n, (hFirst b hb).trans hn, ?_⟩
    subst hb
    rw [Option.bind_some, hn] at hHead
    rw [hChildren]
    exact List.mem_append_right _ (List.mem_of_head? hHead)
  · rw [hHead]
    cases before with
    | none => rfl
    | some b => exact (hFirst b rfl).symm

end Dom

end LiveMarkup
