import LiveMarkup.Proofs.Mirror.Notifying

/-!
# Destroying what nobody keeps

A node or container that is placed nowhere and that nobody keeps can be destroyed. Everything in
it is dying while its observers are told; they let go what they keep, which is destroyed in turn
if it is hidden, and end. In the end all of it is dead.

* `Razed`: what destroying leaves as it was;
* `destroy_razes`: what comes of destroying.
-/

namespace LiveMarkup.Live

variable {κ σ : Type} {π : Plan} {P P' : Pending} {l l₁ l' : Live κ σ}
variable {u w : BindingId} {s t : SignalId} {sink sink' : Sink κ} {r q x : NodeRef}
variable {client : Client κ σ} {n m : Nat}

/-! ## Notes about nodes -/

/-- The document with other notes about nodes. -/
def renoted (l : Live κ σ) (tracked : Table Tracked) (extras : Table (Extras κ)) : Live κ σ :=
  { l with tracked, extras }

section Renoted

variable {T : Table Tracked} {E : Table (Extras κ)}

theorem lasts_renoted (hBuried : ∀ n, (l.trackedOf n).state = some .destroyed →
      ((l.renoted T E).trackedOf n).state = some .destroyed) :
    Endures (fun _ => False) l (l.renoted T E) :=
  { (Endures.refl l : Endures (fun _ => False) l l) with buried := hBuried }

/-- More nodes are noted as dying or dead. -/
theorem Maintained.renoted {dying : NodeId → Prop} (h : Maintained π P l)
    (hDead : ∀ n, Dead P.dying l.trackedOf n → Dead dying (l.renoted T E).trackedOf n)
    (hBuried : ∀ n, (l.trackedOf n).state = some .destroyed →
      ((l.renoted T E).trackedOf n).state = some .destroyed)
    (hObserver : ∀ n u, ((l.renoted T E).trackedOf n).observer = some u →
      (l.trackedOf n).observer = some u)
    (hKeeps : ∀ n, ¬ Dead dying (l.renoted T E).trackedOf n →
      ((l.renoted T E).trackedOf n).observer = (l.trackedOf n).observer)
    (hGraves : Graves dying l.dom (l.renoted T E).trackedOf l.document)
    (hEnded : ∀ u s sink r, Keeper l u s sink r → ¬ dying (l.dom.key r) →
      Dead dying (l.renoted T E).trackedOf (l.dom.key r) → l.statusOf u = .destroyed)
    (hFree : ∀ u s sink r n, Keeper l u s sink r →
      ¬ Dead dying (l.renoted T E).trackedOf (l.dom.key r) → n ∈ sink.stock l (P.hand u) →
        ¬ Dead dying (l.renoted T E).trackedOf (l.dom.key n)) :
    Maintained π { P with dying } (l.renoted T E) := by
  have hLasts := lasts_renoted hBuried
  have hOut : ∀ (n : NodeRef) (m : NodeId), l.dom.Below n (.node m) → ¬ False := fun _ _ _ => id
  have hAwake : ∀ u s sink r, Keeper l u s sink r → l.statusOf u = .connected →
      P.dying (l.dom.key r) → dying (l.dom.key r) := fun u s sink r hu hOn hd => by
    by_contra hNot
    rw [hEnded u s sink r hu hNot (hDead _ (.inl hd))] at hOn
    cases hOn
  have hS := h.shelves
  refine ⟨h.running, h.closed, h.rooted, hGraves, h.wires, h.feeds, ?_, ?_, ?_,
    ⟨h.alarms.timer, h.alarms.microtask⟩⟩
  · exact { h.rigs with
      alive := fun u s sink r hu hAlive => by
        have hOld := h.rigs.alive u s sink r hu (mt (hDead _) hAlive)
        exact ⟨hOld.1, (hKeeps _ hAlive).trans hOld.2⟩
      dead := hEnded
      tracked := fun n u hn => h.rigs.tracked n u (hObserver n u hn)
      awake := fun u s sink r hu hOn => by
        rcases h.rigs.awake u s sink r hu hOn with hWaking | hd | hActive
        · exact .inl hWaking
        · exact .inr (.inl (hAwake u s sink r hu hOn hd))
        · exact .inr (.inr hActive) }
  · exact {
      able := fun u s sink r hu => (hS.able u s sink r hu).congr (.of_eq rfl rfl rfl rfl) (Nat.le_refl _)
      known := hS.known
      placed := hS.placed
      apart := hS.apart
      shape := fun u s sink c hu hAlive => hS.shape u s sink c hu (mt (hDead _) hAlive)
      child := fun u s c r x n hu hx hn hAlive => by
        obtain ⟨body, scope, hosted, hFactory, hMade⟩ :=
          hS.child u s c r x n hu hx hn (mt (hDead _) hAlive)
        exact ⟨body, scope, hosted, hFactory, hLasts.made (hOut n) hMade⟩
      arm := fun u s c r x arm n hu hx hn hAlive => by
        obtain ⟨body, scope, hosted, hFactory, hMade⟩ :=
          hS.arm u s c r x arm n hu hx hn (mt (hDead _) hAlive)
        exact ⟨body, scope, hosted, hFactory, hLasts.made (hOut n) hMade⟩
      item := fun u s c r x item hu hx hIn hAlive =>
        (hS.item u s c r x item hu hx hIn (mt (hDead _) hAlive)).lasts hLasts (hOut _)
      cursor := hS.cursor
      cursors := hS.cursors
      nodes := hS.nodes
      handed := hS.handed
      alive := hFree
      showing := fun u s c r x hu hx => (hS.showing u s c r x hu hx).imp_right fun hArm hAlive =>
        hArm (mt (hDead _) hAlive) }
  · exact { h.upkeep with
      current := fun u s sink r hu hOn => by
        rcases h.upkeep.current u s sink r hu hOn with hLagging | hWaking | hd | hCurrent
        · exact .inl hLagging
        · exact .inr (.inl hWaking)
        · exact .inr (.inr (.inl (hAwake u s sink r hu hOn hd)))
        · exact .inr (.inr (.inr (hCurrent.congr (.of_eq rfl rfl rfl rfl) (fun _ => rfl)
            fun _ _ _ _ _ _ => rfl))) }

end Renoted

/-! ## What stays -/

/-- Nothing was made or moved, and less may be kept. -/
structure Razed (l l' : Live κ σ) : Prop where
  document : l'.document = l.document
  dom : l'.dom = l.dom
  follower : ∀ u s sink r, Keeper l' u s sink r ↔ Keeper l u s sink r
  stock : ∀ (sink : Sink κ) hand n, n ∈ sink.stock l' hand → n ∈ sink.stock l hand
  lasts : Endures (fun _ => False) l l'

namespace Razed

theorem refl (l : Live κ σ) : Razed l l :=
  ⟨rfl, rfl, fun _ _ _ _ => Iff.rfl, fun _ _ _ => id, .refl l⟩

theorem trans (h₁ : Razed l l₁) (h₂ : Razed l₁ l') : Razed l l' where
  document := h₂.document.trans h₁.document
  dom := h₂.dom.trans h₁.dom
  follower u s sink r := (h₂.follower u s sink r).trans (h₁.follower u s sink r)
  stock sink hand n hn := h₁.stock sink hand n (h₂.stock sink hand n hn)
  lasts := h₁.lasts.trans h₂.lasts

theorem free (h : Razed l l') (hFree : Free P l x) : Free P l' x := fun w t sink q hw hn =>
  hFree w t sink q ((h.follower w t sink q).mp hw) (h.stock sink _ x hn)

end Razed

/-! ## Dying -/

/-- What is detached is placed nowhere and alive. -/
theorem Maintained.of_detached (h : Maintained π P l) (hx : l.dom.Known x)
    (hState : l.stateOf x = .detached) : l.dom.key x ≠ l.document ∧
      (l.trackedOf (l.dom.key x)).state = none ∧ l.dom.isPlaced x = false ∧
        ¬ Dead P.dying l.trackedOf (l.dom.key x) := by
  have hNe : l.dom.key x ≠ l.document := fun hEq => by
    rw [stateOf, if_pos hEq] at hState
    cases hState
  rw [stateOf, if_neg hNe] at hState
  cases hCase : (l.trackedOf (l.dom.key x)).state with
  | some state =>
    rw [hCase] at hState
    obtain rfl : state = .detached := hState
    rcases h.graves.state (l.dom.key x) with hNone | hDestroyed | ⟨hDestroying, -⟩
    · rw [hCase] at hNone
      cases hNone
    · rw [hCase] at hDestroyed
      cases hDestroyed
    · rw [hCase] at hDestroying
      cases hDestroying
  | none =>
    have hOff : l.dom.isPlaced x = false := by
      rw [hCase, Option.getD_none, shownState] at hState
      cases hPlaced : l.dom.isPlaced x with
      | false => rfl
      | true =>
        rw [hPlaced] at hState
        cases hState
    refine ⟨hNe, rfl, hOff, ?_⟩
    rintro (hDying | hDestroyed)
    · rcases h.graves.noted x hx hDying with hPlaced | hNoted
      · rw [hOff] at hPlaced
        cases hPlaced
      · exact hNoted hCase
    · rw [hCase] at hDestroyed
      cases hDestroyed

/-- All that is in a node or container is dying. -/
def Pending.doom (P : Pending) (d : Dom) (x : NodeRef) : Pending :=
  { P with dying := fun n => P.dying n ∨ ∃ q, d.Below x q ∧ n = d.key q }

/-- The document with a note that a node or container is being destroyed. -/
def doomed (l : Live κ σ) (x : NodeRef) : Live κ σ :=
  l.renoted (l.tracked.set (l.dom.key x)
    (some { l.trackedOf (l.dom.key x) with state := some .destroying })) l.extras

theorem trackedOf_doomed (l : Live κ σ) (x : NodeRef) (n : NodeId) :
    (l.doomed x).trackedOf n =
      if n = l.dom.key x then { l.trackedOf (l.dom.key x) with state := some .destroying }
      else l.trackedOf n :=
  trackedOf_set l _ _ _

/-- What is detached and kept by nobody begins to die. -/
theorem Maintained.doomed (h : Maintained π P l) (hx : l.dom.Known x)
    (hState : l.stateOf x = .detached)
    (hFree : Free P l x) : Maintained π (P.doom l.dom x) (l.doomed x) := by
  obtain ⟨hNe, hNone, hOff, hAlive⟩ := h.of_detached hx hState
  have hSound := h.rooted.sound
  have hTracked := trackedOf_doomed l x
  have hObserver : ∀ n, ((l.doomed x).trackedOf n).observer = (l.trackedOf n).observer := by
    intro n
    rw [hTracked]
    split
    · rename_i hEq
      rw [hEq]
    · rfl
  have hBelow : ∀ p r, l.dom.Known p → r ∈ l.dom.kin p → (l.dom.Below x r ↔ l.dom.Below x p) := by
    refine fun p r hp hr => ⟨fun hxr => hSound.below_parent hx hp hr ?_ hxr, fun hxp => .kin hxp hr⟩
    rintro rfl
    rw [hSound.isPlaced_of_mem_kin hp hr] at hOff
    cases hOff
  have hDead : ∀ q, l.dom.Known q →
    (Dead (P.doom l.dom x).dying (l.doomed x).trackedOf (l.dom.key q) ↔
      Dead P.dying l.trackedOf (l.dom.key q) ∨ l.dom.Below x q) := by
    intro q hq
    constructor
    · rintro ((hDying | ⟨q', hq', hKey⟩) | hDestroyed)
      · exact .inl (.inl hDying)
      · obtain rfl := hSound.key_inj hq (hSound.known_of_below hx hq') hKey
        exact .inr hq'
      · rw [hTracked] at hDestroyed
        split at hDestroyed
        · cases hDestroyed
        · exact .inl (.inr hDestroyed)
    · rintro ((hDying | hDestroyed) | hq')
      · exact .inl (.inl hDying)
      · refine .inr ?_
        rw [hTracked, if_neg]
        · exact hDestroyed
        · rintro hEq
          rw [hEq, hNone] at hDestroyed
          cases hDestroyed
      · exact .inl (.inr ⟨q, hq', rfl⟩)
  refine h.renoted (fun n hn => ?_) (fun n hn => ?_) (fun n u hn => ?_) (fun n _ => hObserver n)
    ⟨fun n => ?_, fun p r hp hr hd => ?_, fun p r hp hr hd => ?_, ?_, fun n hn => ?_,
      fun q hq hd => ?_⟩ (fun u s sink r hu hNot hd => ?_) fun u s sink r n hu hrAlive hn hd => ?_
  · rcases hn with hDying | hDestroyed
    · exact .inl (.inl hDying)
    · refine .inr ?_
      change ((l.doomed x).trackedOf n).state = _
      rw [hTracked, if_neg]
      · exact hDestroyed
      · rintro rfl
        rw [hNone] at hDestroyed
        cases hDestroyed
  · change ((l.doomed x).trackedOf n).state = _
    rw [hTracked, if_neg]
    · exact hn
    · rintro rfl
      rw [hNone] at hn
      cases hn
  · exact (hObserver n).symm.trans hn
  · change ((l.doomed x).trackedOf n).state = _ ∨ ((l.doomed x).trackedOf n).state = _ ∨
      ((l.doomed x).trackedOf n).state = _ ∧ _
    rw [hTracked]
    split
    · rename_i hEq
      exact .inr (.inr ⟨rfl, .inr ⟨x, .self, hEq⟩⟩)
    · exact (h.graves.state n).imp_right (Or.imp_right fun hd => ⟨hd.1, .inl hd.2⟩)
  · have hr' := hSound.known_of_mem_kin hp hr
    refine (hDead p hp).mpr
      (((hDead r hr').mp hd).imp (h.graves.up p r hp hr) (hBelow p r hp hr).mp)
  · have hr' := hSound.known_of_mem_kin hp hr
    refine (hDead r hr').mpr
      (((hDead p hp).mp hd).imp (h.graves.down p r hp hr) (hBelow p r hp hr).mpr)
  · refine fun hd => ((hDead (.node l.document) h.known_document).mp hd).elim
      h.graves.top fun hIn => ?_
    have hLe := (h.edge_of_below hx hIn).1
    have hZero : l.dom.key (.node l.document) = 0 := h.rooted.zero
    rw [hZero] at hLe
    exact hNe ((Nat.le_zero.mp hLe).trans h.rooted.zero.symm)
  · have hLt := hSound.key_lt_size hx
    refine ⟨?_, ?_⟩
    · refine (hTracked n).trans ?_
      rw [if_neg (Nat.ne_of_gt (Nat.lt_of_lt_of_le hLt hn))]
      exact (h.graves.fresh n hn).1
    · rintro (hDying | ⟨q, hq, rfl⟩)
      · exact (h.graves.fresh n hn).2 hDying
      · exact absurd (hSound.key_lt_size (hSound.known_of_below hx hq)) (Nat.not_lt.mpr hn)
  · change _ ∨ ((l.doomed x).trackedOf _).state ≠ _
    rw [hTracked]
    rcases hd with hDying | ⟨q', hq', hKey⟩
    · split
      · exact .inr (by simp)
      · exact h.graves.noted q hq hDying
    · obtain rfl := hSound.key_inj hq (hSound.known_of_below hx hq') hKey
      cases hq' with
      | self => exact .inr (by simp)
      | kin hp hr => exact .inl (hSound.isPlaced_of_mem_kin (hSound.known_of_below hx hp) hr)
  · have hr := h.rigs.known u s sink r hu
    rcases (hDead r hr).mp hd with hOld | hIn
    · exact h.rigs.dead u s sink r hu (fun hDying => hNot (.inl hDying)) hOld
    · exact absurd (.inr ⟨r, hIn, rfl⟩) hNot
  · have hr := h.rigs.known u s sink r hu
    have hnKnown := (h.shelves.known u s sink r n hu hn).1
    have hrAlive' := mt (hDead r hr).mpr hrAlive
    rcases (hDead n hnKnown).mp hd with hOld | hIn
    · exact h.shelves.alive u s sink r n hu (fun hd => hrAlive' (.inl hd)) hn hOld
    · cases hIn with
      | self => exact hFree u s sink r hu hn
      | @kin p _ hp hMem =>
        have hpKnown := hSound.known_of_below hx hp
        have hnKin := h.shelves.placed u s sink r n hu hn (hSound.isPlaced_of_mem_kin hpKnown hMem)
        obtain rfl := hSound.kin_inj hpKnown hr hMem hnKin
        exact hrAlive' (.inr hp)

theorem razed_renoted {T : Table Tracked} {E : Table (Extras κ)}
    (hBuried : ∀ n, (l.trackedOf n).state = some .destroyed →
      ((l.renoted T E).trackedOf n).state = some .destroyed) : Razed l (l.renoted T E) where
  document := rfl
  dom := rfl
  follower _ _ _ _ := Iff.rfl
  stock sink hand n hn := by
    cases sink <;> exact hn
  lasts := lasts_renoted hBuried

theorem Unmoved.razed (h : Unmoved l l') : Razed l l' where
  document := h.document
  dom := h.dom
  follower _ _ _ _ := h.follower_iff
  stock sink hand n hn := by
    cases sink <;> simp only [Sink.stock, h.conditionals, h.switches, h.series] at hn ⊢ <;>
      exact hn
  lasts := h.lasts

/-! ## The end of a follower -/

/-- A follower of something that is dying is switched off. -/
theorem Maintained.silenced {n : Nat} (h : Maintained π P l) (hu : Keeper l u s sink r)
    (hDying : P.dying (l.dom.key r))
    (hReg : l.subscriptions[u]? = some ⟨.signal s sink, some n⟩) :
    Maintained π P (l.unsubscribed u s n) := by
  have hSteady := steady_unsubscribed hReg h.wires h.feeds fun d f => hu.not_derived
  have hActive := isActive_unsubscribed hu n
  refine ⟨h.running, h.closed, h.rooted, h.graves, wires_unsubscribed h.wires,
    feeds_unsubscribed hReg h.wires h.feeds fun w n' hw => h.rigs.eq_of_feed hw hReg, ?_,
    hSteady.shelves h.shelves, ?_, hSteady.alarms h.alarms⟩
  · refine hSteady.rigs h.rigs rfl (fun w hw => ?_) fun w t sink' q hw hwOn => ?_
    · rw [hActive]
      split
      · rfl
      · exact h.rigs.asleep w hw
    · rw [hActive]
      split
      · rename_i hEq
        subst hEq
        obtain ⟨-, -, rfl⟩ := hu.unique hw
        exact .inr (.inl hDying)
      · exact h.rigs.awake w t sink' q hw hwOn
  · refine ⟨fun w t sink' q hw hq => ?_, fun w t sink' q hw hwOn => ?_⟩
    · exact h.upkeep.told w t sink' q (hSteady.follower_iff.mp hw) hq
    · refine (h.upkeep.current w t sink' q (hSteady.follower_iff.mp hw) hwOn).imp_right
        (Or.imp_right (Or.imp_right fun hCurrent => ?_))
      rw [valueOf_unsubscribed]
      exact hCurrent.congr (.of_eq rfl rfl rfl rfl) (fun _ => rfl) fun _ _ _ _ _ _ =>
        valueOf_unsubscribed l u s n _

/-- The document with the observer and the binding of a follower ended. -/
def endedOf (l : Live κ σ) (u : BindingId) : Live κ σ :=
  { l.withObserver u fun x => { x with status := .destroyed, hooks := [] } with
    bindings := l.bindings.modify u fun b => { b with destroyed := true } }

theorem core_endedOf (l : Live κ σ) (u : BindingId) (o : ObserverId) :
    (l.endedOf u).core? o = (l.core? o).map fun x =>
      if o = u then { x with status := .destroyed, hooks := [] } else x := by
  have hEnded : (l.endedOf u).core? o = ((l.observers.modify u fun x =>
      { x with status := .destroyed, hooks := [] })[o]?).map Observer.core := rfl
  rw [hEnded, Array.getElem?_modify]
  by_cases hEq : u = o
  · subst hEq
    rw [if_pos rfl, core?, Option.map_map, Option.map_map]
    congr 1
    funext x
    simp only [Function.comp_apply, if_true]
    rfl
  · rw [if_neg hEq]
    have hNe : ¬ o = u := fun h => hEq h.symm
    simp only [if_neg hNe, Option.map_id']
    rfl

theorem statusOf_endedOf (l : Live κ σ) (u : BindingId) (o : ObserverId) :
    (l.endedOf u).statusOf o = if o = u then .destroyed else l.statusOf o := by
  have hStatus : ∀ l : Live κ σ, l.statusOf o = ((l.core? o).map (·.status)).getD .destroyed :=
    fun l => by
      rw [core?, Option.map_map]
      rfl
  rw [hStatus, hStatus l, core_endedOf]
  cases l.core? o with
  | none => simp
  | some x =>
    simp only [Option.map_some, Option.getD_some]
    split <;> rfl

theorem follower_endedOf (l : Live κ σ) (o : BindingId) :
    Keeper (l.endedOf o) u s sink r ↔ Keeper l u s sink r := by
  have hTarget : ((l.endedOf o).core? u).map (·.target) = (l.core? u).map (·.target) := by
    rw [core_endedOf, Option.map_map]
    congr 1
    funext x
    rw [Function.comp_apply]
    split <;> rfl
  exact ⟨fun hu => hu.congr (fun _ => id) hTarget.symm id, fun hu =>
    hu.congr (fun _ => id) hTarget id⟩

theorem lasts_endedOf (l : Live κ σ) (u : BindingId) :
    Endures (fun _ => False) l (l.endedOf u) :=
  { (Endures.refl l : Endures (fun _ => False) l l) with
    box := fun _ _ h _ => ⟨rfl, fun _ _ _ hu => h _ _ _ ((follower_endedOf l u).mp hu)⟩
    target := fun o r h => by
      rw [core_endedOf, Option.map_map]
      obtain ⟨x, hx, rfl⟩ := Option.map_eq_some_iff.mp h
      rw [hx, Option.map_some, Function.comp_apply]
      split <;> rfl
    ended := fun o h => by
      obtain ⟨x, hx, hStatus⟩ := Option.map_eq_some_iff.mp h
      rw [core_endedOf, hx, Option.map_some, Option.map_some]
      split
      · rfl
      · rw [hStatus] }

theorem razed_endedOf (l : Live κ σ) (u : BindingId) : Razed l (l.endedOf u) where
  document := rfl
  dom := rfl
  follower _ _ _ _ := follower_endedOf l u
  stock sink hand n hn := by
    cases sink <;> exact hn
  lasts := lasts_endedOf l u

/-- A follower of something that is dying ends. -/
theorem Maintained.ended (h : Maintained π P l) (hu : Keeper l u s sink r)
    (hDying : P.dying (l.dom.key r))
    (hOff : l.isActive u = false) : Maintained π P (l.endedOf u) := by
  have hFollower : ∀ {w t} {sink' : Sink κ} {q}, Keeper (l.endedOf u) w t sink' q ↔
      Keeper l w t sink' q := follower_endedOf l u
  have hStatus := statusOf_endedOf l u
  have hOther : ∀ {w t} {sink' : Sink κ} {q}, Keeper l w t sink' q → w = u → q = r := by
    rintro w t sink' q hw rfl
    exact (hw.unique hu).2.2
  refine ⟨h.running, h.closed, h.rooted, h.graves, h.wires, h.feeds, ?_, ?_, ?_, ?_⟩
  · refine ⟨?_, fun w => ?_, fun w hw => ?_, fun w t sink' q hw => ?_, h.rigs.writes,
      fun w t sink' q hw => ?_, fun w t sink' q v t' sink'' q' hw hv => ?_, fun w t c n hw => ?_,
      fun w t sink' q hw hAlive => ?_,
      fun w t sink' q hw hNot hd => ?_, fun n w hn => ?_, fun w t sink' q x hw hx hxStatus => ?_,
      fun w hw => ?_, fun w t sink' q hw hwOn => ?_⟩
    · exact Array.size_modify.trans h.rigs.observers_size
    · refine Eq.trans ?_ (h.rigs.binding w)
      have hBindings : (l.endedOf u).bindings = l.bindings.modify u fun b =>
        { b with destroyed := true } := rfl
      rw [hBindings, Array.getElem?_modify]
      split
      · cases l.bindings[w]? <;> rfl
      · rfl
    · obtain ⟨t, sink', q, hw⟩ := h.rigs.follower w hw
      exact ⟨t, sink', q, hFollower.mpr hw⟩
    · exact h.rigs.known w t sink' q (hFollower.mp hw)
    · exact h.rigs.reads w t sink' q (hFollower.mp hw)
    · exact h.rigs.rising w t sink' q v t' sink'' q' (hFollower.mp hw) (hFollower.mp hv)
    · exact h.rigs.text w t c n (hFollower.mp hw)
    · rw [hStatus, if_neg]
      · exact h.rigs.alive w t sink' q (hFollower.mp hw) hAlive
      · intro hEq
        obtain rfl := hOther (hFollower.mp hw) hEq
        exact hAlive (.inl hDying)
    · rw [hStatus]
      split
      · rfl
      · exact h.rigs.dead w t sink' q (hFollower.mp hw) hNot hd
    · obtain ⟨t, sink', q, hw, hKey⟩ := h.rigs.tracked n w hn
      exact ⟨t, sink', q, hFollower.mpr hw, hKey⟩
    · rw [core_endedOf] at hx
      obtain ⟨y, hy, rfl⟩ := Option.map_eq_some_iff.mp hx
      by_cases hEq : w = u
      · rw [if_pos hEq] at hxStatus
        exact absurd rfl hxStatus
      · rw [if_neg hEq] at hxStatus ⊢
        have hHooks := h.rigs.hooks w t sink' q y (hFollower.mp hw) hy hxStatus
        refine ⟨hHooks.1, ?_⟩
        rw [← hHooks.2]
        have hBindings : (l.endedOf u).bindings[w]? = l.bindings[w]? := by
          have hEnded : (l.endedOf u).bindings = l.bindings.modify u fun b =>
            { b with destroyed := true } := rfl
          rw [hEnded, Array.getElem?_modify, if_neg fun hEq' => hEq hEq'.symm]
        rw [isBindingDestroyed, binding?, hBindings]
        rfl
    · rw [hStatus] at hw
      split at hw
      · rename_i hEq
        rw [hEq]
        exact hOff
      · exact h.rigs.asleep w hw
    · rw [hStatus] at hwOn
      split at hwOn
      · cases hwOn
      · exact h.rigs.awake w t sink' q (hFollower.mp hw) hwOn
  · exact h.shelves.congr rfl (fun _ => rfl) rfl rfl rfl rfl (fun _ _ _ _ => hFollower.mp)
      (lasts_endedOf l u)
  · refine ⟨fun w t sink' q hw hq => ?_, fun w t sink' q hw hwOn => ?_⟩
    · rw [hStatus, if_neg]
      · exact h.upkeep.told w t sink' q (hFollower.mp hw) hq
      · intro hEq
        obtain rfl := hOther (hFollower.mp hw) hEq
        exact h.not_dead_of_below hq (.inl hDying)
    · rw [hStatus] at hwOn
      split at hwOn
      · cases hwOn
      · refine (h.upkeep.current w t sink' q (hFollower.mp hw) hwOn).imp_right
          (Or.imp_right (Or.imp_right fun hCurrent => ?_))
        exact hCurrent.congr (.of_eq rfl rfl rfl rfl) (fun _ => rfl) fun _ _ _ _ _ _ => rfl
  · refine ⟨fun t ht => ?_, h.alarms.microtask⟩
    obtain ⟨c, w, s', q, hTask, hw⟩ := h.alarms.timer t ht
    exact ⟨c, w, s', q, hTask, hFollower.mpr hw⟩

end LiveMarkup.Live
