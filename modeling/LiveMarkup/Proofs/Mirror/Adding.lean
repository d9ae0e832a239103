import LiveMarkup.Proofs.Mirror.Razing
import LiveMarkup.Proofs.Mirror.Notifying
import LiveMarkup.Proofs.Mirror.Fitting
import LiveMarkup.Proofs.Mirror.Growing

/-!
# What is added

Rendering adds nodes, signals and followers and leaves alone what is there. What it made last is
in nobody's keeping and stands nowhere, until it is attached.

* `Stray`: a node or container that nobody keeps and that stands nowhere;
* `Adds`: what was there lasts, the document is kept up to date, and what is new may be followed.
-/

namespace LiveMarkup.Live

variable {κ σ : Type} {π π₁ π' : Plan} {P : Pending} {l l₁ l' : Live κ σ}
variable {except : NodeRef → Prop} {s t : SignalId} {sink : Sink κ} {r p q : NodeRef}

/-- A node or container that nobody keeps and that stands nowhere. -/
structure Stray (P : Pending) (l : Live κ σ) (r : NodeRef) : Prop where
  known : l.dom.Known r
  off : l.dom.isPlaced r = false
  state : (l.trackedOf (l.dom.key r)).state = none
  ne : l.dom.key r ≠ l.document
  free : Free P l r

/-- What conditionals, switches and series keep is the same, and so are the values of signals and
the states that are noted. -/
structure Retains (l l' : Live κ σ) : Prop where
  conditional : ∀ (c : ConditionalId) (x : Conditional κ), l.conditionals[c]? = some x →
    l'.conditionals[c]? = some x
  switch : ∀ (c : SwitchId) (x : Switch κ), l.switches[c]? = some x → l'.switches[c]? = some x
  series : ∀ (c : SeriesId) (x : Series κ), l.series[c]? = some x → l'.series[c]? = some x
  value : ∀ s < l.signals.size, l'.valueOf s = l.valueOf s
  state : ∀ n, (l'.trackedOf n).state = (l.trackedOf n).state

namespace Retains

theorem refl (l : Live κ σ) : Retains l l :=
  ⟨fun _ _ h => h, fun _ _ h => h, fun _ _ h => h, fun _ _ => rfl, fun _ => rfl⟩

theorem trans (h₁ : Retains l l₁) (h₂ : Retains l₁ l')
    (hSize : l.signals.size ≤ l₁.signals.size) : Retains l l' where
  conditional c x hx := h₂.conditional c x (h₁.conditional c x hx)
  switch c x hx := h₂.switch c x (h₁.switch c x hx)
  series c x hx := h₂.series c x (h₁.series c x hx)
  value s hs := (h₂.value s (Nat.lt_of_lt_of_le hs hSize)).trans (h₁.value s hs)
  state n := (h₂.state n).trans (h₁.state n)

end Retains

/-- What is added leaves alone what was there, but for what is excepted. -/
structure Adds (except : NodeRef → Prop) (P : Pending) (π : Plan) (l : Live κ σ) (π' : Plan)
    (l' : Live κ σ) : Prop extends Retains l l' where
  plan : π.Extends π' l
  lasts : Endures except l l'
  maintained : Maintained π' P l'
  strays : ∀ q, Stray P l q → Stray P l' q
  kin : ∀ q, l.dom.Known q → ¬ except q → l'.dom.kin q = l.dom.kin q
  followers : ∀ u s sink r, Keeper l' u s sink r →
    Keeper l u s sink r ∨ ¬ l.dom.Known r ∨ except r

namespace Stray

theorem ne_document (h : Stray P l r) : r ≠ .node l.document := by
  rintro rfl
  exact h.ne rfl

theorem stateOf (h : Stray P l r) : l.stateOf r = .detached := by
  rw [stateOf_of_none h.state h.ne, shownState, h.off]
  rfl

theorem not_dead (h : Stray P l r) (hDying : P.dying = fun _ => False) :
    ¬ Dead P.dying l.trackedOf (l.dom.key r) := by
  rintro (hd | hd)
  · rw [hDying] at hd
    exact hd
  · rw [h.state] at hd
    cases hd

theorem not_below (h : Stray P l r) (hMaintained : Maintained π P l) :
    ¬ l.dom.Below (.node l.document) r := by
  have hSound := hMaintained.rooted.sound
  intro hBelow
  cases hBelow with
  | self => exact h.ne rfl
  | kin hp hIn =>
    have hOn := hSound.isPlaced_of_mem_kin (hSound.known_of_below hMaintained.known_document hp) hIn
    rw [h.off] at hOn
    cases hOn

theorem twin (h : Stray P l r) (hTwin : Twin l l') : Stray P l' r where
  known := by
    rw [hTwin.dom]
    exact h.known
  off := by
    rw [hTwin.dom]
    exact h.off
  state := by
    rw [hTwin.dom, hTwin.tracked]
    exact h.state
  ne := by
    rw [hTwin.dom, hTwin.document]
    exact h.ne
  free := hTwin.steady.razed.free h.free

end Stray

namespace Adds

theorem refl (h : Maintained π P l) : Adds except P π l π l :=
  ⟨.refl l, Plan.Extends.refl π l, Endures.refl l, h, fun _ => id, fun _ _ _ => rfl,
    fun _ _ _ _ => .inl⟩

theorem mono {except' : NodeRef → Prop} (h : Adds except P π l π' l')
    (hExcept : ∀ r, except r → except' r) : Adds except' P π l π' l' :=
  { h with
    lasts := h.lasts.mono hExcept
    kin := fun q hq hNot => h.kin q hq (mt (hExcept q) hNot)
    followers := fun u s sink r hu =>
      (h.followers u s sink r hu).imp_right (Or.imp_right (hExcept r)) }

theorem trans (h₁ : Adds except P π l π₁ l₁) (h₂ : Adds except P π₁ l₁ π' l') :
    Adds except P π l π' l' where
  toRetains := h₁.toRetains.trans h₂.toRetains h₁.lasts.signals_size
  plan := h₁.plan.trans h₁.lasts h₂.plan
  lasts := h₁.lasts.trans h₂.lasts
  maintained := h₂.maintained
  strays q hq := h₂.strays q (h₁.strays q hq)
  kin q hq hNot := (h₂.kin q (h₁.lasts.known q hq) hNot).trans (h₁.kin q hq hNot)
  followers u s sink r hu := by
    rcases h₂.followers u s sink r hu with hOld | hNew | hExcept
    · exact h₁.followers u s sink r hOld
    · exact .inr (.inl fun hr => hNew (h₁.lasts.known r hr))
    · exact .inr (.inr hExcept)

theorem trans_new (h₁ : Adds (fun _ => False) P π l π₁ l₁) (h₂ : Adds except P π₁ l₁ π' l')
    (hNew : ∀ r, except r → ¬ l.dom.Known r) : Adds (fun _ => False) P π l π' l' where
  toRetains := h₁.toRetains.trans h₂.toRetains h₁.lasts.signals_size
  plan := ((h₁.mono fun _ => False.elim).trans h₂).plan
  lasts := h₁.lasts.trans_new h₂.lasts hNew
  maintained := h₂.maintained
  strays q hq := h₂.strays q (h₁.strays q hq)
  kin q hq _ := (h₂.kin q (h₁.lasts.known q hq) fun hIn => hNew q hIn hq).trans (h₁.kin q hq id)
  followers u s sink r hu := by
    rcases h₂.followers u s sink r hu with hOld | hOut | hExcept
    · exact h₁.followers u s sink r hOld
    · exact .inr (.inl fun hr => hOut (h₁.lasts.known r hr))
    · exact .inr (.inl (hNew r hExcept))

theorem extend (hE : π.Extends π' l) (h : Maintained π P l) : Adds except P π l π' l :=
  ⟨.refl l, hE, Endures.refl l, h.extend hE, fun _ => id, fun _ _ _ => rfl, fun _ _ _ _ => .inl⟩

theorem grown {d' : Dom} (h : Maintained π P l) (hGrown : l.dom.Sprouts d') :
    Adds except P π l π (l.withDom d') where
  toRetains := ⟨fun _ _ h => h, fun _ _ h => h, fun _ _ h => h, fun _ _ => rfl, fun _ => rfl⟩
  plan := Plan.Extends.refl π l
  lasts := (lasts_grown hGrown h.rooted.sound).mono fun _ => False.elim
  maintained := h.grown hGrown
  strays q hq := {
    known := hGrown.known hq.known
    off := (hGrown.isPlaced hq.known).trans hq.off
    state := by
      change (l.trackedOf (d'.key q)).state = none
      rw [hGrown.key hq.known]
      exact hq.state
    ne := by
      change d'.key q ≠ l.document
      rw [hGrown.key hq.known]
      exact hq.ne
    free := hq.free }
  kin _ hq _ := hGrown.kin_old h.rooted.sound hq
  followers _ _ _ _ := .inl

theorem signals {S : Array (Signal κ)} (hS : Sprung l.signals S)
    (h : Maintained π P (l.withSignals S)) : Adds except P π l π (l.withSignals S) where
  toRetains := ⟨fun _ _ h => h, fun _ _ h => h, fun _ _ h => h, fun _ hs => hS.valueOf hs,
    fun _ => rfl⟩
  plan := Plan.Extends.refl π l
  lasts := hS.lasts.mono fun _ => False.elim
  maintained := h
  strays _ hq := ⟨hq.known, hq.off, hq.state, hq.ne, hq.free⟩
  kin _ _ _ := rfl
  followers _ _ _ _ := .inl

theorem fitted (h : Maintained π P l) (hF : Fitted l l' s sink r) (hr : Stray P l r)
    (hIdle : P.hand l.subscriptions.size = []) (hMaintained : Maintained π P l') :
    Adds (· = r) P π l π l' where
  toRetains := ⟨hF.conditional.old, hF.switch.old, hF.series.old, fun t _ => hF.valueOf t,
    fun n => by
    rw [hF.tracked]
    split
    · rename_i hEq
      exact hEq ▸ hr.state.symm
    · rfl⟩
  plan := Plan.Extends.refl π l
  lasts := (hF.lasts h.rigs hr.state).mono fun _ hn => hn.symm
  maintained := hMaintained
  strays q hq := {
    known := by
      rw [hF.dom]
      exact hq.known
    off := by
      rw [hF.dom]
      exact hq.off
    state := by
      rw [hF.dom, hF.tracked]
      split
      · rfl
      · exact hq.state
    ne := by
      rw [hF.dom, hF.document]
      exact hq.ne
    free := fun w t sink' x hw hIn => by
      rcases (hF.follower_iff h.rigs).mp hw with hOld | ⟨rfl, rfl, rfl, rfl⟩
      · rw [(hF.same_old hOld.2.2).stock_eq] at hIn
        exact hq.free w t sink' x hOld hIn
      · rw [hIdle, hF.bare_new.1] at hIn
        cases hIn }
  kin q _ _ := by rw [hF.dom]
  followers w t sink' x hw := by
    rcases (hF.follower_iff h.rigs).mp hw with hOld | ⟨-, -, -, rfl⟩
    · exact .inl hOld
    · exact .inr (.inr rfl)

end Adds

/-! ## Attaching what is new -/

section Attach

variable (h : Maintained π P l) (hDying : P.dying = fun _ => False)
variable (hp : Stray P l p) (hq : Stray P l q) (hAlone : ∀ u s sink, ¬ Keeper l u s sink p)
variable (hLt : l.dom.key p < l.dom.key q) (hCap : π.cap (l.dom.key q) ≤ π.cap (l.dom.key p))
include h hDying hp hq hAlone hLt hCap

/-- A document that is kept up to date stays so if what stands nowhere is put in something else
that stands nowhere. -/
theorem Maintained.nested {d' : Dom} {before : Option NodeRef}
    (hGains : Dom.Gains l.dom d' q p before) : Maintained π P (l.withDom d') := by
  have hSound := h.rooted.sound
  have hNotBelow : ¬ l.dom.Below q p := fun hBelow =>
    Nat.not_le.mpr hLt (h.edge_of_below hq.known hBelow).1
  refine h.restocked (p := p)
    (Restocked.of_dom hGains.toSameParts hGains.sound fun x hx hNe => ?_)
    (Pending.Elsewhere.refl P l p) hp.known (fun x hx hNot => ?_)
    (fun n hn u s sink r x hu hx => ?_)
    (.inl hDying) (fun u s sink hu => absurd hu (hAlone u s sink)) fun u s sink r hu hBelow => ?_
  · rw [hGains.kin x hx, if_neg hNe]
  · rcases (hGains.mem_kin hp.known).mp hx with ⟨rfl, -⟩ | hOld
    · exact ⟨hq.known, hLt, hCap, ⟨fun hd => absurd hd (hq.not_dead hDying),
        fun hd => absurd hd (hp.not_dead hDying)⟩, fun w t sink' r hw hIn =>
          absurd hIn (hq.free w t sink' r hw)⟩
    · exact absurd hOld hNot
  · subst hn
    exact fun hBelow => h.out_of_stock hp.known hp.off hp.free hu hx n hBelow rfl
  · rcases (hGains.below_iff hSound hq.known hp.known h.known_document hq.off hNotBelow).mp hBelow
      with hOld | ⟨hTop, -⟩
    · exact .inr hOld
    · exact absurd hTop (hp.not_below h)

/-- Attaching it tells nobody. -/
theorem attach_nested (calls : Calls κ σ) :
    After (attach calls q p none).run l fun out l' => out = .ok () ∧ ∃ d',
      Dom.Gains l.dom d' q p none ∧ Twin (l.withDom d') l' := by
  have hSound := h.rooted.sound
  have hNotBelow : ¬ l.dom.Below q p := fun hBelow =>
    Nat.not_le.mpr hLt (h.edge_of_below hq.known hBelow).1
  obtain ⟨d', hPlace, hGains⟩ : ∃ d', l.dom.place q p none = .ok d' ∧
      Dom.Gains l.dom d' q p none :=
    hSound.gains_of_place hq.known hp.known hq.off hNotBelow nofun
  have hMaintained := h.nested hDying hp hq hAlone hLt hCap hGains
  have hKey : d'.key q = l.dom.key q := hGains.key q
  have hOff : ∀ l₁, Twin (l.withDom d') l₁ → l₁.isConnected q = false := by
    intro l₁ hTwin
    have hMaintained₁ := hTwin.maintained hMaintained
    have hKnown : l₁.dom.Known q := by
      rw [hTwin.dom]
      exact hGains.known_iff.mpr hq.known
    rw [← Bool.not_eq_true, hMaintained₁.isConnected_iff hKnown, hTwin.dom, hTwin.document]
    intro hBelow
    rcases (hGains.below_iff hSound hq.known hp.known h.known_document hq.off hNotBelow).mp hBelow
      with hOld | ⟨hTop, -⟩
    · exact hq.not_below h hOld
    · exact hp.not_below h hTop
  refine (after_attach (Q := fun l₂ => Twin (l.withDom d') l₂) h.running hq.stateOf hq.state ?_
    (h.unasked (hq.not_dead hDying)) hPlace hKey fun l₁ hTwin => ?_).mono ?_
  · rw [hp.stateOf]
    rfl
  · rw [hOff l₁ hTwin, if_neg Bool.false_ne_true]
    exact hTwin
  · rintro out l' ⟨rfl, l₂, hTwin, hTwin'⟩
    exact ⟨rfl, d', hGains, hTwin.trans hTwin'⟩

end Attach

section Attached

variable {d' : Dom} (hGains : Dom.Gains l₁.dom d' q p none) (hTwin : Twin (l₁.withDom d') l')
include hGains hTwin

omit hTwin in
theorem attached_restocked : Restocked l₁ (l₁.withDom d') p :=
  Restocked.of_dom hGains.toSameParts hGains.sound fun x hx hNe => by
    rw [hGains.kin x hx, if_neg hNe]

theorem attached_lasts : Endures (fun q => q = p) l₁ l' :=
  ((attached_restocked hGains).lasts.mono fun _ hn => hn.symm).trans
    (hTwin.steady.lasts.mono fun _ => False.elim)

theorem attached_followers {u : BindingId} {x : NodeRef} :
    Keeper l' u s sink x ↔ Keeper l₁ u s sink x :=
  hTwin.steady.follower_iff.trans (attached_restocked hGains).follower_iff

theorem attached_label (n : NodeId) : l'.dom.label n = l₁.dom.label n := by
  rw [hTwin.dom]
  exact (attached_restocked hGains).label n

theorem attached_kin (hp : l₁.dom.Known p) : l'.dom.kin p = l₁.dom.kin p ++ [q] := by
  rw [hTwin.dom]
  change d'.kin p = _
  rw [hGains.kin p hp, if_pos rfl]
  rfl

theorem Adds.attached (hA : Adds except P π l π₁ l₁) (hExcept : except p)
    (hNew : ¬ l.dom.Known q) (hMaintained : Maintained π₁ P (l₁.withDom d')) :
    Adds except P π l π₁ l' := by
  have hSound := hA.maintained.rooted.sound
  have hRetains : Retains l₁ l' := ⟨fun c x hx => hTwin.conditionals ▸ hx,
    fun c x hx => hTwin.switches ▸ hx, fun c x hx => hTwin.series ▸ hx, fun t _ => hTwin.valueOf t,
    fun n => congrArg Tracked.state (hTwin.tracked n)⟩
  refine ⟨hA.toRetains.trans hRetains hA.lasts.signals_size, hA.plan,
    hA.lasts.trans ((attached_lasts hGains hTwin).mono fun n hn => hn ▸ hExcept),
    hTwin.maintained hMaintained, fun x hx => Stray.twin ?_ hTwin, fun x hx hNot => ?_,
      fun u s sink x hu => hA.followers u s sink x ((attached_followers hGains hTwin).mp hu)⟩
  on_goal 2 =>
    rw [hTwin.dom]
    have hNe : x ≠ p := by
      rintro rfl
      exact hNot hExcept
    refine (hGains.kin x (hA.lasts.known x hx)).trans ?_
    rw [if_neg hNe]
    exact hA.kin x hx hNot
  have hx₁ := hA.strays x hx
  have hNe : x ≠ q := by
    rintro rfl
    exact hNew hx.known
  exact {
    known := hGains.known_iff.mpr hx₁.known
    off := (hGains.isPlaced_of_ne hSound hx₁.known hNe).trans hx₁.off
    state := by
      change (l₁.trackedOf (d'.key x)).state = none
      rw [hGains.key x]
      exact hx₁.state
    ne := by
      change d'.key x ≠ l₁.document
      rw [hGains.key x]
      exact hx₁.ne
    free := hx₁.free }

end Attached

end LiveMarkup.Live
