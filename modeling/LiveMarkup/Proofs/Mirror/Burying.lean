import LiveMarkup.Proofs.Mirror.Razing
import LiveMarkup.Proofs.Mirror.Notifying
import LiveMarkup.Proofs.Live.Reached

/-!
# Destroying what nobody keeps

A node or container that is placed nowhere and that nobody keeps can be destroyed. The hooks on
what is in it let go what is kept there, which is destroyed in turn if it is hidden.

* `Razes`: what destroying leads to;
* `release_razes`: a follower lets go what it keeps;
* `destroy_razes`: destroying leads to that, if calls are nested as deep as what was made.
-/

namespace LiveMarkup.Live

variable {κ σ : Type} {π : Plan} {P P' : Pending} {l l₁ l' : Live κ σ}
variable {u w : BindingId} {s t : SignalId} {sink sink' : Sink κ} {r q x : NodeRef}
variable {client : Client κ σ} {n m : Nat}

/-! ## Letting go -/

/-- A change of what one container keeps, none of which is new, makes and moves nothing. -/
theorem Restocked.razed {c : ContainerId} (h : Restocked l l' (.container c))
    (hDom : l'.dom = l.dom)
    (hStock : ∀ (sink : Sink κ) hand n, n ∈ sink.stock l' hand → n ∈ sink.stock l hand) :
    Razed l l' where
  document := h.document
  dom := hDom
  follower _ _ _ _ := h.follower_iff
  stock := hStock
  lasts :=
    { h.lasts with
      label := fun n _ _ _ => h.label n
      kin := fun n _ _ _ => by rw [hDom]
      box := fun c _ hNone _ =>
        ⟨by rw [hDom], fun u s sink hu => hNone u s sink (h.follower_iff.mp hu)⟩
      text := fun x hx => .inl (h.projectors ▸ hx) }

/-- What was kept by a follower that keeps it no longer is kept by nobody. -/
theorem Shelves.free (h : Shelves π P l) (hu : Keeper l u s sink r)
    (hn : x ∈ sink.stock l (P.hand u)) (hRazed : Razed l l')
    (hNot : x ∉ sink.stock l' (P.hand u)) : Free P l' x := by
  intro w t sink' q hw hIn
  have hw' := (hRazed.follower w t sink' q).mp hw
  obtain rfl := h.apart w t sink' q u s sink r x hw' hu (hRazed.stock _ _ _ hIn) hn
  obtain ⟨-, rfl, -⟩ := hu.unique hw'
  exact hNot hIn

section Conditional

variable {c : ConditionalId} {y : Conditional κ} (h : Maintained π P l)
variable (hu : Keeper l u s (.conditional c) r) (hy : l.conditionals[c]? = some y)
include h hu hy

theorem Maintained.stopGrace : After (stopGrace c) l fun _ l' => Maintained π P l' ∧ Razed l l' ∧
    l'.config = l.config ∧ (∀ q, l'.stateOf q = l.stateOf q) ∧
      ∃ timer, l'.conditionals[c]? = some { y with timer } := by
  unfold After
  rcases stopGrace_run l c with hSame | ⟨timer, hRun⟩
  · rw [hSame]
    exact ⟨h, .refl l, rfl, fun _ => rfl, y.timer, hy⟩
  · rw [hRun]
    have hMaintained : Maintained π P { l with
        conditionals := l.conditionals.modify c fun x => { x with timer := none }
        clock := { l.clock with timers := l.clock.timers.filter fun t => !(t.number == timer) } } :=
      h.retimed none _ hu hy (fun t ht => .inl (List.mem_filter.mp ht).1) rfl
    obtain ⟨z, hz, rfl⟩ := id hu.2.2
    cases hy.symm.trans hz
    have hR := Restocked.of_conditional (l := l) (p := .container y.box)
      (K := { l.clock with timers := l.clock.timers.filter fun t => !(t.number == timer) })
      (f := fun x => { x with timer := none })
      (.refl l.dom) h.rooted.sound (fun _ _ _ => rfl) hy rfl rfl rfl
      (fun t ht => .inl (List.mem_filter.mp ht).1) rfl
    refine ⟨hMaintained, hR.razed rfl fun sink hand n hn => ?_, rfl, fun _ => rfl, none, ?_⟩
    · cases sink with
      | conditional c' =>
        simp only [Sink.stock, Array.getElem?_modify] at hn ⊢
        split at hn
        · cases hCase : l.conditionals[c']? with
          | none => simp [hCase] at hn
          | some z => simpa [hCase] using hn
        · exact hn
      | _ => exact hn
    · rw [Array.getElem?_modify, if_pos rfl, hy]
      rfl

theorem Maintained.childless (hFine : P.dying (l.dom.key r) ∨ y.visible = false) {l' : Live κ σ}
    (hl' : l' = { l with conditionals := l.conditionals.modify c fun x =>
      { x with child := none } }) :
    Maintained π P l' ∧ Razed l l' ∧ ∀ n, y.child = some n → Free P l' n := by
  subst hl'
  obtain ⟨z, hz, rfl⟩ := id hu.2.2
  cases hy.symm.trans hz
  have hR := Restocked.of_conditional (l := l) (p := .container y.box) (K := l.clock)
    (f := fun x => { x with child := none })
    (.refl l.dom) h.rooted.sound (fun _ _ _ => rfl) hy rfl rfl rfl (fun t ht => .inl ht) rfl
  have hNew : (l.conditionals.modify c fun x => { x with child := none })[c]? =
      some { y with child := none } := by
    rw [Array.getElem?_modify, if_pos rfl, hy]
    rfl
  have hStock : (Sink.conditional c : Sink κ).stock
      { l with conditionals := l.conditionals.modify c fun x => { x with child := none } }
      (P.hand u) = [] := by
    simp only [Sink.stock, hNew]
    rfl
  have hRazed := hR.razed rfl fun sink hand n hn => by
    cases sink with
    | conditional c' =>
      simp only [Sink.stock, Array.getElem?_modify] at hn ⊢
      split at hn
      · cases hCase : l.conditionals[c']? with
        | none => simp [hCase] at hn
        | some z => simp [hCase] at hn
      · exact hn
    | _ => exact hn
  refine ⟨h.refilled hu hR (.refl P l _) ⟨fun n hn => ?_, fun n hn => ?_, fun c' _ hAlive => ?_,
    fun x' hx' n hn => ?_, fun hOn => ?_⟩ rfl, hRazed, fun n hn => ?_⟩
  · rw [hStock] at hn
    cases hn
  · rw [hStock] at hn
    cases hn
  · refine (h.shelves.shape _ _ _ _ hu hAlive).trans ?_
    have hVisible := hFine.resolve_left fun hd => hAlive (.inl hd)
    simp only [Sink.shown, hNew, hy, hVisible, Bool.false_eq_true, if_false]
  · cases hNew.symm.trans hx'
    cases hn
  · rcases hFine with hDying | hVisible
    · exact .inr (.inr (.inl hDying))
    · refine (h.upkeep.current _ _ _ _ hu hOn).imp_right (Or.imp_right (Or.imp_right
        fun hCurrent x' hx' => ?_))
      cases hNew.symm.trans hx'
      refine ⟨(hCurrent y hy).1, fun hShown => ?_⟩
      rw [hVisible] at hShown
      cases hShown
  · refine h.shelves.free hu ?_ hRazed ?_
    · rw [Sink.stock, hy, Option.bind_some, hn]
      exact List.mem_singleton_self _
    · rw [hStock]
      exact List.not_mem_nil

end Conditional

/-- The arms are let go, which nobody keeps any longer. -/
theorem Maintained.armless {c : SwitchId} {y : Switch κ} (h : Maintained π P l)
    (hu : Keeper l u s (.switch c) r) (hy : l.switches[c]? = some y)
    (hDying : P.dying (l.dom.key r)) (hShowing : P.showing u = none) {l' : Live κ σ}
    (hl' : l' = { l with switches := l.switches.modify c fun x => { x with built := [] } }) :
    Maintained π P l' ∧ Razed l l' ∧ ∀ e ∈ y.built, Free P l' e.2 := by
  subst hl'
  obtain ⟨z, hz, rfl⟩ := id hu.2.2
  cases hy.symm.trans hz
  have hR := Restocked.of_switch (l := l) (p := .container y.box)
    (f := fun x => { x with built := [] })
    (.refl l.dom) h.rooted.sound (fun _ _ _ => rfl) hy rfl rfl rfl rfl
  have hNew : (l.switches.modify c fun x => { x with built := [] })[c]? =
      some { y with built := [] } := by
    rw [Array.getElem?_modify, if_pos rfl, hy]
    rfl
  have hStock : (Sink.switch c : Sink κ).stock
      { l with switches := l.switches.modify c fun x => { x with built := [] } }
      (P.hand u) = [] := by
    simp only [Sink.stock, hNew]
    rfl
  have hRazed := hR.razed rfl fun sink hand n hn => by
    cases sink with
    | switch c' =>
      simp only [Sink.stock, Array.getElem?_modify] at hn ⊢
      split at hn
      · cases hCase : l.switches[c']? with
        | none => simp [hCase] at hn
        | some z => simp [hCase] at hn
      · exact hn
    | _ => exact hn
  refine ⟨h.refilled hu hR (.refl P l _) ⟨fun n hn => ?_, fun n hn => ?_,
    fun c' _ hAlive => absurd (.inl hDying) hAlive, fun x' hx' => ?_,
    fun _ => .inr (.inr (.inl hDying))⟩ rfl, hRazed, fun e he => ?_⟩
  · rw [hStock] at hn
    cases hn
  · rw [hStock] at hn
    cases hn
  · cases hNew.symm.trans hx'
    exact ⟨fun _ _ hn => absurd hn List.not_mem_nil, fun hArm => absurd hShowing hArm,
      fun hAlive => absurd (.inl hDying) hAlive⟩
  · refine h.shelves.free hu ?_ hRazed ?_
    · rw [Sink.stock, hy]
      exact List.mem_map.mpr ⟨e, he, rfl⟩
    · rw [hStock]
      exact List.not_mem_nil

/-- The items are let go. -/
theorem Maintained.itemless {c : SeriesId} {y : Series κ} (h : Maintained π P l)
    (hu : Keeper l u s (.series c) r) (hy : l.series[c]? = some y)
    (hDying : P.dying (l.dom.key r)) {l' : Live κ σ}
    (hl' : l' = { l with series := l.series.modify c fun x => { x with items := [] } }) :
    Maintained π P l' ∧ Razed l l' := by
  subst hl'
  obtain ⟨z, hz, rfl⟩ := id hu.2.2
  cases hy.symm.trans hz
  have hR := Restocked.of_series (l := l) (p := .container y.box)
    (f := fun x => { x with items := [] })
    (.refl l.dom) h.rooted.sound (fun _ _ _ => rfl) hy rfl rfl rfl
  have hNew : (l.series.modify c fun x => { x with items := [] })[c]? =
      some { y with items := [] } := by
    rw [Array.getElem?_modify, if_pos rfl, hy]
    rfl
  have hStock : ∀ n ∈ (Sink.series c : Sink κ).stock
      { l with series := l.series.modify c fun x => { x with items := [] } } (P.hand u),
        n ∈ (Sink.series c : Sink κ).stock l (P.hand u) := by
    intro n hn
    simp only [Sink.stock, hNew, Option.map_some, Option.getD_some, List.nil_append] at hn
    simp only [Sink.stock, List.map_append]
    exact List.mem_append_right _ hn
  refine ⟨h.refilled hu hR (.refl P l _) ⟨fun n hn => .inl (hStock n hn),
    fun n hn hPlaced => h.shelves.placed _ _ _ _ n hu (hStock n hn) hPlaced,
    fun c' _ hAlive => absurd (.inl hDying) hAlive, fun x' hx' => ?_,
    fun _ => .inr (.inr (.inl hDying))⟩ rfl, hR.razed rfl fun sink hand n hn => ?_⟩
  · cases hNew.symm.trans hx'
    refine ⟨fun item hIn => ?_, List.nodup_nil, List.nodup_nil, fun _ => rfl⟩
    have hIn' : item ∈ y.items ++ P.hand u := List.mem_append_right _ hIn
    exact ⟨h.shelves.item _ _ _ _ y item hu hy hIn', h.shelves.cursor _ _ _ _ y item hu hy hIn'⟩
  · cases sink with
    | series c' =>
      simp only [Sink.stock, Array.getElem?_modify] at hn ⊢
      split at hn
      · cases hCase : l.series[c']? with
        | none => simpa [hCase] using hn
        | some z =>
          simp only [hCase, Option.map_some, Option.getD_some, List.nil_append] at hn ⊢
          rw [List.map_append]
          exact List.mem_append_right _ hn
      · exact hn
    | _ => exact hn

/-! ## Destroying -/

/-- Calls nested to a depth destroy what was made from less than that, is detached and is kept by
nobody, if it is younger than whatever is about to be shown. -/
def Razes (client : Client κ σ) (n : Nat) : Prop :=
  ∀ (π : Plan) (P : Pending) (l : Live κ σ) (x : NodeRef), Maintained π P l → l.dom.Known x →
    l.stateOf x = .detached → Free P l x → π.cap (l.dom.key x) < n →
      (∀ w t sink q, Keeper l w t sink q → P.showing w ≠ none → l.dom.key q < l.dom.key x) →
        After (destroy (Calls.upTo client n) x).run l fun out l' => out = .ok () ∧
          Maintained π P l' ∧ Razed l l' ∧ (l'.trackedOf (l.dom.key x)).state = some .destroyed

/-- What a follower that is dying keeps is destroyed. -/
theorem discardChild_razes {c : ConditionalId} (hRazes : Razes client n) (h : Maintained π P l)
    (hu : Keeper l u s (.conditional c) r) (hCap : π.cap (l.dom.key r) ≤ n)
    (hFine : P.dying (l.dom.key r) ∨ ∀ y, l.conditionals[c]? = some y → y.visible = false)
    (hShowing : ∀ w t sink q, Keeper l w t sink q → P.showing w ≠ none →
      l.dom.key q ≤ l.dom.key r) :
    After (discardChild (Calls.upTo client n) c).run l fun out l' => out = .ok () ∧
      Maintained π P l' ∧ Razed l l' := by
  obtain ⟨y, hy, -⟩ := id hu.2.2
  unfold discardChild
  refine After.get_act ?_
  have hChild : (l.conditional? c).bind (·.child) = y.child := by
    rw [conditional?, hy]
    rfl
  rw [hChild]
  cases hCase : y.child with
  | none => exact ⟨rfl, h, .refl l⟩
  | some child =>
    obtain ⟨hKnown, hLt, hLess⟩ := h.shelves.known u s _ r child hu (by
      rw [Sink.stock, hy, Option.bind_some, hCase]
      exact List.mem_singleton_self _)
    refine After.sure_bind (m := fun _ l₁ => l₁ = { l with
      conditionals := l.conditionals.modify c fun x => { x with child := none } }) rfl
        fun _ l₁ h₁ => ?_
    obtain ⟨hMaintained, hRazed, hFree⟩ :=
      h.childless hu hy (hFine.imp_right fun hAll => hAll y hy) h₁
    refine After.get_act ?_
    split
    · rename_i hDetached
      refine (hRazes π P l₁ child hMaintained (hRazed.dom ▸ hKnown) hDetached (hFree child hCase) ?_
        fun w t sink q hw hw' => ?_).mono fun out l₂ hEnd =>
          ⟨hEnd.1, hEnd.2.1, hRazed.trans hEnd.2.2.1⟩
      · rw [hRazed.dom]
        omega
      · rw [hRazed.dom]
        exact Nat.lt_of_le_of_lt (hShowing w t sink q ((hRazed.follower w t sink q).mp hw) hw') hLt
    · exact ⟨rfl, hMaintained, hRazed⟩

/-- Hidden arms are destroyed. -/
theorem destroyHidden_razes (hRazes : Razes client n) (h : Maintained π P l) (hx : l.dom.Known x)
    (hFree : Free P l x) (hCap : π.cap (l.dom.key x) < n)
    (hShowing : ∀ w t sink q, Keeper l w t sink q → P.showing w ≠ none →
      l.dom.key q < l.dom.key x) :
    After (destroyHidden (Calls.upTo client n) x) l fun _ l' => Maintained π P l' ∧ Razed l l' := by
  unfold destroyHidden
  rw [after_bind, after_get]
  split
  · rename_i hDetached
    exact after_attempt.mpr ((hRazes π P l x h hx hDetached hFree hCap hShowing).mono
      fun _ _ ⟨_, h', hRazed, _⟩ => ⟨h', hRazed⟩)
  · exact ⟨h, .refl l⟩

/-- A follower that is dying lets go what it keeps. -/
theorem release_razes (hRazes : Razes client n) (h : Maintained π P l) (hu : Keeper l u s sink r)
    (hDying : P.dying (l.dom.key r)) (hCap : π.cap (l.dom.key r) ≤ n)
    (hShowing : ∀ w t sink q, Keeper l w t sink q → P.showing w ≠ none →
      l.dom.key q < l.dom.key r) {hook : Hook κ} (hHook : hook ∈ sink.release.map (·.2))
    (event : Event) :
    After (Calls.runHook client (Calls.upTo client n) event hook) l fun _ l' =>
      Maintained π P l' ∧ Razed l l' := by
  cases sink with
  | conditional c =>
    obtain rfl := List.mem_singleton.mp hHook
    obtain ⟨y, hy, -⟩ := id hu.2.2
    change After (releaseConditional (Calls.upTo client n) c) l fun _ l' =>
      Maintained π P l' ∧ Razed l l'
    refine (h.stopGrace hu hy).bind fun _ l₁ hStopped => after_attempt.mpr ?_
    obtain ⟨h₁, hRazed, -⟩ := hStopped
    have hu₁ := (hRazed.follower _ _ _ _).mpr hu
    refine (discardChild_razes hRazes h₁ hu₁ (hRazed.dom ▸ hCap) (.inl (hRazed.dom ▸ hDying))
      fun w t sink q hw hw' => ?_).mono fun _ l₂ hEnd => ⟨hEnd.2.1, hRazed.trans hEnd.2.2⟩
    rw [hRazed.dom]
    exact Nat.le_of_lt (hShowing w t sink q ((hRazed.follower w t sink q).mp hw) hw')
  | switch c =>
    obtain rfl := List.mem_singleton.mp hHook
    obtain ⟨y, hy, -⟩ := id hu.2.2
    change After (releaseSwitch (Calls.upTo client n) c) l fun _ l' =>
      Maintained π P l' ∧ Razed l l'
    unfold releaseSwitch
    rw [after_bind, after_get]
    have hBuilt : ((l.switch? c).map (·.built)).getD [] = y.built := by
      rw [switch?, hy]
      rfl
    rw [hBuilt]
    have hIdle : P.showing u = none := by
      by_contra hNe
      exact absurd (hShowing u s _ r hu hNe) (Nat.lt_irrefl _)
    refine After.bind (m := fun _ l₁ => l₁ = { l with
      switches := l.switches.modify c fun x => { x with built := [] } }) rfl fun _ l₁ h₁ => ?_
    obtain ⟨hMaintained, hRazed, hFree⟩ := h.armless hu hy hDying hIdle h₁
    refine (After.forM (k := fun es l₂ => (∀ e ∈ es, e ∈ y.built) ∧ Maintained π P l₂ ∧ Razed l l₂ ∧
      Razed l₁ l₂) ⟨fun _ => ((Calls.upTo client n).shuffle.perm l _).mem_iff.mp, hMaintained, hRazed, .refl l₁⟩ ?_).mono fun _ _ hk =>
      ⟨hk.2.1, hk.2.2.1⟩
    rintro e rest l₂ ⟨hIn, h₂, hRazed₂, hRazed₁₂⟩
    have hMem := hIn e List.mem_cons_self
    obtain ⟨hKnown, hLt, hLess⟩ := h.shelves.known u s _ r e.2 hu (by
      rw [Sink.stock, hy]
      exact List.mem_map.mpr ⟨e, hMem, rfl⟩)
    have hFree₂ := hRazed₁₂.free (hFree e hMem)
    refine (destroyHidden_razes hRazes h₂ (hRazed₂.dom ▸ hKnown) hFree₂ ?_
      fun w t sink q hw hw' => ?_).mono fun _ l₃ hEnd =>
        ⟨fun e he => hIn e (List.mem_cons_of_mem _ he), hEnd.1, hRazed₂.trans hEnd.2,
          hRazed₁₂.trans hEnd.2⟩
    · rw [hRazed₂.dom]
      omega
    · rw [hRazed₂.dom]
      exact Nat.lt_trans (hShowing w t sink q ((hRazed₂.follower w t sink q).mp hw) hw') hLt
  | series c =>
    obtain rfl := List.mem_singleton.mp hHook
    obtain ⟨y, hy, -⟩ := id hu.2.2
    exact h.itemless hu hy hDying rfl
  | projector _ => cases hHook
  | derived _ _ => cases hHook
  | client _ => cases hHook

/-- The end of a binding and of its observer. -/
theorem end_razes (h : Maintained π P l) (hu : Keeper l u s sink r)
    (hDying : P.dying (l.dom.key r)) :
    After (do
        endBinding u
        endObserver u
        untrackMoves u : LiveM κ σ Unit) l fun _ l' =>
      Maintained π P l' ∧ Razed l l' ∧ (l'.core? u).map (·.status) = some .destroyed := by
  have hMap := h.rigs.binding u
  rw [if_pos hu.lt_size] at hMap
  obtain ⟨b, hb, hSubscription⟩ := Option.map_eq_some_iff.mp hMap
  obtain ⟨⟨registered, hSub⟩, -, -⟩ := id hu
  have hEnded : ∀ l₁ : Live κ σ, Maintained π P l₁ → Razed l l₁ → l₁.isActive u = false →
      ∀ movers, Maintained π P { l₁.endedOf u with movers } ∧ Razed l { l₁.endedOf u with movers } ∧
        ((({ l₁.endedOf u with movers } : Live κ σ).core? u).map (·.status)) = some .destroyed := by
    intro l₁ h₁ hRazed hOff movers
    have hu₁ := (hRazed.follower u s sink r).mpr hu
    have hMaintained := h₁.ended hu₁ (hRazed.dom ▸ hDying) hOff
    have hTwin : Twin (l₁.endedOf u) { l₁.endedOf u with movers } :=
      { Twin.refl (l₁.endedOf u) with }
    refine ⟨hTwin.maintained hMaintained,
      hRazed.trans ((razed_endedOf l₁ u).trans hTwin.steady.razed), ?_⟩
    rw [hTwin.core, core_endedOf]
    obtain ⟨y, hy, -⟩ := hu₁.exists_core
    rw [hy, Option.map_some, Option.map_some, if_pos rfl]
  have hRun : ((do
      endBinding u
      endObserver u
      untrackMoves u : LiveM κ σ Unit).run l).2 =
        ((do
          endObserver u
          untrackMoves u : LiveM κ σ Unit).run ((switchOff u).run { l with
              bindings := l.bindings.modify u fun x => { x with destroyed := true } }).2).2 := rfl
  unfold After
  rw [hRun, switchOff_reads, binding?, Array.getElem?_modify, if_pos rfl, hb]
  dsimp only [Option.map_some]
  rw [hSubscription, deactivate_reads, subscription?, hSub]
  cases registered with
  | none =>
    refine hEnded l h (.refl l) ?_ _
    rw [isActive, subscription?, hSub]
    rfl
  | some number =>
    have hSteady := steady_unsubscribed hSub h.wires h.feeds fun d f => hu.not_derived
    refine hEnded (l.unsubscribed u s number) (h.silenced hu hDying hSub) hSteady.razed ?_ _
    rw [isActive_unsubscribed hu, if_pos rfl]

/-- The observer of a follower that is dying is told of the end. -/
theorem tellDestroyed_razes (hRazes : Razes client n) (h : Maintained π P l)
    (hu : Keeper l u s sink r) (hDying : P.dying (l.dom.key r)) (hCap : π.cap (l.dom.key r) ≤ n)
    (hShowing : ∀ w t sink q, Keeper l w t sink q → P.showing w ≠ none →
      l.dom.key q < l.dom.key r) :
    After (tellDestroyed (Calls.upTo client (n + 1)) u) l fun _ l' =>
      Maintained π P l' ∧ Razed l l' ∧ (l'.core? u).map (·.status) = some .destroyed := by
  have hRun : (tellDestroyed (Calls.upTo client (n + 1)) u).run l =
      (if l.statusOf u ≠ .destroyed then (do
          tell (Calls.upTo client (n + 1)) u .destroy
          endObserver u
          untrackMoves u)
        else pure () : LiveM κ σ Unit).run l := rfl
  unfold After
  rw [hRun]
  split
  · rename_i hStatus
    obtain ⟨target, hTell⟩ := hu.tell_run (Calls.upTo client (n + 1)) .destroy
    rw [h.hooksFor_destroy hu hStatus] at hTell
    have hRest : ∀ l₁, Maintained π P l₁ → Razed l l₁ → ∀ hooks : List (Hook κ),
        (∀ hook ∈ hooks, hook ∈ sink.release.map (·.2)) → ∃ l₂, Maintained π P l₂ ∧ Razed l l₂ ∧
          ((runHooks (Calls.upTo client (n + 1)) { kind := .destroy, target }
            (hooks ++ [.endBinding u])).run l₁).2 = ((endBinding u).run l₂).2 := by
      intro l₁ h₁ hRazed hooks hIn
      induction hooks generalizing l₁ with
      | nil =>
        refine ⟨l₁, h₁, hRazed, ?_⟩
        rw [List.nil_append, runHooks_cons rfl]
        rfl
      | cons hook hooks ih =>
        rw [List.cons_append, runHooks_cons rfl]
        obtain ⟨hFirst, hIn⟩ := List.forall_mem_cons.mp hIn
        have hu₁ := (hRazed.follower _ _ _ _).mpr hu
        obtain ⟨h₂, hRazed₂⟩ := release_razes hRazes h₁ hu₁ (hRazed.dom ▸ hDying)
          (hRazed.dom ▸ hCap) (fun w t sink q hw hw' => by
            rw [hRazed.dom]
            exact hShowing w t sink q ((hRazed.follower w t sink q).mp hw) hw') hFirst
              { kind := .destroy, target }
        exact ih _ h₂ (hRazed.trans hRazed₂) hIn
    obtain ⟨l₂, h₂, hRazed₂, hEq⟩ := hRest l h (.refl l) _ fun _ => id
    have hEnd := end_razes h₂ ((hRazed₂.follower _ _ _ _).mpr hu) (hRazed₂.dom ▸ hDying)
    have hAll : ((do
        tell (Calls.upTo client (n + 1)) u .destroy
        endObserver u
        untrackMoves u : LiveM κ σ Unit).run l).2 = ((do
          endBinding u
          endObserver u
          untrackMoves u : LiveM κ σ Unit).run l₂).2 := by
      have hLeft : ((do
          tell (Calls.upTo client (n + 1)) u .destroy
          endObserver u
          untrackMoves u : LiveM κ σ Unit).run l).2 = ((do
            endObserver u
            untrackMoves u : LiveM κ σ Unit).run
              ((tell (Calls.upTo client (n + 1)) u .destroy).run l).2).2 := rfl
      rw [hLeft, hTell, hEq]
      rfl
    rw [hAll]
    exact ⟨hEnd.1, hRazed₂.trans hEnd.2.1, hEnd.2.2⟩
  · rename_i hStatus
    rw [not_not] at hStatus
    obtain ⟨y, hy, -⟩ := hu.exists_core
    refine ⟨h, .refl l, ?_⟩
    change (l.core? u).map _ = _
    rw [hy, Option.map_some, ← statusOf_eq hy, hStatus]

/-- When all followers in what is dying have ended, all of it is dead. -/
theorem Maintained.buried {T : Table Tracked} {E : Table (Extras κ)}
    (h : Maintained π (P.doom l.dom x) l) (hx : l.dom.Known x)
    (hTracked : ∀ n, (l.renoted T E).trackedOf n =
      if n ∈ l.dom.subtree x then { state := some .destroyed } else l.trackedOf n)
    (hEnded : ∀ u s sink r, Keeper l u s sink r → l.dom.Below x r →
      l.statusOf u = .destroyed) : Maintained π P (l.renoted T E) := by
  have hSound := h.rooted.sound
  have hIn : ∀ q, l.dom.Known q → (l.dom.key q ∈ l.dom.subtree x ↔ l.dom.Below x q) := fun q hq =>
    (hSound.key_mem_subtree hx hq).trans (hSound.inside_iff_below hx hq)
  have hState : ∀ n, (l.trackedOf n).state = some .destroyed →
      ((l.renoted T E).trackedOf n).state = some .destroyed := fun n hn => by
    rw [hTracked]
    split
    · rfl
    · exact hn
  have hDead : ∀ q, l.dom.Known q → (Dead P.dying (l.renoted T E).trackedOf (l.dom.key q) ↔
      Dead (P.doom l.dom x).dying l.trackedOf (l.dom.key q)) := by
    intro q hq
    constructor
    · rintro (hDying | hDestroyed)
      · exact .inl (.inl hDying)
      · rw [hTracked] at hDestroyed
        split at hDestroyed
        · rename_i hMem
          exact .inl (.inr ⟨q, (hIn q hq).mp hMem, rfl⟩)
        · exact .inr hDestroyed
    · rintro ((hDying | ⟨q', hq', hKey⟩) | hDestroyed)
      · exact .inl hDying
      · refine .inr ?_
        rw [hTracked, if_pos]
        obtain rfl := hSound.key_inj hq (hSound.known_of_below hx hq') hKey
        exact (hIn q hq).mpr hq'
      · exact .inr (hState _ hDestroyed)
  have hGraves : Graves P.dying l.dom (l.renoted T E).trackedOf l.document := by
    refine ⟨fun n => ?_, fun p r hp hr hd => ?_, fun p r hp hr hd => ?_, ?_, fun n hn => ?_,
      fun q hq hd => ?_⟩
    · rw [hTracked]
      split
      · exact .inr (.inl rfl)
      · rename_i hNot
        refine (h.graves.state n).imp_right (Or.imp_right fun ⟨hDestroying, hd⟩ =>
          ⟨hDestroying, hd.resolve_right ?_⟩)
        rintro ⟨q, hq, rfl⟩
        exact hNot ((hIn q (hSound.known_of_below hx hq)).mpr hq)
    · exact (hDead p hp).mpr (h.graves.up p r hp hr
        ((hDead r (hSound.known_of_mem_kin hp hr)).mp hd))
    · exact (hDead r (hSound.known_of_mem_kin hp hr)).mpr (h.graves.down p r hp hr
        ((hDead p hp).mp hd))
    · exact mt (hDead (.node l.document) h.known_document).mp h.graves.top
    · rw [hTracked, if_neg]
      · exact ⟨(h.graves.fresh n hn).1, fun hd => (h.graves.fresh n hn).2 (.inl hd)⟩
      · intro hMem
        exact absurd (hSound.lt_size_of_inside hx ((hSound.mem_subtree hx).mp hMem).1)
          (Nat.not_lt.mpr hn)
    · refine (h.graves.noted q hq (.inl hd)).imp_right fun hNe => ?_
      rw [hTracked]
      split
      · exact Option.some_ne_none _
      · exact hNe
  change Maintained π { P.doom l.dom x with dying := P.dying } _
  refine h.renoted (fun n hn => ?_) hState (fun n u hn => ?_)
    (fun n hn => ?_) hGraves (fun u s sink r hu hNot hd => ?_) fun u s sink r n hu hAlive hn => ?_
  · rcases hn with (hDying | ⟨q, hq, rfl⟩) | hDestroyed
    · exact .inl hDying
    · refine .inr ?_
      rw [hTracked, if_pos ((hIn q (hSound.known_of_below hx hq)).mpr hq)]
    · exact .inr (hState n hDestroyed)
  · rw [hTracked] at hn
    split at hn
    · cases hn
    · exact hn
  · rw [hTracked]
    split
    · rename_i hMem
      refine absurd (.inr ?_) hn
      rw [hTracked, if_pos hMem]
    · rfl
  · have hr := h.rigs.known u s sink r hu
    by_cases hBelow : l.dom.Below x r
    · exact hEnded u s sink r hu hBelow
    · refine h.rigs.dead u s sink r hu ?_ ((hDead r hr).mp hd)
      rintro (hDying | ⟨q, hq, hKey⟩)
      · exact hNot hDying
      · obtain rfl := hSound.key_inj hr (hSound.known_of_below hx hq) hKey
        exact hBelow hq
  · have hn' := (h.shelves.known u s sink r n hu hn).1
    rw [hDead r (h.rigs.known u s sink r hu)] at hAlive
    rw [hDead n hn']
    exact h.shelves.alive u s sink r n hu hAlive hn

/-- Destroying, when calls are nested deep enough. -/
theorem destroy_razes (client : Client κ σ) : ∀ n, Razes client n
  | 0 => fun _ _ _ _ _ _ _ _ hCap => absurd hCap (Nat.not_lt_zero _)
  | n + 1 => by
    intro π P l x h hx hState hFree hCap hShowing
    have hAlive := (h.of_detached hx hState).2.2.2
    have hMem := fun u => h.mem_observersIn (u := u) hx hAlive
    have hDoomed := h.doomed hx hState hFree
    have hRazed : Razed l (l.doomed x) := razed_renoted fun m hm => by
      change ((l.doomed x).trackedOf m).state = _
      rw [trackedOf_doomed, if_neg]
      · exact hm
      · rintro rfl
        rw [(h.of_detached hx hState).2.1] at hm
        cases hm
    have hObservers : (l.doomed x).observersIn x = l.observersIn x := by
      have hDom : (l.doomed x).dom = l.dom := rfl
      refine observersIn_congr hDom (fun m => ?_) x
      rw [trackedOf_doomed]
      split
      · rename_i hEq
        rw [hEq]
      · rfl
    unfold destroy
    refine After.ensureLive (fun hTorn => ?_) fun _ => ?_
    · rw [h.running] at hTorn
      cases hTorn
    refine After.needState (fun hNot => absurd hState hNot) fun _ => ?_
    refine After.sure_run (t := l.doomed x) rfl ?_
    refine After.get_act ?_
    rw [hObservers]
    refine After.act_bind (After.forM_sure (After.forM (k := fun os l₁ =>
      (∀ o ∈ os, o ∈ l.observersIn x) ∧ Maintained π (P.doom l.dom x) l₁ ∧ Razed l l₁ ∧
        ∀ o ∈ l.observersIn x, o ∈ os ∨ (l₁.core? o).map (·.status) = some .destroyed)
      ⟨fun o ho => List.mem_reverse.mp ho, hDoomed, hRazed,
        fun o ho => .inl (List.mem_reverse.mpr ho)⟩ ?_)) ?_ ?_
    · rintro o rest l₁ ⟨hIn, h₁, hRazed₁, hTold⟩
      obtain ⟨s, sink, q, hu, hBelow⟩ := (hMem o).mp (hIn o List.mem_cons_self)
      obtain ⟨hLe, hLess⟩ := h.edge_of_below hx hBelow
      refine (tellDestroyed_razes (destroy_razes client n) h₁ ((hRazed₁.follower _ _ _ _).mpr hu)
        ?_ ?_ fun w t sink' q' hw hw' => ?_).mono fun _ l₂ ⟨h₂, hRazed₂, hStatus⟩ =>
          ⟨fun o' ho' => hIn o' (List.mem_cons_of_mem _ ho'), h₂, hRazed₁.trans hRazed₂,
            fun o' ho' => ?_⟩
      · rw [hRazed₁.dom]
        exact .inr ⟨q, hBelow, rfl⟩
      · rw [hRazed₁.dom]
        omega
      · rw [hRazed₁.dom]
        exact Nat.lt_of_lt_of_le
          (hShowing w t sink' q' ((hRazed₁.follower _ _ _ _).mp hw) hw') hLe
      · rcases hTold o' ho' with hLeft | hEnded
        · rcases List.mem_cons.mp hLeft with rfl | hRest
          · exact .inr hStatus
          · exact .inl hRest
        · exact .inr (hRazed₂.lasts.ended o' hEnded)
    · rintro _ l₂ ⟨-, -, h₂, hRazed₂, hTold⟩
      refine After.get_act ?_
      rw [hRazed₂.dom]
      obtain ⟨T, E, hRun⟩ := bury_all_tables l₂ (l.dom.subtree x)
      have hTracked := bury_all l₂ (l.dom.subtree x)
      rw [After, hRun] at hTracked
      obtain ⟨-, -, -, -, -, hTracked⟩ := hTracked
      change ∀ m, (l₂.renoted T E).trackedOf m = _ at hTracked
      refine (After.forM_sure (m := fun l₃ => l₃ = l₂.renoted T E) hRun).mono ?_
      rintro out l₃ ⟨hOut, rfl⟩
      have hBuried : Maintained π P (l₂.renoted T E) := by
        refine Maintained.buried (by rw [hRazed₂.dom]; exact h₂) (hRazed₂.dom ▸ hx)
          (by rw [hRazed₂.dom]; exact hTracked) fun u s sink r hu hBelow => ?_
        rw [hRazed₂.dom] at hBelow
        have ho := (hMem u).mpr ⟨s, sink, r, (hRazed₂.follower _ _ _ _).mp hu, hBelow⟩
        have hStatus := (hTold u ho).resolve_left List.not_mem_nil
        obtain ⟨y, hy, hEq⟩ := Option.map_eq_some_iff.mp hStatus
        rw [statusOf_eq hy, hEq]
      refine ⟨hOut, hBuried, hRazed₂.trans (razed_renoted fun m hm => ?_), ?_⟩
      · rw [hTracked]
        split
        · rfl
        · exact hm
      · rw [hTracked, if_pos ((h.rooted.sound.key_mem_subtree hx hx).mpr
          (h.rooted.sound.inside_of_below hx .self))]
    · rintro e l₂ ⟨hEq, -⟩
      cases hEq

end LiveMarkup.Live
