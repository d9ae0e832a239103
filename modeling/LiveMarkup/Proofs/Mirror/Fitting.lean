import LiveMarkup.Proofs.Live.Bound
import LiveMarkup.Proofs.Mirror.Growing
import LiveMarkup.Proofs.Mirror.Restocking

/-!
# One more follower

A follower is made for a node or container that is new, too: nobody keeps it, it stands nowhere and
holds nothing. It is not told anything before the node or container comes to reach the document.

The operations that make a follower: an observer for what is not connected, hooks on it, and a
binding. All that render an instruction that reads a signal do it in the same way.

* `Fitted`: what making a follower changes;
* `Maintained.fitted`: a document that is kept up to date stays so;
* `Stationed`: an observer was made, with hooks;
* `Stationed.fitted`: with the binding, it makes one more follower.
-/

namespace LiveMarkup.Live

variable {κ σ : Type} {π : Plan} {P : Pending} {l l' : Live κ σ}
variable {u w : BindingId} {s t : SignalId} {sink sink' : Sink κ} {r q : NodeRef}

/-- What was there stays in its place, and what is new meets a condition. -/
structure Joins {α : Type} (xs ys : Array α) (new : Nat → α → Prop) : Prop where
  old : ∀ (i : Nat) (x : α), xs[i]? = some x → ys[i]? = some x
  cases : ∀ (i : Nat) (y : α), ys[i]? = some y → xs[i]? = some y ∨ xs[i]? = none ∧ new i y

/-- One more follower, which is told nothing yet, keeps a node or container up to date. -/
structure Fitted (l l' : Live κ σ) (s : SignalId) (sink : Sink κ) (r : NodeRef) : Prop where
  tornDown : l'.tornDown = l.tornDown
  document : l'.document = l.document
  dom : l'.dom = l.dom
  signals : l'.signals = l.signals
  clock : l'.clock = l.clock
  tracked : ∀ n, l'.trackedOf n =
    if n = l.dom.key r then { observer := some l.subscriptions.size } else l.trackedOf n
  observers_size : l'.observers.size = l.observers.size + 1
  core : ∀ o, o ≠ l.subscriptions.size → l'.core? o = l.core? o
  own : ∃ hooks : List (Observer.Entry κ),
    l'.core? l.subscriptions.size = some ⟨r, .disconnected, hooks⟩ ∧
      hooks.map (fun e => (e.kind, e.hook)) = sink.rigging l.subscriptions.size
  subscriptions : l'.subscriptions = l.subscriptions.push ⟨.signal s sink, none⟩
  bindings : ∃ held, l'.bindings = l.bindings.push ⟨l.subscriptions.size, false, held⟩
  projector : Joins l.projectors l'.projectors fun p x =>
    sink = .projector p ∧ ∃ n, r = .node n ∧ x = ⟨n, .text⟩
  conditional : Joins l.conditionals l'.conditionals fun c x =>
    sink = .conditional c ∧ r = .container x.box ∧ x.child = none ∧ x.visible = false
  switch : Joins l.switches l'.switches fun c x =>
    sink = .switch c ∧ r = .container x.box ∧ x.built = [] ∧ x.active = none
  series : Joins l.series l'.series fun c x =>
    sink = .series c ∧ r = .container x.box ∧ x.items = []
  fresh : ∀ q, ¬ sink.Hosts l q
  hosts : sink.Hosts l' r

namespace Fitted

variable (h : Fitted l l' s sink r)
include h

theorem hosts_old (hHosts : sink'.Hosts l q) : sink'.Hosts l' q := by
  cases sink' with
  | projector p =>
    obtain ⟨n, rfl, hn⟩ := hHosts
    exact ⟨n, rfl, h.projector.old p _ hn⟩
  | conditional c =>
    obtain ⟨x, hx, rfl⟩ := hHosts
    exact ⟨x, h.conditional.old c x hx, rfl⟩
  | switch c =>
    obtain ⟨x, hx, rfl⟩ := hHosts
    exact ⟨x, h.switch.old c x hx, rfl⟩
  | series c =>
    obtain ⟨x, hx, rfl⟩ := hHosts
    exact ⟨x, h.series.old c x hx, rfl⟩
  | derived _ _ => exact hHosts
  | client _ => exact hHosts

theorem subscription_old (hu : u < l.subscriptions.size) :
    l'.subscriptions[u]? = l.subscriptions[u]? := by
  rw [h.subscriptions, Array.getElem?_push, if_neg (Nat.ne_of_lt hu)]

theorem subscription_new :
    l'.subscriptions[l.subscriptions.size]? = some ⟨.signal s sink, none⟩ := by
  rw [h.subscriptions, Array.getElem?_push, if_pos rfl]

theorem follower_iff (hRigs : Rigs π P l) : Keeper l' w t sink' q ↔ Keeper l w t sink' q ∨
    w = l.subscriptions.size ∧ t = s ∧ sink' = sink ∧ q = r := by
  constructor
  · rintro ⟨⟨registered, hSub⟩, hTarget, hHosts⟩
    rw [h.subscriptions] at hSub
    rcases getElem?_push_cases hSub with hOld | ⟨rfl, hEq⟩
    · have hLt := (Array.getElem?_eq_some_iff.mp hOld).1
      obtain ⟨t₀, sink₀, q₀, hw⟩ := hRigs.follower w hLt
      obtain ⟨⟨_, hSub₀⟩, -, hHosts₀⟩ := id hw
      rw [hOld] at hSub₀
      simp only [Option.some.injEq, Subscription.mk.injEq, Feed.signal.injEq] at hSub₀
      obtain ⟨⟨rfl, rfl⟩, -⟩ := hSub₀
      obtain rfl := (h.hosts_old hHosts₀).unique hHosts
      exact .inl hw
    · simp only [Subscription.mk.injEq, Feed.signal.injEq] at hEq
      obtain ⟨⟨rfl, rfl⟩, -⟩ := hEq
      obtain ⟨hooks, hCore, -⟩ := h.own
      rw [hCore] at hTarget
      exact .inr ⟨rfl, rfl, rfl, (Option.some.inj hTarget).symm⟩
  · rintro (hw | ⟨rfl, rfl, rfl, rfl⟩)
    · have hLt := hw.lt_size
      obtain ⟨⟨registered, hSub⟩, hTarget, hHosts⟩ := hw
      refine ⟨⟨registered, ?_⟩, ?_, h.hosts_old hHosts⟩
      · rw [h.subscription_old hLt, hSub]
      · rw [h.core w (Nat.ne_of_lt hLt), hTarget]
    · obtain ⟨hooks, hCore, -⟩ := h.own
      refine ⟨⟨none, h.subscription_new⟩, ?_, h.hosts⟩
      rw [hCore]
      rfl

theorem lasts (hRigs : Rigs π P l) (hNew : (l.trackedOf (l.dom.key r)).state = none) :
    Endures (fun q => r = q) l l' where
  known q hq := by
    rw [h.dom]
    exact hq
  key q _ := by rw [h.dom]
  label n _ _ _ := by rw [h.dom]
  kin n _ _ _ := by rw [h.dom]
  box c _ hNone hNe := by
    refine ⟨by rw [h.dom], fun w t sink' hw => ?_⟩
    rcases (h.follower_iff hRigs).mp hw with hOld | ⟨-, -, -, hEq⟩
    · exact hNone w t sink' hOld
    · exact hNe hEq.symm
  feed u feed hFeed := by
    obtain ⟨x, hx, -⟩ := Option.map_eq_some_iff.mp hFeed
    rw [h.subscription_old (Array.getElem?_eq_some_iff.mp hx).1, hFeed]
  target o q hTarget := by
    rw [h.core o, hTarget]
    rintro rfl
    rw [← hRigs.observers_size, core?_size] at hTarget
    cases hTarget
  projector p x hx := h.projector.old p x hx
  text x hx := by
    obtain ⟨p, hp⟩ := Array.mem_iff_getElem?.mp hx
    rcases h.projector.cases p x hp with hOld | ⟨-, -, n, hr, rfl⟩
    · exact .inl (Array.mem_iff_getElem?.mpr ⟨p, hOld⟩)
    · exact .inr (.inr hr)
  conditional c x hx := ⟨x, h.conditional.old c x hx, rfl, rfl⟩
  switch c x hx := ⟨x, h.switch.old c x hx, rfl, rfl, rfl⟩
  series c x hx := ⟨x, h.series.old c x hx, rfl, rfl⟩
  derives t d f := fun ⟨n, hn⟩ => ⟨n, by rwa [watchersOf, signal?, h.signals]⟩
  ended o ho := by
    rw [h.core o, ho]
    rintro rfl
    rw [← hRigs.observers_size, core?_size] at ho
    cases ho
  buried n hn := by
    rw [h.tracked, if_neg, hn]
    rintro rfl
    rw [hNew] at hn
    cases hn
  signals_size := Nat.le_of_eq (by rw [h.signals])
  subscriptions_size := by
    rw [h.subscriptions, Array.size_push]
    exact Nat.le_succ _
  nodes_size := Nat.le_of_eq (by rw [h.dom])

/-! ### What was there -/

theorem same_old (hHosts : sink'.Hosts l q) : sink'.Same l l' := by
  cases sink' with
  | projector p =>
    obtain ⟨n, -, hn⟩ := hHosts
    exact (h.projector.old p _ hn).trans hn.symm
  | conditional c =>
    obtain ⟨x, hx, -⟩ := hHosts
    exact (h.conditional.old c x hx).trans hx.symm
  | switch c =>
    obtain ⟨x, hx, -⟩ := hHosts
    exact (h.switch.old c x hx).trans hx.symm
  | series c =>
    obtain ⟨x, hx, -⟩ := hHosts
    exact (h.series.old c x hx).trans hx.symm
  | derived _ _ => trivial
  | client _ => trivial

theorem valueOf (t : SignalId) : l'.valueOf t = l.valueOf t := by
  rw [Live.valueOf, signal?, h.signals]
  rfl

/-! ### What is new -/

theorem bare_new : sink.stock l' [] = [] ∧ sink.shown l' none none = [] := by
  have hHosts := h.hosts
  cases sink with
  | conditional c =>
    obtain ⟨x, hx, rfl⟩ := hHosts
    rcases h.conditional.cases c x hx with hOld | ⟨-, -, -, hChild, hVisible⟩
    · exact absurd ⟨x, hOld, rfl⟩ (h.fresh _)
    · simp [Sink.stock, Sink.shown, hx, hChild, hVisible]
  | switch c =>
    obtain ⟨x, hx, rfl⟩ := hHosts
    rcases h.switch.cases c x hx with hOld | ⟨-, -, -, hBuilt, hActive⟩
    · exact absurd ⟨x, hOld, rfl⟩ (h.fresh _)
    · simp [Sink.stock, Sink.shown, hx, hBuilt, hActive]
  | series c =>
    obtain ⟨x, hx, rfl⟩ := hHosts
    rcases h.series.cases c x hx with hOld | ⟨-, -, -, hItems⟩
    · exact absurd ⟨x, hOld, rfl⟩ (h.fresh _)
    · simp [Sink.stock, Sink.shown, hx, hItems]
  | projector _ => exact ⟨rfl, rfl⟩
  | derived _ _ => exact ⟨rfl, rfl⟩
  | client _ => exact ⟨rfl, rfl⟩

end Fitted

/-! ## The document -/

theorem Rigs.bindings_size (h : Rigs π P l) : l.bindings.size = l.subscriptions.size := by
  rcases Nat.lt_trichotomy l.bindings.size l.subscriptions.size with hLt | hEq | hGt
  · have hNone := h.binding l.bindings.size
    rw [if_pos hLt, Array.getElem?_eq_none (Nat.le_refl _)] at hNone
    cases hNone
  · exact hEq
  · have hSome := h.binding l.subscriptions.size
    rw [if_neg (Nat.lt_irrefl _), Array.getElem?_eq_getElem hGt] at hSome
    cases hSome

section Document

variable (h : Maintained π P l) (hF : Fitted l l' s sink r) (hr : l.dom.Known r)
variable (hReads : s < l.signals.size ∧ (π.role s).owner ≤ l.subscriptions.size ∧
  π.cap (l.dom.key r) < (π.role s).room)
variable (hYoung : ∀ w t sink' q, Keeper l w t sink' q → l.dom.key q < l.dom.key r)
variable (hText : ∀ p n, sink = .projector p → r = .node n → ∃ text, l.dom.label n = .text text)
variable (hNew : l.trackedOf (l.dom.key r) = {}) (hKin : l.dom.kin r = [])
variable (hOff : l.dom.isPlaced r = false) (hNe : r ≠ .node l.document) (hFree : Free P l r)
variable (hAble : sink.Able π l' l.subscriptions.size (π.cap (l.dom.key r)))
variable (hIdle : P.hand l.subscriptions.size = [] ∧ P.row l.subscriptions.size = none ∧
  P.showing l.subscriptions.size = none)

include hF hNew in
theorem Fitted.state (n : NodeId) : (l'.trackedOf n).state = (l.trackedOf n).state := by
  rw [hF.tracked]
  split
  · subst_vars
    rw [hNew]
  · rfl

include hF hNew in
theorem Fitted.dead_iff (n : NodeId) :
    Dead P.dying l'.trackedOf n ↔ Dead P.dying l.trackedOf n := by
  rw [Dead, Dead, hF.state hNew]

include hF in
theorem Fitted.status_old (hw : w < l.subscriptions.size) : l'.statusOf w = l.statusOf w := by
  rw [statusOf_core, statusOf_core, hF.core w (Nat.ne_of_lt hw)]

include hF in
theorem Fitted.status_new : l'.statusOf l.subscriptions.size = .disconnected := by
  obtain ⟨hooks, hCore, -⟩ := hF.own
  exact statusOf_eq hCore

include hF in
theorem Fitted.isActive_old (hw : w < l.subscriptions.size) : l'.isActive w = l.isActive w := by
  rw [isActive, isActive, subscription?, subscription?, hF.subscription_old hw]

include h hF hr hReads hYoung hText hNew in
theorem Fitted.rigs : Rigs π P l' := by
  have hRigs := h.rigs
  have hLast : ∀ {w t sink' q}, Keeper l w t sink' q → w < l.subscriptions.size :=
    fun hw => hw.lt_size
  obtain ⟨hooks, hOwn, hHooks⟩ := hF.own
  obtain ⟨held, hBindings⟩ := hF.bindings
  have hSize : l'.subscriptions.size = l.subscriptions.size + 1 := by
    rw [hF.subscriptions, Array.size_push]
  constructor
  · rw [hF.observers_size, hRigs.observers_size, hSize]
  · intro w
    rw [hBindings, Array.getElem?_push, hSize, hRigs.bindings_size]
    split
    · subst_vars
      rw [if_pos (Nat.lt_succ_self _)]
      rfl
    · rename_i hw
      rw [hRigs.binding w]
      by_cases hLt : w < l.subscriptions.size
      · rw [if_pos hLt, if_pos (Nat.lt_succ_of_lt hLt)]
      · rw [if_neg hLt, if_neg (by omega)]
  · intro w hw
    rw [hSize] at hw
    rcases Nat.lt_succ_iff_lt_or_eq.mp hw with hLt | rfl
    · obtain ⟨t, sink', q, hOld⟩ := hRigs.follower w hLt
      exact ⟨t, sink', q, (hF.follower_iff hRigs).mpr (.inl hOld)⟩
    · exact ⟨s, sink, r, (hF.follower_iff hRigs).mpr (.inr ⟨rfl, rfl, rfl, rfl⟩)⟩
  · intro w t sink' q hw
    rw [hF.dom]
    rcases (hF.follower_iff hRigs).mp hw with hOld | ⟨-, -, -, rfl⟩
    · exact hRigs.known w t sink' q hOld
    · exact hr
  · intro x hx
    rw [hF.dom]
    obtain ⟨p, hp⟩ := Array.mem_iff_getElem?.mp hx
    rcases hF.projector.cases p x hp with hOld | ⟨-, -, n, rfl, rfl⟩
    · exact hRigs.writes x (Array.mem_iff_getElem?.mpr ⟨p, hOld⟩)
    · exact hr
  · intro w t sink' q hw
    rw [hF.dom, hF.signals]
    rcases (hF.follower_iff hRigs).mp hw with hOld | ⟨rfl, rfl, rfl, rfl⟩
    · exact hRigs.reads w t sink' q hOld
    · exact hReads
  · intro w t sink' q w' t' sink'' q' hw hw' hLt
    rw [hF.dom]
    rcases (hF.follower_iff hRigs).mp hw with hOld | ⟨rfl, rfl, rfl, rfl⟩
    · rcases (hF.follower_iff hRigs).mp hw' with hOld' | ⟨rfl, rfl, rfl, rfl⟩
      · exact hRigs.rising _ _ _ _ _ _ _ _ hOld hOld' hLt
      · exact hYoung _ _ _ _ hOld
    · rcases (hF.follower_iff hRigs).mp hw' with hOld' | ⟨rfl, -⟩
      · exact absurd (hLast hOld') (Nat.not_lt.mpr (Nat.le_of_lt hLt))
      · exact absurd hLt (Nat.lt_irrefl _)
  · intro w t p n hw
    rw [hF.dom]
    rcases (hF.follower_iff hRigs).mp hw with hOld | ⟨-, -, hSink, hNode⟩
    · exact hRigs.text w t p n hOld
    · exact hText p n hSink.symm hNode.symm
  · intro w t sink' q hw hAlive
    rw [hF.dom, hF.dead_iff hNew] at hAlive
    rw [hF.dom, hF.tracked]
    rcases (hF.follower_iff hRigs).mp hw with hOld | ⟨rfl, rfl, rfl, rfl⟩
    · rw [hF.status_old (hLast hOld), if_neg (Nat.ne_of_lt (hYoung _ _ _ _ hOld))]
      exact hRigs.alive w t sink' q hOld hAlive
    · rw [hF.status_new, if_pos rfl]
      exact ⟨by decide, rfl⟩
  · intro w t sink' q hw hNot hDead
    rw [hF.dom] at hNot hDead
    rw [hF.dead_iff hNew] at hDead
    rcases (hF.follower_iff hRigs).mp hw with hOld | ⟨rfl, rfl, rfl, rfl⟩
    · rw [hF.status_old (hLast hOld)]
      exact hRigs.dead w t sink' q hOld hNot hDead
    · rcases hDead with hDying | hState
      · exact absurd hDying hNot
      · rw [hNew] at hState
        cases hState
  · intro n w hn
    rw [hF.tracked] at hn
    rw [hF.dom]
    split at hn
    · subst_vars
      cases hn
      exact ⟨s, sink, r, (hF.follower_iff hRigs).mpr (.inr ⟨rfl, rfl, rfl, rfl⟩), rfl⟩
    · obtain ⟨t, sink', q, hOld, hKey⟩ := hRigs.tracked n w hn
      exact ⟨t, sink', q, (hF.follower_iff hRigs).mpr (.inl hOld), hKey⟩
  · intro w t sink' q x hw hx hStatus
    rw [isBindingDestroyed, binding?, hBindings]
    rcases (hF.follower_iff hRigs).mp hw with hOld | ⟨rfl, rfl, rfl, rfl⟩
    · have hLt := hLast hOld
      rw [hF.core w (Nat.ne_of_lt hLt)] at hx
      rw [Array.getElem?_push, if_neg (Nat.ne_of_lt (hRigs.bindings_size ▸ hLt))]
      exact hRigs.hooks w t sink' q x hOld hx hStatus
    · rw [hOwn] at hx
      cases hx
      rw [← hRigs.bindings_size, Array.getElem?_push, if_pos rfl]
      exact ⟨by rw [hHooks, hRigs.bindings_size], rfl⟩
  · intro w hw
    by_cases hEq : w = l.subscriptions.size
    · subst hEq
      rw [isActive, subscription?, hF.subscription_new]
      rfl
    · rw [isActive, subscription?, hF.subscriptions, Array.getElem?_push, if_neg hEq]
      rw [statusOf_core, hF.core w hEq, ← statusOf_core] at hw
      exact hRigs.asleep w hw
  · intro w t sink' q hw hOn
    rw [hF.dom]
    rcases (hF.follower_iff hRigs).mp hw with hOld | ⟨rfl, rfl, rfl, rfl⟩
    · rw [hF.status_old (hLast hOld)] at hOn
      rw [hF.isActive_old (hLast hOld)]
      exact hRigs.awake w t sink' q hOld hOn
    · rw [hF.status_new] at hOn
      cases hOn

/-- Nothing that a follower keeps holds the new node or container. -/
theorem Maintained.out_of_stock (h : Maintained π P l) (hr : l.dom.Known r)
    (hOff : l.dom.isPlaced r = false) (hFree : Free P l r) (hw : Keeper l w t sink' q)
    {x : NodeRef} (hx : x ∈ sink'.stock l (P.hand w)) :
    ∀ n, l.dom.Below x (.node n) → ¬ r = .node n := by
  rintro n hBelow rfl
  have hSound := h.rooted.sound
  have hKnown := (h.shelves.known w t sink' q x hw hx).1
  cases hBelow with
  | self => exact hFree w t sink' q hw hx
  | kin hp hIn =>
    have hOn := hSound.isPlaced_of_mem_kin (hSound.known_of_below hKnown hp) hIn
    rw [hOff] at hOn
    cases hOn

include h hF hr hYoung hNew hKin hOff hFree hAble hIdle in
theorem Fitted.shelves : Shelves π P l' := by
  have hRigs := h.rigs
  have hS := h.shelves
  have hLasts := hF.lasts hRigs (by rw [hNew])
  obtain ⟨hHand, hRow, hShowing⟩ := hIdle
  have hNone : ∀ n, n ∉ sink.stock l' (P.hand l.subscriptions.size) := fun n hn => by
    rw [hHand, hF.bare_new.1] at hn
    cases hn
  -- only old followers keep anything
  have hOldStock : ∀ {w t sink' q n}, Keeper l' w t sink' q → n ∈ sink'.stock l' (P.hand w) →
      Keeper l w t sink' q ∧ n ∈ sink'.stock l (P.hand w) := by
    intro w t sink' q n hw hn
    rcases (hF.follower_iff hRigs).mp hw with hOld | ⟨rfl, rfl, rfl, rfl⟩
    · exact ⟨hOld, (hF.same_old hOld.2.2).stock_eq _ ▸ hn⟩
    · exact absurd hn (hNone n)
  have hOut := fun {w t sink' q x} (hw : Keeper l w t sink' q) hx =>
    h.out_of_stock hr hOff hFree hw (x := x) hx
  have hSignals : l'.signals.size = l.signals.size := by rw [hF.signals]
  constructor
  · intro w t sink' q hw
    rw [hF.dom]
    rcases (hF.follower_iff hRigs).mp hw with hOld | ⟨rfl, rfl, rfl, rfl⟩
    · exact (hS.able w t sink' q hOld).congr (hF.same_old hOld.2.2) (Nat.le_of_eq hSignals.symm)
    · exact hAble
  · intro w t sink' q n hw hn
    rw [hF.dom]
    obtain ⟨hOld, hn⟩ := hOldStock hw hn
    exact hS.known w t sink' q n hOld hn
  · intro w t sink' q n hw hn
    rw [hF.dom]
    obtain ⟨hOld, hn⟩ := hOldStock hw hn
    exact hS.placed w t sink' q n hOld hn
  · intro w t sink' q w' t' sink'' q' n hw hw' hn hn'
    obtain ⟨hOld, hn⟩ := hOldStock hw hn
    obtain ⟨hOld', hn'⟩ := hOldStock hw' hn'
    exact hS.apart w t sink' q w' t' sink'' q' n hOld hOld' hn hn'
  · intro w t sink' c hw hAlive
    rw [hF.dom, hF.dead_iff hNew] at hAlive
    rw [hF.dom]
    rcases (hF.follower_iff hRigs).mp hw with hOld | ⟨rfl, rfl, rfl, rfl⟩
    · rw [(hF.same_old hOld.2.2).shown_eq]
      exact hS.shape w t sink' c hOld hAlive
    · rw [hShowing, hRow, hF.bare_new.2, hKin]
  · intro w t c q x n hw hx hn hAlive
    obtain ⟨hOld, hIn⟩ := hOldStock hw (n := n) (by
      rw [Sink.stock, hx, Option.bind_some, hn]
      exact List.mem_singleton_self _)
    rw [hF.dom, hF.dead_iff hNew] at hAlive
    replace hx := (hF.same_old hOld.2.2).symm.trans hx
    obtain ⟨body, scope, hosted, hFactory, hMade⟩ := hS.child w t c q x n hOld hx hn hAlive
    exact ⟨body, scope, hosted, hFactory, hLasts.made (hOut hOld hIn) hMade⟩
  · intro w t c q x arm n hw hx hn hAlive
    obtain ⟨hOld, hIn⟩ := hOldStock hw (n := n) (by
      rw [Sink.stock, hx]
      exact List.mem_map.mpr ⟨_, hn, rfl⟩)
    rw [hF.dom, hF.dead_iff hNew] at hAlive
    replace hx := (hF.same_old hOld.2.2).symm.trans hx
    obtain ⟨body, scope, hosted, hFactory, hMade⟩ := hS.arm w t c q x arm n hOld hx hn hAlive
    exact ⟨body, scope, hosted, hFactory, hLasts.made (hOut hOld hIn) hMade⟩
  · intro w t c q x item hw hx hItem hAlive
    obtain ⟨hOld, hIn⟩ := hOldStock hw (n := item.node) (by
      rw [Sink.stock, hx]
      exact List.mem_map.mpr ⟨_, hItem, rfl⟩)
    rw [hF.dom, hF.dead_iff hNew] at hAlive
    replace hx := (hF.same_old hOld.2.2).symm.trans hx
    exact (hS.item w t c q x item hOld hx hItem hAlive).lasts hLasts (hOut hOld hIn)
  · intro w t c q x item hw hx hItem
    obtain ⟨hOld, hIn⟩ := hOldStock hw (n := item.node) (by
      rw [Sink.stock, hx]
      exact List.mem_map.mpr ⟨_, hItem, rfl⟩)
    replace hx := (hF.same_old hOld.2.2).symm.trans hx
    rw [hF.dom, hSignals]
    exact hS.cursor w t c q x item hOld hx hItem
  · intro w t c q x hw hx
    rcases (hF.follower_iff hRigs).mp hw with hOld | ⟨rfl, rfl, rfl, rfl⟩
    · replace hx := (hF.same_old hOld.2.2).symm.trans hx
      exact hS.cursors w t c q x hOld hx
    · rcases hF.series.cases c x hx with hOld | ⟨-, -, -, hItems⟩
      · exact absurd ⟨x, hOld, rfl⟩ (hF.fresh _)
      · rw [hItems]
        exact List.nodup_nil
  · intro w t c q x hw hx
    rcases (hF.follower_iff hRigs).mp hw with hOld | ⟨rfl, rfl, rfl, rfl⟩
    · replace hx := (hF.same_old hOld.2.2).symm.trans hx
      exact hS.nodes w t c q x hOld hx
    · rcases hF.series.cases c x hx with hOld | ⟨-, -, -, hItems⟩
      · exact absurd ⟨x, hOld, rfl⟩ (hF.fresh _)
      · rw [hItems]
        exact List.nodup_nil
  · intro w t c q x hw hx hRow'
    rcases (hF.follower_iff hRigs).mp hw with hOld | ⟨rfl, rfl, rfl, rfl⟩
    · replace hx := (hF.same_old hOld.2.2).symm.trans hx
      exact hS.handed w t c q x hOld hx hRow'
    · rcases hF.series.cases c x hx with hOld | ⟨-, -, -, hItems⟩
      · exact absurd ⟨x, hOld, rfl⟩ (hF.fresh _)
      · exact hItems
  · intro w t sink' q n hw hAlive hn
    rw [hF.dom, hF.dead_iff hNew] at hAlive ⊢
    obtain ⟨hOld, hn⟩ := hOldStock hw hn
    exact hS.alive w t sink' q n hOld hAlive hn
  · intro w t c q x hw hx
    rcases (hF.follower_iff hRigs).mp hw with hOld | ⟨rfl, rfl, rfl, rfl⟩
    · replace hx := (hF.same_old hOld.2.2).symm.trans hx
      rw [hF.dom, hF.dead_iff hNew]
      exact hS.showing w t c q x hOld hx
    · rcases hF.switch.cases c x hx with hOld | ⟨-, -, -, -, hActive⟩
      · exact absurd ⟨x, hOld, rfl⟩ (hF.fresh _)
      · rw [hShowing, hActive]
        exact ⟨fun _ => rfl, fun _ _ hf => by cases hf⟩

include h hF hr hReads hYoung hText hNew hKin hOff hNe hFree hAble hIdle in
/-- A document that is kept up to date stays so with one more follower. -/
theorem Maintained.fitted : Maintained π P l' := by
  have hRigs := h.rigs
  have hSound := h.rooted.sound
  refine ⟨hF.tornDown.trans h.running, h.closed, ?_, ?_, ?_, ?_,
    hF.rigs h hr hReads hYoung hText hNew, hF.shelves h hr hYoung hNew hKin hOff hFree hAble hIdle,
    ?_, ?_⟩
  · rw [hF.dom, hF.document]
    exact h.rooted
  · have hG := h.graves
    rw [hF.dom, hF.document]
    refine ⟨fun n => ?_, fun p x hp hx => ?_, fun p x hp hx => ?_, ?_, fun n hn => ?_,
      fun x hx => ?_⟩
    · rw [hF.state hNew]
      exact hG.state n
    · rw [hF.dead_iff hNew, hF.dead_iff hNew]
      exact hG.up p x hp hx
    · rw [hF.dead_iff hNew, hF.dead_iff hNew]
      exact hG.down p x hp hx
    · rw [hF.dead_iff hNew]
      exact hG.top
    · rw [hF.tracked, if_neg]
      · exact hG.fresh n hn
      · rintro rfl
        exact absurd (hSound.key_lt_size hr) (Nat.not_lt.mpr hn)
    · rw [hF.state hNew]
      exact hG.noted x hx
  · rw [hF.signals]
    exact h.wires
  · rw [hF.signals]
    refine ⟨fun t g x hg hx => ?_, fun w t sink' n hSub => ?_⟩
    · rcases h.feeds.watcher t g x hg hx with hDerived | ⟨w, hSub⟩
      · exact .inl hDerived
      · refine .inr ⟨w, ?_⟩
        rw [hF.subscription_old (Array.getElem?_eq_some_iff.mp hSub).1, hSub]
    · rw [hF.subscriptions] at hSub
      rcases getElem?_push_cases hSub with hOld | ⟨-, hEq⟩
      · exact h.feeds.registered w t sink' n hOld
      · cases hEq
  · refine ⟨fun w t sink' q hw hBelow => ?_, fun w t sink' q hw hOn => ?_⟩
    · rw [hF.dom, hF.document] at hBelow
      rcases (hF.follower_iff hRigs).mp hw with hOld | ⟨rfl, rfl, rfl, rfl⟩
      · rw [hF.status_old hOld.lt_size]
        exact h.upkeep.told w t sink' q hOld hBelow
      · cases hBelow with
        | self => exact absurd rfl hNe
        | kin hp hIn =>
          have hOn := hSound.isPlaced_of_mem_kin
            (hSound.known_of_below h.known_document hp) hIn
          rw [hOff] at hOn
          cases hOn
    · rw [hF.dom, hF.valueOf]
      rcases (hF.follower_iff hRigs).mp hw with hOld | ⟨rfl, rfl, rfl, rfl⟩
      · rw [hF.status_old hOld.lt_size] at hOn
        exact (h.upkeep.current w t sink' q hOld hOn).imp_right (Or.imp_right (Or.imp_right
          fun hCurrent =>
          hCurrent.congr (hF.same_old hOld.2.2) (fun _ => by rw [hF.dom]) fun _ _ _ _ _ _ =>
            hF.valueOf _))
      · rw [hF.status_new] at hOn
        cases hOn
  · refine ⟨fun timer hTimer => ?_, by rw [hF.clock, h.alarms.microtask]⟩
    rw [hF.clock] at hTimer
    obtain ⟨c, w, t, q, hTask, hw⟩ := h.alarms.timer timer hTimer
    exact ⟨c, w, t, q, hTask, (hF.follower_iff hRigs).mpr (.inl hw)⟩

end Document

end LiveMarkup.Live

/-! ## Making followers -/

namespace LiveMarkup.Live

variable {κ σ : Type} {π : Plan} {P : Pending} {l l₁ l' : Live κ σ}
variable {s : SignalId} {sink : Sink κ} {r : NodeRef} {es : List (EventKind × Hook κ)}

/-! ### Observers -/

/-- An observer was made for a node or container that is not connected, with hooks on it. -/
def Stationed (l l' : Live κ σ) (r : NodeRef) (es : List (EventKind × Hook κ)) : Prop :=
  ∃ (x : Observer κ) (T : Table Tracked) (M : List ObserverId),
    x.target = r ∧ x.status = .disconnected ∧ x.hooks.map (fun e => (e.kind, e.hook)) = es ∧
      (∀ n, trackedOf { l with tracked := T } n = if n = l.dom.key r then
        { observer := some l.observers.size } else l.trackedOf n) ∧
        l' = { l with observers := l.observers.push x, tracked := T, movers := M }

theorem modify_push_size {α : Type} (xs : Array α) (x : α) (f : α → α) :
    (xs.push x).modify xs.size f = xs.push (f x) := by
  apply Array.ext_getElem?
  intro i
  rw [Array.getElem?_modify, Array.getElem?_push, Array.getElem?_push]
  by_cases hi : i = xs.size
  · subst hi
    simp
  · rw [if_neg (Ne.symm hi), if_neg hi, if_neg hi]

theorem observe_posted (hTorn : l.tornDown = false) (hState : l.stateOf r ≠ .destroyed)
    (hNew : l.trackedOf (l.dom.key r) = {}) (hOff : l.isConnected r = false) :
    After (observe r).run l fun out l' => out = .ok l.observers.size ∧ Stationed l l' r [] := by
  unfold observe
  refine After.ensureLive (fun h => by rw [hTorn] at h; cases h) fun _ => ?_
  refine After.get_act ?_
  rw [if_neg hState]
  dsimp only
  rw [hNew, hOff]
  refine after_sure.mpr ?_
  rw [if_neg Bool.false_ne_true]
  refine After.bind (m := fun o l₁ => o = l.observers.size ∧
    l₁ = { l with observers := l.observers.push { target := r, status := .disconnected } })
    ⟨rfl, rfl⟩ ?_
  rintro _ _ ⟨rfl, rfl⟩
  let T := l.tracked.set (l.dom.key r)
    (some { l.trackedOf (l.dom.key r) with observer := some l.observers.size })
  have hT : ∀ n, trackedOf { l with tracked := T } n = if n = l.dom.key r then
      { observer := some l.observers.size } else l.trackedOf n := fun n => by
    rw [show trackedOf { l with tracked := T } n = _ from trackedOf_set l (l.dom.key r) n _, hNew]
  refine After.bind (m := fun _ l₂ => l₂ = { l with
    observers := l.observers.push { target := r, status := .disconnected }, tracked := T }) rfl ?_
  rintro _ _ rfl
  unfold trackMoves
  rw [bind_assoc, after_bind, after_get]
  split
  · exact ⟨rfl, { target := r, status := .disconnected, lastSeen := l.dom.position r }, T,
      l.movers ++ [l.observers.size], rfl, rfl, rfl, hT, by
        rw [← modify_push_size l.observers { target := r, status := .disconnected } fun x =>
          { x with lastSeen := l.dom.position x.target }]
        rfl⟩
  · exact ⟨rfl, _, T, l.movers, rfl, rfl, rfl, hT, rfl⟩

namespace Stationed

/-- Observing again finds the observer. -/
theorem observe (h : Stationed l l₁ r es) (hTorn : l.tornDown = false)
    (hState : l₁.stateOf r ≠ .destroyed) :
    After (observe r).run l₁ fun out l' => out = .ok l.observers.size ∧ Stationed l l' r es := by
  obtain ⟨x, T, M, hTarget, hStatus, hHooks, hT, rfl⟩ := h
  unfold Live.observe
  refine After.ensureLive (fun h => by rw [show _ = l.tornDown from rfl, hTorn] at h; cases h)
    fun _ => ?_
  refine After.get_act ?_
  rw [if_neg hState]
  have hOwn := hT (l.dom.key r)
  rw [if_pos rfl] at hOwn
  have hObserver : (trackedOf { l with observers := l.observers.push x, tracked := T, movers := M }
    (l.dom.key r)).observer = some l.observers.size := by
      rw [show trackedOf { l with observers := l.observers.push x, tracked := T, movers := M }
        (l.dom.key r) = trackedOf { l with tracked := T } (l.dom.key r) from rfl, hOwn]
  dsimp only
  split
  · rename_i o ho
    cases hObserver.symm.trans ho
    refine ⟨rfl, x, T.set (l.dom.key r) (some (trackedOf { l with tracked := T } (l.dom.key r))), M,
      hTarget, hStatus, hHooks, fun n => ?_, rfl⟩
    refine (trackedOf_set { l with tracked := T } (l.dom.key r) n _).trans ?_
    split
    · exact hOwn
    · exact (hT n).trans (if_neg ‹_›)
  · rename_i hNone
    cases hObserver.symm.trans hNone

theorem hook (h : Stationed l l₁ r es) (kind : EventKind) (hook : Hook κ) :
    After (addHook l.observers.size kind hook) l₁ fun _ l' =>
      Stationed l l' r (es ++ [(kind, hook)]) := by
  obtain ⟨x, T, M, hTarget, hStatus, rfl, hT, rfl⟩ := h
  refine ⟨{ x with
      nextHook := x.nextHook + 1
      hooks := x.hooks ++ [⟨x.nextHook, kind, hook⟩] }, T, M, hTarget, hStatus, ?_, hT, ?_⟩
  · rw [List.map_append]
    rfl
  · have hLast : (l.observers.push x)[l.observers.size]? = some x := by
      rw [Array.getElem?_push, if_pos rfl]
    have hAlive : ¬ x.status = .destroyed := by
      rw [hStatus]
      decide
    change ({ l with
      observers := (l.observers.push x).modify l.observers.size fun y => { y with
        nextHook := (((l.observers.push x)[l.observers.size]?).map (·.nextHook)).getD 0 + 1
        hooks := if y.status = .destroyed then y.hooks
          else y.hooks ++ [⟨(((l.observers.push x)[l.observers.size]?).map (·.nextHook)).getD 0,
            kind, hook⟩] }
      tracked := T, movers := M } : Live κ σ) = _
    rw [modify_push_size, hLast, if_neg hAlive]
    rfl

theorem statusOf_new (h : Stationed l l₁ r es) : l₁.statusOf l.observers.size = .disconnected := by
  obtain ⟨x, T, M, -, hStatus, -, -, rfl⟩ := h
  rw [statusOf, observer?, Array.getElem?_push, if_pos rfl]
  exact hStatus

theorem withBinding (h : Stationed l l₁ r es) (feed : Feed κ) (held : Bool) :
    Stationed (l.withBinding feed held) (l₁.withBinding feed held) r es := by
  obtain ⟨x, T, M, hTarget, hStatus, hHooks, hT, rfl⟩ := h
  exact ⟨x, T, M, hTarget, hStatus, hHooks, hT, rfl⟩

/-- A binding switches with the new observer. It is off. -/
theorem bind {calls : Calls κ σ} {feed : Feed κ} {held : Bool}
    (h : After (Live.observe r).run l₁ fun out l₂ => out = .ok l.observers.size ∧
      Stationed l l₂ r es) :
    After (Live.bind calls r feed held).run l₁ fun out l' => out = .ok l.bindings.size ∧
      Stationed (l.withBinding feed held) l' r (es ++ [(.connect, .switchOn l.bindings.size),
        (.disconnect, .switchOff l.bindings.size), (.destroy, .endBinding l.bindings.size)]) := by
  unfold Live.bind
  refine h.act_ok fun l₂ hPosted => ?_
  refine After.get_act ?_
  rw [if_neg (by rw [hPosted.statusOf_new]; decide)]
  have hBindings : l₂.bindings.size = l.bindings.size := by
    obtain ⟨x, T, M, -, -, -, -, rfl⟩ := hPosted
    rfl
  have hBound := hPosted.withBinding feed held
  refine after_sure.mpr ?_
  refine After.bind (m := fun b l₃ => b = l₂.subscriptions.size ∧
    l₃ = { l₂ with subscriptions := l₂.subscriptions.push { feed } }) ⟨rfl, rfl⟩ ?_
  rintro _ _ ⟨rfl, rfl⟩
  rw [after_bind, after_modify]
  change After _ (l₂.withBinding feed held) _
  rw [show (l₂.bindings.size : BindingId) = l.bindings.size from hBindings]
  refine (hBound.hook .connect _).bind fun _ l₃ h₃ => ?_
  refine (h₃.hook .disconnect _).bind fun _ l₄ h₄ => ?_
  refine (h₄.hook .destroy _).bind fun _ l₅ h₅ => ?_
  rw [after_bind, after_get, if_neg]
  · refine ⟨rfl, ?_⟩
    simp only [List.append_assoc, List.cons_append, List.nil_append] at h₅
    exact h₅
  · rw [show l.observers.size = (l.withBinding feed held).observers.size from rfl, h₅.statusOf_new]
    decide

end Stationed

/-! ### Followers -/

theorem Joins.refl {α : Type} (xs : Array α) (new : Nat → α → Prop) : Joins xs xs new :=
  ⟨fun _ _ h => h, fun _ _ h => .inl h⟩

theorem Joins.push {α : Type} {xs : Array α} {y : α} {new : Nat → α → Prop}
    (h : new xs.size y) : Joins xs (xs.push y) new := by
  refine ⟨fun i x hx => ?_, fun i x hx => ?_⟩
  · rw [Array.getElem?_push, if_neg (Nat.ne_of_lt (Array.getElem?_eq_some_iff.mp hx).1), hx]
  · rcases getElem?_push_cases hx with hOld | ⟨rfl, rfl⟩
    · exact .inl hOld
    · exact .inr ⟨Array.getElem?_eq_none (Nat.le_refl _), h⟩

/-- With its binding and what it keeps up to date, the new observer is that of a follower. -/
theorem Stationed.fitted {projectors : Array Projector} {conditionals : Array (Conditional κ)}
    {switches : Array (Switch κ)} {series : Array (Series κ)} {held : Bool}
    (hRigs : Rigs π P l)
    (h : Stationed (Live.withBinding { l with projectors, conditionals, switches, series }
      (.signal s sink) held) l' r (sink.rigging l.bindings.size))
    (hProjectors : Joins l.projectors projectors fun p x =>
      sink = .projector p ∧ ∃ n, r = .node n ∧ x = ⟨n, .text⟩)
    (hConditionals : Joins l.conditionals conditionals fun c x =>
      sink = .conditional c ∧ r = .container x.box ∧ x.child = none ∧ x.visible = false)
    (hSwitches : Joins l.switches switches fun c x =>
      sink = .switch c ∧ r = .container x.box ∧ x.built = [] ∧ x.active = none)
    (hSeries : Joins l.series series fun c x =>
      sink = .series c ∧ r = .container x.box ∧ x.items = [])
    (hFresh : ∀ q, ¬ sink.Hosts l q)
    (hHosts : sink.Hosts { l with projectors, conditionals, switches, series } r) :
    Fitted l l' s sink r := by
  have hSize := hRigs.observers_size
  have hBindings := hRigs.bindings_size
  obtain ⟨x, T, M, rfl, hStatus, hHooks, hT, rfl⟩ := h
  exact {
    tornDown := rfl
    document := rfl
    dom := rfl
    signals := rfl
    clock := rfl
    tracked := fun n => (hT n).trans (by
      rw [← hSize]
      rfl)
    observers_size := Array.size_push _
    core := fun o ho => by
      rw [← hSize] at ho
      exact (core?_push l x o).trans (if_neg ho)
    own := ⟨x.hooks, by
      rw [← hSize]
      refine (core?_push l x _).trans ?_
      rw [if_pos rfl, Observer.core, hStatus], by rw [hHooks, hBindings]⟩
    subscriptions := rfl
    bindings := ⟨held, rfl⟩
    projector := hProjectors
    conditional := hConditionals
    switch := hSwitches
    series := hSeries
    fresh := hFresh
    hosts := by
      cases sink <;> exact hHosts }

/-- A hook that lets go what is kept, and then a binding. -/
theorem released_posted {α : Type} {calls : Calls κ σ} {feed : Feed κ} {hook : Hook κ} {a : α}
    (hTorn : l.tornDown = false) (hState : l.stateOf r ≠ .destroyed)
    (hNew : l.trackedOf (l.dom.key r) = {}) (hOff : l.isConnected r = false) :
    After (do
        let o ← observe r
        let _ ← sure (addHook o .destroy hook)
        let _ ← bind calls r feed false
        pure a : Act κ σ α).run l fun out l' => out = .ok a ∧
      Stationed (l.withBinding feed false) l' r
      [(.destroy, hook), (.connect, .switchOn l.bindings.size),
        (.disconnect, .switchOff l.bindings.size), (.destroy, .endBinding l.bindings.size)] := by
  refine (observe_posted hTorn hState hNew hOff).act_ok fun l₁ hPosted => ?_
  refine After.sure_bind (hPosted.hook .destroy hook) fun _ l₂ hHooked => ?_
  have hAlive : l₂.stateOf r ≠ .destroyed := by
    obtain ⟨x, T, M, -, -, -, hT, rfl⟩ := hHooked
    rw [stateOf] at hState ⊢
    change (if l.dom.key r = l.document then _ else
      (trackedOf { l with tracked := T } (l.dom.key r)).state.getD (l.shownState r)) ≠ _
    rw [hT, if_pos rfl]
    rw [hNew] at hState
    exact hState
  exact (Stationed.bind (hHooked.observe hTorn hAlive)).act_ok fun l₃ hBound => ⟨rfl, hBound⟩

end LiveMarkup.Live
