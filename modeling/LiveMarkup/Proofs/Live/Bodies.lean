import LiveMarkup.Proofs.Live.Bound
import LiveMarkup.Proofs.Live.Deeds
import LiveMarkup.Proofs.Live.Poised
import LiveMarkup.Proofs.Live.Serving
import LiveMarkup.Proofs.Mirror.Growing
import LiveMarkup.Proofs.Program.Meaning

/-!
# Rendered bodies

What is rendered follows signals that were there before: by derived signals, and by projectors that
write to new nodes. Both are slight, so whoever sets such a signal does nothing else that matters.
Apart from that only nodes, signals and bindings are made. So a rendered body is a factory as it is
asked for, if it holds no conditional, series or switch of its own and binds no text of an element.

* `Recast`: steps that change observers and what is known about nodes;
* `Budded`: what is left of a document in which something was made;
* `observe_grows`, `addHook_budded`, `bind_grows`, `attach_grows`: new nodes are observed, bound and
  put into each other;
* `derive_budded`: a signal is derived;
* `Instruction.Bare`: bodies without inner bodies;
* `render_grows`, `body_builds`, `body_makes`: what rendering them does.
-/

namespace LiveMarkup.Live

variable {κ σ α β : Type} {l₀ l l₁ l' : Live κ σ} {K : EventKind → Prop} {m : Leeway κ} {n : NodeId}

/-! ## Observers -/

/-- Only observers change, and what is known about nodes. -/
def Recast (l l' : Live κ σ) : Prop :=
  ∃ tracked observers movers, l' = { l with tracked, observers, movers }

theorem Recast.trans (h₁ : Recast l l₁) (h₂ : Recast l₁ l') : Recast l l' := by
  obtain ⟨_, _, _, rfl⟩ := h₁
  obtain ⟨tracked, observers, movers, rfl⟩ := h₂
  exact ⟨tracked, observers, movers, rfl⟩

theorem observe_recast (l : Live κ σ) (r : NodeRef) :
    After (observe r).run l fun _ l' => Recast l l' := by
  have hSame : Recast l l := ⟨_, _, _, rfl⟩
  unfold observe
  refine After.ensureLive (fun _ => hSame) fun _ => ?_
  refine After.get_act ?_
  split
  · exact ⟨_, _, _, rfl⟩
  · dsimp only
    split
    · exact ⟨_, _, _, rfl⟩
    · rw [after_sure]
      refine After.bind (m := fun _ l₁ => Recast l l₁) ⟨_, _, _, rfl⟩ fun o l₁ h₁ => ?_
      refine After.bind (m := fun _ l₂ => Recast l₁ l₂) ⟨_, _, _, rfl⟩ fun _ l₂ h₂ => ?_
      refine After.bind (m := fun _ l₃ => Recast l₂ l₃) ?_ fun _ l₃ h₃ => h₁.trans (h₂.trans h₃)
      unfold trackMoves
      rw [after_bind, after_get]
      split
      · exact ⟨_, _, _, rfl⟩
      · exact ⟨_, _, _, rfl⟩

theorem addHook_recast (l : Live κ σ) (o : ObserverId) (kind : EventKind) (hook : Hook κ) :
    After (addHook o kind hook) l fun n l' => Recast l l' ∧
      Turned l l' o (Observer.Core.hooked [⟨n, kind, hook⟩]) :=
  ⟨⟨_, _, _, rfl⟩, (addHook_turned l o kind hook).1⟩

/-! ## What is made -/

/-- A node that is idle. Its observer, if it has one, knows that it does not reach the document, and
has quiet hooks that wait for certain kinds of events. -/
structure Young (l : Live κ σ) (n : NodeId) (K : EventKind → Prop) (m : Leeway κ) : Prop where
  idle : (l.trackedOf n).state = none
  observed : ∀ o, (l.trackedOf n).observer = some o → ∃ x, l.core? o = some x ∧ x.target = .node n ∧
    x.status = .disconnected ∧ ∀ e ∈ x.hooks, K e.kind ∧ e.hook.Quiet l m

/-- Nodes, signals and bindings were made, and new nodes are young. All that was there is spared. -/
structure Budded (l l' : Live κ σ) (K : EventKind → Prop) (m : Leeway κ) : Prop
    extends Spared l l' m where
  config : l'.config = l.config
  clock : l'.clock = l.clock
  conditionals : l'.conditionals = l.conditionals
  switches : l'.switches = l.switches
  boxes : l'.dom.containers.size = l.dom.containers.size
  values : ∀ s < l.signals.size, l'.valueOf s = l.valueOf s
  wires : ∀ f, m.spared f → ∀ registered, l.Wire f registered → l'.Wire f registered
  young : ∀ n, l.dom.nodes.size ≤ n → l'.Young n K m
  apart : ∀ n, l.dom.nodes.size ≤ n → ∀ o, (l'.trackedOf n).observer = some o → l.core? o = none

theorem Recast.level (h : Recast l l') : Level l l' := by
  obtain ⟨_, _, _, rfl⟩ := h
  exact { Level.refl l with }

theorem Young.of_untracked (h : l.trackedOf n = {}) : l.Young n K m := by
  refine ⟨by rw [h], fun o ho => ?_⟩
  rw [h] at ho
  cases ho

namespace Budded

/-- A step that spares all and observes nothing new. -/
theorem of_spared (hReady : l.Ready m) (hS : Spared l l' m) (hTracked : l'.tracked = l.tracked)
    (hConfig : l'.config = l.config) (hClock : l'.clock = l.clock)
    (hConditionals : l'.conditionals = l.conditionals) (hSwitches : l'.switches = l.switches)
    (hBoxes : l'.dom.containers.size = l.dom.containers.size)
    (hValues : ∀ s < l.signals.size, l'.valueOf s = l.valueOf s)
    (hWires : ∀ f, m.spared f → ∀ registered, l.Wire f registered → l'.Wire f registered) :
    Budded l l' K m := by
  have hNew : ∀ n, l.dom.nodes.size ≤ n → l'.trackedOf n = {} := fun n hn => by
    rw [trackedOf, hTracked]
    exact hReady.untracked n hn
  refine ⟨hS, hConfig, hClock, hConditionals, hSwitches, hBoxes, hValues, hWires,
    fun n hn => .of_untracked (hNew n hn), fun n hn o ho => ?_⟩
  rw [hNew n hn] at ho
  cases ho

theorem trans (h₁ : Budded l l₁ K m) (h₂ : Budded l₁ l' K m) : Budded l l' K m where
  toSpared := h₁.toSpared.trans h₂.toSpared
  config := h₂.config.trans h₁.config
  clock := h₂.clock.trans h₁.clock
  conditionals := h₂.conditionals.trans h₁.conditionals
  switches := h₂.switches.trans h₁.switches
  boxes := h₂.boxes.trans h₁.boxes
  values s hs := (h₂.values s (Nat.lt_of_lt_of_le hs h₁.signals_size)).trans (h₁.values s hs)
  wires f hf registered h := h₂.wires f hf registered (h₁.wires f hf registered h)
  young n hn := by
    by_cases hOld : n < l₁.dom.nodes.size
    · obtain ⟨hIdle, hObserved⟩ := h₁.young n hn
      refine ⟨by rw [h₂.tracked n hOld, hIdle], fun o ho => ?_⟩
      rw [h₂.tracked n hOld] at ho
      obtain ⟨x, hx, hTarget, hStatus, hHooks⟩ := hObserved o ho
      exact ⟨x, h₂.core o x hx, hTarget, hStatus, fun e he =>
        ⟨(hHooks e he).1, h₂.quiet _ (hHooks e he).2⟩⟩
    · exact h₂.young n (Nat.le_of_not_lt hOld)
  apart n hn o ho := by
    by_cases hOld : n < l₁.dom.nodes.size
    · rw [h₂.tracked n hOld] at ho
      exact h₁.apart n hn o ho
    · have hNone := h₂.apart n (Nat.le_of_not_lt hOld) o ho
      by_contra hSome
      obtain ⟨x, hx⟩ := Option.ne_none_iff_exists'.mp hSome
      rw [h₁.core o x hx] at hNone
      cases hNone

section

variable (hB : Budded l l' K m)
include hB

theorem known (hSound : l.dom.Sound) (hn : l.dom.nodes.size ≤ n) (hLt : n < l'.dom.nodes.size) :
    l'.dom.Known (.node n) := by
  refine ⟨hLt, fun c hc p => ?_⟩
  rw [hB.boxes] at hc
  rw [hB.kept.part hc]
  exact fun hEq => Nat.not_lt.mpr hn (hEq ▸ hSound.part_lt c hc p)

theorem not_connected (hSound : l.dom.Sound) (hDocument : l.document < l.dom.nodes.size)
    (hn : l.dom.nodes.size ≤ n) : l'.isConnected (.node n) = false := by
  refine Bool.eq_false_iff.mpr fun hOn => ?_
  have hRoot : l'.dom.nodes.root n = l'.document := beq_iff_eq.mp hOn
  have hUp : l'.dom.nodes.Up n (l'.dom.nodes.root n) := Forest.Linked.up_root n
  rw [hRoot, hB.document] at hUp
  exact Nat.not_lt.mpr hn (hB.kept.lt_of_up hSound hB.sound hDocument hUp)

/-- All that is in a new node is new. -/
theorem mem_subtree (hSound : l.dom.Sound) (hn : l.dom.nodes.size ≤ n)
    (hLt : n < l'.dom.nodes.size) {k : NodeId} (hk : k ∈ l'.dom.subtree (.node n)) :
    l.dom.nodes.size ≤ k ∧ k < l'.dom.nodes.size := by
  have hUp := Dom.inside_node.mp ((hB.sound.mem_subtree (hB.known hSound hn hLt)).mp hk).1
  refine ⟨Nat.le_of_not_lt fun hOld => ?_, ?_⟩
  · exact Nat.not_lt.mpr hn (hB.kept.up_of_lt hSound hOld hUp).2
  · rcases hUp.cases_first with rfl | ⟨p, hParent, -⟩
    · exact hLt
    · exact Forest.lt_size_of_parent hParent

theorem fresh (hSound : l.dom.Sound) (hn : l.dom.nodes.size ≤ n) (hLt : n < l'.dom.nodes.size)
    (hLoose : l'.dom.parent? n = none) : Fresh l l' (.node n) m ∧ l'.Posted (.node n) := by
  refine ⟨⟨hB.known hSound hn hLt, ?_, fun k hk => ?_, (hB.young n hn).idle, ?_⟩, ?_⟩
  · exact Option.isSome_eq_false_iff.mpr (Option.isNone_iff_eq_none.mpr hLoose)
  · rw [Dom.mem_runOf_node.mp hk]
    exact hn
  · intro o ho x hx e he
    obtain ⟨k, hk, hSome⟩ := List.mem_filterMap.mp ho
    obtain ⟨y, hy, -, -, hHooks⟩ :=
      (hB.young k (hB.mem_subtree hSound hn hLt hk).1).observed o hSome
    cases hx.symm.trans hy
    exact (hHooks e he).2
  · intro k hk o x ho hx
    obtain ⟨hNew, hkLt⟩ := hB.mem_subtree hSound hn hLt hk
    obtain ⟨y, hy, hTarget, -⟩ := (hB.young k hNew).observed o ho
    cases hx.symm.trans hy
    rw [hTarget]
    exact ⟨hB.known hSound hNew hkLt, rfl⟩

theorem built (hSound : l.dom.Sound) (hn : l.dom.nodes.size ≤ n) (hLt : n < l'.dom.nodes.size)
    (hLoose : l'.dom.parent? n = none) : Built l l' (.node n) m := by
  obtain ⟨hFresh, hPosted⟩ := hB.fresh hSound hn hLt hLoose
  exact ⟨hB.toSpared, hFresh, hPosted, fun c hc => (by cases hc), hB.config, hB.clock,
    fun c _ => by rw [conditional?, hB.conditionals]; rfl,
    fun s _ => by rw [switch?, hB.switches]; rfl, fun s hs _ => hB.values s hs, hB.wires⟩

end

/-! ## Steps -/

section Steps

variable (hB : Budded l₀ l K m)
include hB

/-- A step that changes the tree and what is known of new nodes. -/
theorem level (hLevel : Level l l') (hTabled : l'.Tabled) (hKinds : l.dom.SameKinds l'.dom)
    (hBoxes : l'.dom.containers.size = l.dom.containers.size) (hKept : l₀.dom.Kept l'.dom)
    (hTracked : ∀ n < l₀.dom.nodes.size, l'.trackedOf n = l.trackedOf n)
    (hCore : ∀ o x, l₀.core? o = some x → l'.core? o = some x)
    (hYoung : (∀ hook : Hook κ, hook.Quiet l m → hook.Quiet l' m) →
      ∀ n, l₀.dom.nodes.size ≤ n → l'.Young n K m)
    (hApart : ∀ n, l₀.dom.nodes.size ≤ n → ∀ o, (l'.trackedOf n).observer = some o →
      l₀.core? o = none) : Budded l₀ l' K m := by
  have hSturdy : Sturdy l l' := .of_tree hLevel.signals hLevel.projectors hKinds
  have hWatchers : ∀ s, l'.watchersOf s = l.watchersOf s :=
    fun _ => watchersOf_of_signals (by rw [hLevel.signals])
  have hSize : l'.signals.size = l.signals.size := by rw [hLevel.signals]
  have hClosed : l'.Closed m := fun s hs w hw =>
    hSturdy.slight (hB.closed s hs w (hWatchers s ▸ hw))
  have hQuiet : ∀ hook : Hook κ, hook.Quiet l m → hook.Quiet l' m := fun _ =>
    hSturdy.hook_quiet (fun _ => hClosed) hLevel.subscriptions hLevel.bindings
  exact {
    toTabled := hTabled
    closed := hClosed
    ample := hSize ▸ hB.ample
    series := hLevel.series.trans hB.series
    document := hLevel.document.trans hB.document
    tornDown := hLevel.tornDown.trans hB.tornDown
    kept := hKept
    tracked := fun n hn => (hTracked n hn).trans (hB.tracked n hn)
    core := hCore
    quiet := fun hook hHook => hQuiet hook (hB.quiet hook hHook)
    signals_size := hSize ▸ hB.signals_size
    drives := fun s hs =>
      (hSturdy.drives_iff (Nat.lt_of_lt_of_le hs hB.signals_size)).trans (hB.drives s hs)
    slight := fun sink hSink => hSturdy.slight (hB.slight sink hSink)
    watchers := fun s hs w hw => (hB.watchers s hs w (hWatchers s ▸ hw)).imp_right hSturdy.slight
    config := hLevel.config.trans hB.config
    clock := hLevel.clock.trans hB.clock
    conditionals := hLevel.conditionals.trans hB.conditionals
    switches := hLevel.switches.trans hB.switches
    boxes := hBoxes.trans hB.boxes
    values := fun s hs => (valueOf_of_signals (by rw [hLevel.signals])).trans (hB.values s hs)
    wires := fun f hf registered hWire => (hB.wires f hf registered hWire).congr hLevel.bindings
      hLevel.subscriptions hLevel.signals
    young := hYoung hQuiet
    apart := hApart }

/-- A step that changes the tree, and nothing of what is known of nodes. -/
theorem redom (hLevel : Level l l') (hSound : l'.dom.Sound) (hKinds : l.dom.SameKinds l'.dom)
    (hBoxes : l'.dom.containers.size = l.dom.containers.size) (hKept : l₀.dom.Kept l'.dom)
    (hTracked : ∀ n, l'.trackedOf n = l.trackedOf n) (hCore : ∀ o, l'.core? o = l.core? o) :
    Budded l₀ l' K m := by
  refine hB.level hLevel ⟨hSound, fun n o ho => ?_, fun n hn => ?_⟩ hKinds hBoxes hKept
    (fun n _ => hTracked n) (fun o x hx => (hCore o).trans (hB.core o x hx)) (fun hQuiet n hn => ?_)
    fun n hn o ho => hB.apart n hn o (hTracked n ▸ ho)
  · rw [hTracked] at ho
    rw [hCore]
    exact hB.observers n o ho
  · rw [hTracked]
    exact hB.untracked n (hKinds.nodes_size ▸ hn)
  · obtain ⟨hIdle, hObserved⟩ := hB.young n hn
    refine ⟨by rw [hTracked, hIdle], fun o ho => ?_⟩
    obtain ⟨x, hx, hTarget, hStatus, hHooks⟩ := hObserved o (hTracked n ▸ ho)
    exact ⟨x, (hCore o).trans hx, hTarget, hStatus, fun e he =>
      ⟨(hHooks e he).1, hQuiet _ (hHooks e he).2⟩⟩

/-- A step that notes an observer of a new node: either the one that it has, or a new one. -/
theorem noted (hLevel : Level l l') (hDom : l'.dom = l.dom) {o : ObserverId} {x : Observer.Core κ}
    (hn : l₀.dom.nodes.size ≤ n) (hLt : n < l.dom.nodes.size)
    (hTracked : ∀ k, l'.trackedOf k = if k = n then { l.trackedOf n with observer := some o }
      else l.trackedOf k)
    (hCore : ∀ p, l'.core? p = if p = o then some x else l.core? p)
    (hOwn : (l.trackedOf n).observer = some o ∨ l.core? o = none)
    (hTarget : x.target = .node n) (hStatus : x.status = .disconnected)
    (hHooks : (∀ hook : Hook κ, hook.Quiet l m → hook.Quiet l' m) →
      ∀ e ∈ x.hooks, K e.kind ∧ e.hook.Quiet l' m) : Budded l₀ l' K m := by
  have hNone : l₀.core? o = none := by
    rcases hOwn with hSome | hNone
    · exact hB.apart n hn o hSome
    · by_contra hSome
      obtain ⟨y, hy⟩ := Option.ne_none_iff_exists'.mp hSome
      cases hNone.symm.trans (hB.core o y hy)
  -- no other new node has that observer
  have hOther : ∀ k, l₀.dom.nodes.size ≤ k → k ≠ n → ∀ p, (l.trackedOf k).observer = some p →
      p ≠ o := by
    rintro k hk hNe p hp rfl
    obtain ⟨y, hy, hAt, -⟩ := (hB.young k hk).observed p hp
    rcases hOwn with hSome | hNone
    · obtain ⟨z, hz, hAt', -⟩ := (hB.young n hn).observed p hSome
      cases hy.symm.trans hz
      exact hNe (NodeRef.node.inj (hAt.symm.trans hAt'))
    · cases hNone.symm.trans hy
  refine hB.level hLevel ⟨hDom ▸ hB.sound, fun k p hp => ?_, fun k hk => ?_⟩ (hDom ▸ .refl _)
    (by rw [hDom]) (hDom ▸ hB.kept) (fun k hk => ?_) (fun p y hy => ?_) (fun hQuiet k hk => ?_)
    fun k hk p hp => ?_
  · rw [hCore]
    split
    · rfl
    · rw [hTracked] at hp
      split at hp
      · exact absurd (Option.some.inj hp).symm ‹_›
      · exact hB.observers k p hp
  · rw [hDom] at hk
    rw [hTracked, if_neg (Nat.ne_of_gt (Nat.lt_of_lt_of_le hLt hk))]
    exact hB.untracked k hk
  · rw [hTracked, if_neg (Nat.ne_of_lt (Nat.lt_of_lt_of_le hk hn))]
  · rw [hCore, if_neg]
    · exact hB.core p y hy
    · rintro rfl
      cases hNone.symm.trans hy
  · by_cases hEq : k = n
    · subst hEq
      refine ⟨by rw [hTracked, if_pos rfl, (hB.young k hk).idle], fun p hp => ?_⟩
      rw [hTracked, if_pos rfl] at hp
      obtain rfl := Option.some.inj hp
      exact ⟨x, by rw [hCore, if_pos rfl], hTarget, hStatus, hHooks hQuiet⟩
    · obtain ⟨hIdle, hObserved⟩ := hB.young k hk
      refine ⟨by rw [hTracked, if_neg hEq, hIdle], fun p hp => ?_⟩
      rw [hTracked, if_neg hEq] at hp
      obtain ⟨y, hy, hAt, hOff, hOthers⟩ := hObserved p hp
      exact ⟨y, by rw [hCore, if_neg (hOther k hk hEq p hp), hy], hAt, hOff, fun e he =>
        ⟨(hOthers e he).1, hQuiet _ (hOthers e he).2⟩⟩
  · rw [hTracked] at hp
    split at hp
    · exact Option.some.inj hp ▸ hNone
    · exact hB.apart k hk p hp

end Steps

end Budded

/-! ## Observing and binding -/

/-- Something was made, or the document was torn down. -/
def Grows (l : Live κ σ) (K : EventKind → Prop) (m : Leeway κ) (Q : α → Live κ σ → Prop)
    (out : Except Fault α) (l' : Live κ σ) : Prop :=
  Budded l l' K m ∧ match out with
    | .ok a => Q a l'
    | .error _ => l.tornDown = true

theorem Grows.bind {Q : α → Live κ σ → Prop} {Q' : β → Live κ σ → Prop} {op : Act κ σ α}
    {f : α → Act κ σ β} (h : After op.run l (Grows l₀ K m Q))
    (hRest : ∀ a l₁, Budded l₀ l₁ K m → Q a l₁ → After (f a).run l₁ (Grows l₀ K m Q')) :
    After (op >>= f).run l (Grows l₀ K m Q') :=
  h.act_bind (fun a l₁ hGrows => hRest a l₁ hGrows.1 hGrows.2) fun _ _ hGrows => hGrows

theorem Wire.withBinding {f : Follower κ} {registered : Option Nat} (h : l.Wire f registered)
    (feed : Feed κ) (held : Bool) : (l.withBinding feed held).Wire f registered := by
  obtain ⟨⟨held', hBinding⟩, hOwn, hSubscription, g, hg, hServes, hOthers⟩ := h
  have hSubscribed : f.subscription ≠ l.subscriptions.size :=
    Nat.ne_of_lt (Array.getElem?_eq_some_iff.mp hSubscription).1
  refine ⟨⟨held', ?_⟩, fun b x hx hEq => ?_, ?_, g, hg, hServes, fun s sink n hNe hSub => ?_⟩
  · rw [binding?_withBinding, if_neg (Nat.ne_of_lt (Array.getElem?_eq_some_iff.mp hBinding).1)]
    exact hBinding
  · rw [binding?_withBinding] at hx
    split at hx
    · rw [← Option.some.inj hx] at hEq
      exact absurd hEq.symm hSubscribed
    · exact hOwn b x hx hEq
  · rw [subscription?_withBinding, if_neg hSubscribed]
    exact hSubscription
  · rw [subscription?_withBinding] at hSub
    split at hSub
    · cases hSub
    · exact hOthers s sink n hNe hSub

theorem withBinding_budded (hReady : l.Ready m) {feed : Feed κ} (hFeed : feed.Slight l m)
    (held : Bool) : Budded l (l.withBinding feed held) K m := by
  have hSturdy : Sturdy l (l.withBinding feed held) := .of_tree rfl rfl (.refl _)
  refine .of_spared hReady (.of_sturdy hReady hReady.sound (.refl _) hSturdy (Nat.le_refl _)
    (fun _ _ => .inl) (fun hClosed hook hQuiet => ⟨?_, hQuiet.apart⟩) rfl rfl rfl rfl rfl) rfl rfl rfl
    rfl rfl rfl (fun _ _ => rfl) fun _ _ _ hWire => hWire.withBinding feed held
  have hSlight : ∀ feed' : Feed κ, feed'.Slight l m → feed'.Slight (l.withBinding feed held) m :=
    fun feed' h => by
      cases feed' with
      | signal s sink => exact ⟨hSturdy.slight h.1, hClosed⟩
      | event => trivial
  have hOld := hQuiet.slight
  cases hook with
  | switchOn b =>
    -- the binding may be the new one, and so may be the subscription of an old one
    intro x hx feed' hFeed'
    rw [feed?, subscription?_withBinding] at hFeed'
    by_cases hNew : x.subscription = l.subscriptions.size
    · rw [if_pos hNew] at hFeed'
      exact hSlight _ (Option.some.inj hFeed' ▸ hFeed)
    · rw [if_neg hNew] at hFeed'
      rw [binding?_withBinding] at hx
      split at hx
      · exact absurd (congrArg Binding.subscription (Option.some.inj hx)).symm hNew
      · exact hSlight _ (hOld x hx feed' hFeed')
  | _ => exact hOld

theorem Grows.imp {Q Q' : α → Live κ σ → Prop} {out : Except Fault α} (h : Grows l K m Q out l')
    (hImp : ∀ a, Q a l' → Q' a l') : Grows l K m Q' out l' := by
  cases out with
  | ok a => exact ⟨h.1, hImp a h.2⟩
  | error e => exact h

/-- What was made before something else was. -/
theorem Grows.after {Q : α → Live κ σ → Prop} {out : Except Fault α} (hB : Budded l₀ l K m)
    (h : Grows l K m Q out l') :
    Grows l₀ K m (fun a l' => Q a l' ∧ Budded l l' K m) out l' := by
  cases out with
  | ok a => exact ⟨hB.trans h.1, h.2, h.1⟩
  | error e => exact ⟨hB.trans h.1, hB.tornDown ▸ h.2⟩

theorem Grows.forM {Q : Live κ σ → Prop} {xs : List α} {f : α → Act κ σ PUnit}
    (hB : Budded l₀ l K m) (hQ : Q l) (hStep : ∀ x ∈ xs, ∀ l₁, Budded l₀ l₁ K m → Q l₁ →
      After (f x).run l₁ (Grows l₀ K m fun _ => Q)) :
    After (xs.forM f).run l (Grows l₀ K m fun _ => Q) := by
  induction xs generalizing l with
  | nil => exact ⟨hB, hQ⟩
  | cons x xs ih =>
    refine Grows.bind (hStep x List.mem_cons_self l hB hQ) fun _ l₁ hB₁ hQ₁ => ?_
    exact ih hB₁ hQ₁ fun y hy => hStep y (List.mem_cons_of_mem x hy)

section Observing

variable (hB : Budded l₀ l K m) (hSound : l₀.dom.Sound)
variable (hDocument : l₀.document < l₀.dom.nodes.size) (hn : l₀.dom.nodes.size ≤ n)
variable (hLt : n < l.dom.nodes.size)
include hB hSound hDocument hn hLt

theorem observe_grows : After (observe (.node n)).run l (Grows l₀ K m fun o l' =>
    l'.dom = l.dom ∧ Level l l' ∧ (l'.trackedOf n).observer = some o) := by
  have hIdle := (hB.young n hn).idle
  have hJoining : l.joining (.node n) = .disconnected := by
    rw [joining, hB.not_connected hSound hDocument hn]
    rfl
  refine ((observe_cases l (.node n)).and (observe_recast l (.node n))).mono ?_
  rintro out l' ⟨⟨hTorn, rfl, rfl⟩ | ⟨o, rfl, -, ho, hAlike, -⟩ | ⟨rfl, ⟨hGone, -⟩ | ⟨-, -, hJoined⟩⟩,
    hRecast⟩
  · exact ⟨hB, hB.tornDown ▸ hTorn⟩
  · have hDom : l'.dom = l.dom := hAlike.tree
    refine ⟨hB.redom hRecast.level (hDom ▸ hB.sound) (hDom ▸ .refl _) (by rw [hDom])
      (hDom ▸ hB.kept) hAlike.tracked hAlike.core_eq, hDom, hRecast.level, ?_⟩
    rw [hAlike.tracked]
    exact ho
  · exact absurd hGone (stateOf_ne_destroyed_of_none hIdle)
  · rw [hJoining] at hJoined
    have hTracked : ∀ k, l'.trackedOf k = if k = n then
        { l.trackedOf n with observer := some l.observers.size } else l.trackedOf k := fun k => by
      rw [hJoined.tracked]
      by_cases hk : k = n
      · subst hk
        rw [if_pos ⟨rfl, by decide⟩, if_pos rfl]
      · rw [if_neg fun hAnd => hk hAnd.1, if_neg hk]
    refine ⟨hB.noted hRecast.level hJoined.dom hn hLt hTracked hJoined.core (.inr (core?_size l)) rfl
      rfl fun _ e he => absurd he List.not_mem_nil, hJoined.dom, hRecast.level, ?_⟩
    rw [hTracked, if_pos rfl]

omit hSound hDocument in
/-- A quiet hook is put on the observer of a new node. -/
theorem addHook_budded {o : ObserverId} (ho : (l.trackedOf n).observer = some o) {kind : EventKind}
    (hKind : K kind) (hook : Hook κ) (hHook : hook.Quiet l m) :
    After (addHook o kind hook) l fun _ l' => Budded l₀ l' K m ∧ l'.dom = l.dom ∧ Level l l' ∧
      (l'.trackedOf n).observer = some o := by
  refine (addHook_recast l o kind hook).mono ?_
  rintro number l' ⟨hRecast, hTurned⟩
  obtain ⟨x, hx, hTarget, hStatus, hHooks⟩ := (hB.young n hn).observed o ho
  have hTracked : ∀ k, l'.trackedOf k = l.trackedOf k := fun k => by
    rw [trackedOf, hTurned.tracked, ← trackedOf]
  have hEntries : x.hooked [⟨number, kind, hook⟩] =
      { x with hooks := x.hooks ++ [⟨number, kind, hook⟩] } :=
    x.hooked_of_ne _ (by rw [hStatus]; decide)
  refine ⟨hB.noted (x := x.hooked [⟨number, kind, hook⟩]) hRecast.level hTurned.dom hn hLt
    (fun k => ?_) (fun p => ?_) (.inl ho) (by rw [hEntries, hTarget]) (by rw [hEntries, hStatus])
    fun hQuiet e he => ?_, hTurned.dom, hRecast.level, (hTracked n).symm ▸ ho⟩
  · rw [hTracked]
    split
    · rename_i hEq
      rw [hEq, ← ho]
    · rfl
  · rw [hTurned.core]
    by_cases hp : p = o
    · subst hp
      rw [hx, if_pos rfl, Option.map_some, if_pos rfl]
    · simp [hp]
  · rw [hEntries] at he
    rcases List.mem_append.mp he with hOld | hNew
    · exact ⟨(hHooks e hOld).1, hQuiet _ (hHooks e hOld).2⟩
    · rw [List.mem_singleton.mp hNew]
      exact ⟨hKind, hQuiet _ hHook⟩

/-- A new node is bound. -/
theorem bind_grows (hWired : ∀ f, m.spared f → ∃ registered, l₀.Wire f registered)
    (hKinds : ∀ kind : EventKind, kind.isCancelable = false → K kind) {calls : Calls κ σ}
    (feed : Feed κ) (hFeed : feed.Slight l m) (held : Bool) :
    After (bind calls (.node n) feed held).run l
      (Grows l₀ K m fun _ l' => l'.dom = l.dom) := by
  unfold bind
  refine Grows.bind (observe_grows hB hSound hDocument hn hLt) ?_
  rintro o l₁ hB₁ ⟨hDom₁, hLevel₁, ho₁⟩
  obtain ⟨x₁, hx₁, -, hStatus₁, -⟩ := (hB₁.young n hn).observed o ho₁
  refine After.get_act ?_
  rw [if_neg (by rw [statusOf_core, hx₁]; simp [hStatus₁]), after_sure]
  have hSturdy : Sturdy l l₁ := .of_tree hLevel₁.signals hLevel₁.projectors (hDom₁ ▸ .refl _)
  have hFeed₁ : feed.Slight l₁ m := by
    cases feed with
    | signal s sink => exact ⟨hSturdy.slight hFeed.1, hB₁.closed⟩
    | event => trivial
  have hB₂ := hB₁.trans (withBinding_budded hB₁.toReady hFeed₁ held)
  have hLt₂ : n < (l₁.withBinding feed held).dom.nodes.size := by
    change n < l₁.dom.nodes.size
    rwa [hDom₁]
  -- its hooks are quiet
  have hApart : ∀ f, m.spared f → l₁.bindings.size ≠ f.binding := fun f hf hEq => by
    obtain ⟨registered, hWire⟩ := hWired f hf
    obtain ⟨_, hBinding⟩ := (hB₁.wires f hf registered hWire).binding
    exact absurd (Array.getElem?_eq_some_iff.mp hBinding).1 (hEq ▸ Nat.lt_irrefl _)
  have hSwitchOn : (Hook.switchOn l₁.bindings.size : Hook κ).Quiet (l₁.withBinding feed held) m := by
    refine ⟨fun x hx feed' hFeed' => ?_, fun f hf hEq => hApart f hf (Option.some.inj hEq)⟩
    rw [binding?_withBinding, if_pos rfl] at hx
    obtain rfl := Option.some.inj hx
    rw [feed?, subscription?_withBinding, if_pos rfl] at hFeed'
    obtain rfl := Option.some.inj hFeed'
    cases feed with
    | signal s sink => exact ⟨Sturdy.slight (.of_tree rfl rfl (.refl _)) hFeed₁.1, hB₂.closed⟩
    | event => trivial
  refine After.bind (m := fun s l₂ => s = l₁.subscriptions.size ∧
    l₂ = { l₁ with subscriptions := l₁.subscriptions.push { feed } }) ⟨rfl, rfl⟩ ?_
  rintro _ _ ⟨rfl, rfl⟩
  refine After.bind (m := fun _ l₂ => l₂ = l₁.withBinding feed held) rfl ?_
  rintro _ _ rfl
  refine (addHook_budded hB₂ hn hLt₂ ho₁ (hKinds .connect rfl) _ hSwitchOn).bind ?_
  rintro _ l₃ ⟨hB₃, hDom₃, -, ho₃⟩
  refine (addHook_budded hB₃ hn (hDom₃ ▸ hLt₂) ho₃ (hKinds .disconnect rfl)
    (.switchOff l₁.bindings.size) ⟨trivial, fun f hf hEq => hApart f hf
      (Option.some.inj hEq)⟩).bind ?_
  rintro _ l₄ ⟨hB₄, hDom₄, -, ho₄⟩
  refine (addHook_budded hB₄ hn (hDom₄ ▸ hDom₃ ▸ hLt₂) ho₄ (hKinds .destroy rfl)
    (.endBinding l₁.bindings.size) ⟨trivial, fun f hf hEq => hApart f hf
      (Option.some.inj hEq)⟩).bind ?_
  rintro _ l₅ ⟨hB₅, hDom₅, -, ho₅⟩
  obtain ⟨x₅, hx₅, -, hStatus₅, -⟩ := (hB₅.young n hn).observed o ho₅
  rw [after_bind, after_get, if_neg (by rw [statusOf_core, hx₅]; simp [hStatus₅])]
  exact ⟨hB₅, hDom₅.trans (hDom₄.trans (hDom₃.trans hDom₁))⟩

end Observing

/-! ## Signals and labels -/

/-- The table of signals without the values may be longer, and more may watch. -/
theorem Wire.signals {f : Follower κ} {registered : Option Nat} (h : l.Wire f registered)
    (hBindings : l'.bindings = l.bindings) (hSubscriptions : l'.subscriptions = l.subscriptions)
    (hSignal : ∀ g, l.signal? f.signal = some g → g.Serves f.sink registered → ∃ g',
      l'.signal? f.signal = some g' ∧ g'.Serves f.sink registered ∧ g.nextWatcher ≤ g'.nextWatcher) :
    l'.Wire f registered := by
  obtain ⟨hBinding, hOwn, hSubscription, g, hg, hServes, hOthers⟩ := h
  obtain ⟨g', hg', hServes', hNext⟩ := hSignal g hg hServes
  unfold binding? at hBinding hOwn
  unfold subscription? at hSubscription hOthers
  rw [← hBindings] at hBinding hOwn
  rw [← hSubscriptions] at hSubscription hOthers
  refine ⟨hBinding, hOwn, hSubscription, g', hg', hServes', fun s sink n hNe hSub => ?_⟩
  obtain ⟨hApart, hLess⟩ := hOthers s sink n hNe hSub
  exact ⟨hApart, Nat.lt_of_lt_of_le hLess hNext⟩

theorem newSignal_budded (hReady : l.Ready m) (value : Value) :
    After (newSignal value) l fun _ l' => Budded l l' K m ∧ l'.dom = l.dom := by
  obtain ⟨hSpared, -, -, -, -, -, hValues⟩ := newSignal_spared hReady value
  refine ⟨.of_spared hReady hSpared rfl rfl rfl rfl rfl rfl hValues fun f _ registered h =>
    h.signals rfl rfl fun g hg hServes => ⟨g, ?_, hServes, Nat.le_refl _⟩, rfl⟩
  change (l.signals.push { value })[f.signal]? = some g
  rw [Array.getElem?_push, if_neg (Nat.ne_of_lt h.lt_size)]
  exact hg

/-- A derived signal is driven, since it is new, and follows another one. -/
theorem derive_budded (hReady : l.Ready m) (hWrites : m.writes = true) (s : SignalId)
    (f : Value → Value) :
    After (derive s f) l fun _ l' => Budded l l' K m ∧ l'.dom = l.dom := by
  let pushed := l.signals.push { value := f (l.valueOf s) }
  let number := ((pushed[s]?).map (·.nextWatcher)).getD 0
  let signals := (pushed.modify s fun g =>
    { g with
      watchers := g.watchers ++ [⟨number, .derived l.signals.size f⟩]
      nextWatcher := number + 1 }).modify l.signals.size fun g => { g with source := some (s, number) }
  change Budded l (l.withSignals signals) K m ∧ _
  -- what was there has the new signal as one more watcher, at most
  have hOld : ∀ t < l.signals.size, signals[t]? = if s = t then (l.signals[t]?).map fun g =>
      { g with
        watchers := g.watchers ++ [⟨g.nextWatcher, .derived l.signals.size f⟩]
        nextWatcher := g.nextWatcher + 1 } else l.signals[t]? := fun t ht => by
    have hPushed : pushed[t]? = l.signals[t]? := by
      rw [Array.getElem?_push, if_neg (Nat.ne_of_lt ht)]
    rw [Array.getElem?_modify, if_neg (Nat.ne_of_gt ht), Array.getElem?_modify, hPushed]
    split
    · rename_i hEq
      subst hEq
      rw [Array.getElem?_eq_getElem ht, Option.map_some, Option.map_some]
      simp only [number, hPushed, Array.getElem?_eq_getElem ht, Option.map_some, Option.getD_some]
    · rfl
  have hNew : ∃ g, signals[l.signals.size]? = some g ∧ g.source.isSome ∧
      ∀ w ∈ g.watchers, w.sink = .derived l.signals.size f := by
    have hPushed : pushed[l.signals.size]? = some { value := f (l.valueOf s) } :=
      Array.getElem?_push_size
    rw [Array.getElem?_modify, if_pos rfl, Array.getElem?_modify, hPushed]
    split
    · exact ⟨_, rfl, rfl, fun w hw => by rw [List.mem_singleton.mp hw]⟩
    · exact ⟨_, rfl, rfl, fun w hw => absurd hw List.not_mem_nil⟩
  have hSize : signals.size = l.signals.size + 1 := by
    rw [Array.size_modify, Array.size_modify, Array.size_push]
  have hSlight : (Sink.derived l.signals.size f : Sink κ).Slight (l.withSignals signals) m := by
    obtain ⟨g, hg, hSource, -⟩ := hNew
    refine ⟨hWrites, hReady.ample hWrites _ (Nat.le_refl _), ?_⟩
    change ((signals[l.signals.size]?).bind (·.source)).isSome
    rw [hg]
    exact hSource
  have hSpared : Spared l (l.withSignals signals) m := by
    refine .of_signals hReady signals (hSize ▸ Nat.le_succ _) (fun t ht => ?_) fun t w hw => ?_
    · change (signals[t]?).bind (·.source) = (l.signals[t]?).bind (·.source)
      rw [hOld t ht]
      split
      · cases l.signals[t]? <;> rfl
      · rfl
    · change w ∈ ((signals[t]?).map (·.watchers)).getD [] at hw
      change w ∈ ((l.signals[t]?).map (·.watchers)).getD [] ∨ _
      rcases Nat.lt_trichotomy t l.signals.size with hLt | rfl | hGt
      · rw [hOld t hLt, Array.getElem?_eq_getElem hLt] at hw
        rw [Array.getElem?_eq_getElem hLt]
        split at hw
        · rcases List.mem_append.mp hw with hIn | hIs
          · exact .inl hIn
          · rw [List.mem_singleton.mp hIs]
            exact .inr hSlight
        · exact .inl hw
      · obtain ⟨g, hg, -, hWatchers⟩ := hNew
        rw [hg] at hw
        rw [hWatchers w hw]
        exact .inr hSlight
      · rw [Array.getElem?_eq_none (hSize ▸ hGt)] at hw
        cases hw
  refine ⟨.of_spared hReady hSpared rfl rfl rfl rfl rfl rfl (fun t ht => ?_)
    fun follower _ registered h => h.signals rfl rfl fun g hg hServes => ?_, rfl⟩
  · change ((signals[t]?).map (·.value)).getD .null = ((l.signals[t]?).map (·.value)).getD .null
    rw [hOld t ht]
    split
    · cases l.signals[t]? <;> rfl
    · rfl
  · change l.signals[follower.signal]? = some g at hg
    have hAt : (l.withSignals signals).signal? follower.signal = signals[follower.signal]? := rfl
    rw [hAt, hOld _ h.lt_size, hg]
    split
    · exact ⟨_, rfl, hServes.add _ fun n hn => .inl hn, Nat.le_succ _⟩
    · exact ⟨g, rfl, hServes, Nat.le_refl _⟩

theorem relabeled_budded (hB : Budded l₀ l K m) {d : Dom} (hRelabeled : l.dom.Relabeled d) :
    Budded l₀ (l.withDom d) K m :=
  hB.redom { Level.refl l with } (hRelabeled.sound hB.sound)
    ⟨hRelabeled.nodes_size, hRelabeled.tag⟩
    (congrArg Array.size hRelabeled.containers) (hB.kept.trans hRelabeled.kept) (fun _ => rfl)
    fun _ => rfl

theorem projector_budded (hReady : l.Ready m) (x : Projector) :
    Budded l { l with projectors := l.projectors.push x } K m := by
  have hSturdy : Sturdy l { l with projectors := l.projectors.push x } :=
    ⟨fun _ _ => rfl, fun p y hy => ⟨y, by
      rw [Array.getElem?_push, if_neg (Nat.ne_of_lt (Array.getElem?_eq_some_iff.mp hy).1)]
      exact hy, rfl, rfl⟩, Nat.le_refl _, fun _ _ => rfl⟩
  exact .of_spared hReady (.of_sturdy hReady hReady.sound (.refl _) hSturdy (Nat.le_refl _)
    (fun _ _ => .inl) (fun hClosed _ => hSturdy.hook_quiet (fun _ => hClosed) rfl rfl) rfl rfl rfl rfl
    rfl) rfl rfl rfl rfl rfl rfl (fun _ _ => rfl) fun _ _ _ hWire => hWire.congr rfl rfl rfl

theorem create_budded (hReady : l.Ready m) (label : Dom.Label) :
    Budded l (l.withDom (l.dom.create label).1) K m :=
  .of_spared hReady (.of_grown hReady (Dom.grown_create l.dom label) (hReady.sound.create label)) rfl
    rfl rfl rfl rfl rfl (fun _ _ => rfl) fun _ _ _ hWire => hWire.congr rfl rfl rfl

/-! ## Putting together -/

/-- A node stands nowhere. -/
def Adrift (l : Live κ σ) (n : NodeId) : Prop :=
  n < l.dom.nodes.size ∧ l.dom.parent? n = none

theorem Adrift.of_dom (h : l.Adrift n) (hDom : l'.dom = l.dom) : l'.Adrift n := by
  unfold Adrift
  rwa [hDom]

theorem adrift_create (l : Live κ σ) (label : Dom.Label) :
    (l.withDom (l.dom.create label).1).Adrift l.dom.nodes.size :=
  ⟨(Forest.size_create l.dom.nodes label).symm ▸ Nat.lt_succ_self _,
    ((Dom.grown_create l.dom label).bare _ (Nat.le_refl _)).1⟩

/-- A new node that stands nowhere is put into another one. -/
theorem attach_grows (hB : Budded l₀ l (·.isCancelable = false) m) (hSound : l₀.dom.Sound)
    (hDocument : l₀.document < l₀.dom.nodes.size) {p c : NodeId} (hp : l₀.dom.nodes.size ≤ p)
    (hc : l₀.dom.nodes.size ≤ c) (hNe : p ≠ c) (hParent : l.Adrift p) (hChild : l.Adrift c)
    (calls : Calls κ σ) :
    After (attach calls (.node c) (.node p) none).run l
      (Grows l₀ (·.isCancelable = false) m fun _ l' => l'.Adrift p) := by
  by_cases hTorn : l.tornDown = true
  · unfold attach
    exact After.ensureLive (fun _ => ⟨hB, hB.tornDown ▸ hTorn⟩) fun hUp => by
      rw [hTorn] at hUp
      cases hUp
  have hUp : l.tornDown = false := Bool.eq_false_iff.mpr hTorn
  have hcKnown := hB.known hSound hc hChild.1
  have hpKnown := hB.known hSound hp hParent.1
  have hOther : ∀ n, l₀.dom.nodes.size ≤ n → l.dom.key (.node n) ≠ l.document := fun n hn hEq => by
    rw [hB.document] at hEq
    exact absurd hDocument (Nat.not_lt.mpr (hEq ▸ hn))
  have hIdle : ∀ n, l₀.dom.nodes.size ≤ n → (l.trackedOf (l.dom.key (.node n))).state = none :=
    fun n hn => (hB.young n hn).idle
  have hState : l.stateOf (.node c) = .detached := by
    rw [stateOf_of_none (hIdle c hc) (hOther c hc), shownState, Dom.isPlaced, hChild.2]
    rfl
  have hTakes : (l.stateOf (.node p)).isEnding = false := by
    rw [isEnding_stateOf, hIdle p hp]
    exact Bool.and_false _
  have hUnasked : l.Unasked (.node c) := fun o ho kind hKind => by
    obtain ⟨x, hx, -, -, hHooks⟩ := (hB.young c hc).observed o ho
    refine List.eq_nil_iff_forall_not_mem.mpr fun hook hIn => ?_
    obtain ⟨y, hy, e, he, rfl, -⟩ := mem_hooksFor.mp hIn
    cases hx.symm.trans hy
    rw [(hHooks e he).1] at hKind
    cases hKind
  obtain ⟨d', hInsert⟩ : ∃ d', l.dom.insertBefore p c none = .ok d' :=
    Dom.exists_insertBefore fun _ hx => by cases hx
  have hPlace : l.dom.place (.node c) (.node p) none = .ok d' := hInsert
  obtain ⟨hPlaced, hBoxes⟩ := Dom.insertBefore_ok hB.sound.linked hParent.1 hChild.1 hInsert
  have hHoused : Dom.Housed l.dom d' (.node c) p none :=
    Dom.Sound.housed_of_placed hPlaced hBoxes fun _ hEq => by cases hEq
  have hHost : l.dom.Host (.node c) p := by
    refine ⟨hParent.1, fun k hk hUp => ?_, fun b hb part hEq => ?_⟩
    · rw [Dom.mem_runOf_node.mp hk] at hUp
      rcases hUp.cases_first with hEq | ⟨q, hq, -⟩
      · exact hNe hEq
      · cases hParent.2.symm.trans hq
    · exact absurd hEq (hpKnown.ne_part b hb part)
  have hRun : ∀ k, k ∈ l.dom.runOf (.node c) ↔ k = c := fun k => Dom.mem_runOf_node
  have hKept : l₀.dom.Kept d' := by
    refine ⟨hHoused.nodes_size ▸ hB.kept.nodes_size, hHoused.size ▸ hB.kept.size,
      fun n hn => ?_, fun n hn => ?_, fun n hn => ?_, fun b hb => ?_, fun b hOld hNew part => ?_⟩
    · rw [hHoused.parent, if_neg (mt (hRun n).mp (Nat.ne_of_lt (Nat.lt_of_lt_of_le hn hc)))]
      exact hB.kept.parent n hn
    · rw [hHoused.children, if_neg (Nat.ne_of_lt (Nat.lt_of_lt_of_le hn hp)),
        List.filter_eq_self.mpr, hB.kept.children n hn]
      intro k hk
      refine decide_eq_true fun hIn => ?_
      rw [(hRun k).mp hIn] at hk
      cases hChild.2.symm.trans (hB.sound.mem_children.mp hk)
    · rw [Dom.label, hHoused.label]
      exact hB.kept.tag n hn
    · rw [Dom.container, hBoxes]
      exact hB.kept.container b hb
    · rw [hHoused.part]
      exact hB.kept.fresh b hOld (hHoused.size ▸ hNew) part
  have hTags : ∀ k, (d'.label k).tag? = (l.dom.label k).tag? := fun k => by
    rw [Dom.label, hHoused.label]
    rfl
  have hLevel : ∀ {l₁}, Twin (l.withDom d') l₁ → Budded l₀ l₁ (·.isCancelable = false) m :=
    fun {l₁} hTwin => by
      have hDom : l₁.dom = d' := hTwin.dom
      refine hB.redom { hTwin with } ?_ ?_ ?_ ?_ hTwin.tracked hTwin.core
      · exact hDom ▸ hHoused.sound hB.sound hcKnown hHost
      · exact hDom ▸ ⟨hHoused.nodes_size, hTags⟩
      · exact hDom ▸ hHoused.size
      · exact hDom ▸ hKept
  refine (after_attach (Q := fun l₂ => Twin (l.withDom d') l₂) hUp hState (hIdle c hc) hTakes hUnasked
    hPlace rfl fun l₁ hTwin => ?_).mono ?_
  · rw [(hLevel hTwin).not_connected hSound hDocument hc, if_neg Bool.false_ne_true]
    exact hTwin
  · rintro _ l' ⟨rfl, l₂, hTwin₂, hTwin⟩
    have hTwin' := hTwin₂.trans hTwin
    refine ⟨hLevel hTwin', ?_, ?_⟩
    · rw [hTwin'.dom]
      exact hHoused.nodes_size ▸ hParent.1
    · rw [hTwin'.dom]
      exact (hHoused.parent p).trans ((if_neg (mt (hRun p).mp hNe)).trans hParent.2)

/-! ## Rendering -/

end LiveMarkup.Live

namespace LiveMarkup

open Live

/-- An operation that sets an attribute, or binds something else than a text to a path of which the
first name is known. Where there is a host it may listen to events as well. -/
def Operation.Bare (known : String → Prop) (hosted : Bool) : Operation → Prop
  | .setAttribute _ _ => True
  | .bind target source => source.Plain known ∧ (Aspect.ofTarget target).isText = false
  | .listen _ _ => hosted = true

/-- An instruction that holds no conditional, loop or switch. -/
inductive Instruction.Bare (known : String → Prop) (hosted : Bool) : Instruction → Prop
  | element {tag : String} {operations : List Operation} {children : List Instruction}
    (hOperations : ∀ op ∈ operations, op.Bare known hosted)
    (hChildren : ∀ child ∈ children, Bare known hosted child) :
    Bare known hosted (.element tag operations children)
  | text (value : String) : Bare known hosted (.text value)
  | dynamicText {source : ValueSource} (h : source.Plain known) :
    Bare known hosted (.dynamicText source)

theorem Instruction.Bare.mono {known known' : String → Prop} {hosted : Bool} {i : Instruction}
    (h : i.Bare known hosted) (hKnown : ∀ name, known name → known' name) :
    i.Bare known' hosted := by
  induction h with
  | element hOperations _ ih =>
    refine .element (fun op hOp => ?_) ih
    have hOf := hOperations op hOp
    cases op with
    | setAttribute => trivial
    | bind => exact hOf.imp_left (ValueSource.Plain.mono · hKnown)
    | listen => exact hOf
  | text value => exact .text value
  | dynamicText hSource => exact .dynamicText (ValueSource.Plain.mono hSource hKnown)

namespace Live

variable {κ σ α β : Type} {l₀ l l₁ l' : Live κ σ} {m : Leeway κ} {n : NodeId}
variable {scope : Scope} {hosted : Bool} {calls : Calls κ σ}

section Rendering

variable (hReady : l₀.Ready m) (hDocument : l₀.document < l₀.dom.nodes.size)
variable (hWrites : m.writes = true)
variable (hWired : ∀ f, m.spared f → ∃ registered, l₀.Wire f registered)

include hWrites in
/-- The signal of a path is there or derived. -/
theorem sourceSignal_grows (hB : Budded l₀ l (·.isCancelable = false) m) {source : ValueSource}
    (h : source.Plain scope.Knows) :
    After (sourceSignal calls hosted scope source).run l
      (Grows l₀ (·.isCancelable = false) m fun _ l' => l'.dom = l.dom) := by
  cases source with
  | expression code => exact h.elim
  | reference path =>
    obtain ⟨p, hParse, hKnown⟩ := h
    obtain ⟨root, hRoot⟩ := Option.isSome_iff_exists.mp hKnown
    unfold sourceSignal
    refine After.sure_bind (m := fun found l' => found.isSome ∧
      Budded l₀ l' (·.isCancelable = false) m ∧ l'.dom = l.dom) ?_ ?_
    · simp only [resolve, hParse, hRoot]
      split
      · exact ⟨rfl, hB, rfl⟩
      · exact (derive_budded hB.toReady hWrites root _).bind fun _ l' h' =>
          ⟨rfl, hB.trans h'.1, h'.2⟩
    · rintro found l' ⟨hFound, hB', hDom⟩
      cases found with
      | none => cases hFound
      | some signal => exact ⟨hB', hDom⟩

include hReady hDocument hWrites hWired

/-- A new node is bound to a signal. -/
theorem bindAspect_grows (hB : Budded l₀ l (·.isCancelable = false) m)
    (hn : l₀.dom.nodes.size ≤ n) (hLt : n < l.dom.nodes.size) {aspect : Aspect}
    (hFits : aspect.isText = true → (l.dom.label n).tag? = none) (signal : SignalId) :
    After (bindAspect calls n aspect signal false).run l
      (Grows l₀ (·.isCancelable = false) m fun _ l' => l'.dom = l.dom) := by
  unfold bindAspect
  refine After.get_act ?_
  refine After.sure_run (t := { l with
    projectors := l.projectors.push { node := n, aspect } }) (by rfl) ?_
  have hB₁ := hB.trans (projector_budded hB.toReady { node := n, aspect })
  refine bind_grows hB₁ hReady.sound hDocument hn hLt hWired (fun _ => id)
    (.signal signal (.projector l.projectors.size)) ⟨⟨hWrites, _, Array.getElem?_push_size,
      fun hText => ⟨hLt, hFits hText⟩⟩, hB₁.closed⟩ false

theorem perform_grows (hB : Budded l₀ l (·.isCancelable = false) m) (hn : l₀.dom.nodes.size ≤ n)
    (hLoose : l.Adrift n) {op : LiveMarkup.Operation} (h : op.Bare scope.Knows hosted) :
    After (perform calls hosted scope n op).run l
      (Grows l₀ (·.isCancelable = false) m fun _ l' => l'.Adrift n) := by
  cases op with
  | setAttribute name value =>
    have hRelabeled := Dom.relabeled_withAttributes l.dom n
    refine ⟨relabeled_budded hB (hRelabeled _), ?_, ?_⟩
    · exact (hRelabeled _).nodes_size ▸ hLoose.1
    · exact ((hRelabeled _).parent n).trans hLoose.2
  | bind target source =>
    refine Grows.bind (sourceSignal_grows hWrites hB h.1) fun signal l₁ hB₁ hDom₁ => ?_
    refine Grows.bind (bindAspect_grows hReady hDocument hWrites hWired hB₁ hn (hDom₁ ▸ hLoose.1)
      (fun hText => by rw [h.2] at hText; cases hText) signal) fun _ l₂ hB₂ hDom₂ => ?_
    exact ⟨hB₂, hLoose.of_dom (hDom₂.trans hDom₁)⟩
  | listen event handler =>
    rw [perform, if_pos (show hosted = true from h)]
    refine Grows.bind (bind_grows hB hReady.sound hDocument hn hLoose.1 hWired (fun _ => id)
      (.event n event (.code handler scope)) trivial false) fun _ l₁ hB₁ hDom₁ => ?_
    exact ⟨hB₁, hLoose.of_dom hDom₁⟩

end Rendering

/-- A state in which something can be rendered: what is to be left alone is wired. -/
structure Ample (l : Live κ σ) (m : Leeway κ) : Prop extends Ready l m where
  document : l.document < l.dom.nodes.size
  writes : m.writes = true
  wired : ∀ f, m.spared f → ∃ registered, l.Wire f registered

theorem Budded.remains_ample (hB : Budded l₀ l K m) (h : l₀.Ample m) : l.Ample m :=
  ⟨hB.toReady, hB.document_lt h.document, h.writes, fun f hf =>
    (h.wired f hf).imp fun registered hWire => hB.wires f hf registered hWire⟩

/-- A new node stands nowhere yet. -/
def Sprout (l : Live κ σ) (r : NodeRef) (l' : Live κ σ) : Prop :=
  ∃ n, r = .node n ∧ l.dom.nodes.size ≤ n ∧ l'.Adrift n

/-- Children are rendered, and put into their parent one after the other. -/
theorem renderInto_grows (hAmple : l₀.Ample m) {is : List Instruction}
    (h : ∀ i ∈ is, ∀ l : Live κ σ, l.Ample m → After (render calls hosted scope i).run l
      (Grows l (·.isCancelable = false) m (Sprout l)))
    (hB : Budded l₀ l (·.isCancelable = false) m) (hn : l₀.dom.nodes.size ≤ n)
    (hParent : l.Adrift n) : After (renderInto calls hosted scope (.node n) is).run l
      (Grows l₀ (·.isCancelable = false) m fun _ l' => l'.Adrift n) := by
  induction is generalizing l with
  | nil => exact ⟨hB, hParent⟩
  | cons i rest ih =>
    refine Grows.bind ((h i List.mem_cons_self l (hB.remains_ample hAmple)).mono fun _ _ hGrows =>
      hGrows.after hB) ?_
    rintro _ l₁ hB₁ ⟨⟨c, rfl, hc, hChild⟩, hSince⟩
    have hParent₁ : l₁.Adrift n := ⟨Nat.lt_of_lt_of_le hParent.1 hSince.kept.nodes_size,
      (hSince.kept.parent n hParent.1).trans hParent.2⟩
    refine Grows.bind (attach_grows hB₁ hAmple.sound hAmple.document hn
      (Nat.le_trans hB.kept.nodes_size hc) (Nat.ne_of_lt (Nat.lt_of_lt_of_le hParent.1 hc)) hParent₁
      hChild calls) fun _ l₂ hB₂ hParent₂ => ?_
    exact ih (fun j hj => h j (List.mem_cons_of_mem i hj)) hB₂ hParent₂

/-- Rendering makes a new node and leaves alone all that was there. -/
theorem render_grows {i : Instruction} (hi : i.Bare scope.Knows hosted) {l : Live κ σ}
    (h : l.Ample m) : After (render calls hosted scope i).run l
      (Grows l (·.isCancelable = false) m (Sprout l)) := by
  induction hi generalizing l with
  | @element tag operations children hOperations _ ih =>
    let label := Dom.Label.element (Text.lowerAscii tag) []
    rw [render]
    refine After.sure_run (b := l.dom.nodes.size) (t := l.withDom (l.dom.create label).1) rfl ?_
    have hB := create_budded (K := (·.isCancelable = false)) h.toReady label
    refine Grows.bind (Grows.forM hB (adrift_create l label) fun op hOp l₁ hB₁ hLoose₁ =>
      perform_grows h.toReady h.document h.writes h.wired hB₁ (Nat.le_refl _) hLoose₁
        (hOperations op hOp)) fun _ l₁ hB₁ hLoose₁ => ?_
    refine Grows.bind (renderInto_grows h (fun c hc l hAmple => ih c hc hAmple) hB₁ (Nat.le_refl _)
      hLoose₁) fun _ l₂ hB₂ hLoose₂ => ?_
    exact ⟨hB₂, _, rfl, Nat.le_refl _, hLoose₂⟩
  | text value =>
    rw [render]
    exact ⟨create_budded h.toReady (.text value), _, rfl, Nat.le_refl _, adrift_create l (.text value)⟩
  | dynamicText hSource =>
    rw [render]
    refine After.sure_run (b := l.dom.nodes.size) (t := l.withDom (l.dom.create (.text "")).1) rfl
      ?_
    have hB := create_budded (K := (·.isCancelable = false)) h.toReady (.text "")
    have hLoose := adrift_create l (.text "")
    have hLabel : (l.dom.create (.text "")).1.label l.dom.nodes.size = .text "" :=
      Dom.label_create l.dom _
    refine Grows.bind (sourceSignal_grows h.writes hB hSource) fun signal l₁ hB₁ hDom₁ => ?_
    refine Grows.bind (bindAspect_grows h.toReady h.document h.writes h.wired hB₁ (Nat.le_refl _)
      (hLoose.of_dom hDom₁).1 (fun _ => ?_) signal) fun _ l₂ hB₂ hDom₂ => ?_
    · rw [hDom₁]
      exact congrArg Dom.Label.tag? hLabel
    · exact ⟨hB₂, _, rfl, Nat.le_refl _, (hLoose.of_dom hDom₁).of_dom hDom₂⟩

/-- The item of a list is rendered with its value, and an index that follows its cursor. -/
theorem renderItem_grows {loop : Loop} {body : Instruction}
    (hBody : body.Bare (fun name => name ∈ loop.names ∨ scope.Knows name) hosted) (h : l.Ample m)
    (value : Value) (cursor : SignalId) :
    After (renderItem calls hosted scope loop body value cursor).run l
      (Grows l (·.isCancelable = false) m (Sprout l)) := by
  unfold renderItem
  refine After.sure_bind (derive_budded (K := (·.isCancelable = false)) h.toReady h.writes cursor
    id) ?_
  rintro index l₁ ⟨hB₁, hDom₁⟩
  refine After.sure_bind (newSignal_budded (K := (·.isCancelable = false)) hB₁.toReady value) ?_
  rintro item l₂ ⟨hB₂, hDom₂⟩
  have hB := hB₁.trans hB₂
  refine (render_grows (hBody.mono fun _ => Scope.isSome_lookup?_frame)
    (hB.remains_ample h)).mono fun _ _ hGrows => (hGrows.after hB).imp ?_
  rintro _ ⟨⟨n, hEq, hn, hLoose⟩, -⟩
  exact ⟨n, hEq, hDom₁ ▸ hDom₂ ▸ hn, hLoose⟩

/-! ## Factories -/

section Sprouting

variable {r : NodeRef} {out : Except Fault NodeRef}
variable (h : Grows l K m (Sprout l) out l') (hSound : l.dom.Sound)
include h hSound

theorem Grows.fresh (hOut : out = .ok r) : Fresh l l' r m ∧ l'.Posted r := by
  subst hOut
  obtain ⟨hB, n, rfl, hn, hLoose⟩ := h
  exact hB.fresh hSound hn hLoose.1 hLoose.2

theorem Grows.built (hUp : l.tornDown = false) : ∃ r, out = .ok r ∧ Built l l' r m := by
  obtain ⟨hB, hOut⟩ := h
  cases out with
  | error e =>
    rw [hUp] at hOut
    cases hOut
  | ok r =>
    obtain ⟨n, rfl, hn, hLoose⟩ := hOut
    exact ⟨_, rfl, hB.built hSound hn hLoose.1 hLoose.2⟩

end Sprouting

/-- A factory of items makes them, unless the document was torn down. -/
theorem Makes.of_grows {factory : ItemFactory κ} (h : ∀ l value cursor, l.Ready m →
    l.document < l.dom.nodes.size → After (calls.buildItem factory value cursor).run l
      (Grows l K m (Sprout l))) : Makes calls factory m where
  crafts l value cursor hReady hDocument _ _ := (h l value cursor hReady hDocument).mono
    fun _ _ hGrows => ⟨hGrows.1.toSpared, fun s hs _ => hGrows.1.values s hs, fun _ hOut =>
      (hGrows.fresh hReady.sound hOut).1⟩
  succeeds l value cursor hReady hDocument hUp _ _ := (h l value cursor hReady hDocument).mono
    fun _ _ hGrows => (hGrows.built hReady.sound hUp).imp fun _ hOut =>
      ⟨hOut.1, (hGrows.fresh hReady.sound hOut.1).2⟩

/-- So is a bare item of a list, where nothing is to be left alone. -/
theorem body_makes (client : Client κ σ) (depth : Nat) {loop : Loop} {body : Instruction}
    (hBody : body.Bare (fun name => name ∈ loop.names ∨ scope.Knows name) hosted)
    (hWrites : m.writes = true) (hSpared : ∀ f, ¬ m.spared f) :
    Makes (Calls.upTo client (depth + 1)) (.body loop body scope hosted) m :=
  .of_grows fun _ value cursor hReady hDocument =>
    renderItem_grows hBody ⟨hReady, hDocument, hWrites, fun f hf => absurd hf (hSpared f)⟩ value
      cursor

/-- An item with its number as an attribute, which shows a field of its value. -/
def numberedItem : Instruction :=
  .element "li" [.bind (.attr "value") (.reference "i")] [.dynamicText (.reference "x.name")]

theorem numberedItem_bare {known : String → Prop} (hItem : known "x") (hIndex : known "i") :
    numberedItem.Bare known false := by
  refine .element (fun op hOp => ?_) fun child hChild => ?_
  · rw [List.mem_singleton.mp hOp]
    exact ⟨⟨⟨"i", []⟩, rfl, hIndex⟩, rfl⟩
  · rw [List.mem_singleton.mp hChild]
    exact .dynamicText ⟨⟨"x", [.key "name"]⟩, rfl, hItem⟩

/-- It is made for the items of a loop. -/
def ItemFactory.numbered : ItemFactory κ :=
  .body { item := "x", iterable := .reference "xs", aliases := [⟨"index", "i"⟩] } numberedItem {} false

theorem numbered_makes (client : Client κ σ) (depth : Nat) (hWrites : m.writes = true)
    (hSpared : ∀ f, ¬ m.spared f) : Makes (Calls.upTo client (depth + 1)) .numbered m :=
  body_makes client depth (numberedItem_bare (.inl (by decide)) (.inl (by decide))) hWrites hSpared

/-- It is made where both of its names belong to the first signal. -/
def NodeFactory.numbered : NodeFactory κ :=
  .body numberedItem { frames := [[("i", 0), ("x", 0)]] } false

theorem createElement_budded (hReady : l.Ready m) (tag : String) :
    After (makeInDom (κ := κ) (σ := σ) fun d => d.createElement tag) l fun n l' =>
      Budded l l' K m ∧ n = l.dom.nodes.size ∧ l'.Adrift n :=
  ⟨create_budded hReady _, rfl, adrift_create l _⟩

/-- The client puts a hook on a new element. -/
theorem hookElement_grows (hReady : l.Ready m) (hDocument : l.document < l.dom.nodes.size)
    (tag : String) {kind : EventKind} (hKind : K kind) (k : κ) :
    After (do
        let n ← sure (makeInDom fun d => d.createElement tag)
        let o ← observe (.node n)
        let _ ← sure (addHook o kind (.client k))
        pure (.node n) : Act κ σ NodeRef).run l (Grows l K m (Sprout l)) := by
  refine After.sure_bind (createElement_budded (K := K) hReady tag) ?_
  rintro _ l₁ ⟨hB₁, rfl, hLoose₁⟩
  refine Grows.bind (observe_grows hB₁ hReady.sound hDocument (Nat.le_refl _) hLoose₁.1) ?_
  rintro o l₂ hB₂ ⟨hDom₂, -, ho⟩
  have hLoose₂ := hLoose₁.of_dom hDom₂
  refine After.sure_bind (addHook_budded hB₂ (Nat.le_refl _) hLoose₂.1 ho hKind
    (.client k) ⟨trivial, fun _ _ hEq => by cases hEq⟩) ?_
  rintro _ l₃ ⟨hB₃, hDom₃, -⟩
  exact ⟨hB₃, _, rfl, Nat.le_refl _, hLoose₂.of_dom hDom₃⟩

theorem createContainer_fresh (hReady : l.Ready m) (hl' : l' = l.withDom l.dom.createContainer.1) :
    Spared l l' m ∧ Fresh l l' (.container l.dom.containers.size) m ∧
      l'.Posted (.container l.dom.containers.size) := by
  have hDom : l'.dom = l.dom.createContainer.1 := by rw [hl']; rfl
  have hSpan := Dom.span_createContainer l.dom
  have hPart := Dom.part_createContainer l.dom
  have hKey : l'.dom.key (.container l.dom.containers.size) = l.dom.nodes.size := by
    rw [hDom]
    exact hPart .start
  have hNone : l'.trackedOf l.dom.nodes.size = {} := by
    rw [hl']
    exact hReady.untracked _ (Nat.le_refl _)
  have hOnly : ∀ k ∈ l'.dom.subtree (.container l.dom.containers.size), l'.trackedOf k = {} := by
    intro k hk
    rw [Dom.subtree, ← Dom.key, hKey, hDom, hSpan] at hk
    rwa [List.mem_singleton.mp hk]
  refine ⟨hl' ▸ .of_grown hReady (Dom.grown_createContainer l.dom) hReady.sound.createContainer,
    ⟨?_, ?_, fun k hk => ?_, by rw [hKey, hNone], fun o ho => ?_⟩, fun k hk o x ho => ?_⟩
  · change _ < l'.dom.containers.size
    rw [hDom, Dom.size_createContainer]
    exact Nat.lt_succ_self _
  · rw [Dom.isPlaced, hDom, Dom.container_createContainer, if_pos rfl]
  · rw [Dom.mem_run, hDom, hSpan, hPart, hPart] at hk
    rcases hk with rfl | hk | rfl
    · exact Nat.le_add_right _ _
    · cases hk
    · exact Nat.le_add_right _ _
  · obtain ⟨k, hk, hSome⟩ := List.mem_filterMap.mp ho
    rw [hOnly k hk] at hSome
    cases hSome
  · rw [hOnly k hk] at ho
    cases ho

end Live

end LiveMarkup
