import LiveMarkup.Proofs.Live.Running
import Mathlib.Data.List.Nodup

/-!
# Wires

A conditional or a switch is a container with a binding. While the container is connected, the
subscription of the binding is on: a watcher with a number of its own passes the value of a signal to
a sink.

* `Follower`, `Wire`: the binding of a container, and what it is connected to;
* `Wire.other`, `Wire.listening`: other subscriptions do not get in the way of that.
-/

namespace LiveMarkup.Live

variable {κ σ : Type} {l l' : Live κ σ}

/-! ## Tables -/

theorem signal?_modify (l : Live κ σ) (s t : SignalId) (f : Signal κ → Signal κ) :
    signal? { l with signals := l.signals.modify s f } t =
      if s = t then (l.signal? t).map f else l.signal? t := by
  simp only [signal?, Array.getElem?_modify]

theorem subscription?_modify (l : Live κ σ) (s t : SubscriptionId)
    (f : Subscription κ → Subscription κ) :
    subscription? { l with subscriptions := l.subscriptions.modify s f } t =
      if s = t then (l.subscription? t).map f else l.subscription? t := by
  simp only [subscription?, Array.getElem?_modify]

theorem binding?_modify (l : Live κ σ) (b c : BindingId) (f : Binding → Binding) :
    binding? { l with bindings := l.bindings.modify b f } c =
      if b = c then (l.binding? c).map f else l.binding? c := by
  simp only [binding?, Array.getElem?_modify]

theorem conditional?_modify (l : Live κ σ) (c d : ConditionalId)
    (f : Conditional κ → Conditional κ) :
    conditional? { l with conditionals := l.conditionals.modify c f } d =
      if c = d then (l.conditional? d).map f else l.conditional? d := by
  simp only [conditional?, Array.getElem?_modify]

theorem switch?_modify (l : Live κ σ) (s t : SwitchId) (f : Switch κ → Switch κ) :
    switch? { l with switches := l.switches.modify s f } t =
      if s = t then (l.switch? t).map f else l.switch? t := by
  simp only [switch?, Array.getElem?_modify]

/-! ## Watchers -/

/-- The watchers of a signal have numbers, and one of them is a sink while that is registered. -/
structure Signal.Serves (g : Signal κ) (sink : Sink κ) (registered : Option Nat) : Prop where
  lt_next : ∀ w ∈ g.watchers, w.number < g.nextWatcher
  nodup : (g.watchers.map (·.number)).Nodup
  present : ∀ n, registered = some n → ⟨n, sink⟩ ∈ g.watchers

namespace Signal.Serves

variable {g : Signal κ} {sink : Sink κ} {registered : Option Nat} {n : Nat}

theorem split (h : g.Serves sink (some n)) : ∃ before after,
    g.watchers = before ++ ⟨n, sink⟩ :: after ∧
      ∀ w ∈ before ++ after, w ∈ g.watchers ∧ w.number ≠ n := by
  obtain ⟨before, after, hSplit⟩ := List.append_of_mem (h.present n rfl)
  refine ⟨before, after, hSplit, fun w hw => ⟨?_, fun hEq => ?_⟩⟩
  · rw [hSplit]
    rcases List.mem_append.mp hw with hw | hw
    · exact List.mem_append_left _ hw
    · exact List.mem_append_right _ (List.mem_cons_of_mem _ hw)
  · have hNodup := h.nodup
    rw [hSplit, List.map_append, List.map_cons, List.nodup_middle, List.nodup_cons,
      ← List.map_append] at hNodup
    have hNumber : w.number ∈ (before ++ after).map (·.number) := List.mem_map_of_mem hw
    exact hNodup.1 (hEq ▸ hNumber)

theorem given (h : g.Serves sink registered) (value : Value) :
    { g with value }.Serves sink registered :=
  ⟨h.lt_next, h.nodup, h.present⟩

/-- One more watcher, with the next number. -/
theorem add (h : g.Serves sink registered) (other : Sink κ) {registered' : Option Nat}
    (hPresent : ∀ n, registered' = some n → registered = some n ∨ n = g.nextWatcher ∧ other = sink) :
    { g with
      watchers := g.watchers ++ [(⟨g.nextWatcher, other⟩ : Signal.Watcher κ)]
      nextWatcher := g.nextWatcher + 1 }.Serves sink registered' where
  lt_next w hw := by
    rcases List.mem_append.mp hw with hw | hw
    · exact Nat.lt_succ_of_lt (h.lt_next w hw)
    · rw [List.mem_singleton.mp hw]
      exact Nat.lt_succ_self _
  nodup := by
    rw [List.map_append, List.map_singleton, List.nodup_append]
    refine ⟨h.nodup, List.nodup_singleton _, ?_⟩
    rintro _ hn m hm
    obtain ⟨w, hw, rfl⟩ := List.mem_map.mp hn
    rw [List.mem_singleton.mp hm]
    exact Nat.ne_of_lt (h.lt_next w hw)
  present n hn := by
    rcases hPresent n hn with hOld | ⟨rfl, rfl⟩
    · exact List.mem_append_left _ (h.present n hOld)
    · exact List.mem_append_right _ (List.mem_singleton.mpr rfl)

theorem drop (h : g.Serves sink registered) (number : Nat) {registered' : Option Nat}
    (hPresent : ∀ n, registered' = some n → registered = some n ∧ n ≠ number) :
    { g with watchers := g.watchers.filter fun w => !(w.number == number) }.Serves sink
      registered' where
  lt_next w hw := h.lt_next w (List.mem_filter.mp hw).1
  nodup := h.nodup.sublist (List.filter_sublist.map _)
  present n hn := by
    obtain ⟨hOld, hNe⟩ := hPresent n hn
    exact List.mem_filter.mpr ⟨h.present n hOld, by simpa using hNe⟩

end Signal.Serves

/-! ## Wires -/

/-- A container with an observer and a binding that passes the values of a signal to a sink. -/
structure Follower (κ : Type) where
  box : ContainerId
  observer : ObserverId
  binding : BindingId
  subscription : SubscriptionId
  signal : SignalId
  sink : Sink κ

variable {f : Follower κ} {registered : Option Nat}

/-- The binding of a follower has not ended, its subscription belongs to no other one, and no other
subscription to the signal has the number that it is registered with. -/
structure Wire (l : Live κ σ) (f : Follower κ) (registered : Option Nat) : Prop where
  binding : ∃ held, l.binding? f.binding = some { subscription := f.subscription, held }
  own : ∀ b x, l.binding? b = some x → x.subscription = f.subscription → b = f.binding
  subscription : l.subscription? f.subscription = some { feed := .signal f.signal f.sink, registered }
  signal : ∃ g, l.signal? f.signal = some g ∧ g.Serves f.sink registered ∧
    ∀ s sink n, s ≠ f.subscription →
      l.subscription? s = some { feed := .signal f.signal sink, registered := some n } →
      registered ≠ some n ∧ n < g.nextWatcher

namespace Wire

theorem congr (h : l.Wire f registered) (hBindings : l'.bindings = l.bindings)
    (hSubscriptions : l'.subscriptions = l.subscriptions) (hSignals : l'.signals = l.signals) :
    l'.Wire f registered := by
  obtain ⟨hBinding, hOwn, hSubscription, hSignal⟩ := h
  unfold binding? at hBinding hOwn
  unfold subscription? at hSubscription hSignal
  unfold signal? at hSignal
  rw [← hBindings] at hBinding
  rw [← hBindings] at hOwn
  rw [← hSubscriptions] at hSubscription
  rw [← hSubscriptions, ← hSignals] at hSignal
  exact ⟨hBinding, hOwn, hSubscription, hSignal⟩

theorem lt_size (h : l.Wire f registered) : f.signal < l.signals.size := by
  obtain ⟨g, hg, -⟩ := h.signal
  exact (Array.getElem?_eq_some_iff.mp hg).1

/-- A change of another subscription, and of the watchers of what it is to. -/
theorem other (h : l.Wire f registered) {s : SubscriptionId} (hs : s ≠ f.subscription)
    {t : SignalId} {sink : Sink κ} {before : Option Nat}
    (hSub : l.subscription? s = some { feed := .signal t sink, registered := before })
    (F : Signal κ → Signal κ) (after : Option Nat)
    (hF : ∀ g, l.signal? t = some g → t = f.signal → g.Serves f.sink registered →
      (∀ n, before = some n → registered ≠ some n) →
      (F g).Serves f.sink registered ∧ g.nextWatcher ≤ (F g).nextWatcher ∧
        ∀ n, after = some n → registered ≠ some n ∧ n < (F g).nextWatcher) :
    Wire { l with
      signals := l.signals.modify t F
      subscriptions := l.subscriptions.modify s fun x => { x with registered := after } }
      f registered := by
  obtain ⟨g, hg, hServes, hOthers⟩ := h.signal
  refine ⟨h.binding, h.own, ?_, ?_⟩
  · refine (subscription?_modify l s f.subscription _).trans ?_
    rw [if_neg hs]
    exact h.subscription
  have hSubs : ∀ s', subscription? { l with
      signals := l.signals.modify t F
      subscriptions := l.subscriptions.modify s fun x => { x with registered := after } } s' =
        if s = s' then (l.subscription? s').map fun x => { x with registered := after }
        else l.subscription? s' := fun s' => subscription?_modify l s s' _
  by_cases ht : t = f.signal
  · subst ht
    obtain ⟨hServes', hNext, hAfter⟩ := hF g hg rfl hServes fun n hn => by
      subst hn
      exact (hOthers s sink n hs hSub).1
    refine ⟨F g, ?_, hServes', fun s' sink' n hs' hSub' => ?_⟩
    · refine (signal?_modify l f.signal f.signal F).trans ?_
      rw [if_pos rfl, hg]
      rfl
    · rw [hSubs] at hSub'
      split at hSub'
      · rename_i hEq
        subst hEq
        rw [hSub] at hSub'
        exact hAfter n (congrArg Subscription.registered (Option.some.inj hSub'))
      · obtain ⟨hNe, hLt⟩ := hOthers s' sink' n hs' hSub'
        exact ⟨hNe, Nat.lt_of_lt_of_le hLt hNext⟩
  · refine ⟨g, ?_, hServes, fun s' sink' n hs' hSub' => ?_⟩
    · refine (signal?_modify l t f.signal F).trans ?_
      rw [if_neg ht]
      exact hg
    · rw [hSubs] at hSub'
      split at hSub'
      · rename_i hEq
        subst hEq
        rw [hSub] at hSub'
        have hFeed := congrArg Subscription.feed (Option.some.inj hSub')
        exact absurd (Feed.signal.inj hFeed).1 ht
      · exact hOthers s' sink' n hs' hSub'

/-- A change of a subscription to an event. -/
theorem listening (h : l.Wire f registered) {s : SubscriptionId} {node : NodeId} {event : String}
    {handler : Handler κ} {before : Option Nat}
    (hSub : l.subscription? s = some { feed := .event node event handler, registered := before })
    (after : Option Nat) :
    Wire { l with
      subscriptions := l.subscriptions.modify s fun x => { x with registered := after } }
      f registered := by
  obtain ⟨g, hg, hServes, hOthers⟩ := h.signal
  have hs : s ≠ f.subscription := by
    rintro rfl
    rw [h.subscription] at hSub
    cases congrArg Subscription.feed (Option.some.inj hSub)
  refine ⟨h.binding, h.own, ?_, g, hg, hServes, fun s' sink n hs' hSub' => ?_⟩
  · rw [subscription?_modify, if_neg hs]
    exact h.subscription
  · rw [subscription?_modify] at hSub'
    split at hSub'
    · rename_i hEq
      subst hEq
      rw [hSub] at hSub'
      cases congrArg Subscription.feed (Option.some.inj hSub')
    · exact hOthers s' sink n hs' hSub'

theorem given (h : l.Wire f registered) (s : SignalId) (value : Value) :
    ({ l with signals := l.signals.modify s fun g => { g with value } } : Live κ σ).Wire f
      registered := by
  obtain ⟨g, hg, hServes, hOthers⟩ := h.signal
  refine ⟨h.binding, h.own, h.subscription, ?_⟩
  by_cases hs : s = f.signal
  · refine ⟨{ g with value }, ?_, hServes.given value, hOthers⟩
    rw [signal?_modify, if_pos hs, hg]
    rfl
  · refine ⟨g, ?_, hServes, hOthers⟩
    rw [signal?_modify, if_neg hs, hg]

end Wire

end LiveMarkup.Live
