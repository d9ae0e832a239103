import LiveMarkup.Proofs.Mirror.Maintained

/-!
# Switching followers

The steps by which signals get values and followers are told, switched on and switched off. None
of them touches the tree or what is kept.

* `Maintained.set`: a signal gets a value, and all that watches it is behind;
* `Maintained.connected`, `Maintained.registered`: a follower is told that it reaches the document,
  and is switched on;
* `Maintained.hushed`: a follower is told that it does not, and is switched off.
-/

namespace LiveMarkup.Live

variable {κ σ : Type} {π : Plan} {P : Pending} {l l' : Live κ σ}
variable {u w : BindingId} {s t : SignalId} {sink : Sink κ} {r : NodeRef}

/-! ## What stays -/

/-- A change of statuses, of watchers and of values: nothing is made or taken away. -/
structure Unmoved (l l' : Live κ σ) : Prop where
  tornDown : l'.tornDown = l.tornDown
  document : l'.document = l.document
  dom : l'.dom = l.dom
  tracked : ∀ n, l'.trackedOf n = l.trackedOf n
  bindings : l'.bindings = l.bindings
  projectors : l'.projectors = l.projectors
  conditionals : l'.conditionals = l.conditionals
  switches : l'.switches = l.switches
  series : l'.series = l.series
  clock : l'.clock = l.clock
  observers_size : l'.observers.size = l.observers.size
  signals_size : l'.signals.size = l.signals.size
  subscriptions_size : l'.subscriptions.size = l.subscriptions.size
  core : ∀ o, (l'.core? o).map (fun x => (x.target, x.hooks)) =
    (l.core? o).map fun x => (x.target, x.hooks)
  ended : ∀ o, l'.statusOf o = .destroyed ↔ l.statusOf o = .destroyed
  feed : ∀ u : Nat, (l'.subscriptions[u]?).map (·.feed) = (l.subscriptions[u]?).map (·.feed)
  derives : ∀ s n d f, ⟨n, .derived d f⟩ ∈ l'.watchersOf s ↔ ⟨n, .derived d f⟩ ∈ l.watchersOf s

namespace Unmoved

theorem refl (l : Live κ σ) : Unmoved l l where
  tornDown := rfl
  document := rfl
  dom := rfl
  tracked _ := rfl
  bindings := rfl
  projectors := rfl
  conditionals := rfl
  switches := rfl
  series := rfl
  clock := rfl
  observers_size := rfl
  signals_size := rfl
  subscriptions_size := rfl
  core _ := rfl
  ended _ := Iff.rfl
  feed _ := rfl
  derives _ _ _ _ := Iff.rfl

variable (h : Unmoved l l')
include h

theorem target (o : ObserverId) : (l'.core? o).map (·.target) = (l.core? o).map (·.target) := by
  have hCore := congrArg (Option.map Prod.fst) (h.core o)
  simpa only [Option.map_map, Function.comp_def] using hCore

theorem hosts_iff : sink.Hosts l' r ↔ sink.Hosts l r := by
  cases sink <;> simp only [Sink.Hosts, h.projectors, h.conditionals, h.switches, h.series]

theorem follower_iff : Keeper l' u s sink r ↔ Keeper l u s sink r := by
  constructor <;> intro hu
  · exact hu.congr (fun feed hFeed => by rwa [← h.feed]) (h.target u).symm h.hosts_iff.mp
  · exact hu.congr (fun feed hFeed => by rwa [h.feed]) (h.target u) h.hosts_iff.mpr

theorem lasts : Endures (fun _ => False) l l' where
  known r hr := by
    rw [h.dom]
    exact hr
  key r _ := by rw [h.dom]
  label n _ _ _ := by rw [h.dom]
  kin n _ _ _ := by rw [h.dom]
  box c _ hNone _ := ⟨by rw [h.dom], fun u s sink hu => hNone u s sink (h.follower_iff.mp hu)⟩
  feed u feed hFeed := by rwa [h.feed]
  target u r hTarget := by rwa [h.target]
  projector p x hx := by rwa [h.projectors]
  text x hx := .inl (h.projectors ▸ hx)
  conditional c x hx := ⟨x, by rwa [h.conditionals], rfl, rfl⟩
  switch c x hx := ⟨x, by rwa [h.switches], rfl, rfl, rfl⟩
  series c x hx := ⟨x, by rwa [h.series], rfl, rfl⟩
  derives s d f := fun ⟨n, hn⟩ => ⟨n, (h.derives s n d f).mpr hn⟩
  ended u hu := by
    have hEnded := h.ended u
    obtain ⟨x, hx, hStatus⟩ := Option.map_eq_some_iff.mp hu
    have hTarget := h.target u
    rw [hx, Option.map_some] at hTarget
    obtain ⟨y, hy, -⟩ := Option.map_eq_some_iff.mp hTarget
    rw [statusOf_eq hx, statusOf_eq hy] at hEnded
    rw [hy, Option.map_some, hEnded.mpr hStatus]
  buried n hn := by rwa [h.tracked]
  signals_size := Nat.le_of_eq h.signals_size.symm
  subscriptions_size := Nat.le_of_eq h.subscriptions_size.symm
  nodes_size := Nat.le_of_eq (by rw [h.dom])

theorem shelves (hShelves : Shelves π P l) : Shelves π P l' :=
  hShelves.congr h.dom (fun n => by rw [h.tracked]) h.projectors h.conditionals h.switches
    h.series (fun _ _ _ _ => h.follower_iff.mp) h.lasts

theorem alarms (hAlarms : Alarms l) : Alarms l' where
  timer t ht := by
    rw [h.clock] at ht
    obtain ⟨c, u, s, r, hTask, hu⟩ := hAlarms.timer t ht
    exact ⟨c, u, s, r, hTask, h.follower_iff.mpr hu⟩
  microtask := by
    rw [h.clock]
    exact hAlarms.microtask

/-- Observers are those of the same followers, if they are on and off as they should be. -/
theorem rigs {P' : Pending} (hRigs : Rigs π P l) (hDying : P'.dying = P.dying)
    (hAsleep : ∀ u, l'.statusOf u ≠ .connected → l'.isActive u = false)
    (hAwake : ∀ u s sink r, Keeper l u s sink r → l'.statusOf u = .connected →
      P'.waking u ∨ P'.dying (l.dom.key r) ∨ l'.isActive u = true) : Rigs π P' l' := by
  have hDead : ∀ n, Dead P'.dying l'.trackedOf n ↔ Dead P.dying l.trackedOf n := fun n => by
    simp only [Dead, h.tracked, hDying]
  refine ⟨?_, fun u => ?_, fun u hu => ?_, fun u s sink r hu => ?_, fun x hx => ?_,
    fun u s sink r hu => ?_, fun u s sink r w t sink' q hu hw hLt => ?_, fun u s p n hu => ?_,
    fun u s sink r hu hAlive => ?_,
    fun u s sink r hu hNot hIn => ?_, fun n u hn => ?_, fun u s sink r x hu hx hStatus => ?_,
    hAsleep, fun u s sink r hu hOn => ?_⟩
  · rw [h.observers_size, h.subscriptions_size, hRigs.observers_size]
  · rw [h.bindings, h.subscriptions_size]
    exact hRigs.binding u
  · rw [h.subscriptions_size] at hu
    obtain ⟨s, sink, r, hu⟩ := hRigs.follower u hu
    exact ⟨s, sink, r, h.follower_iff.mpr hu⟩
  · rw [h.dom]
    exact hRigs.known u s sink r (h.follower_iff.mp hu)
  · rw [h.projectors] at hx
    rw [h.dom]
    exact hRigs.writes x hx
  · rw [h.dom, h.signals_size]
    exact hRigs.reads u s sink r (h.follower_iff.mp hu)
  · rw [h.dom]
    exact hRigs.rising u s sink r w t sink' q (h.follower_iff.mp hu) (h.follower_iff.mp hw) hLt
  · rw [h.dom]
    exact hRigs.text u s p n (h.follower_iff.mp hu)
  · rw [h.dom, hDead] at hAlive
    rw [h.dom, h.tracked, ne_eq, h.ended]
    exact hRigs.alive u s sink r (h.follower_iff.mp hu) hAlive
  · rw [h.dom, hDying] at hNot
    rw [h.dom, hDead] at hIn
    rw [h.ended]
    exact hRigs.dead u s sink r (h.follower_iff.mp hu) hNot hIn
  · rw [h.tracked] at hn
    obtain ⟨s, sink, r, hu, hKey⟩ := hRigs.tracked n u hn
    exact ⟨s, sink, r, h.follower_iff.mpr hu, by rw [h.dom, hKey]⟩
  · have hCore := h.core u
    rw [hx, Option.map_some] at hCore
    obtain ⟨y, hy, hEq⟩ := Option.map_eq_some_iff.mp hCore.symm
    obtain ⟨-, hHooks⟩ := Prod.mk.inj hEq
    have hAlive : y.status ≠ .destroyed := by
      have hEnded := h.ended u
      rw [statusOf_eq hx, statusOf_eq hy] at hEnded
      exact mt hEnded.mpr hStatus
    have hOld := hRigs.hooks u s sink r y (h.follower_iff.mp hu) hy hAlive
    rw [hHooks] at hOld
    refine ⟨hOld.1, ?_⟩
    rw [isBindingDestroyed, binding?, h.bindings]
    exact hOld.2
  · rw [h.dom]
    exact hAwake u s sink r (h.follower_iff.mp hu) hOn

end Unmoved

/-! ## Values -/

def valued (l : Live κ σ) (s : SignalId) (v : Value) : Live κ σ :=
  { l with signals := l.signals.modify s fun g => { g with value := v } }

/-- Whatever watches a signal, of which the value stays, is behind. -/
def Pending.owing (P : Pending) (l : Live κ σ) (s : SignalId) (v : Value)
    (ws : List (Signal.Watcher κ)) : Pending :=
  { P with
    lagging := fun u => P.lagging u ∨ ∃ w ∈ ws, ∃ r, Keeper l u s w.sink r
    stale := fun d => P.stale d ∨ ∃ w ∈ ws, ∃ f, w.sink = .derived d f
    pinned := fun t => if t = s then some v else P.pinned t }

theorem getElem?_valued (l : Live κ σ) (s : SignalId) (v : Value) (t : SignalId) :
    (l.valued s v).signals[t]? =
      if s = t then (l.signals[t]?).map fun g => { g with value := v } else l.signals[t]? := by
  simp only [valued, Array.getElem?_modify]

theorem valueOf_eq {g : Signal κ} (hs : l.signals[s]? = some g) : l.valueOf s = g.value := by
  simp [valueOf, signal?, hs]

theorem watchersOf_eq {g : Signal κ} (hs : l.signals[s]? = some g) :
    l.watchersOf s = g.watchers := by
  simp [watchersOf, signal?, hs]

theorem mem_watchersOf {x : Signal.Watcher κ} :
    x ∈ l.watchersOf s ↔ ∃ g : Signal κ, l.signals[s]? = some g ∧ x ∈ g.watchers := by
  cases hs : l.signals[s]? with
  | none => simp [watchersOf, signal?, hs]
  | some g => simp [watchersOf, signal?, hs]

theorem valueOf_valued_ne {v : Value} (hNe : t ≠ s) : (l.valued s v).valueOf t = l.valueOf t := by
  simp [valueOf, signal?, getElem?_valued, Ne.symm hNe]

theorem watchersOf_valued (l : Live κ σ) (s : SignalId) (v : Value) (t : SignalId) :
    (l.valued s v).watchersOf t = l.watchersOf t := by
  simp only [watchersOf, signal?, getElem?_valued]
  split
  · cases l.signals[t]? <;> rfl
  · rfl

theorem steady_valued (l : Live κ σ) (s : SignalId) (v : Value) : Unmoved l (l.valued s v) :=
  { Unmoved.refl l with
    signals_size := Array.size_modify
    derives := fun t n d f => by rw [watchersOf_valued] }

/-- What is on is watching. -/
theorem Piped.watching {signals : Array (Signal κ)} (h : Piped signals l.subscriptions)
    (hu : Keeper l u s sink r) (hOn : l.isActive u = true) :
    ∃ g : Signal κ, ∃ n, signals[s]? = some g ∧ ⟨n, sink⟩ ∈ g.watchers := by
  obtain ⟨⟨registered, hSub⟩, -⟩ := hu
  simp only [isActive, subscription?, hSub, Option.any_some] at hOn
  obtain ⟨n, rfl⟩ := Option.isSome_iff_exists.mp hOn
  obtain ⟨g, hg, hIn⟩ := h.registered u s sink n hSub
  exact ⟨g, n, hg, hIn⟩

theorem Maintained.valued {g : Signal κ} {v : Value}
    (h : Maintained π { P with stale := fun d => P.stale d ∨ d = s } l)
    (hs : l.signals[s]? = some g)
    (hv : π.values v) (hFixed : (π.role s).fixed = none) (hPinned : P.pinned s = none)
    (hSource : ∀ t n f, ⟨n, .derived s f⟩ ∈ l.watchersOf t → v = f (l.valueOf t))
    (hOwner : ∀ u, (π.role s).owner = u + 1 → P.lagging u) :
    Maintained π (P.owing l s v g.watchers) (l.valued s v) := by
  have hSteady := steady_valued l s v
  have hOld : ∀ {t : SignalId} {g' : Signal κ}, (l.valued s v).signals[t]? = some g' →
      ∃ g₁ : Signal κ, l.signals[t]? = some g₁ ∧ g'.watchers = g₁.watchers ∧
        g'.nextWatcher = g₁.nextWatcher ∧ g'.source = g₁.source ∧
          g'.value = if s = t then v else g₁.value := by
    intro t g' hg'
    rw [getElem?_valued] at hg'
    split at hg'
    · rename_i hEq
      obtain ⟨g₁, hg₁, rfl⟩ := Option.map_eq_some_iff.mp hg'
      exact ⟨g₁, hg₁, rfl, rfl, rfl, (if_pos hEq).symm⟩
    · rename_i hNe
      exact ⟨g', hg', rfl, rfl, rfl, (if_neg hNe).symm⟩
  refine ⟨h.running, h.closed, h.rooted, h.graves, ?_, ?_, ?_,
    hSteady.shelves (h.shelves.pending rfl rfl rfl rfl), ?_, hSteady.alarms h.alarms⟩
  · refine ⟨fun t g' hg' => ?_, fun t g' hg' => ?_, fun t g' n d f hg' hIn => ?_,
      fun t g' n d f hg' hIn => ?_, fun t g' x hg' hx => ?_, fun t x hx => ?_⟩
    · obtain ⟨g₁, hg₁, -, -, -, hValue⟩ := hOld hg'
      rw [hValue]
      split
      · exact hv
      · exact h.wires.value t g₁ hg₁
    · obtain ⟨g₁, hg₁, hWatchers, hNext, -⟩ := hOld hg'
      rw [hWatchers, hNext]
      exact h.wires.numbered t g₁ hg₁
    · obtain ⟨g₁, hg₁, hWatchers, -, -, hValue⟩ := hOld hg'
      rw [hWatchers] at hIn
      obtain ⟨g₂, hg₂, hFollows, hDerived⟩ := h.wires.derived t g₁ n d f hg₁ hIn
      obtain ⟨hRole, -⟩ := h.wires.roles t g₁ n d f hg₁ hIn
      by_cases hTop : t = s
      · subst hTop
        refine ⟨if t = d then { g₂ with value := v } else g₂, ?_, ?_,
          .inl (.inr ⟨⟨n, .derived d f⟩, ?_, f, rfl⟩)⟩
        · rw [getElem?_valued]
          split <;> simp [hg₂]
        · split <;> exact hFollows
        · rw [hs] at hg₁
          obtain rfl := Option.some.inj hg₁
          exact hIn
      · rw [if_neg (Ne.symm hTop)] at hValue
        by_cases hSelf : d = s
        · subst hSelf
          refine ⟨{ g₂ with value := v }, ?_, hFollows, .inr ?_⟩
          · rw [getElem?_valued, if_pos rfl, hg₂]
            rfl
          · rw [hValue, ← valueOf_eq hg₁]
            exact hSource t n f (mem_watchersOf.mpr ⟨g₁, hg₁, hIn⟩)
        · refine ⟨g₂, ?_, hFollows, ?_⟩
          · rw [getElem?_valued, if_neg (Ne.symm hSelf), hg₂]
          · rw [hValue]
            exact hDerived.imp_left fun hStale => .inl (hStale.resolve_right hSelf)
    · obtain ⟨g₁, hg₁, hWatchers, -⟩ := hOld hg'
      rw [hWatchers] at hIn
      exact h.wires.roles t g₁ n d f hg₁ hIn
    · obtain ⟨g₁, hg₁, -, -, -, hValue⟩ := hOld hg'
      rw [hValue, if_neg, h.wires.fixed t g₁ x hg₁ hx]
      rintro rfl
      rw [hFixed] at hx
      cases hx
    · change (if t = s then some v else P.pinned t) = some x at hx
      split at hx
      · rename_i hEq
        subst hEq
        refine ⟨{ g with value := v }, ?_, Option.some.inj hx⟩
        rw [getElem?_valued, if_pos rfl, hs]
        rfl
      · rename_i hNe
        obtain ⟨g₁, hg₁, rfl⟩ := h.wires.pinned t x hx
        refine ⟨g₁, ?_, rfl⟩
        rw [getElem?_valued, if_neg (Ne.symm hNe), hg₁]
  · refine ⟨fun t g' w hg' hw => ?_, fun u t sink n hSub => ?_⟩
    · obtain ⟨g₁, hg₁, hWatchers, -⟩ := hOld hg'
      rw [hWatchers] at hw
      exact h.feeds.watcher t g₁ w hg₁ hw
    · obtain ⟨g₁, hg₁, hIn⟩ := h.feeds.registered u t sink n hSub
      refine ⟨if s = t then { g₁ with value := v } else g₁, ?_, by split <;> exact hIn⟩
      rw [getElem?_valued]
      split <;> simp [hg₁]
  · exact hSteady.rigs h.rigs rfl h.rigs.asleep h.rigs.awake
  · refine ⟨fun u t sink r hu hr => h.upkeep.told u t sink r (hSteady.follower_iff.mp hu) hr,
      fun u t sink r hu hOn => ?_⟩
    have hu' := hSteady.follower_iff.mp hu
    by_cases hDying : P.dying (l.dom.key r)
    · exact .inr (.inr (.inl hDying))
    by_cases hWaking : P.waking u
    · exact .inr (.inl hWaking)
    by_cases hEq : t = s
    · subst hEq
      rcases h.rigs.awake u t sink r hu' hOn with hWaking' | hDying' | hActive
      · exact absurd hWaking' hWaking
      · exact absurd hDying' hDying
      · obtain ⟨g₁, n, hg₁, hIn⟩ := h.feeds.watching hu' hActive
        rw [hs] at hg₁
        obtain rfl := Option.some.inj hg₁
        exact .inl (.inr ⟨_, hIn, r, hu'⟩)
    · rcases h.upkeep.current u t sink r hu' hOn with hLag | hLag | hLag | hCurrent
      · exact .inl (.inl hLag)
      · exact absurd hLag hWaking
      · exact absurd hLag hDying
      · by_cases hLagging : P.lagging u
        · exact .inl (.inl hLagging)
        · refine .inr (.inr (.inr ?_))
          rw [valueOf_valued_ne hEq]
          refine hCurrent.congr (.of_eq rfl rfl rfl rfl) (fun _ => rfl) fun c x hSink hx item hIn => ?_
          refine valueOf_valued_ne fun hCursor => hLagging (hOwner u ?_)
          subst hSink
          rw [← hCursor, (h.shelves.cursor u t c r x item hu' hx (List.mem_append_left _ hIn)).2]

/-! ## Switching on -/

/-- A follower is told something else. -/
def toldOf (l : Live κ σ) (u : BindingId) (c : Connectivity) : Live κ σ :=
  l.withObserver u fun x => if x.status = .destroyed then x else { x with status := c }

/-- A follower watches its signal. -/
def subscribed (l : Live κ σ) (u : BindingId) (s : SignalId) (sink : Sink κ) (n : Nat) :
    Live κ σ :=
  { l with
    signals := l.signals.modify s fun g =>
      { g with watchers := g.watchers ++ [⟨n, sink⟩], nextWatcher := n + 1 }
    subscriptions := l.subscriptions.modify u fun x => { x with registered := some n } }

/-- A follower does not watch its signal any more. -/
def unsubscribed (l : Live κ σ) (u : BindingId) (s : SignalId) (n : Nat) : Live κ σ :=
  { l with
    signals := l.signals.modify s fun g =>
      { g with watchers := g.watchers.filter fun w => !(w.number == n) }
    subscriptions := l.subscriptions.modify u fun x => { x with registered := none } }

theorem core_toldOf (l : Live κ σ) (u : BindingId) (c : Connectivity) (o : ObserverId) :
    (l.toldOf u c).core? o = (l.core? o).map fun x => if o = u then x.turn c else x :=
  (setStatus_turned l u c).core o

theorem statusOf_toldOf {c : Connectivity} (hAlive : l.statusOf u ≠ .destroyed) (o : ObserverId) :
    (l.toldOf u c).statusOf o = if o = u then c else l.statusOf o := by
  split
  · rename_i hEq
    subst hEq
    obtain ⟨x, hx, hStatus⟩ := exists_core hAlive
    have hCore := core_toldOf l o c o
    rw [hx, Option.map_some, if_pos rfl] at hCore
    rw [statusOf_eq hCore, Observer.Core.turn_of_ne c (hStatus ▸ hAlive)]
  · rename_i hNe
    have hCore := core_toldOf l u c o
    rw [show (fun x : Observer.Core κ => if o = u then x.turn c else x) = id by
      funext x; rw [if_neg hNe]; rfl, Option.map_id, id] at hCore
    cases hx : l.core? o with
    | none =>
      rw [hx] at hCore
      simp only [statusOf]
      simp only [core?, Option.map_eq_none_iff] at hx hCore
      rw [hx, hCore]
    | some x => rw [statusOf_eq (hCore.trans hx), statusOf_eq hx]

theorem steady_toldOf {c : Connectivity} (hAlive : l.statusOf u ≠ .destroyed)
    (hC : c ≠ .destroyed) : Unmoved l (l.toldOf u c) :=
  { Unmoved.refl l with
    observers_size := Array.size_modify
    core := fun o => by
      rw [core_toldOf, Option.map_map]
      congr 1
      funext x
      simp only [Function.comp_apply]
      split <;> simp
    ended := fun o => by
      rw [statusOf_toldOf hAlive]
      split
      · rename_i hEq
        subst hEq
        exact ⟨fun h => absurd h hC, fun h => absurd h hAlive⟩
      · rfl }

theorem getElem?_subscribed (l : Live κ σ) (u : BindingId) (s : SignalId) (sink : Sink κ) (n : Nat)
    (t : SignalId) : (l.subscribed u s sink n).signals[t]? =
      if s = t then (l.signals[t]?).map fun g =>
        { g with watchers := g.watchers ++ [⟨n, sink⟩], nextWatcher := n + 1 }
      else l.signals[t]? := by
  simp only [subscribed, Array.getElem?_modify]

theorem getElem?_unsubscribed (l : Live κ σ) (u : BindingId) (s : SignalId) (n : Nat)
    (t : SignalId) : (l.unsubscribed u s n).signals[t]? =
      if s = t then (l.signals[t]?).map fun g =>
        { g with watchers := g.watchers.filter fun w => !(w.number == n) }
      else l.signals[t]? := by
  simp only [unsubscribed, Array.getElem?_modify]

theorem isActive_subscribed (hu : Keeper l u s sink r) (n : Nat) (w : BindingId) :
    (l.subscribed u s sink n).isActive w = if u = w then true else l.isActive w := by
  obtain ⟨⟨registered, hSub⟩, -⟩ := hu
  simp only [isActive, subscription?, subscribed, Array.getElem?_modify]
  split
  · rename_i hEq
    subst hEq
    simp [hSub]
  · rfl

theorem isActive_unsubscribed (hu : Keeper l u s sink r) (n : Nat) (w : BindingId) :
    (l.unsubscribed u s n).isActive w = if u = w then false else l.isActive w := by
  obtain ⟨⟨registered, hSub⟩, -⟩ := hu
  simp only [isActive, subscription?, unsubscribed, Array.getElem?_modify]
  split
  · rename_i hEq
    subst hEq
    simp [hSub]
  · rfl

theorem valueOf_subscribed (l : Live κ σ) (u : BindingId) (s : SignalId) (sink : Sink κ) (n : Nat)
    (t : SignalId) : (l.subscribed u s sink n).valueOf t = l.valueOf t := by
  simp only [valueOf, signal?, getElem?_subscribed]
  split
  · cases l.signals[t]? <;> rfl
  · rfl

theorem valueOf_unsubscribed (l : Live κ σ) (u : BindingId) (s : SignalId) (n : Nat)
    (t : SignalId) : (l.unsubscribed u s n).valueOf t = l.valueOf t := by
  simp only [valueOf, signal?, getElem?_unsubscribed]
  split
  · cases l.signals[t]? <;> rfl
  · rfl

theorem mem_watchersOf_subscribed {g : Signal κ} (hs : l.signals[s]? = some g) (n : Nat)
    (t : SignalId) (x : Signal.Watcher κ) : x ∈ (l.subscribed u s sink n).watchersOf t ↔
      x ∈ l.watchersOf t ∨ s = t ∧ x = ⟨n, sink⟩ := by
  simp only [watchersOf, signal?, getElem?_subscribed]
  split
  · rename_i hEq
    subst hEq
    simp [hs]
  · rename_i hNe
    simp [hNe]

theorem mem_watchersOf_unsubscribed (l : Live κ σ) (u : BindingId) (s : SignalId) (n : Nat)
    (t : SignalId) (x : Signal.Watcher κ) : x ∈ (l.unsubscribed u s n).watchersOf t ↔
      x ∈ l.watchersOf t ∧ ¬ (s = t ∧ x.number = n) := by
  simp only [watchersOf, signal?, getElem?_unsubscribed]
  split
  · rename_i hEq
    subst hEq
    cases l.signals[s]? with
    | none => simp
    | some g => simp [List.mem_filter]
  · rename_i hNe
    simp [hNe]

/-- Other watchers do not matter to derived signals. -/
theorem Wires.rewired {stale : SignalId → Prop} {pinned : SignalId → Option Value}
    {signals signals' : Array (Signal κ)} (h : Wires π stale pinned signals)
    (hOld : ∀ (t : SignalId) (g' : Signal κ), signals'[t]? = some g' →
      ∃ g : Signal κ, signals[t]? = some g ∧ g'.value = g.value ∧
        (∀ n d f, ⟨n, .derived d f⟩ ∈ g'.watchers → ⟨n, .derived d f⟩ ∈ g.watchers) ∧
          (g'.watchers.map (·.number)).Nodup ∧ ∀ w ∈ g'.watchers, w.number < g'.nextWatcher)
    (hNew : ∀ (t : SignalId) (g : Signal κ), signals[t]? = some g →
      ∃ g' : Signal κ, signals'[t]? = some g' ∧ g'.value = g.value ∧ g'.source = g.source) :
    Wires π stale pinned signals' where
  value t g' hg' := by
    obtain ⟨g, hg, hValue, -⟩ := hOld t g' hg'
    rw [hValue]
    exact h.value t g hg
  numbered t g' hg' := by
    obtain ⟨g, hg, -, -, hNumbered⟩ := hOld t g' hg'
    exact hNumbered
  derived t g' n d f hg' hIn := by
    obtain ⟨g, hg, hValue, hDerived, -⟩ := hOld t g' hg'
    obtain ⟨g₁, hg₁, hSource, hFollows⟩ := h.derived t g n d f hg (hDerived n d f hIn)
    obtain ⟨g₂, hg₂, hValue₂, hSource₂⟩ := hNew d g₁ hg₁
    exact ⟨g₂, hg₂, hSource₂.trans hSource, by rwa [hValue₂, hValue]⟩
  roles t g' n d f hg' hIn := by
    obtain ⟨g, hg, -, hDerived, -⟩ := hOld t g' hg'
    exact h.roles t g n d f hg (hDerived n d f hIn)
  fixed t g' v hg' hv := by
    obtain ⟨g, hg, hValue, -⟩ := hOld t g' hg'
    rw [hValue]
    exact h.fixed t g v hg hv
  pinned t v hv := by
    obtain ⟨g, hg, hValue⟩ := h.pinned t v hv
    obtain ⟨g', hg', hValue', -⟩ := hNew t g hg
    exact ⟨g', hg', hValue'.trans hValue⟩

theorem Signal.eq_of_number {g : Signal κ} (h : (g.watchers.map (·.number)).Nodup)
    {x y : Signal.Watcher κ} (hx : x ∈ g.watchers) (hy : y ∈ g.watchers)
    (hEq : x.number = y.number) : x = y :=
  List.inj_on_of_nodup_map h hx hy hEq

theorem steady_subscribed {g : Signal κ} (hu : Keeper l u s sink r)
    (hs : l.signals[s]? = some g) (n : Nat) : Unmoved l (l.subscribed u s sink n) :=
  { Unmoved.refl l with
    signals_size := Array.size_modify
    subscriptions_size := Array.size_modify
    feed := fun w => by
      simp only [Live.subscribed, Array.getElem?_modify]
      split
      · cases l.subscriptions[w]? <;> rfl
      · rfl
    derives := fun t m d f => by
      rw [mem_watchersOf_subscribed hs]
      refine or_iff_left fun hNew => hu.not_derived (d := d) (f := f) ?_
      exact (Signal.Watcher.mk.inj hNew.2).2.symm }

theorem Maintained.subscribed {g : Signal κ}
    (h : Maintained π { P with waking := fun w => P.waking w ∨ w = u } l) (hu : Keeper l u s sink r)
    (hs : l.signals[s]? = some g) (hOn : l.statusOf u = .connected) (hOff : l.isActive u = false) :
    Maintained π { P with lagging := fun w => P.lagging w ∨ w = u }
      (l.subscribed u s sink g.nextWatcher) := by
  obtain ⟨hNodup, hBound⟩ := h.wires.numbered s g hs
  have hSteady := steady_subscribed hu hs g.nextWatcher
  refine ⟨h.running, h.closed, h.rooted, h.graves, ?_, ?_, ?_,
    hSteady.shelves (h.shelves.pending rfl rfl rfl rfl), ?_, hSteady.alarms h.alarms⟩
  · refine h.wires.rewired (fun t g' hg' => ?_) fun t g₁ hg₁ => ?_
    · rw [getElem?_subscribed] at hg'
      split at hg'
      · rename_i hEq
        subst hEq
        obtain ⟨g₁, hg₁, rfl⟩ := Option.map_eq_some_iff.mp hg'
        rw [hs] at hg₁
        obtain rfl := Option.some.inj hg₁
        refine ⟨g, hs, rfl, fun n d f hIn => ?_, numbered_snoc _ hNodup hBound⟩
        rcases List.mem_append.mp hIn with hIn | hIn
        · exact hIn
        · exact absurd (Signal.Watcher.mk.inj (List.mem_singleton.mp hIn)).2.symm hu.not_derived
      · obtain ⟨hNodup', hBound'⟩ := h.wires.numbered t g' hg'
        exact ⟨g', hg', rfl, fun _ _ _ hIn => hIn, hNodup', hBound'⟩
    · rw [getElem?_subscribed, hg₁]
      split
      · exact ⟨_, rfl, rfl, rfl⟩
      · exact ⟨g₁, rfl, rfl, rfl⟩
  · refine ⟨fun t g' x hg' hx => ?_, fun w t sink' n hSub => ?_⟩
    · have hIn := mem_watchersOf.mpr ⟨g', hg', hx⟩
      rw [mem_watchersOf_subscribed hs] at hIn
      rcases hIn with hIn | ⟨rfl, rfl⟩
      · obtain ⟨g₁, hg₁, hx₁⟩ := mem_watchersOf.mp hIn
        refine (h.feeds.watcher t g₁ x hg₁ hx₁).imp_right fun ⟨w, hw⟩ => ⟨w, ?_⟩
        have hNe : u ≠ w := by
          rintro rfl
          simp [isActive, subscription?, hw] at hOff
        simp only [Live.subscribed, Array.getElem?_modify, if_neg hNe]
        exact hw
      · obtain ⟨⟨registered, hSub⟩, -⟩ := hu
        refine .inr ⟨u, ?_⟩
        simp only [Live.subscribed, Array.getElem?_modify, if_pos, hSub]
        rfl
    · refine mem_watchersOf.mp ((mem_watchersOf_subscribed hs _ _ _).mpr ?_)
      simp only [Live.subscribed, Array.getElem?_modify] at hSub
      split at hSub
      · rename_i hEq
        subst hEq
        obtain ⟨⟨registered, hSub'⟩, -⟩ := hu
        rw [hSub', Option.map_some, Option.some.injEq, Subscription.mk.injEq,
          Feed.signal.injEq] at hSub
        obtain ⟨⟨rfl, rfl⟩, hNumber⟩ := hSub
        exact .inr ⟨rfl, by rw [Option.some.inj hNumber]⟩
      · exact .inl (mem_watchersOf.mpr (h.feeds.registered w t sink' n hSub))
  · refine hSteady.rigs h.rigs rfl (fun w hw => ?_) fun w t sink' q hw hwOn => ?_
    · rw [isActive_subscribed hu]
      split
      · rename_i hEq
        subst hEq
        exact absurd hOn hw
      · exact h.rigs.asleep w hw
    · rw [isActive_subscribed hu]
      split
      · exact .inr (.inr rfl)
      · rename_i hNe
        exact (h.rigs.awake w t sink' q hw hwOn).imp_left fun hIn => hIn.resolve_right (Ne.symm hNe)
  · refine ⟨fun w t sink' q hw hq => h.upkeep.told w t sink' q (hSteady.follower_iff.mp hw) hq,
      fun w t sink' q hw hwOn => ?_⟩
    rcases h.upkeep.current w t sink' q (hSteady.follower_iff.mp hw) hwOn with
      hLag | hLag | hLag | hCurrent
    · exact .inl (.inl hLag)
    · rcases hLag with hLag | rfl
      · exact .inr (.inl hLag)
      · exact .inl (.inr rfl)
    · exact .inr (.inr (.inl hLag))
    · refine .inr (.inr (.inr ?_))
      rw [valueOf_subscribed]
      exact hCurrent.congr (.of_eq rfl rfl rfl rfl) (fun _ => rfl) fun _ _ _ _ _ _ =>
        valueOf_subscribed _ _ _ _ _ _

/-- A follower is told that it reaches the document. -/
theorem Maintained.connected (h : Maintained π { P with untold := fun w => P.untold w ∨ w = u } l)
    (hOff : l.statusOf u = .disconnected) :
    Maintained π { P with waking := fun w => P.waking w ∨ w = u } (l.toldOf u .connected) := by
  have hAlive : l.statusOf u ≠ .destroyed := by
    rw [hOff]
    decide
  have hSteady := steady_toldOf (c := .connected) hAlive (by decide)
  have hStatus := statusOf_toldOf (c := .connected) hAlive
  refine ⟨h.running, h.closed, h.rooted, h.graves, h.wires, h.feeds, ?_,
    hSteady.shelves (h.shelves.pending rfl rfl rfl rfl), ?_, hSteady.alarms h.alarms⟩
  · refine hSteady.rigs h.rigs rfl (fun w hw => ?_) fun w t sink' q hw hwOn => ?_
    · rw [hStatus] at hw
      split at hw
      · exact absurd rfl hw
      · exact h.rigs.asleep w hw
    · rw [hStatus] at hwOn
      split at hwOn
      · exact .inl (.inr ‹_›)
      · exact (h.rigs.awake w t sink' q hw hwOn).imp_left .inl
  · refine ⟨fun w t sink' q hw hq => ?_, fun w t sink' q hw hwOn => ?_⟩
    · rw [hStatus]
      split
      · exact .inr rfl
      · rename_i hNe
        exact (h.upkeep.told w t sink' q (hSteady.follower_iff.mp hw) hq).imp_left
          fun hIn => hIn.resolve_right hNe
    · rw [hStatus] at hwOn
      split at hwOn
      · exact .inr (.inl (.inr ‹_›))
      · rcases h.upkeep.current w t sink' q (hSteady.follower_iff.mp hw) hwOn with
          hLag | hLag | hLag | hCurrent
        · exact .inl hLag
        · exact .inr (.inl (.inl hLag))
        · exact .inr (.inr (.inl hLag))
        · exact .inr (.inr (.inr (hCurrent.congr (.of_eq rfl rfl rfl rfl) (fun _ => rfl)
            fun _ _ _ _ _ _ => rfl)))

/-! ## Switching off -/

theorem Unmoved.trans {l₁ : Live κ σ} (h₁ : Unmoved l l₁) (h₂ : Unmoved l₁ l') : Unmoved l l' where
  tornDown := h₂.tornDown.trans h₁.tornDown
  document := h₂.document.trans h₁.document
  dom := h₂.dom.trans h₁.dom
  tracked n := (h₂.tracked n).trans (h₁.tracked n)
  bindings := h₂.bindings.trans h₁.bindings
  projectors := h₂.projectors.trans h₁.projectors
  conditionals := h₂.conditionals.trans h₁.conditionals
  switches := h₂.switches.trans h₁.switches
  series := h₂.series.trans h₁.series
  clock := h₂.clock.trans h₁.clock
  observers_size := h₂.observers_size.trans h₁.observers_size
  signals_size := h₂.signals_size.trans h₁.signals_size
  subscriptions_size := h₂.subscriptions_size.trans h₁.subscriptions_size
  core o := (h₂.core o).trans (h₁.core o)
  ended o := (h₂.ended o).trans (h₁.ended o)
  feed u := (h₂.feed u).trans (h₁.feed u)
  derives s n d f := (h₂.derives s n d f).trans (h₁.derives s n d f)

theorem wires_unsubscribed {n : Nat} {stale : SignalId → Prop} {pinned : SignalId → Option Value}
    (hWires : Wires π stale pinned l.signals) :
    Wires π stale pinned (l.unsubscribed u s n).signals := by
  refine hWires.rewired (fun t g' hg' => ?_) fun t g hg => ?_
  · rw [getElem?_unsubscribed] at hg'
    split at hg'
    · obtain ⟨g, hg, rfl⟩ := Option.map_eq_some_iff.mp hg'
      obtain ⟨hNodup, hBound⟩ := hWires.numbered t g hg
      exact ⟨g, hg, rfl, fun _ _ _ hIn => (List.mem_filter.mp hIn).1,
        (List.filter_sublist.map _).nodup hNodup, fun w hw => hBound w (List.mem_filter.mp hw).1⟩
    · obtain ⟨hNodup, hBound⟩ := hWires.numbered t g' hg'
      exact ⟨g', hg', rfl, fun _ _ _ hIn => hIn, hNodup, hBound⟩
  · rw [getElem?_unsubscribed, hg]
    split
    · exact ⟨_, rfl, rfl, rfl⟩
    · exact ⟨g, rfl, rfl, rfl⟩

section Unsubscribed

variable {n : Nat} (hReg : l.subscriptions[u]? = some ⟨.signal s sink, some n⟩)
variable {stale : SignalId → Prop} {pinned : SignalId → Option Value}
variable (hWires : Wires π stale pinned l.signals) (hFeeds : Piped l.signals l.subscriptions)
include hReg hWires hFeeds

theorem watcher_of_number {x : Signal.Watcher κ} (hx : x ∈ l.watchersOf s) (hEq : x.number = n) :
    x = ⟨n, sink⟩ := by
  obtain ⟨g, hg, hIn⟩ := hFeeds.registered u s sink n hReg
  obtain ⟨g', hg', hx⟩ := mem_watchersOf.mp hx
  rw [hg] at hg'
  obtain rfl := Option.some.inj hg'
  exact Signal.eq_of_number (hWires.numbered s g hg).1 hx hIn hEq

theorem steady_unsubscribed (hSink : ∀ d f, sink ≠ .derived d f) :
    Unmoved l (l.unsubscribed u s n) :=
  { Unmoved.refl l with
    signals_size := Array.size_modify
    subscriptions_size := Array.size_modify
    feed := fun w => by
      simp only [Live.unsubscribed, Array.getElem?_modify]
      split
      · cases l.subscriptions[w]? <;> rfl
      · rfl
    derives := fun t m d f => by
      rw [mem_watchersOf_unsubscribed]
      refine and_iff_left_of_imp fun hIn => ?_
      rintro ⟨rfl, hNumber⟩
      have hEq := watcher_of_number hReg hWires hFeeds hIn hNumber
      exact hSink d f (Signal.Watcher.mk.inj hEq).2.symm }

theorem feeds_unsubscribed (hOther : ∀ (w : Nat) n', l.subscriptions[w]? =
    some ⟨.signal s sink, some n'⟩ → w = u) :
    Piped (l.unsubscribed u s n).signals (l.unsubscribed u s n).subscriptions := by
  refine ⟨fun t g' x hg' hx => ?_, fun w t sink' m hSub => ?_⟩
  · have hIn := (mem_watchersOf_unsubscribed l u s n t x).mp (mem_watchersOf.mpr ⟨g', hg', hx⟩)
    obtain ⟨g, hg, hx'⟩ := mem_watchersOf.mp hIn.1
    refine (hFeeds.watcher t g x hg hx').imp_right fun ⟨w, hw⟩ => ⟨w, ?_⟩
    have hNe : u ≠ w := by
      rintro rfl
      rw [hReg] at hw
      simp only [Option.some.injEq, Subscription.mk.injEq, Feed.signal.injEq] at hw
      exact hIn.2 ⟨hw.1.1, hw.2.symm⟩
    simp only [Live.unsubscribed, Array.getElem?_modify, if_neg hNe]
    exact hw
  · simp only [Live.unsubscribed, Array.getElem?_modify] at hSub
    split at hSub
    · rename_i hEq
      subst hEq
      rw [hReg] at hSub
      simp at hSub
    · rename_i hNe
      refine mem_watchersOf.mp ((mem_watchersOf_unsubscribed l u s n t _).mpr
        ⟨mem_watchersOf.mpr (hFeeds.registered w t sink' m hSub), ?_⟩)
      rintro ⟨rfl, rfl⟩
      have hEq := watcher_of_number hReg hWires hFeeds
        (mem_watchersOf.mpr (hFeeds.registered w s sink' m hSub)) rfl
      obtain rfl := (Signal.Watcher.mk.inj hEq).2
      exact hNe (hOther w m hSub).symm

end Unsubscribed

/-- Only one follower has a sink. -/
theorem Rigs.eq_of_feed (h : Rigs π P l) {n n' : Option Nat}
    (hu : l.subscriptions[u]? = some ⟨.signal s sink, n⟩)
    (hw : l.subscriptions[w]? = some ⟨.signal t sink, n'⟩) : u = w := by
  obtain ⟨s₁, sink₁, r₁, hu₁⟩ := h.follower u (Array.getElem?_eq_some_iff.mp hu).1
  obtain ⟨s₂, sink₂, r₂, hw₁⟩ := h.follower w (Array.getElem?_eq_some_iff.mp hw).1
  obtain ⟨⟨_, hSub₁⟩, -⟩ := id hu₁
  obtain ⟨⟨_, hSub₂⟩, -⟩ := id hw₁
  rw [hu] at hSub₁
  rw [hw] at hSub₂
  simp only [Option.some.injEq, Subscription.mk.injEq, Feed.signal.injEq] at hSub₁ hSub₂
  obtain ⟨⟨-, rfl⟩, -⟩ := hSub₁
  obtain ⟨⟨-, rfl⟩, -⟩ := hSub₂
  exact h.eq_of_sink hu₁ hw₁

section Hushed

variable (h : Maintained π P l) (hu : Keeper l u s sink r) (hOn : l.statusOf u = .connected)
variable (hOut : ¬ l.dom.Below (.node l.document) r)
include h hu hOn hOut

theorem Maintained.unheard (hOff : l.isActive u = false) :
    Maintained π P (l.toldOf u .disconnected) := by
  have hAlive : l.statusOf u ≠ .destroyed := by
    rw [hOn]
    decide
  have hSteady := steady_toldOf (c := .disconnected) hAlive (by decide)
  have hStatus := statusOf_toldOf (c := .disconnected) hAlive
  refine ⟨h.running, h.closed, h.rooted, h.graves, h.wires, h.feeds, ?_, hSteady.shelves h.shelves,
    ?_, hSteady.alarms h.alarms⟩
  · refine hSteady.rigs h.rigs rfl (fun w hw => ?_) fun w t sink' q hw hwOn => ?_
    · rw [hStatus] at hw
      split at hw
      · rename_i hEq
        subst hEq
        exact hOff
      · exact h.rigs.asleep w hw
    · rw [hStatus] at hwOn
      split at hwOn
      · cases hwOn
      · exact h.rigs.awake w t sink' q hw hwOn
  · refine ⟨fun w t sink' q hw hq => ?_, fun w t sink' q hw hwOn => ?_⟩
    · have hw' := hSteady.follower_iff.mp hw
      rw [hStatus, if_neg]
      · exact h.upkeep.told w t sink' q hw' hq
      · rintro rfl
        obtain ⟨-, -, rfl⟩ := hu.unique hw'
        exact hOut hq
    · rw [hStatus] at hwOn
      split at hwOn
      · cases hwOn
      · refine (h.upkeep.current w t sink' q (hSteady.follower_iff.mp hw) hwOn).imp_right
          (Or.imp_right (Or.imp_right fun hCurrent => ?_))
        exact hCurrent.congr (.of_eq rfl rfl rfl rfl) (fun _ => rfl) fun _ _ _ _ _ _ => rfl

/-- A follower is told that it does not reach the document, and is switched off. -/
theorem Maintained.hushed {n : Nat} (hReg : l.subscriptions[u]? = some ⟨.signal s sink, some n⟩) :
    Maintained π P ((l.toldOf u .disconnected).unsubscribed u s n) := by
  have hAlive : l.statusOf u ≠ .destroyed := by
    rw [hOn]
    decide
  have hTold := steady_toldOf (c := .disconnected) hAlive (by decide)
  have hStatus := statusOf_toldOf (c := .disconnected) hAlive
  have hSteady := hTold.trans (steady_unsubscribed (l := l.toldOf u .disconnected) hReg h.wires
    h.feeds fun d f => hu.not_derived)
  have hActive := isActive_unsubscribed (hTold.follower_iff.mpr hu) n
  refine ⟨h.running, h.closed, h.rooted, h.graves, ?_, ?_, ?_, hSteady.shelves h.shelves,
    ?_, hSteady.alarms h.alarms⟩
  · exact wires_unsubscribed (l := l.toldOf u .disconnected) h.wires
  · exact feeds_unsubscribed (l := l.toldOf u .disconnected) hReg h.wires h.feeds
      fun w n' hw => h.rigs.eq_of_feed hw hReg
  · refine hSteady.rigs h.rigs rfl (fun w hw => ?_) fun w t sink' q hw hwOn => ?_
    · rw [hActive]
      split
      · rfl
      · rename_i hNe
        refine h.rigs.asleep w fun hw' => hw ?_
        exact (hStatus w).trans ((if_neg (Ne.symm hNe)).trans hw')
    · replace hwOn := (hStatus w).symm.trans hwOn
      rw [hActive]
      split at hwOn
      · cases hwOn
      · rename_i hNe
        rw [if_neg (Ne.symm hNe)]
        exact h.rigs.awake w t sink' q hw hwOn
  · refine ⟨fun w t sink' q hw hq => ?_, fun w t sink' q hw hwOn => ?_⟩
    · have hw' := hSteady.follower_iff.mp hw
      have hNe : w ≠ u := by
        rintro rfl
        obtain ⟨-, -, rfl⟩ := hu.unique hw'
        exact hOut hq
      refine (h.upkeep.told w t sink' q hw' hq).imp_right fun hTold => ?_
      exact (hStatus w).trans ((if_neg hNe).trans hTold)
    · replace hwOn := (hStatus w).symm.trans hwOn
      split at hwOn
      · cases hwOn
      · refine (h.upkeep.current w t sink' q (hSteady.follower_iff.mp hw) hwOn).imp_right
          (Or.imp_right (Or.imp_right fun hCurrent => ?_))
        rw [valueOf_unsubscribed]
        exact hCurrent.congr (.of_eq rfl rfl rfl rfl) (fun _ => rfl) fun _ _ _ _ _ _ =>
          valueOf_unsubscribed _ _ _ _ _

end Hushed

end LiveMarkup.Live
