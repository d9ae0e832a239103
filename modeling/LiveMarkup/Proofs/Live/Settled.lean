import LiveMarkup.Live.Scope
import LiveMarkup.Proofs.Json.Exact
import LiveMarkup.Proofs.Live.Registered

/-!
# Networks that settle

A network is built step by step as it is laid out, and its sources are set. Whenever the outermost
set has returned, every derived signal follows its source, and every subscription that is on has
delivered the last value.

* `Layout.Settled`: everything that follows a signal has its last value;
* `Layout.Run`: runs that build a network and set its sources;
* `Layout.Run.follows`: after every run the whole network is settled;
* `writtenBack_stale`: a callback that sets its own signal leaves what came after it behind.
-/

namespace LiveMarkup.Live

variable {κ σ : Type}

namespace Layout

/-- Everything that follows a signal has its last value, and all derived signals follow theirs. -/
structure Settled (N : Layout κ) (l : Live κ (Heard κ σ)) : Prop extends N.Laid l where
  delivered : ∀ t, ∀ w ∈ l.watchersOf t, Delivered l t w.sink
  derived : ∀ d s f, N.origin d = some (s, f) → d < l.signals.size →
    ∃ n, ⟨n, .derived d f⟩ ∈ l.watchersOf s
  overrun : l.overrun = false

variable {N : Layout κ} {l l' : Live κ (Heard κ σ)}

/-! ## Building a network -/

theorem Settled.congr (h : N.Settled l) (hSame : SameNetwork l l')
    (hDelivered : ∀ t, ∀ w ∈ l.watchersOf t, Delivered l t w.sink → Delivered l' t w.sink) :
    N.Settled l' where
  toLaid := hSame.laid h.toLaid
  delivered t w hw := by
    rw [hSame.watchersOf] at hw
    exact hDelivered t w hw (h.delivered t w hw)
  derived d s f hOrigin hd := by
    rw [hSame.watchersOf]
    exact h.derived d s f hOrigin (hSame.size ▸ hd)
  overrun := hSame.overrun.trans h.overrun

theorem create_settled (N : Layout κ) (config : Config) (own : σ) :
    N.Settled (create config { own } : Live κ (Heard κ σ)) where
  sink hw := by simp [watchersOf, signal?, create] at hw
  numbered hg := by simp [signal?, create] at hg
  feed hx := by simp [subscription?, create] at hx
  apart hx := by simp [subscription?, create] at hx
  delivered t w hw := by simp [watchersOf, signal?, create] at hw
  derived d s f _ hd := absurd hd (Nat.not_lt_zero d)
  overrun := rfl

/-- A watcher was added to a signal. -/
structure Watched (s : SignalId) (w : Signal.Watcher κ) (l l' : Live κ σ) : Prop where
  fresh : ∀ x ∈ l.watchersOf s, x.number < w.number
  mem_watchers : ∀ t x, x ∈ l'.watchersOf t ↔ x ∈ l.watchersOf t ∨ t = s ∧ x = w
  numbered : ∀ t g, l'.signal? t = some g → g.Numbered
  value : ∀ t, l'.valueOf t = l.valueOf t
  size : l'.signals.size = l.signals.size
  subscriptions : l'.subscriptions = l.subscriptions
  client : l'.client = l.client
  overrun : l'.overrun = l.overrun

theorem watch_watched {l : Live κ σ} (hNumbered : ∀ t g, l.signal? t = some g → g.Numbered)
    {s : SignalId} (hs : s < l.signals.size) (sink : Sink κ) :
    After (watch s sink) l fun n => Watched s ⟨n, sink⟩ l := by
  obtain ⟨g, hg⟩ : ∃ g, l.signal? s = some g := ⟨_, Array.getElem?_eq_getElem hs⟩
  have hNext : ((l.signal? s).map (·.nextWatcher)).getD 0 = g.nextWatcher := by
    rw [hg]
    rfl
  have hWatchers : l.watchersOf s = g.watchers := by
    rw [watchersOf, hg]
    rfl
  unfold watch Live.modifySignal
  rw [after_bind, after_get, hNext, after_bind, after_modify, after_pure]
  refine ⟨?_, fun t x => ?_, fun t g' hg' => ?_, fun t => ?_, Array.size_modify, rfl, rfl, rfl⟩
  · rw [hWatchers]
    exact (hNumbered s g hg).1
  · rw [watchersOf, signal?_modify]
    split
    next hEq =>
      subst hEq
      rw [hg, hWatchers]
      simp
    next hNe => simp [watchersOf, Ne.symm hNe]
  · rw [signal?_modify] at hg'
    split at hg'
    next hEq =>
      subst hEq
      rw [hg] at hg'
      obtain rfl := Option.some.inj hg'
      obtain ⟨hBelow, hNodup⟩ := hNumbered s g hg
      refine ⟨fun w hw => ?_, ?_⟩
      · rcases List.mem_append.mp hw with hw | hw
        · exact Nat.lt_succ_of_lt (hBelow w hw)
        · rw [List.mem_singleton.mp hw]
          exact Nat.lt_succ_self _
      · rw [List.map_append, List.nodup_append]
        refine ⟨hNodup, List.nodup_singleton _, ?_⟩
        rintro a ha b hb rfl
        obtain ⟨w, hw, rfl⟩ := List.mem_map.mp ha
        have hLt := hBelow w hw
        rw [List.map_singleton, List.mem_singleton] at hb
        exact hLt.ne hb
    next => exact hNumbered t g' hg'
  · rw [valueOf, signal?_modify]
    split
    next hEq =>
      subst hEq
      rw [valueOf, hg]
      rfl
    next => rfl

theorem lt_size_of_mem {l : Live κ σ} {s : SignalId} {w : Signal.Watcher κ}
    (hw : w ∈ l.watchersOf s) : s < l.signals.size := by
  by_contra hNot
  rw [watchersOf, signal?, Array.getElem?_eq_none (Nat.le_of_not_lt hNot)] at hw
  cases hw

/-- The sink of a watcher that is added must be laid out. -/
theorem Watched.laid {l l' : Live κ σ} {s : SignalId} {w : Signal.Watcher κ}
    (h : Watched s w l l') (hl : N.Laid l)
    (hw : (∃ d f, w.sink = .derived d f ∧ N.origin d = some (s, f) ∧ d < l.signals.size) ∨
      ∃ k, w.sink = .client k ∧ N.heard k = s) : N.Laid l' where
  sink {t x} hx := by
    rw [h.size]
    rcases (h.mem_watchers t x).mp hx with hx | ⟨rfl, rfl⟩
    · exact hl.sink hx
    · exact hw
  numbered hg := h.numbered _ _ hg
  feed hx := by
    rw [subscription?, h.subscriptions] at hx
    obtain ⟨k, hFeed, hSize, hOn⟩ := hl.feed hx
    refine ⟨k, hFeed, h.size ▸ hSize, fun n hn => ?_⟩
    exact (h.mem_watchers _ _).mpr (.inl (hOn n hn))
  apart hx hx' := by
    rw [subscription?, h.subscriptions] at hx hx'
    exact hl.apart hx hx'

/-- A signal was added. -/
structure Pushed (value : Value) (l l' : Live κ σ) : Prop where
  size : l'.signals.size = l.signals.size + 1
  watchers : ∀ t, l'.watchersOf t = l.watchersOf t
  numbered : (∀ t g, l.signal? t = some g → g.Numbered) → ∀ t g, l'.signal? t = some g → g.Numbered
  value : ∀ t, l'.valueOf t = if t = l.signals.size then value else l.valueOf t
  subscriptions : l'.subscriptions = l.subscriptions
  client : l'.client = l.client
  overrun : l'.overrun = l.overrun

theorem newSignal_pushed (l : Live κ σ) (value : Value) :
    After (newSignal value) l fun d l' => d = l.signals.size ∧ Pushed value l l' := by
  have hSignal (t : SignalId) :
      signal? { l with signals := l.signals.push { value } } t =
        if t = l.signals.size then some { value } else l.signal? t := Array.getElem?_push
  have hNone : l.signal? l.signals.size = none := Array.getElem?_eq_none le_rfl
  refine ⟨rfl, Array.size_push _, fun t => ?_, fun hNumbered t g hg => ?_, fun t => ?_, rfl, rfl, rfl⟩
  · change watchersOf { l with signals := l.signals.push { value } } t = _
    rw [watchersOf, hSignal]
    split
    next hEq =>
      subst hEq
      rw [watchersOf, hNone]
      rfl
    next => rfl
  · change signal? { l with signals := l.signals.push { value } } t = _ at hg
    rw [hSignal] at hg
    split at hg
    · obtain rfl := Option.some.inj hg
      exact ⟨fun _ hw => (List.not_mem_nil hw).elim, List.nodup_nil⟩
    · exact hNumbered t g hg
  · change valueOf { l with signals := l.signals.push { value } } t = _
    rw [valueOf, hSignal]
    split
    · rfl
    · rfl

theorem Pushed.laid {l l' : Live κ σ} {value : Value} (h : Pushed value l l') (hl : N.Laid l) :
    N.Laid l' where
  sink hw := by
    rw [h.watchers] at hw
    rw [h.size]
    rcases hl.sink hw with ⟨d, f, hSink, hOrigin, hd⟩ | hClient
    · exact .inl ⟨d, f, hSink, hOrigin, Nat.lt_succ_of_lt hd⟩
    · exact .inr hClient
  numbered hg := h.numbered (fun _ _ hg => hl.numbered hg) _ _ hg
  feed hx := by
    rw [subscription?, h.subscriptions] at hx
    obtain ⟨k, hFeed, hSize, hOn⟩ := hl.feed hx
    refine ⟨k, hFeed, h.size ▸ Nat.lt_succ_of_lt hSize, fun n hn => ?_⟩
    rw [h.watchers]
    exact hOn n hn
  apart hx hx' := by
    rw [subscription?, h.subscriptions] at hx hx'
    exact hl.apart hx hx'

theorem Pushed.delivered {value : Value} (h : Pushed value l l') (hl : N.Laid l) {t : SignalId}
    {w : Signal.Watcher κ} (hw : w ∈ l.watchersOf t) (hDelivered : Delivered l t w.sink) :
    Delivered l' t w.sink := by
  have hValue (t : SignalId) (ht : t < l.signals.size) : l'.valueOf t = l.valueOf t := by
    rw [h.value, if_neg ht.ne]
  rcases hl.sink hw with ⟨d, f, hSink, _, hd⟩ | ⟨k, hSink, _⟩
  · rw [hSink, Delivered] at hDelivered ⊢
    rw [hValue d hd, hValue t (lt_size_of_mem hw)]
    exact hDelivered
  · rw [hSink, Delivered] at hDelivered ⊢
    rw [h.client, hValue t (lt_size_of_mem hw)]
    exact hDelivered

namespace Settled

theorem newSignal (h : N.Settled l) (hSource : N.origin l.signals.size = none) (value : Value) :
    After (newSignal value) l fun _ => N.Settled := by
  refine (newSignal_pushed l value).mono fun _ l' ⟨_, hPushed⟩ => ?_
  refine ⟨hPushed.laid h.toLaid, fun t w hw => ?_, fun d s f hOrigin hd => ?_, ?_⟩
  · rw [hPushed.watchers] at hw
    exact hPushed.delivered h.toLaid hw (h.delivered t w hw)
  · rw [hPushed.size] at hd
    have hNe : d ≠ l.signals.size := by
      rintro rfl
      rw [hSource] at hOrigin
      cases hOrigin
    rw [hPushed.watchers]
    exact h.derived d s f hOrigin (Nat.lt_of_le_of_ne (Nat.le_of_lt_succ hd) hNe)
  · exact hPushed.overrun.trans h.overrun

/-- A derived signal begins with what follows from the value of its source. -/
theorem derive (h : N.Settled l) {s : SignalId} {f : Value → Value} (hs : s < l.signals.size)
    (hOrigin : N.origin l.signals.size = some (s, f)) :
    After (derive s f) l fun _ => N.Settled := by
  unfold Live.derive
  rw [after_bind, after_get]
  refine (newSignal_pushed l (f (l.valueOf s))).bind ?_
  rintro d l₁ ⟨rfl, h₁⟩
  have hl₁ := h₁.laid h.toLaid
  have hs₁ : s < l₁.signals.size := by
    rw [h₁.size]
    exact Nat.lt_succ_of_lt hs
  refine (watch_watched (fun _ _ hg => hl₁.numbered hg) hs₁ (.derived l.signals.size f)).bind ?_
  intro n l₂ h₂
  have hl₂ : N.Laid l₂ := by
    refine h₂.laid hl₁ (.inl ⟨_, f, rfl, hOrigin, ?_⟩)
    rw [h₁.size]
    exact Nat.lt_succ_self _
  have hDelivered₂ (t : SignalId) (w : Signal.Watcher κ) (hw : w ∈ l₂.watchersOf t) :
      Delivered l₂ t w.sink := by
    rcases (h₂.mem_watchers t w).mp hw with hw | ⟨rfl, rfl⟩
    · rw [h₁.watchers] at hw
      have hOld := h₁.delivered h.toLaid hw (h.delivered t w hw)
      exact hOld.congr h₂.value (congrArg (·.last) h₂.client)
    · rw [Delivered, h₂.value, h₂.value, h₁.value, h₁.value, if_pos rfl, if_neg hs.ne]
  have h₂' : N.Settled l₂ := by
    refine ⟨hl₂, hDelivered₂, fun d t g hFrom hd => ?_, ?_⟩
    · rw [h₂.size, h₁.size] at hd
      by_cases hEq : d = l.signals.size
      · subst hEq
        rw [hOrigin] at hFrom
        obtain ⟨rfl, rfl⟩ := Prod.mk.inj (Option.some.inj hFrom)
        exact ⟨n, (h₂.mem_watchers _ _).mpr (.inr ⟨rfl, rfl⟩)⟩
      · have hOld : d < l.signals.size := Nat.lt_of_le_of_ne (Nat.le_of_lt_succ hd) hEq
        obtain ⟨m, hm⟩ := h.derived d t g hFrom hOld
        rw [← h₁.watchers] at hm
        exact ⟨m, (h₂.mem_watchers _ _).mpr (.inl hm)⟩
    · exact h₂.overrun.trans (h₁.overrun.trans h.overrun)
  -- Noting where a derived signal comes from changes neither values nor watchers.
  rw [after_bind, Live.modifySignal, after_modify, after_pure]
  have hValue (t : SignalId) :
      valueOf
        { l₂ with
          signals := l₂.signals.modify l.signals.size fun g => { g with source := some (s, n) } } t =
        l₂.valueOf t := by
    rw [valueOf, signal?_modify]
    split
    · rw [Option.map_map]
      rfl
    · rfl
  refine h₂'.congr ⟨Array.size_modify, fun t => ?_, rfl, rfl⟩ fun t w _ hDelivered =>
    hDelivered.congr hValue rfl
  rw [signal?_modify]
  split
  · rw [Option.map_map]
    rfl
  · rfl

/-- A path in a scope leads to a signal of the scope or to a new derived one. -/
theorem resolve (h : N.Settled l) (scope : Scope) (path : String)
    (hOrigin : ∀ p, DataPath.parse? path = some p → ∀ s, scope.lookup? p.root = some s →
      p.steps ≠ [] → s < l.signals.size ∧
        N.origin l.signals.size = some (s, fun value => DataPath.follow value p.steps)) :
    After (resolve scope path) l fun _ => N.Settled := by
  unfold Live.resolve
  split
  next => exact h
  next p hPath =>
    split
    next => exact h
    next s hLookup =>
      split
      next => exact h
      next steps hSteps =>
        obtain ⟨hs, hFrom⟩ := hOrigin p hPath s hLookup fun hNil => hSteps hNil
        rw [after_bind]
        exact (h.derive hs hFrom).mono fun _ _ h' => h'

theorem newSubscription (h : N.Settled l) {k : κ} (hk : N.heard k < l.signals.size) :
    After (newSubscription (.signal (N.heard k) (.client k))) l fun _ => N.Settled := by
  let new : Subscription κ := { feed := .signal (N.heard k) (.client k) }
  have hNew (sub : SubscriptionId) (x : Subscription κ)
      (hx : subscription? { l with subscriptions := l.subscriptions.push new } sub = some x) :
      x = new ∨ l.subscription? sub = some x := by
    rw [subscription?, Array.getElem?_push] at hx
    split at hx
    · exact .inl (Option.some.inj hx).symm
    · exact .inr hx
  refine ⟨⟨h.sink, h.numbered, fun {sub x} hx => ?_, fun {sub sub' x} hx hx' hOn => ?_⟩,
    h.delivered, h.derived, h.overrun⟩
  · rcases hNew sub x hx with rfl | hx
    · exact ⟨k, rfl, hk, fun _ hOn => by cases hOn⟩
    · exact h.feed hx
  · rcases hNew sub x hx with rfl | hx
    · cases hOn
    · rcases hNew sub' x hx' with rfl | hx'
      · cases hOn
      · exact h.apart hx hx' hOn

end Settled

/-! ## Subscriptions and sets -/

/-- A subscription is noted to be on when its watcher was added. -/
theorem Watched.registered {l l' : Live κ σ} {k : κ} {n : Nat}
    (h : Watched (N.heard k) ⟨n, .client k⟩ l l') (hl : N.Laid l) {sub : SubscriptionId}
    (hSub : l.subscription? sub = some { feed := .signal (N.heard k) (.client k) }) :
    After (setRegistered sub (some n)) l' fun _ => N.Laid := by
  have hl' : N.Laid l' := h.laid hl (.inr ⟨k, rfl, rfl⟩)
  let on : Subscription κ := { feed := .signal (N.heard k) (.client k), registered := some n }
  have hSame (sub' : SubscriptionId) : l'.subscription? sub' = l.subscription? sub' := by
    rw [subscription?, h.subscriptions]
    rfl
  have hCases {sub' : SubscriptionId} {x : Subscription κ}
      (hx : subscription?
        { l' with
          subscriptions := l'.subscriptions.modify sub fun x => { x with registered := some n } }
        sub' = some x) : sub = sub' ∧ x = on ∨ sub ≠ sub' ∧ l.subscription? sub' = some x := by
    rw [subscription?_modify, hSame] at hx
    split at hx
    next hEq =>
      subst hEq
      rw [hSub] at hx
      exact .inl ⟨rfl, (Option.some.inj hx).symm⟩
    next hNe => exact .inr ⟨hNe, hx⟩
  -- No other subscription can have the new number.
  have hOther (sub' : SubscriptionId) : l.subscription? sub' ≠ some on := by
    intro hx
    obtain ⟨k', hFeed, _, hOn⟩ := hl.feed hx
    obtain ⟨hHeard, hSink⟩ := Feed.signal.inj hFeed
    have hFresh := h.fresh _ (hHeard ▸ hOn n rfl)
    exact lt_irrefl _ hFresh
  rw [setRegistered, after_modify]
  refine ⟨hl'.sink, hl'.numbered, fun {sub' x} hx => ?_, fun {sub₁ sub₂ x} hx₁ hx₂ hOn => ?_⟩
  · rcases hCases hx with ⟨rfl, rfl⟩ | ⟨_, hx⟩
    · refine ⟨k, rfl, (hl.feed hSub).elim fun k' h' => ?_, fun m hm => ?_⟩
      · obtain ⟨hHeard, _⟩ := Feed.signal.inj h'.1
        exact hHeard ▸ h.size ▸ h'.2.1
      · obtain rfl := Option.some.inj hm
        exact (h.mem_watchers _ _).mpr (.inr ⟨rfl, rfl⟩)
    · exact hl'.feed ((hSame sub').trans hx)
  · rcases hCases hx₁ with ⟨rfl, rfl⟩ | ⟨_, hx₁⟩
    · rcases hCases hx₂ with ⟨rfl, _⟩ | ⟨_, hx₂⟩
      · rfl
      · exact absurd hx₂ (hOther sub₂)
    · rcases hCases hx₂ with ⟨rfl, rfl⟩ | ⟨_, hx₂⟩
      · exact absurd hx₁ (hOther sub₁)
      · exact hl.apart hx₁ hx₂ hOn

/-- The watchers of a signal with a number were taken away. -/
structure Unwatched (s : SignalId) (n : Nat) (l l' : Live κ σ) : Prop where
  mem_watchers : ∀ t x, x ∈ l'.watchersOf t ↔ x ∈ l.watchersOf t ∧ (t = s → x.number ≠ n)
  numbered : (∀ t g, l.signal? t = some g → g.Numbered) → ∀ t g, l'.signal? t = some g → g.Numbered
  value : ∀ t, l'.valueOf t = l.valueOf t
  size : l'.signals.size = l.signals.size
  subscriptions : l'.subscriptions = l.subscriptions
  client : l'.client = l.client
  overrun : l'.overrun = l.overrun

theorem unwatch_unwatched (l : Live κ σ) (s : SignalId) (n : Nat) :
    After (unwatch s n) l fun _ => Unwatched s n l := by
  rw [unwatch, Live.modifySignal, after_modify]
  refine ⟨fun t x => ?_, fun hNumbered t g hg => ?_, fun t => ?_, Array.size_modify, rfl, rfl, rfl⟩
  · rw [watchersOf, signal?_modify, watchersOf]
    split
    next hEq =>
      subst hEq
      cases l.signal? s <;> simp
    next hNe => simp [Ne.symm hNe]
  · rw [signal?_modify] at hg
    split at hg
    next hEq =>
      subst hEq
      obtain ⟨g₀, hg₀, rfl⟩ := Option.map_eq_some_iff.mp hg
      obtain ⟨hBelow, hNodup⟩ := hNumbered s g₀ hg₀
      refine ⟨fun w hw => hBelow w (List.mem_filter.mp hw).1, ?_⟩
      exact hNodup.sublist (List.filter_sublist.map _)
    next => exact hNumbered t g hg
  · rw [valueOf, signal?_modify, valueOf]
    split
    · rw [Option.map_map]
      rfl
    · rfl

/-- Watchers with one number are one watcher. -/
theorem Laid.eq_of_number {l : Live κ σ} (hl : N.Laid l) {s : SignalId}
    {w w' : Signal.Watcher κ} (hw : w ∈ l.watchersOf s) (hw' : w' ∈ l.watchersOf s)
    (hNumber : w.number = w'.number) : w = w' := by
  cases hSignal : l.signal? s with
  | none => simp [watchersOf, hSignal] at hw
  | some g =>
    rw [watchersOf, hSignal] at hw hw'
    exact List.inj_on_of_nodup_map (hl.numbered hSignal).2 hw hw' hNumber

/-- A subscription is noted to be off, and its watcher is taken away. -/
theorem Laid.unregistered {l : Live κ σ} (hl : N.Laid l) {k : κ} {n : Nat} {sub : SubscriptionId}
    (hSub : l.subscription? sub =
      some { feed := .signal (N.heard k) (.client k), registered := some n }) {l' : Live κ σ}
    (h : Unwatched (N.heard k) n
      { l with
        subscriptions := l.subscriptions.modify sub fun x => { x with registered := none } } l') :
    N.Laid l' where
  sink hw := by
    rw [h.size]
    exact hl.sink ((h.mem_watchers _ _).mp hw).1
  numbered hg := h.numbered (fun _ _ hg => hl.numbered hg) _ _ hg
  feed {sub' x} hx := by
    rw [subscription?, h.subscriptions] at hx
    change subscription? { l with subscriptions := _ } sub' = _ at hx
    rw [subscription?_modify] at hx
    split at hx
    next hEq =>
      subst hEq
      rw [hSub] at hx
      obtain rfl := Option.some.inj hx
      obtain ⟨k', hFeed, hSize, _⟩ := hl.feed hSub
      exact ⟨k', hFeed, h.size ▸ hSize, fun _ hOn => by cases hOn⟩
    next hNe =>
      obtain ⟨k', hFeed, hSize, hOn⟩ := hl.feed hx
      refine ⟨k', hFeed, h.size ▸ hSize, fun m hm => ?_⟩
      refine (h.mem_watchers _ _).mpr ⟨hOn m hm, fun hHeard hNumber => hNe ?_⟩
      -- Two subscriptions with one watcher would be one.
      obtain ⟨k'', hFeed'', _, hOn''⟩ := hl.feed hSub
      obtain ⟨hHeard'', hSink''⟩ := Feed.signal.inj hFeed''
      obtain rfl : k = k'' := Sink.client.inj hSink''
      have hSame := hl.eq_of_number (hHeard ▸ hOn m hm) (hOn'' n rfl) hNumber
      obtain ⟨rfl, hSink⟩ := Signal.Watcher.mk.inj hSame
      obtain rfl := Sink.client.inj hSink
      refine hl.apart hSub (hx.trans ?_) rfl
      obtain ⟨feed, registered⟩ := x
      obtain rfl : feed = _ := hFeed
      obtain rfl : registered = _ := hm
      rfl
  apart {sub₁ sub₂ x} hx₁ hx₂ hOn := by
    have hOld (sub' : SubscriptionId) (hx : l'.subscription? sub' = some x) :
        l.subscription? sub' = some x := by
      rw [subscription?, h.subscriptions] at hx
      change subscription? { l with subscriptions := _ } sub' = _ at hx
      rw [subscription?_modify] at hx
      split at hx
      · obtain ⟨y, _, rfl⟩ := Option.map_eq_some_iff.mp hx
        cases hOn
      · exact hx
    exact hl.apart (hOld _ hx₁) (hOld _ hx₂) hOn

namespace Settled

theorem deactivate (h : N.Settled l) (sub : SubscriptionId) :
    After (deactivate sub) l fun _ => N.Settled := by
  unfold Live.deactivate
  rw [after_bind, after_get]
  split
  next => exact h
  next => exact h
  next signal sink n hSub =>
    obtain ⟨k, hFeed, _, hOn⟩ := h.feed hSub
    obtain ⟨rfl, rfl⟩ := Feed.signal.inj hFeed
    rw [after_bind, setRegistered, after_modify]
    refine (unwatch_unwatched _ _ _).mono fun _ l' h' => ?_
    refine ⟨h.unregistered hSub h', fun t w hw => ?_, fun d s f hOrigin hd => ?_, ?_⟩
    · have hOld := h.delivered t w ((h'.mem_watchers t w).mp hw).1
      exact hOld.congr h'.value (congrArg (·.last) h'.client)
    · obtain ⟨m, hm⟩ := h.derived d s f hOrigin (h'.size ▸ hd)
      refine ⟨m, (h'.mem_watchers s _).mpr ⟨hm, fun hHeard hNumber => ?_⟩⟩
      have hSame := h.eq_of_number (hHeard ▸ hm) (hOn n rfl) hNumber
      cases (Signal.Watcher.mk.inj hSame).2
    · exact h'.overrun.trans h.overrun
  next node event handler n hSub =>
    obtain ⟨k, hFeed, _⟩ := h.feed hSub
    cases hFeed

variable [DecidableEq κ] {client : Client κ (Heard κ σ)}

theorem setSignal (h : N.Settled l) (hClient : N.Obeyed client) {depth : Nat}
    (hDepth : N.levels ≤ depth) {s : SignalId} (hs : N.origin s = none) (value : Value) :
    After (setSignal (Calls.upTo client.noting depth) s value) l fun _ => N.Settled := by
  refine (setSignal_setting hClient depth s value l (by omega) h.toLaid).mono fun _ l' h' => ?_
  exact h.congr h'.toSameNetwork fun t w hw hDelivered => h'.delivered_all h.toLaid hs t hw hDelivered

theorem activate (h : N.Settled l) (hClient : N.Obeyed client) {depth : Nat}
    (hDepth : N.levels ≤ depth + 1) (sub : SubscriptionId) :
    After (activate (Calls.upTo client.noting (depth + 1)) sub) l fun _ => N.Settled := by
  unfold Live.activate
  rw [after_bind, after_get]
  split
  next => exact h
  next => exact h
  next signal sink hSub =>
    obtain ⟨k, hFeed, hSize, _⟩ := h.feed hSub
    obtain ⟨rfl, rfl⟩ := Feed.signal.inj hFeed
    refine (watch_watched (fun _ _ hg => h.numbered hg) hSize (.client k)).bind fun n l₁ h₁ => ?_
    have hl₂ := h₁.registered h.toLaid hSub
    rw [setRegistered, after_modify] at hl₂
    rw [after_bind, setRegistered, after_modify, after_bind, after_get]
    have hSet (t : SignalId) (value : Value) (l : Live κ (Heard κ σ)) (ht : N.MaySet k t)
        (hl : N.Laid l) : After (Live.setSignal (Calls.upTo client.noting depth) t value) l
          fun _ => N.Spread (N.level (N.heard k)) l := by
      have hBelow := ht.2
      exact (setSignal_setting hClient depth t value l (by omega) hl).mono fun _ _ h' =>
        h'.spread hl ht.1 hBelow
    refine (hClient.hears hSet _ hl₂).mono fun _ l₃ h₃ => ?_
    have hSame := (SameNetwork.of_client _ _).trans h₃.toSameNetwork
    refine ⟨hSame.laid hl₂, fun t w hw => ?_, fun d s f hOrigin hd => ?_, ?_⟩
    · rw [h₃.watchersOf] at hw
      refine h₃.delivered t w hw (hl₂.noted rfl hw ?_)
      rcases (h₁.mem_watchers t w).mp hw with hw | ⟨rfl, rfl⟩
      · exact .inr ((h.delivered t w hw).congr h₁.value (congrArg (·.last) h₁.client))
      · exact .inl rfl
    · obtain ⟨m, hm⟩ := h.derived d s f hOrigin (h₁.size ▸ hSame.size ▸ hd)
      refine ⟨m, ?_⟩
      rw [h₃.watchersOf]
      exact (h₁.mem_watchers s _).mpr (.inl hm)
    · exact h₃.overrun.trans (h₁.overrun.trans h.overrun)
  next node event handler hSub =>
    obtain ⟨k, hFeed, _⟩ := h.feed hSub
    cases hFeed

end Settled

/-! ## Runs -/

variable [DecidableEq κ]

/-- Runs that build what is laid out, switch subscriptions on and off, and set sources. -/
inductive Run (N : Layout κ) (calls : Calls κ (Heard κ σ)) : Live κ (Heard κ σ) → Prop where
  | create (config : Config) (own : σ) : Run N calls (create config { own })
  | newSignal {l : Live κ (Heard κ σ)} (h : Run N calls l)
      (hSource : N.origin l.signals.size = none) (value : Value) :
      Run N calls ((newSignal value).run l).2
  | derive {l : Live κ (Heard κ σ)} {s : SignalId} {f : Value → Value} (h : Run N calls l)
      (hs : s < l.signals.size) (hOrigin : N.origin l.signals.size = some (s, f)) :
      Run N calls ((derive s f).run l).2
  | resolve {l : Live κ (Heard κ σ)} (h : Run N calls l) (scope : Scope) (path : String)
      (hOrigin : ∀ p, DataPath.parse? path = some p → ∀ s, scope.lookup? p.root = some s →
        p.steps ≠ [] → s < l.signals.size ∧
          N.origin l.signals.size = some (s, fun value => DataPath.follow value p.steps)) :
      Run N calls ((resolve scope path).run l).2
  | newSubscription {l : Live κ (Heard κ σ)} {k : κ} (h : Run N calls l)
      (hk : N.heard k < l.signals.size) :
      Run N calls ((newSubscription (.signal (N.heard k) (.client k))).run l).2
  | activate {l : Live κ (Heard κ σ)} (h : Run N calls l) (sub : SubscriptionId) :
      Run N calls ((activate calls sub).run l).2
  | deactivate {l : Live κ (Heard κ σ)} (h : Run N calls l) (sub : SubscriptionId) :
      Run N calls ((deactivate sub).run l).2
  | setSignal {l : Live κ (Heard κ σ)} {s : SignalId} (h : Run N calls l)
      (hs : N.origin s = none) (value : Value) :
      Run N calls ((setSignal calls s value).run l).2

variable {client : Client κ (Heard κ σ)}

theorem Run.settled (hClient : N.Obeyed client) {depth : Nat} (hDepth : N.levels ≤ depth)
    (h : N.Run (Calls.upTo client.noting depth) l) : N.Settled l := by
  induction h with
  | create config own => exact create_settled N config own
  | newSignal _ hSource value ih => exact ih.newSignal hSource value
  | derive _ hs hOrigin ih => exact ih.derive hs hOrigin
  | resolve _ scope path hOrigin ih => exact ih.resolve scope path hOrigin
  | newSubscription _ hk ih => exact ih.newSubscription hk
  | activate _ sub ih =>
    obtain ⟨depth, rfl⟩ := Nat.exists_eq_succ_of_ne_zero
      (Nat.ne_of_gt (Nat.lt_of_lt_of_le (Nat.zero_lt_of_lt (N.level_lt 0)) hDepth))
    exact ih.activate hClient hDepth sub
  | deactivate _ sub ih => exact ih.deactivate sub
  | setSignal _ hs value ih => exact ih.setSignal hClient hDepth hs value

/-- If callbacks set only sources further down than what they listen to, then whenever the outermost
set has returned, derived signals follow their sources, and what is on has delivered the last value;
no call was left out. -/
theorem Run.follows (hClient : N.Obeyed client) {depth : Nat} (hDepth : N.levels ≤ depth)
    (h : N.Run (Calls.upTo client.noting depth) l) :
    (∀ d s f, N.origin d = some (s, f) → d < l.signals.size → l.valueOf d = f (l.valueOf s)) ∧
    (∀ sub x, l.subscription? sub = some x → l.isActive sub = true →
      ∃ s k, x.feed = .signal s (.client k) ∧ l.client.last k = some (l.valueOf s)) ∧
    l.overrun = false := by
  have hSettled := h.settled hClient hDepth
  refine ⟨fun d s f hOrigin hd => ?_, fun sub x hx hOn => ?_, hSettled.overrun⟩
  · obtain ⟨n, hw⟩ := hSettled.derived d s f hOrigin hd
    exact hSettled.delivered s _ hw
  · obtain ⟨k, hFeed, _, hWatcher⟩ := hSettled.feed hx
    rw [isActive, hx] at hOn
    obtain ⟨n, hn⟩ := Option.isSome_iff_exists.mp hOn
    exact ⟨_, k, hFeed, hSettled.delivered _ _ (hWatcher n hn)⟩

/-! ## A relay -/

/-- A derived signal, and a callback that passes its value on to another source. -/
def relay : Layout Bool where
  origin s := if s = 1 then some (0, fun value => .array [value]) else none
  heard passes := if passes then 1 else 2
  level s := min s 2
  levels := 3
  level_lt s := Nat.lt_succ_of_le (Nat.min_le_right s 2)
  origin_level {s d f} hOrigin := by
    split at hOrigin
    next hEq =>
      subst hEq
      obtain ⟨rfl, -⟩ := Prod.mk.inj (Option.some.inj hOrigin)
      decide
    next => cases hOrigin

def relaying : Client Bool (Heard Bool Unit) :=
  { Client.still with
    receive := fun calls passes value => if passes then Live.setSignal calls 2 value else pure () }

theorem relaying_obeyed : relay.Obeyed relaying := by
  intro calls passes value
  cases passes with
  | false => exact .pure ()
  | true => exact .set ⟨rfl, by decide⟩ value

def relayed : Live Bool (Heard Bool Unit) :=
  let calls := Calls.upTo relaying.noting 3
  let l := ((Live.newSignal (.bool false)).run (create {} { own := () })).2
  let l := ((Live.derive 0 fun value => .array [value]).run l).2
  let l := ((Live.newSignal .null).run l).2
  let l := ((Live.newSubscription (.signal (relay.heard true) (.client true))).run l).2
  let l := ((Live.newSubscription (.signal (relay.heard false) (.client false))).run l).2
  let l := ((Live.activate calls 0).run l).2
  let l := ((Live.activate calls 1).run l).2
  ((Live.setSignal calls 0 (.bool true)).run l).2

/-- The value has gone through the derived signal and the callback to the last of the signals. -/
theorem relayed_follows : relayed.valueOf 2 = .array [.bool true] ∧
    (∀ d s f, relay.origin d = some (s, f) → d < relayed.signals.size →
      relayed.valueOf d = f (relayed.valueOf s)) ∧
    (∀ sub x, relayed.subscription? sub = some x → relayed.isActive sub = true →
      ∃ s k, x.feed = .signal s (.client k) ∧ relayed.client.last k = some (relayed.valueOf s)) ∧
    relayed.overrun = false := by
  refine ⟨Value.eq_of_beq_exact (by decide +kernel), Run.follows (N := relay) relaying_obeyed
    (le_refl 3) ?_⟩
  have h₀ : relay.Run (Calls.upTo relaying.noting 3) (create {} { own := () }) := .create {} ()
  have h₁ := h₀.newSignal rfl (.bool false)
  have h₂ := h₁.derive (s := 0) (by decide) rfl
  have h₃ := h₂.newSignal rfl .null
  have h₄ := h₃.newSubscription (k := true) (by decide)
  have h₅ := h₄.newSubscription (k := false) (by decide)
  have h₆ := h₅.activate 0
  have h₇ := h₆.activate 1
  exact h₇.setSignal (s := 0) rfl (.bool true)

end Layout

/-! ## A callback that sets its own signal -/

/-- One of the callbacks does not let the first signal exceed 10. -/
def clamping : Client Bool (Heard Bool Unit) :=
  { Client.still with
    receive := fun calls clamps value =>
      match clamps, value with
      | true, .number (.int i) =>
        if 10 < i then setSignal calls 0 (.number (.int 10)) else pure ()
      | _, _ => pure () }

/-- The first signal is 1 and then set to 20. The callback came first, then a derived signal and
another callback. -/
def writtenBack : Live Bool (Heard Bool Unit) :=
  let calls := Calls.upTo clamping.noting 3
  let build : LiveM Bool (Heard Bool Unit) Unit := do
    let s ← newSignal (.number (.int 1))
    let clamps ← newSubscription (.signal s (.client true))
    activate calls clamps
    let _ ← derive s id
    let listens ← newSubscription (.signal s (.client false))
    activate calls listens
    setSignal calls s (.number (.int 20))
  (build.run (create {} { own := () })).2

/-- The set is over and the signal is 10, but what came after the callback was given 20 last. -/
theorem writtenBack_stale : writtenBack.valueOf 0 = .number (.int 10) ∧
    (writtenBack.signal? 1).map (·.source) = some (some (0, 1)) ∧
    writtenBack.valueOf 1 = .number (.int 20) ∧
    writtenBack.isActive 1 = true ∧ writtenBack.client.last false = some (.number (.int 20)) ∧
    writtenBack.overrun = false :=
  ⟨Value.eq_of_beq_exact (by decide +kernel), by decide +kernel,
    Value.eq_of_beq_exact (by decide +kernel), by decide +kernel,
    Value.eq_some_of_beq_exact (by decide +kernel), by decide +kernel⟩

end LiveMarkup.Live
