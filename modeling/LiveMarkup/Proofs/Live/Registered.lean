import LiveMarkup.Proofs.Live.Quiet
import LiveMarkup.Proofs.Live.Serving

/-!
# Callbacks and their subscriptions

A signal calls its watchers as they were when it was set. Each of them that came with a subscription
belonged to an active one at that moment; an observer that is called earlier may have switched it
off since, and it is called nevertheless.

Signals that follow one another, and callbacks that listen to signals and set other ones, are a
network. A set of a signal passes its value on before it returns, and what it calls may set signals
in turn. While no callback sets a signal that is not further down than the one that it listens to,
no signal is set while it is passing its value on; then everything that follows a signal has its
last value as soon as the outermost set returns.

* `Registered`: the watchers of a signal that come with subscriptions are those of active ones;
* `notified_active`: after whatever a client does, what a set calls with subscriptions is active
  when the set begins;
* `silenced_written`: within one notification, a projector writes after it was switched off;
* `Layout`: what follows what, with a level for every signal;
* `Reaction`: what a callback may do;
* `Layout.Laid`: a state that agrees with a layout;
* `Layout.setSignal_setting`: what a set passes on, by induction on the depth of calls.
-/

namespace LiveMarkup.Live

variable {κ σ : Type}

/-- A sink that only subscriptions watch signals with: neither that of a derived signal nor a
callback of the client that may watch without a subscription. -/
def Sink.Subscribed (loose : κ → Prop) : Sink κ → Prop
  | .derived _ _ => False
  | .client k => ¬ loose k
  | _ => True

/-- Every watcher that comes with a subscription is the registered one of an active subscription. -/
def Registered (loose : κ → Prop) (l : Live κ σ) : Prop :=
  ∀ s, ∀ w ∈ l.watchersOf s, w.sink.Subscribed loose → ∃ sub,
    l.subscription? sub = some { feed := .signal s w.sink, registered := some w.number }

namespace Registered

variable {loose : κ → Prop} {l l' : Live κ σ}

theorem mem_watchersOf_modify {s t : SignalId} {f : Signal κ → Signal κ} {w : Signal.Watcher κ}
    (h : w ∈ watchersOf { l with signals := l.signals.modify s f } t) :
    w ∈ l.watchersOf t ∨ s = t ∧ ∃ g, l.signal? s = some g ∧ w ∈ (f g).watchers := by
  rw [watchersOf, signal?_modify] at h
  split at h
  next hEq =>
    subst hEq
    cases hSignal : l.signal? s with
    | none => simp [hSignal] at h
    | some g =>
      rw [hSignal] at h
      exact .inr ⟨rfl, g, rfl, h⟩
  next => exact .inl h

theorem of_subset (h : Registered loose l) (hSubscriptions : l'.subscriptions = l.subscriptions)
    (hWatchers : ∀ s, ∀ w ∈ l'.watchersOf s, w.sink.Subscribed loose → w ∈ l.watchersOf s) :
    Registered loose l' := by
  intro s w hw hSink
  obtain ⟨sub, hSub⟩ := h s w (hWatchers s w hw hSink) hSink
  refine ⟨sub, ?_⟩
  rw [subscription?, hSubscriptions]
  exact hSub

theorem congr (h : Registered loose l) (hSignals : l'.signals = l.signals)
    (hSubscriptions : l'.subscriptions = l.subscriptions) : Registered loose l' := by
  refine h.of_subset hSubscriptions fun s w hw _ => ?_
  rwa [watchersOf, signal?, hSignals] at hw

/-- A change of a signal that adds no watcher with a subscription. -/
theorem modifySignal (h : Registered loose l) {s : SignalId} {f : Signal κ → Signal κ}
    (hf : ∀ g, ∀ w ∈ (f g).watchers, w.sink.Subscribed loose → w ∈ g.watchers) :
    Registered loose { l with signals := l.signals.modify s f } := by
  refine h.of_subset rfl fun t w hw hSink => ?_
  rcases mem_watchersOf_modify hw with hw | ⟨rfl, g, hg, hw⟩
  · exact hw
  · rw [watchersOf, hg]
    exact hf g w hw hSink

theorem watch (h : Registered loose l) (s : SignalId) {sink : Sink κ}
    (hSink : ¬ sink.Subscribed loose) : After (watch s sink) l fun _ => Registered loose := by
  refine h.modifySignal fun g w hw hFed => ?_
  rcases List.mem_append.mp hw with hw | hw
  · exact hw
  · rw [List.mem_singleton.mp hw] at hFed
    exact absurd hFed hSink

theorem newSignal (h : Registered loose l) (value : Value) :
    After (newSignal value) l fun _ => Registered loose := by
  refine h.of_subset rfl fun s w hw _ => ?_
  change w ∈ watchersOf { l with signals := l.signals.push { value } } s at hw
  rw [watchersOf, signal?, Array.getElem?_push] at hw
  split at hw
  · cases hw
  · exact hw

theorem newSubscription (h : Registered loose l) (feed : Feed κ) :
    After (newSubscription feed) l fun _ => Registered loose := by
  intro s w hw hSink
  obtain ⟨sub, hSub⟩ := h s w hw hSink
  refine ⟨sub, ?_⟩
  change subscription? { l with subscriptions := l.subscriptions.push { feed } } sub = _
  rw [subscription?, Array.getElem?_push, if_neg]
  · exact hSub
  · rintro rfl
    rw [subscription?, Array.getElem?_eq_none (le_refl _)] at hSub
    cases hSub

/-- Changing the registration of a subscription disturbs no watcher of another one. -/
theorem subscription?_setRegistered {sub sub' : SubscriptionId} {r : Option Nat}
    {x : Subscription κ} (hNe : sub ≠ sub') (h : l.subscription? sub' = some x) :
    subscription? { l with subscriptions := l.subscriptions.modify sub fun x =>
      { x with registered := r } } sub' = some x := by
  rw [subscription?_modify, if_neg hNe, h]

theorem register (h : Registered loose l) {sub : SubscriptionId} {signal : SignalId}
    {sink : Sink κ} (hSub : l.subscription? sub = some { feed := .signal signal sink }) :
    After (Live.watch signal sink) l fun number l' =>
      After (setRegistered sub (some number)) l' fun _ => Registered loose := by
  intro s w hw hSink
  rcases mem_watchersOf_modify (l := l) hw with hw | ⟨rfl, g, hg, hw⟩
  · obtain ⟨sub', hSub'⟩ := h s w hw hSink
    refine ⟨sub', subscription?_setRegistered ?_ hSub'⟩
    rintro rfl
    rw [hSub] at hSub'
    cases hSub'
  · rcases List.mem_append.mp hw with hw | hw
    · have hOld : w ∈ l.watchersOf signal := by
        rw [watchersOf, hg]
        exact hw
      obtain ⟨sub', hSub'⟩ := h signal w hOld hSink
      refine ⟨sub', subscription?_setRegistered ?_ hSub'⟩
      rintro rfl
      rw [hSub] at hSub'
      cases hSub'
    · rw [List.mem_singleton.mp hw]
      refine ⟨sub, ?_⟩
      change subscription? { l with subscriptions := l.subscriptions.modify sub _ } sub = _
      rw [subscription?_modify, if_pos rfl, hSub]
      rfl

theorem unregister (h : Registered loose l) {sub : SubscriptionId} {signal : SignalId}
    {sink : Sink κ} {number : Nat}
    (hSub : l.subscription? sub =
      some { feed := .signal signal sink, registered := some number }) :
    After (setRegistered sub none) l fun _ l' =>
      After (unwatch signal number) l' fun _ => Registered loose := by
  intro s w hw hSink
  -- A watcher that is left over has another number or another signal.
  have hLeft : w ∈ l.watchersOf s ∧ (signal = s → w.number ≠ number) := by
    change w ∈ watchersOf { l with signals := l.signals.modify signal _ } s at hw
    rw [watchersOf, signal?_modify] at hw
    split at hw
    next hEq =>
      subst hEq
      cases hSignal : l.signal? signal with
      | none => simp [hSignal] at hw
      | some g =>
        rw [hSignal] at hw
        obtain ⟨hOld, hNumber⟩ := List.mem_filter.mp hw
        refine ⟨?_, fun _ => by simpa using hNumber⟩
        rw [watchersOf, hSignal]
        exact hOld
    next hNe => exact ⟨hw, fun hEq => absurd hEq hNe⟩
  obtain ⟨sub', hSub'⟩ := h s w hLeft.1 hSink
  refine ⟨sub', subscription?_setRegistered ?_ hSub'⟩
  rintro rfl
  rw [hSub] at hSub'
  obtain ⟨hFeed, hNumber⟩ := Subscription.mk.inj (Option.some.inj hSub')
  exact hLeft.2 (Feed.signal.inj hFeed).1 (Option.some.inj hNumber).symm

end Registered

/-- The terms of a client of which nothing is asked but which callbacks watch signals without a
subscription. -/
def Terms.free (loose : κ → Prop) : Terms κ where
  fault _ := True
  rendered _ _ _ := True
  loose := loose

theorem stocked_free (l : Live κ σ) : Stocked (fun _ _ _ => True) l := by
  have hNode (factory : NodeFactory κ) : factory.Fits fun _ _ _ => True := by
    cases factory <;> trivial
  have hItem (factory : ItemFactory κ) : factory.Fits fun _ _ _ => True := by
    cases factory <;> trivial
  exact ⟨fun _ _ => hNode _, fun _ _ _ _ => hNode _, fun _ _ _ _ => hNode _, fun _ _ => hItem _⟩

theorem registered_upkeep (loose : κ → Prop) :
    Upkeep (Registered loose : Live κ σ → Prop) (fun _ => True) (fun _ _ _ => True) where
  congr h hAside := h.congr hAside.signals hAside.subscriptions
  newSignal value _ h := h.newSignal value
  setValue _ _ _ h := h.modifySignal fun _ _ hw _ => hw
  setSource _ _ _ h := h.modifySignal fun _ _ hw _ => hw
  watchDerived s _ _ _ h := h.watch s id
  unwatch _ _ _ h := h.modifySignal fun _ _ hw _ => (List.mem_filter.mp hw).1
  newSubscription feed _ h := h.newSubscription feed
  register h hSub := h.register hSub
  unregister h hSub := h.unregister hSub
  setListening {l sub x node event handler} registered h hSub hFeed := by
    intro s w hw hSink
    obtain ⟨sub', hSub'⟩ := h s w hw hSink
    refine ⟨sub', Registered.subscription?_setRegistered ?_ hSub'⟩
    rintro rfl
    rw [hSub] at hSub'
    rw [Option.some.inj hSub'] at hFeed
    cases hFeed
  stocked _ := stocked_free _
  addConditional h _ := h.congr rfl rfl
  addSwitch h _ _ := h.congr rfl rfl
  addSeries h _ := h.congr rfl rfl
  modifyConditional _ _ _ _ h := h.congr rfl rfl
  modifySwitch _ _ _ _ h := h.congr rfl rfl
  modifySeries _ _ _ _ h := h.congr rfl rfl
  structural _ := trivial
  part _ _ := trivial
  item _ _ _ := trivial
  unresolved _ _ _ := trivial
  unhosted _ _ := trivial

/-! ## Notifications -/

theorem create_registered (loose : κ → Prop) (config : Config) (client : σ) :
    Registered loose (create config client : Live κ σ) := by
  intro s w hw
  simp [watchersOf, signal?, create] at hw

/-- A set calls the watchers that the signal has when it begins. -/
theorem setSignal_eq (calls : Calls κ σ) (s : SignalId) (value : Value) (l : Live κ σ) :
    (setSignal calls s value).run l =
      ((l.watchersOf s).forM fun w => calls.receive w.sink value).run
        { l with signals := l.signals.modify s fun g => { g with value } } := by
  have hWatchers : watchersOf { l with signals := l.signals.modify s fun g => { g with value } } s =
      l.watchersOf s := by
    simp only [watchersOf, signal?_modify, if_true]
    cases l.signal? s <;> rfl
  rw [← hWatchers]
  rfl

/-- Whatever a client does, from outside or in its callbacks: what a set then calls with a
subscription belongs to an active one when the set begins. -/
theorem notified_active {α : Type} {client : Client κ σ} {loose : κ → Prop}
    (hClient : client.Scripted (.free loose)) (depth : Nat) {op : Act κ σ α}
    (hOp : Script (Calls.upTo client depth) (.free loose) op) {l : Live κ σ}
    (hl : Registered loose l) : After op.run l fun _ l' =>
      Registered loose l' ∧ ∀ calls : Calls κ σ, ∀ s value,
        ∃ called : List (Signal.Watcher κ),
          (setSignal calls s value).run l' = (called.forM fun w => calls.receive w.sink value).run
            { l' with signals := l'.signals.modify s fun g => { g with value } } ∧
          ∀ w ∈ called, w.sink.Subscribed loose → ∃ sub, l'.isActive sub = true ∧
            l'.subscription? sub =
              some { feed := .signal s w.sink, registered := some w.number } := by
  have hU := registered_upkeep (κ := κ) (σ := σ) loose
  have hWatch (s : SignalId) (k : κ) (hk : loose k) :
      Keeps (Registered loose : Live κ σ → Prop) (watch s (.client k)) :=
    fun l h => h.watch s fun hNot => hNot hk
  have hCalls := hU.upTo (T := .free loose) hWatch hClient depth
  refine ((hU.script (T := .free loose) hWatch hCalls hOp).keeps l hl).mono fun _ l' hl' => ?_
  refine ⟨hl', fun calls s value => ⟨l'.watchersOf s, setSignal_eq calls s value l', ?_⟩⟩
  intro w hw hSink
  obtain ⟨sub, hSub⟩ := hl' s w hw hSink
  refine ⟨sub, ?_, hSub⟩
  rw [isActive, hSub]
  rfl

/-! ## A text that shows its own condition -/

/-- A program that shows a condition in a text while it is true. -/
def ownCondition : Program where
  file := "t.html"
  instructions := [.conditional (.reference "show")
    (.element "div" [] [.dynamicText (.reference "show")])]
  symbols := ["show"]
  requiresHost := false

/-- Mounts it. -/
def showOwn (calls : Calls Unit Unit) : Act Unit Unit Unit := do
  let shown ← sure (newSignal (.bool true))
  let i ← renderProgram calls ownCondition (.ofList [("show", shown)]) false
  mountInstance calls i (.node 2) none

def ownShown : Live Unit Unit :=
  ((showOwn (Calls.upTo Client.still 6)).run.run (create {} ())).2

theorem Client.still_free (loose : κ → Prop) :
    (Client.still : Client κ σ).Scripted (.free loose) where
  hook _ _ _ := .idle _
  receive _ _ _ := .idle _
  handle _ _ _ := .idle _
  run _ _ := .idle _
  build _ _ := .throw trivial
  buildItem _ _ _ _ := .throw trivial
  evaluate _ _ _ := .throw trivial
  invoke _ _ _ _ := .throw trivial

/-- The two watchers of the condition are those of two active subscriptions. -/
theorem ownShown_notified : (ownShown.watchersOf 0).length = 2 ∧
    Registered (fun _ => False) ownShown ∧ ∀ calls : Calls Unit Unit, ∀ s value,
      ∃ called : List (Signal.Watcher Unit),
        (setSignal calls s value).run ownShown =
          (called.forM fun w => calls.receive w.sink value).run
            { ownShown with signals := ownShown.signals.modify s fun g => { g with value } } ∧
        ∀ w ∈ called, w.sink.Subscribed (fun _ => False) → ∃ sub, ownShown.isActive sub = true ∧
          ownShown.subscription? sub =
            some { feed := .signal s w.sink, registered := some w.number } := by
  have hScript : Script (Calls.upTo Client.still 6) (.free fun _ => False)
      (showOwn (Calls.upTo Client.still 6)) :=
    .bind (.newSignal _) fun _ => .bind (.renderProgram (fun _ _ => trivial) fun _ _ => trivial)
      fun i => .attach (.container i.box) (.node 2) none
  refine ⟨by decide +kernel, ?_⟩
  unfold ownShown
  exact notified_active (Client.still_free _) 6 hScript (create_registered (fun _ => False) {} ())

/-- The document after the condition is set to false and the first of the watchers that the set
calls were called. -/
def ownHidden (called : Nat) : Live Unit Unit :=
  let calls : Calls Unit Unit := Calls.upTo Client.still 6
  ((((ownShown.watchersOf 0).take called).forM fun w => calls.receive w.sink (.bool false)).run
    { ownShown with
      signals := ownShown.signals.modify 0 fun g => { g with value := .bool false } }).2

/-- What a watcher writes to, if it is a projector. -/
def Signal.Watcher.projector? : Signal.Watcher κ → Option ProjectorId
  | ⟨_, .projector p⟩ => some p
  | _ => none

/-- The conditional is called first and takes the text out, which switches its binding off. The
projector of the text is called nevertheless, and writes to it. -/
theorem silenced_written :
    ((setSignal (Calls.upTo Client.still 6) 0 (.bool false)).run ownShown).2 = ownHidden 2 ∧
    (ownShown.watchersOf 0).map (·.projector?) = [none, some 0] ∧
    (ownShown.projectors[0]?).map (·.node) = some 10 ∧ (ownHidden 2).overrun = false ∧
    (ownHidden 0).isBindingActive 1 = true ∧ (ownHidden 0).isConnected (.node 10) = true ∧
    (ownHidden 1).isBindingActive 1 = false ∧ (ownHidden 1).isConnected (.node 10) = false ∧
    (ownHidden 1).dom.text 10 = "true" ∧ (ownHidden 2).dom.text 10 = "false" := by
  have hLength : (ownShown.watchersOf 0).length ≤ 2 := by decide +kernel
  refine ⟨?_, by decide +kernel⟩
  rw [setSignal_eq, ownHidden, List.take_of_length_le hLength]

end LiveMarkup.Live

/-! ## Networks of signals -/

namespace LiveMarkup.Live

variable {κ σ : Type}

/-- What callbacks were given last, beside a state of the client. -/
structure Heard (κ σ : Type) where
  last : κ → Option Value := fun _ => none
  own : σ

/-- Notes what a callback is given. -/
def Heard.note [DecidableEq κ] (k : κ) (value : Value) (h : Heard κ σ) : Heard κ σ :=
  { h with last := Function.update h.last k (some value) }

/-- A client that notes what its callbacks are given before they do what they do. -/
def Client.noting [DecidableEq κ] (client : Client κ (Heard κ σ)) : Client κ (Heard κ σ) :=
  { client with
    receive := fun calls k value => do
      modify fun l => { l with client := l.client.note k value }
      client.receive calls k value }

/-- What follows what in a network: where derived signals come from and which signal a callback
listens to. Derived signals are further down than what they come from. -/
structure Layout (κ : Type) where
  origin : SignalId → Option (SignalId × (Value → Value))
  heard : κ → SignalId
  level : SignalId → Nat
  levels : Nat
  level_lt : ∀ s, level s < levels
  origin_level : ∀ {s d f}, origin d = some (s, f) → level s < level d

/-- A callback may set a signal that is a source further down than what it listens to. -/
def Layout.MaySet (N : Layout κ) (k : κ) (s : SignalId) : Prop :=
  N.origin s = none ∧ N.level (N.heard k) < N.level s

/-- What a callback may do: read, change what the client keeps for itself, and set signals. -/
inductive Reaction (calls : Calls κ (Heard κ σ)) (Free : SignalId → Prop) :
    {α : Type} → LiveM κ (Heard κ σ) α → Prop where
  | pure {α : Type} (a : α) : Reaction calls Free (Pure.pure a)
  | bind {α β : Type} {op : LiveM κ (Heard κ σ) α} {f : α → LiveM κ (Heard κ σ) β}
      (h : Reaction calls Free op) (hRest : ∀ a, Reaction calls Free (f a)) :
      Reaction calls Free (op >>= f)
  | get : Reaction calls Free get
  | keep (f : σ → σ) : Reaction calls Free
      (modify fun l => { l with client := { l.client with own := f l.client.own } })
  | set {s : SignalId} (hs : Free s) (value : Value) : Reaction calls Free (setSignal calls s value)

/-- All callbacks of a client keep to a layout. -/
def Layout.Obeyed (N : Layout κ) (client : Client κ (Heard κ σ)) : Prop :=
  ∀ calls k value, Reaction calls (N.MaySet k) (client.receive calls k value)

/-! ### States of a network -/

/-- A sink of a signal has the last value of the signal. -/
def Delivered (l : Live κ (Heard κ σ)) (s : SignalId) : Sink κ → Prop
  | .derived d f => l.valueOf d = f (l.valueOf s)
  | .client k => l.client.last k = some (l.valueOf s)
  | _ => True

theorem Delivered.congr {l l' : Live κ (Heard κ σ)} (hValue : ∀ t, l'.valueOf t = l.valueOf t)
    (hLast : l'.client.last = l.client.last) {s : SignalId} {sink : Sink κ}
    (h : Delivered l s sink) : Delivered l' s sink := by
  cases sink with
  | derived d f =>
    rw [Delivered] at h ⊢
    rw [hValue, hValue]
    exact h
  | client k =>
    rw [Delivered] at h ⊢
    rw [hValue, hLast]
    exact h
  | _ => trivial

/-- The watchers of a signal have different numbers, below the next one. -/
def Signal.Numbered (g : Signal κ) : Prop :=
  (∀ w ∈ g.watchers, w.number < g.nextWatcher) ∧ (g.watchers.map (·.number)).Nodup

/-- The sinks of a state are laid out, and so are the subscriptions: those that are on have watchers
of their own. -/
structure Layout.Laid (N : Layout κ) (l : Live κ σ) : Prop where
  sink : ∀ {s w}, w ∈ l.watchersOf s →
    (∃ d f, w.sink = .derived d f ∧ N.origin d = some (s, f) ∧ d < l.signals.size) ∨
      ∃ k, w.sink = .client k ∧ N.heard k = s
  numbered : ∀ {s g}, l.signal? s = some g → g.Numbered
  feed : ∀ {sub x}, l.subscription? sub = some x →
    ∃ k, x.feed = .signal (N.heard k) (.client k) ∧ N.heard k < l.signals.size ∧
      ∀ n, x.registered = some n → ⟨n, .client k⟩ ∈ l.watchersOf (N.heard k)
  apart : ∀ {sub sub' x}, l.subscription? sub = some x → l.subscription? sub' = some x →
    x.registered.isSome → sub = sub'

/-- Signals are watched, and subscriptions are on and off, as before. -/
structure SameNetwork (l l' : Live κ σ) : Prop where
  size : l'.signals.size = l.signals.size
  watching : ∀ s, (l'.signal? s).map (fun g => (g.watchers, g.nextWatcher)) =
    (l.signal? s).map fun g => (g.watchers, g.nextWatcher)
  subscriptions : l'.subscriptions = l.subscriptions
  overrun : l'.overrun = l.overrun

namespace SameNetwork

variable {l l₁ l' : Live κ σ}

theorem refl (l : Live κ σ) : SameNetwork l l :=
  ⟨rfl, fun _ => rfl, rfl, rfl⟩

theorem of_client (l : Live κ σ) (c : σ) : SameNetwork l { l with client := c } :=
  ⟨rfl, fun _ => rfl, rfl, rfl⟩

theorem trans (h₁ : SameNetwork l l₁) (h₂ : SameNetwork l₁ l') : SameNetwork l l' where
  size := h₂.size.trans h₁.size
  watching s := (h₂.watching s).trans (h₁.watching s)
  subscriptions := h₂.subscriptions.trans h₁.subscriptions
  overrun := h₂.overrun.trans h₁.overrun

theorem watchersOf (h : SameNetwork l l') (s : SignalId) : l'.watchersOf s = l.watchersOf s := by
  have hEq := congrArg (Option.map Prod.fst) (h.watching s)
  simp only [Option.map_map] at hEq
  exact congrArg (·.getD []) hEq

theorem laid {N : Layout κ} (h : SameNetwork l l') (hl : N.Laid l) : N.Laid l' where
  sink hw := by
    rw [h.watchersOf] at hw
    rw [h.size]
    exact hl.sink hw
  numbered {s g'} hg' := by
    have hEq := h.watching s
    rw [hg', Option.map_some, eq_comm, Option.map_eq_some_iff] at hEq
    obtain ⟨g, hg, hEq⟩ := hEq
    obtain ⟨hWatchers, hNext⟩ := Prod.mk.inj hEq
    rw [Signal.Numbered, ← hWatchers, ← hNext]
    exact hl.numbered hg
  feed hx := by
    rw [subscription?, h.subscriptions] at hx
    obtain ⟨k, hFeed, hSize, hActive⟩ := hl.feed hx
    refine ⟨k, hFeed, h.size ▸ hSize, fun n hn => ?_⟩
    rw [h.watchersOf]
    exact hActive n hn
  apart hx hx' := by
    rw [subscription?, h.subscriptions] at hx hx'
    exact hl.apart hx hx'

end SameNetwork

/-! ### What a set leaves -/

/-- From a level on down signals may have changed; whatever was delivered is so again. -/
structure Layout.Spread (N : Layout κ) (level : Nat) (l l' : Live κ (Heard κ σ)) : Prop
    extends SameNetwork l l' where
  value : ∀ t, N.level t ≤ level → l'.valueOf t = l.valueOf t
  delivered : ∀ t, ∀ w ∈ l.watchersOf t, Delivered l t w.sink → Delivered l' t w.sink

/-- A signal is being set: it has its value, and all of its watchers but some have been called. -/
structure Layout.Setting (N : Layout κ) (s : SignalId) (value : Value)
    (pending : List (Signal.Watcher κ)) (l l' : Live κ (Heard κ σ)) : Prop
    extends SameNetwork l l' where
  value : s < l.signals.size → l'.valueOf s = value
  others : ∀ t, t ≠ s → N.level t ≤ N.level s → l'.valueOf t = l.valueOf t
  delivered : ∀ t, t ≠ s → ∀ w ∈ l.watchersOf t, (∀ f, w.sink ≠ .derived s f) →
    Delivered l t w.sink → Delivered l' t w.sink
  called : ∀ w ∈ l.watchersOf s, w ∉ pending → Delivered l' s w.sink

namespace Layout

variable {N : Layout κ} {l l₁ l' : Live κ (Heard κ σ)}

namespace Spread

variable {level : Nat}

theorem refl (l : Live κ (Heard κ σ)) : N.Spread level l l :=
  ⟨SameNetwork.refl l, fun _ _ => rfl, fun _ _ _ h => h⟩

theorem trans (h₁ : N.Spread level l l₁) (h₂ : N.Spread level l₁ l') : N.Spread level l l' where
  toSameNetwork := h₁.toSameNetwork.trans h₂.toSameNetwork
  value t ht := (h₂.value t ht).trans (h₁.value t ht)
  delivered t w hw hDelivered :=
    h₂.delivered t w (h₁.watchersOf t ▸ hw) (h₁.delivered t w hw hDelivered)

end Spread

/-- A watcher that sets a derived signal is the one that it came with. -/
theorem Laid.origin_of_sink {l : Live κ σ} (hl : N.Laid l) {s d : SignalId} {f : Value → Value}
    {w : Signal.Watcher κ} (hw : w ∈ l.watchersOf s) (hSink : w.sink = .derived d f) :
    N.origin d = some (s, f) := by
  rcases hl.sink hw with ⟨e, g, hEq, hOrigin, _⟩ | ⟨k, hEq, _⟩
  · rw [hSink] at hEq
    obtain ⟨rfl, rfl⟩ := Sink.derived.inj hEq
    exact hOrigin
  · rw [hSink] at hEq
    cases hEq

/-- Once a source is set, whatever was delivered is so again. -/
theorem Setting.delivered_all {s : SignalId} {value : Value} (h : N.Setting s value [] l l')
    (hl : N.Laid l) (hs : N.origin s = none) (t : SignalId) {w : Signal.Watcher κ}
    (hw : w ∈ l.watchersOf t) (hDelivered : Delivered l t w.sink) : Delivered l' t w.sink := by
  by_cases hEq : t = s
  · subst hEq
    exact h.called w hw List.not_mem_nil
  · refine h.delivered t hEq w hw (fun f hSink => ?_) hDelivered
    have hOrigin := hl.origin_of_sink hw hSink
    rw [hs] at hOrigin
    cases hOrigin

/-- To those above, setting a source that is further down is a change further down. -/
theorem Setting.spread {s : SignalId} {value : Value} {level : Nat}
    (h : N.Setting s value [] l l') (hl : N.Laid l) (hs : N.origin s = none)
    (hLevel : level < N.level s) : N.Spread level l l' where
  toSameNetwork := h.toSameNetwork
  value t ht := by
    have hNe : t ≠ s := by
      rintro rfl
      omega
    exact h.others t hNe (by omega)
  delivered t _ hw hDelivered := h.delivered_all hl hs t hw hDelivered

/-- What a callback does is a change further down, if its sets are. -/
theorem Spread.reaction {calls : Calls κ (Heard κ σ)} {Free : SignalId → Prop} {level : Nat}
    (hSet : ∀ s value l, Free s → N.Laid l →
      After (setSignal calls s value) l fun _ => N.Spread level l)
    {α : Type} {op : LiveM κ (Heard κ σ) α} (h : Reaction calls Free op) (hl : N.Laid l) :
    After op l fun _ => N.Spread level l := by
  induction h generalizing l with
  | pure a => exact Spread.refl l
  | get => exact Spread.refl l
  | keep f =>
    refine ⟨SameNetwork.of_client l _, fun _ _ => rfl, fun t w _ hDelivered => ?_⟩
    exact hDelivered.congr (fun _ => rfl) rfl
  | set hs value => exact hSet _ value l hs hl
  | bind _ _ ih ihRest =>
    refine (ih hl).bind fun a l₁ h₁ => ?_
    exact (ihRest a (h₁.laid hl)).mono fun _ _ h₂ => h₁.trans h₂

/-- The watchers that a signal begins to call when its value is set. -/
theorem Setting.start (N : Layout κ) (l : Live κ (Heard κ σ)) (s : SignalId) (value : Value)
    (hl : N.Laid l) : N.Setting s value (l.watchersOf s) l
      { l with signals := l.signals.modify s fun g => { g with value } } := by
  have hValue (t : SignalId) (ht : t ≠ s) :
      valueOf { l with signals := l.signals.modify s fun g => { g with value } } t =
        l.valueOf t := by
    rw [valueOf, signal?_modify, if_neg ht.symm]
    rfl
  refine ⟨⟨Array.size_modify, fun t => ?_, rfl, rfl⟩, fun hs => ?_, fun t ht _ => hValue t ht, ?_,
    fun w hw hNot => absurd hw hNot⟩
  · rw [signal?_modify]
    split
    · rw [Option.map_map]
      rfl
    · rfl
  · rw [valueOf, signal?_modify, if_pos rfl, signal?, Array.getElem?_eq_getElem hs]
    rfl
  · intro t ht w hw hNe hDelivered
    rcases hl.sink hw with ⟨d, f, hSink, _⟩ | ⟨k, hSink, _⟩
    · have hd : d ≠ s := by
        rintro rfl
        exact hNe f hSink
      rw [hSink, Delivered] at hDelivered ⊢
      rw [hValue t ht, hValue d hd]
      exact hDelivered
    · rw [hSink, Delivered] at hDelivered ⊢
      rw [hValue t ht]
      exact hDelivered

/-- A derived signal is set to what follows from the value that is passed on. -/
theorem Setting.passDerived {s d : SignalId} {f : Value → Value} {value : Value} {n : Nat}
    {rest : List (Signal.Watcher κ)} {l'' : Live κ (Heard κ σ)}
    (h : N.Setting s value (⟨n, .derived d f⟩ :: rest) l l') (hl : N.Laid l)
    (hOrigin : N.origin d = some (s, f)) (hs : s < l.signals.size) (hd : d < l.signals.size)
    (h' : N.Setting d (f value) [] l' l'') : N.Setting s value rest l l'' := by
  have hLevel := N.origin_level hOrigin
  have hNe : s ≠ d := by
    rintro rfl
    omega
  have hd' : l''.valueOf d = f value := h'.value (h.size ▸ hd)
  have hs' : l''.valueOf s = value := (h'.others s hNe (by omega)).trans (h.value hs)
  refine ⟨h.toSameNetwork.trans h'.toSameNetwork, fun _ => hs', fun t ht hLow => ?_, ?_, ?_⟩
  · have htd : t ≠ d := by
      rintro rfl
      omega
    exact (h'.others t htd (by omega)).trans (h.others t ht hLow)
  · intro t ht w hw hSink hDelivered
    have hw' : w ∈ l'.watchersOf t := h.watchersOf t ▸ hw
    by_cases htd : t = d
    · subst htd
      exact h'.called w hw' List.not_mem_nil
    · refine h'.delivered t htd w hw' (fun g hg => ?_) (h.delivered t ht w hw hSink hDelivered)
      have hFrom := hl.origin_of_sink hw hg
      rw [hOrigin] at hFrom
      exact ht (Prod.mk.inj (Option.some.inj hFrom)).1.symm
  · intro w hw hNot
    have hw' : w ∈ l'.watchersOf s := h.watchersOf s ▸ hw
    by_cases hSink : w.sink = .derived d f
    · rw [hSink, Delivered, hd', hs']
    · refine h'.delivered s hNe w hw' (fun g hg => ?_) (h.called w hw ?_)
      · have hFrom := hl.origin_of_sink hw hg
        rw [hOrigin] at hFrom
        obtain ⟨-, rfl⟩ := Prod.mk.inj (Option.some.inj hFrom)
        exact hSink hg
      · rw [List.mem_cons, not_or]
        refine ⟨?_, hNot⟩
        rintro rfl
        exact hSink rfl

variable [DecidableEq κ]

/-- A callback that notes the value of its signal has it delivered. -/
theorem Laid.noted {k : κ} {value : Value} (hl : N.Laid l) (hk : l.valueOf (N.heard k) = value)
    {t : SignalId} {w : Signal.Watcher κ} (hw : w ∈ l.watchersOf t)
    (hDelivered : w.sink = .client k ∨ Delivered l t w.sink) :
    Delivered { l with client := l.client.note k value } t w.sink := by
  rcases hl.sink hw with ⟨d, f, hSink, _⟩ | ⟨k', hSink, rfl⟩
  · rw [hSink] at hDelivered ⊢
    exact hDelivered.resolve_left nofun
  · rw [hSink] at hDelivered ⊢
    rw [Delivered, Heard.note]
    by_cases hEq : k' = k
    · subst hEq
      exact (Function.update_self ..).trans (congrArg some hk.symm)
    · refine (Function.update_of_ne hEq ..).trans (hDelivered.resolve_left fun hSame => ?_)
      exact hEq (Sink.client.inj hSame)

/-- A callback notes the value that is passed on, and changes nothing but what is further down. -/
theorem Setting.passClient {k : κ} {value : Value} {n : Nat} {rest : List (Signal.Watcher κ)}
    {l'' : Live κ (Heard κ σ)}
    (h : N.Setting (N.heard k) value (⟨n, .client k⟩ :: rest) l l') (hl : N.Laid l)
    (hs : N.heard k < l.signals.size)
    (h' : N.Spread (N.level (N.heard k)) { l' with client := l'.client.note k value } l'') :
    N.Setting (N.heard k) value rest l l'' := by
  have hs' : l'.valueOf (N.heard k) = value := h.value hs
  have hSame := h.toSameNetwork.trans (SameNetwork.of_client l' (l'.client.note k value))
  have hNoted (t : SignalId) (w : Signal.Watcher κ) (hw : w ∈ l.watchersOf t)
      (hDelivered : w.sink = .client k ∨ Delivered l' t w.sink) : Delivered l'' t w.sink := by
    have hw' : w ∈ l'.watchersOf t := h.watchersOf t ▸ hw
    exact h'.delivered t w hw' ((h.laid hl).noted hs' hw' hDelivered)
  refine ⟨hSame.trans h'.toSameNetwork, fun _ => ?_, fun t ht hLow => ?_, ?_, ?_⟩
  · exact (h'.value _ le_rfl).trans hs'
  · exact (h'.value t hLow).trans (h.others t ht hLow)
  · intro t ht w hw hSink hDelivered
    exact hNoted t w hw (.inr (h.delivered t ht w hw hSink hDelivered))
  · intro w hw hNot
    refine hNoted _ w hw ?_
    by_cases hEq : w.sink = .client k
    · exact .inl hEq
    · refine .inr (h.called w hw ?_)
      rw [List.mem_cons, not_or]
      refine ⟨?_, hNot⟩
      rintro rfl
      exact hEq rfl

variable {client : Client κ (Heard κ σ)}

/-- A callback that is given a value notes it; the rest is further down. -/
theorem Obeyed.hears (hClient : N.Obeyed client) {calls : Calls κ (Heard κ σ)} {k : κ}
    (hSet : ∀ s value l, N.MaySet k s → N.Laid l →
      After (setSignal calls s value) l fun _ => N.Spread (N.level (N.heard k)) l)
    (value : Value) (hl : N.Laid l) :
    After (client.noting.receive calls k value) l fun _ =>
      N.Spread (N.level (N.heard k)) { l with client := l.client.note k value } := by
  have hNoted := SameNetwork.of_client l (l.client.note k value)
  exact Spread.reaction hSet (hClient calls k value) (hNoted.laid hl)

/-- A set passes its value on before it returns: to the signals that follow, and to the callbacks,
whose sets are settled in turn. The calls are nested no deeper than there are levels. -/
theorem setSignal_setting (hClient : N.Obeyed client) (depth : Nat) (s : SignalId) (value : Value)
    (l : Live κ (Heard κ σ)) (hDepth : N.levels ≤ depth + N.level s) (hl : N.Laid l) :
    After (setSignal (Calls.upTo client.noting depth) s value) l fun _ =>
      N.Setting s value [] l := by
  induction depth generalizing s value l with
  | zero =>
    have := N.level_lt s
    omega
  | succ depth ih =>
    have hSet (k : κ) (hk : N.levels ≤ depth + (N.level (N.heard k) + 1)) (t : SignalId)
        (value : Value) (l : Live κ (Heard κ σ)) (ht : N.MaySet k t) (hl : N.Laid l) :
        After (setSignal (Calls.upTo client.noting depth) t value) l fun _ =>
          N.Spread (N.level (N.heard k)) l :=
      (ih t value l (by have := ht.2; omega) hl).mono fun _ _ h => h.spread hl ht.1 ht.2
    rw [After, setSignal_eq]
    refine (After.forM (k := fun pending l' => pending ⊆ l.watchersOf s ∧
      N.Setting s value pending l l') ⟨List.Subset.refl _, Setting.start N l s value hl⟩ ?_).2
    rintro ⟨n, sink⟩ rest l' ⟨hSubset, h⟩
    have hw : ⟨n, sink⟩ ∈ l.watchersOf s := hSubset List.mem_cons_self
    have hRest : rest ⊆ l.watchersOf s := List.Subset.trans (List.subset_cons_self _ _) hSubset
    have hs : s < l.signals.size := by
      by_contra hNot
      rw [watchersOf, signal?, Array.getElem?_eq_none (Nat.le_of_not_lt hNot)] at hw
      cases hw
    rcases hl.sink hw with ⟨d, f, hSink, hOrigin, hd⟩ | ⟨k, hSink, hk⟩
    · obtain rfl : sink = .derived d f := hSink
      have hLevel := N.origin_level hOrigin
      refine (ih d (f value) l' (by omega) (h.laid hl)).mono fun _ l'' h' => ⟨hRest, ?_⟩
      exact h.passDerived hl hOrigin hs hd h'
    · obtain rfl : sink = .client k := hSink
      subst hk
      refine (hClient.hears (hSet k (by omega)) value (h.laid hl)).mono fun _ l'' h' => ⟨hRest, ?_⟩
      exact h.passClient hl hs h'

end Layout

end LiveMarkup.Live
