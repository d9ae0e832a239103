import LiveMarkup.Proofs.Dom.Relabeled
import LiveMarkup.Proofs.Live.Wires

/-!
# Quiet hooks

Hooks and subscribers of the client are quiet if they change nothing but the client's own state.
The hooks of a binding whose feed is quiet switch its subscription and leave the tree, the
observers and the values of all signals alone. If there is leeway they may write values to nodes as
well, and bring signals up to date that follow others.

* `Leeway`: what quiet hooks may do besides, `Sink.Slight`: sinks that do no more;
* `Frame`, `Calm`: what all quiet steps leave alone;
* `receive_slight`: what passing a value to such a sink does;
* `runHook_quiet`: what one quiet hook does;
* `runHooks_quiet`: what all hooks of an event do that cannot be cancelled.
-/

namespace LiveMarkup.Live

variable {κ σ : Type}

/-- The hooks and subscribers of a client only change its own state. -/
structure Client.Quiet (client : Client κ σ) : Prop where
  hook : ∀ calls k event l, ∃ c, ((client.hook calls k event).run l).2 = { l with client := c }
  receive : ∀ calls k value l,
    ∃ c, ((client.receive calls k value).run l).2 = { l with client := c }

/-- A feed to a listener or to a subscriber of the client. -/
def Feed.Quiet : Feed κ → Prop
  | .signal _ (.client _) => True
  | .signal _ _ => False
  | .event _ _ _ => True

def feed? (l : Live κ σ) (s : SubscriptionId) : Option (Feed κ) :=
  (l.subscription? s).map (·.feed)

/-- What a signal follows. -/
def sourceOf? (l : Live κ σ) (s : SignalId) : Option (SignalId × Nat) :=
  (l.signal? s).bind (·.source)

/-! ## Leeway -/

/-- What quiet hooks may do besides. They may write values to nodes and drive some signals, if these
follow others, and there are followers that they leave alone. -/
structure Leeway (κ : Type) where
  writes : Bool
  driven : SignalId → Prop
  spared : Follower κ → Prop

namespace Leeway

/-- They may do nothing besides. -/
def strict : Leeway κ :=
  ⟨false, fun _ => False, fun _ => False⟩

/-- They may write values and drive some signals. -/
def lax (driven : SignalId → Prop) : Leeway κ :=
  ⟨true, driven, fun _ => False⟩

/-- What becomes of the tree. -/
def Tree (m : Leeway κ) (d d' : Dom) : Prop :=
  match m.writes with
  | false => d' = d
  | true => d.Relabeled d'

/-- Whether a signal may be driven. -/
def Drives (m : Leeway κ) (l : Live κ σ) (s : SignalId) : Prop :=
  m.writes = true ∧ m.driven s ∧ (l.sourceOf? s).isSome

end Leeway

/-- What a projector writes is a label. -/
def Projector.Fits (d : Dom) (x : Projector) : Prop :=
  x.aspect.isText = true → x.node < d.nodes.size ∧ (d.label x.node).tag? = none

/-- A sink that belongs to the client, to a signal that may be driven, or to a projector that writes
labels. -/
def Sink.Slight (l : Live κ σ) (m : Leeway κ) : Sink κ → Prop
  | .client _ => True
  | .derived t _ => m.Drives l t
  | .projector p => m.writes = true ∧ ∃ x, l.projectors[p]? = some x ∧ x.Fits l.dom
  | _ => False

/-- What follows the signals that may be driven is slight. -/
def Closed (l : Live κ σ) (m : Leeway κ) : Prop :=
  ∀ s, m.driven s → ∀ w ∈ l.watchersOf s, w.sink.Slight l m

/-- A feed to a listener or to a slight sink. -/
def Feed.Slight (l : Live κ σ) (m : Leeway κ) : Feed κ → Prop
  | .signal _ sink => sink.Slight l m ∧ l.Closed m
  | .event _ _ _ => True

/-- The binding that a hook belongs to. -/
def Hook.binding? : Hook κ → Option BindingId
  | .switchOn b => some b
  | .switchOff b => some b
  | .endBinding b => some b
  | _ => none

/-- A hook of the client, or one of a binding with a slight feed. -/
def Hook.Slight (l : Live κ σ) (m : Leeway κ) : Hook κ → Prop
  | .client _ => True
  | .switchOn b => ∀ x, l.binding? b = some x → ∀ feed, l.feed? x.subscription = some feed →
      feed.Slight l m
  | .switchOff _ => True
  | .endBinding _ => True
  | _ => False

/-- Such a hook is quiet if it belongs to no follower that is left alone. -/
structure Hook.Quiet (l : Live κ σ) (h : Hook κ) (m : Leeway κ := .strict) : Prop where
  slight : h.Slight l m
  apart : ∀ f, m.spared f → h.binding? ≠ some f.binding

namespace Leeway

variable {m : Leeway κ} {d d₁ d' : Dom}

theorem Tree.relabeled (h : m.Tree d d') : d.Relabeled d' := by
  unfold Tree at h
  split at h
  · exact h ▸ .refl d
  · exact h

theorem Tree.refl (m : Leeway κ) (d : Dom) : m.Tree d d := by
  unfold Tree
  split
  · rfl
  · exact .refl d

theorem Tree.trans (h₁ : m.Tree d d₁) (h₂ : m.Tree d₁ d') : m.Tree d d' := by
  cases hWrites : m.writes with
  | false =>
    simp only [Tree, hWrites] at *
    exact h₂.trans h₁
  | true =>
    simp only [Tree, hWrites] at *
    exact h₁.trans h₂

theorem Tree.of_relabeled (hWrites : m.writes = true) (h : d.Relabeled d') : m.Tree d d' := by
  rw [Tree, hWrites]
  exact h

theorem Tree.place (h : m.Tree d d') (r parent : NodeRef) (before : Option NodeRef) :
    (∃ cause, d.place r parent before = .error cause ∧ d'.place r parent before = .error cause) ∨
      ∃ x x', d.place r parent before = .ok x ∧ d'.place r parent before = .ok x' ∧ m.Tree x x' := by
  cases hWrites : m.writes with
  | false =>
    simp only [Tree, hWrites] at *
    rw [h]
    cases d.place r parent before with
    | error cause => exact .inl ⟨cause, rfl, rfl⟩
    | ok x => exact .inr ⟨x, x, rfl, rfl, rfl⟩
  | true =>
    simp only [Tree, hWrites] at *
    exact h.place r parent before

theorem Tree.takeOut (h : m.Tree d d') (r : NodeRef) : m.Tree (d.takeOut r) (d'.takeOut r) := by
  cases hWrites : m.writes with
  | false =>
    simp only [Tree, hWrites] at *
    rw [h]
  | true =>
    simp only [Tree, hWrites] at *
    exact h.takeOut r

end Leeway

theorem Sink.slight_strict {l : Live κ σ} {sink : Sink κ} (h : sink.Slight l .strict) :
    ∃ k, sink = .client k := by
  cases sink with
  | client k => exact ⟨k, rfl⟩
  | derived t f => cases h.1
  | projector p => cases h.1
  | _ => exact h.elim

theorem closed_strict (l : Live κ σ) : l.Closed .strict :=
  fun _ h => h.elim

theorem Feed.quiet_iff {l : Live κ σ} {feed : Feed κ} : feed.Slight l .strict ↔ feed.Quiet := by
  refine ⟨fun h => ?_, fun h => ?_⟩
  · cases feed with
    | signal s sink =>
      obtain ⟨k, rfl⟩ := Sink.slight_strict h.1
      trivial
    | event => trivial
  · cases feed with
    | signal s sink =>
      cases sink with
      | client k => exact ⟨trivial, closed_strict l⟩
      | _ => exact h.elim
    | event => trivial

theorem Hook.Quiet.of_slight {l : Live κ σ} {h : Hook κ} (hSlight : h.Slight l .strict) : h.Quiet l :=
  ⟨hSlight, fun _ hf => hf.elim⟩

theorem Hook.quiet_switchOn {l : Live κ σ} {b : BindingId} : (Hook.switchOn b : Hook κ).Quiet l ↔
    ∀ x, l.binding? b = some x → ∀ feed, l.feed? x.subscription = some feed → feed.Quiet := by
  refine ⟨fun h x hx feed hFeed => Feed.quiet_iff.mp (h.slight x hx feed hFeed),
    fun h => .of_slight fun x hx feed hFeed => Feed.quiet_iff.mpr (h x hx feed hFeed)⟩

/-! ## What lasts -/

/-- What sinks depend on lasts: signals follow what they did, and projectors write to the same nodes
the same kind of aspect. -/
structure Sturdy (l l' : Live κ σ) : Prop where
  source : ∀ s < l.signals.size, l'.sourceOf? s = l.sourceOf? s
  projector : ∀ (p : ProjectorId) (x : Projector), l.projectors[p]? = some x →
    ∃ x' : Projector, l'.projectors[p]? = some x' ∧ x'.node = x.node ∧
      x'.aspect.isText = x.aspect.isText
  nodes_size : l.dom.nodes.size ≤ l'.dom.nodes.size
  tag : ∀ n < l.dom.nodes.size, (l'.dom.label n).tag? = (l.dom.label n).tag?

/-- Conditionals, switches, the clock and the wire of a follower stay what they are. -/
structure Mild (f : Follower κ) (l l' : Live κ σ) : Prop where
  conditionals : l'.conditionals = l.conditionals
  switches : l'.switches = l.switches
  clock : l'.clock = l.clock
  wire : ∀ registered, l.Wire f registered → l'.Wire f registered

/-- Signals that are not driven have their values, bindings their subscriptions and these their feeds
as before. New watchers are slight. -/
structure Frame (l l' : Live κ σ) (m : Leeway κ := .strict) : Prop where
  config : l'.config = l.config
  document : l'.document = l.document
  tornDown : l'.tornDown = l.tornDown
  series : l'.series = l.series
  signals_size : l'.signals.size = l.signals.size
  kept : ∀ s, ¬ m.Drives l s → l'.valueOf s = l.valueOf s
  newcomers : ∀ s, ∀ w ∈ l'.watchersOf s, w ∈ l.watchersOf s ∨ w.sink.Slight l' m
  feeds : ∀ s, l'.feed? s = l.feed? s
  bindings_size : l'.bindings.size = l.bindings.size
  subscription : ∀ b, (l'.binding? b).map (·.subscription) = (l.binding? b).map (·.subscription)
  loose : m.writes = true → Sturdy l l'
  spares : ∀ f, m.spared f → Mild f l l'

/-- What is known about nodes, observers and clock are as before as well, and the tree but for what is
written. -/
structure Calm (l l' : Live κ σ) (m : Leeway κ := .strict) : Prop extends Frame l l' m where
  tree : m.Tree l.dom l'.dom
  tracked : l'.tracked = l.tracked
  observers : l'.observers = l.observers
  movers : l'.movers = l.movers
  clock : l'.clock = l.clock
  comparing : l'.comparing = l.comparing

/-- A calm step that switches nothing either. -/
structure Silent (l l' : Live κ σ) (m : Leeway κ := .strict) : Prop extends Calm l l' m where
  bindings : l'.bindings = l.bindings
  subscriptions : l'.subscriptions = l.subscriptions

variable {m : Leeway κ} {l l₁ l' : Live κ σ}

theorem sourceOf?_lt {s : SignalId} (h : (l.sourceOf? s).isSome) : s < l.signals.size := by
  by_contra hOut
  have hNone : l.signal? s = none := Array.getElem?_eq_none (Nat.not_lt.mp hOut)
  simp [sourceOf?, hNone] at h

namespace Sturdy

theorem trans (h₁ : Sturdy l l₁) (h₂ : Sturdy l₁ l') (hSize : l.signals.size ≤ l₁.signals.size) :
    Sturdy l l' where
  source s hs := (h₂.source s (Nat.lt_of_lt_of_le hs hSize)).trans (h₁.source s hs)
  projector p x hx := by
    obtain ⟨x₁, hx₁, hNode₁, hText₁⟩ := h₁.projector p x hx
    obtain ⟨x₂, hx₂, hNode₂, hText₂⟩ := h₂.projector p x₁ hx₁
    exact ⟨x₂, hx₂, hNode₂.trans hNode₁, hText₂.trans hText₁⟩
  nodes_size := Nat.le_trans h₁.nodes_size h₂.nodes_size
  tag n hn := (h₂.tag n (Nat.lt_of_lt_of_le hn h₁.nodes_size)).trans (h₁.tag n hn)

theorem of_tree (hSignals : l'.signals = l.signals) (hProjectors : l'.projectors = l.projectors)
    (hTree : l.dom.SameKinds l'.dom) : Sturdy l l' where
  source s _ := by simp only [sourceOf?, signal?, hSignals]
  projector p x hx := ⟨x, by rw [hProjectors, hx], rfl, rfl⟩
  nodes_size := Nat.le_of_eq hTree.nodes_size.symm
  tag n _ := hTree.tag n

variable (h : Sturdy l l')
include h

theorem drives_iff {s : SignalId} (hs : s < l.signals.size) : m.Drives l' s ↔ m.Drives l s := by
  rw [Leeway.Drives, Leeway.Drives, h.source s hs]

theorem slight {sink : Sink κ} (hSlight : sink.Slight l m) : sink.Slight l' m := by
  cases sink with
  | client k => trivial
  | derived t f => exact (h.drives_iff (sourceOf?_lt hSlight.2.2)).mpr hSlight
  | projector p =>
    obtain ⟨hWrites, x, hx, hFits⟩ := hSlight
    obtain ⟨x', hx', hNode, hText⟩ := h.projector p x hx
    refine ⟨hWrites, x', hx', fun hIs => ?_⟩
    obtain ⟨hLt, hTag⟩ := hFits (hText ▸ hIs)
    rw [hNode, h.tag _ hLt]
    exact ⟨Nat.lt_of_lt_of_le hLt h.nodes_size, hTag⟩
  | _ => exact hSlight

end Sturdy

/-- What the client does is slight whatever happens. -/
theorem Sink.Slight.of_strict {sink : Sink κ} (h : sink.Slight l m) (hWrites : m.writes = false) :
    sink.Slight l' m := by
  cases sink with
  | client k => trivial
  | derived t f => cases hWrites.symm.trans h.1
  | projector p => cases hWrites.symm.trans h.1
  | _ => exact h

namespace Mild

variable {f : Follower κ}

theorem trans (h₁ : Mild f l l₁) (h₂ : Mild f l₁ l') : Mild f l l' :=
  ⟨h₂.conditionals.trans h₁.conditionals, h₂.switches.trans h₁.switches, h₂.clock.trans h₁.clock,
    fun r h => h₂.wire r (h₁.wire r h)⟩

end Mild

namespace Frame

/-- A change of nothing that is framed. -/
theorem of_same (hConfig : l'.config = l.config) (hDocument : l'.document = l.document)
    (hTornDown : l'.tornDown = l.tornDown) (hSeries : l'.series = l.series)
    (hSignals : l'.signals = l.signals) (hSubscriptions : l'.subscriptions = l.subscriptions)
    (hBindings : l'.bindings = l.bindings) (hLoose : m.writes = true → Sturdy l l')
    (hSpares : ∀ f, m.spared f → Mild f l l') : Frame l l' m where
  config := hConfig
  document := hDocument
  tornDown := hTornDown
  series := hSeries
  signals_size := by rw [hSignals]
  kept s _ := by simp only [valueOf, signal?, hSignals]
  newcomers s w hw := by
    simp only [watchersOf, signal?, hSignals] at hw ⊢
    exact .inl hw
  feeds s := by simp only [feed?, subscription?, hSubscriptions]
  bindings_size := by rw [hBindings]
  subscription b := by simp only [binding?, hBindings]
  loose := hLoose
  spares := hSpares

theorem of_eq (hConfig : l'.config = l.config) (hDocument : l'.document = l.document)
    (hTornDown : l'.tornDown = l.tornDown) (hSeries : l'.series = l.series)
    (hSignals : l'.signals = l.signals) (hSubscriptions : l'.subscriptions = l.subscriptions)
    (hBindings : l'.bindings = l.bindings) : Frame l l' :=
  of_same hConfig hDocument hTornDown hSeries hSignals hSubscriptions hBindings
    (fun h => absurd h Bool.false_ne_true) fun _ h => h.elim

/-- Neither tables nor values change. -/
theorem aside (l : Live κ σ) (client : σ) (dom : Dom) (tracked : Table Tracked)
    (observers : Array (Observer κ)) (movers : List ObserverId) (comparing : Bool)
    (extras : Table (Extras κ)) (nextListener : ListenerId) (overrun : Bool)
    (hTree : l.dom.SameKinds dom) : Frame l { l with
      client, dom, tracked, observers, movers, comparing, extras, nextListener, overrun } m :=
  of_same rfl rfl rfl rfl rfl rfl rfl (fun _ => .of_tree rfl rfl hTree) fun _ _ =>
    ⟨rfl, rfl, rfl, fun _ h => h.congr rfl rfl rfl⟩

theorem refl (l : Live κ σ) : Frame l l m :=
  aside l _ _ _ _ _ _ _ _ _ (.refl _)

variable (h : Frame l l' m)
include h

theorem slight {sink : Sink κ} (hSlight : sink.Slight l m) : sink.Slight l' m := by
  cases hWrites : m.writes with
  | false => exact hSlight.of_strict hWrites
  | true => exact (h.loose hWrites).slight hSlight

theorem drives_iff (s : SignalId) : m.Drives l' s ↔ m.Drives l s := by
  refine and_congr_right fun hWrites => and_congr_right fun _ => ?_
  by_cases hs : s < l.signals.size
  · rw [(h.loose hWrites).source s hs]
  · exact iff_of_false (fun hSome => hs (h.signals_size ▸ sourceOf?_lt hSome))
      fun hSome => hs (sourceOf?_lt hSome)

theorem closed (hClosed : l.Closed m) : l'.Closed m := by
  intro s hs w hw
  rcases h.newcomers s w hw with hOld | hNew
  · exact h.slight (hClosed s hs w hOld)
  · exact hNew

theorem feed_slight {feed : Feed κ} (hSlight : feed.Slight l m) : feed.Slight l' m := by
  cases feed with
  | signal s sink => exact ⟨h.slight hSlight.1, h.closed hSlight.2⟩
  | event => trivial

omit h in
theorem trans (h₁ : Frame l l₁ m) (h₂ : Frame l₁ l' m) : Frame l l' m where
  config := h₂.config.trans h₁.config
  document := h₂.document.trans h₁.document
  tornDown := h₂.tornDown.trans h₁.tornDown
  series := h₂.series.trans h₁.series
  signals_size := h₂.signals_size.trans h₁.signals_size
  kept s hs := (h₂.kept s (mt (h₁.drives_iff s).mp hs)).trans (h₁.kept s hs)
  newcomers s w hw := by
    rcases h₂.newcomers s w hw with hOld | hNew
    · exact (h₁.newcomers s w hOld).imp_right h₂.slight
    · exact .inr hNew
  feeds s := (h₂.feeds s).trans (h₁.feeds s)
  bindings_size := h₂.bindings_size.trans h₁.bindings_size
  subscription b := (h₂.subscription b).trans (h₁.subscription b)
  loose hm := (h₁.loose hm).trans (h₂.loose hm) (Nat.le_of_eq h₁.signals_size.symm)
  spares f hf := (h₁.spares f hf).trans (h₂.spares f hf)

end Frame

namespace Calm

theorem dom (h : Calm l l') : l'.dom = l.dom := h.tree

theorem trans (h₁ : Calm l l₁ m) (h₂ : Calm l₁ l' m) : Calm l l' m :=
  ⟨h₁.toFrame.trans h₂.toFrame, h₁.tree.trans h₂.tree, h₂.tracked.trans h₁.tracked,
    h₂.observers.trans h₁.observers, h₂.movers.trans h₁.movers, h₂.clock.trans h₁.clock,
    h₂.comparing.trans h₁.comparing⟩

theorem aside (l : Live κ σ) (client : σ) (extras : Table (Extras κ)) (nextListener : ListenerId)
    (overrun : Bool) : Calm l { l with client, extras, nextListener, overrun } m :=
  ⟨Frame.aside l _ _ _ _ _ _ _ _ _ (.refl _), .refl m _, rfl, rfl, rfl, rfl, rfl⟩

theorem refl (l : Live κ σ) : Calm l l m :=
  aside l _ _ _ _

theorem of_client (l : Live κ σ) (c : σ) : Calm l { l with client := c } m :=
  aside l _ _ _ _

/-- A change of a signal, and of the registration of a subscription. -/
theorem of_switched (l : Live κ σ) (t : SignalId) (F : Signal κ → Signal κ) (s : SubscriptionId)
    (registered : Option Nat) (hValue : ∀ g, (F g).value = g.value)
    (hSource : ∀ g, (F g).source = g.source)
    (hWatchers : ∀ g, ∀ w ∈ (F g).watchers, w ∈ g.watchers ∨ w.sink.Slight l m)
    (hWire : ∀ f, m.spared f → ∀ r, l.Wire f r → Wire { l with
      signals := l.signals.modify t F
      subscriptions := l.subscriptions.modify s fun x => { x with registered } } f r) :
    Calm l { l with
      signals := l.signals.modify t F
      subscriptions := l.subscriptions.modify s fun x => { x with registered } } m := by
  have hLoose : Sturdy l { l with
      signals := l.signals.modify t F
      subscriptions := l.subscriptions.modify s fun x => { x with registered } } := by
    refine ⟨fun u _ => ?_, fun p x hx => ⟨x, hx, rfl, rfl⟩, Nat.le_refl _, fun _ _ => rfl⟩
    simp only [sourceOf?, signal?, Array.getElem?_modify]
    split
    · cases l.signals[u]? <;> simp [hSource]
    · rfl
  refine ⟨⟨rfl, rfl, rfl, rfl, Array.size_modify, fun u _ => ?_, fun u w hw => ?_, fun u => ?_, rfl,
    fun _ => rfl, fun _ => hLoose, fun f hf => ⟨rfl, rfl, rfl, hWire f hf⟩⟩, .refl m _, rfl, rfl, rfl,
    rfl, rfl⟩
  · simp only [valueOf, signal?, Array.getElem?_modify]
    split
    · cases l.signals[u]? <;> simp [hValue]
    · rfl
  · simp only [watchersOf, signal?, Array.getElem?_modify] at hw ⊢
    split at hw
    · cases hSignal : l.signals[u]? with
      | none => simp [hSignal] at hw
      | some g =>
        simp only [hSignal, Option.map_some, Option.getD_some] at hw ⊢
        exact (hWatchers g w hw).imp_right hLoose.slight
    · exact .inl hw
  · simp only [feed?, subscription?, Array.getElem?_modify]
    split
    · cases l.subscriptions[u]? <;> rfl
    · rfl

/-- A subscription to an event is registered or not. -/
theorem of_listening (l : Live κ σ) {s : SubscriptionId} {node : NodeId} {event : String}
    {handler : Handler κ} {before : Option Nat}
    (hSub : l.subscription? s = some { feed := .event node event handler, registered := before })
    (registered : Option Nat) : Calm l { l with
      subscriptions := l.subscriptions.modify s fun x => { x with registered } } m := by
  refine ⟨⟨rfl, rfl, rfl, rfl, rfl, fun _ _ => rfl, fun _ _ hw => .inl hw, fun u => ?_, rfl,
    fun _ => rfl, fun _ => .of_tree rfl rfl (.refl _), fun f _ =>
      ⟨rfl, rfl, rfl, fun _ h => h.listening hSub registered⟩⟩, .refl m _, rfl, rfl, rfl, rfl, rfl⟩
  simp only [feed?, subscription?_modify]
  split
  · cases l.subscription? u <;> rfl
  · rfl

theorem of_binding (l : Live κ σ) (b : BindingId) (f : Binding → Binding)
    (h : ∀ x, (f x).subscription = x.subscription)
    (hApart : ∀ follower, m.spared follower → b ≠ follower.binding) :
    Calm l { l with bindings := l.bindings.modify b f } m := by
  refine ⟨⟨rfl, rfl, rfl, rfl, rfl, fun _ _ => rfl, fun _ _ hw => .inl hw, fun _ => rfl,
    Array.size_modify, fun c => ?_, fun _ => .of_tree rfl rfl (.refl _), fun follower hf =>
      ⟨rfl, rfl, rfl, fun _ hWire => ?_⟩⟩, .refl m _, rfl, rfl, rfl, rfl, rfl⟩
  · rw [binding?_modify]
    split
    · cases l.binding? c <;> simp [h]
    · rfl
  · refine ⟨?_, fun c x hx hSub => ?_, hWire.subscription, hWire.signal⟩
    · rw [binding?_modify, if_neg (hApart follower hf)]
      exact hWire.binding
    · rw [binding?_modify] at hx
      split at hx
      · obtain ⟨y, hy, rfl⟩ := Option.map_eq_some_iff.mp hx
        exact hWire.own c y hy ((h y).symm.trans hSub)
      · exact hWire.own c x hx hSub

theorem of_driven (l : Live κ σ) {t : SignalId} (ht : m.Drives l t) (value : Value) :
    Calm l { l with signals := l.signals.modify t fun g => { g with value } } m := by
  have hLoose : Sturdy l { l with signals := l.signals.modify t fun g => { g with value } } := by
    refine ⟨fun u _ => ?_, fun p x hx => ⟨x, hx, rfl, rfl⟩, Nat.le_refl _, fun _ _ => rfl⟩
    simp only [sourceOf?, signal?_modify]
    split
    · cases l.signal? u <;> rfl
    · rfl
  refine ⟨⟨rfl, rfl, rfl, rfl, Array.size_modify, fun u hu => ?_, fun u w hw => .inl ?_, fun _ => rfl,
    rfl, fun _ => rfl, fun _ => hLoose, fun f _ =>
      ⟨rfl, rfl, rfl, fun _ h => h.given t value⟩⟩, .refl m _, rfl, rfl, rfl, rfl, rfl⟩
  · have hNe : t ≠ u := fun he => hu (he ▸ ht)
    rw [valueOf, signal?_modify, if_neg hNe, valueOf]
  · simp only [watchersOf, signal?_modify] at hw ⊢
    split at hw
    · cases hSignal : l.signal? u with
      | none => simp [hSignal] at hw
      | some g => simpa [hSignal] using hw
    · exact hw

/-- A value is written to a node. -/
theorem of_written (l : Live κ σ) {p : ProjectorId} {x : Projector} (hx : l.projectors[p]? = some x)
    (hFits : x.Fits l.dom) (hWrites : m.writes = true) (value : Value) (extras : Table (Extras κ)) :
    Calm l { l with
      dom := (x.aspect.write l.dom x.node value).1
      extras
      projectors := l.projectors.modify p fun q =>
        { q with aspect := (x.aspect.write l.dom x.node value).2 } } m := by
  have hTree := Aspect.relabeled_write l.dom value fun hText => (hFits hText).2
  refine ⟨.of_same rfl rfl rfl rfl rfl rfl rfl (fun _ => ⟨fun _ _ => rfl, fun q y hy => ?_,
    Nat.le_of_eq hTree.nodes_size.symm, fun n _ => hTree.tag n⟩) fun _ _ =>
      ⟨rfl, rfl, rfl, fun _ h => h.congr rfl rfl rfl⟩, .of_relabeled hWrites hTree, rfl, rfl, rfl, rfl,
    rfl⟩
  simp only [Array.getElem?_modify]
  split
  · rename_i hEq
    subst hEq
    rw [hx, Option.some.injEq] at hy
    subst hy
    exact ⟨{ x with aspect := (x.aspect.write l.dom x.node value).2 }, by rw [hx]; rfl, rfl,
      Aspect.isText_write _ _ _ _⟩
  · exact ⟨y, hy, rfl, rfl⟩

end Calm

namespace Silent

theorem refl (l : Live κ σ) : Silent l l m :=
  ⟨.refl l, rfl, rfl⟩

theorem trans (h₁ : Silent l l₁ m) (h₂ : Silent l₁ l' m) : Silent l l' m :=
  ⟨h₁.toCalm.trans h₂.toCalm, h₂.bindings.trans h₁.bindings,
    h₂.subscriptions.trans h₁.subscriptions⟩

theorem isActive (h : Silent l l' m) (t : SubscriptionId) : l'.isActive t = l.isActive t := by
  simp only [Live.isActive, subscription?, h.subscriptions]

end Silent

/-! ## Passing values to slight sinks -/

section Receiving

variable {client : Client κ σ}

/-- Telling one slight sink after the other. -/
theorem tellAll_of {calls : Calls κ σ} {value : Value}
    (hReceive : ∀ (l : Live κ σ) sink, sink.Slight l m → l.Closed m →
      After (calls.receive sink value) l fun _ l' => Silent l l' m)
    {ws : List (Signal.Watcher κ)} (hWatchers : ∀ w ∈ ws, w.sink.Slight l m) (hClosed : l.Closed m) :
    After (ws.forM fun w => calls.receive w.sink value) l fun _ l' => Silent l l' m := by
  refine After.forM (k := fun rest l' => (∀ w ∈ rest, w.sink.Slight l' m) ∧ Silent l l' m)
    ⟨hWatchers, .refl l⟩ ?_ |>.mono fun _ _ h => h.2
  rintro w rest l₁ ⟨hRest, h₁⟩
  refine (hReceive l₁ w.sink (hRest w List.mem_cons_self) (h₁.closed hClosed)).mono fun _ l₂ h₂ => ?_
  exact ⟨fun w' hw' => h₂.slight (hRest w' (List.mem_cons_of_mem _ hw')), h₁.trans h₂⟩

theorem project_silent {p : ProjectorId} (hSlight : (Sink.projector p : Sink κ).Slight l m)
    (value : Value) : After (project p value) l fun _ l' => Silent l l' m := by
  obtain ⟨hWrites, x, hx, hFits⟩ := hSlight
  have hWritten := fun extras => Calm.of_written l hx hFits hWrites value extras
  obtain ⟨node, aspect⟩ := x
  unfold project
  rw [after_bind, after_get, hx]
  cases aspect <;> exact ⟨hWritten _, rfl, rfl⟩

/-- What passing a value to a slight sink does: it goes on to the signals that may be driven, and is
written in the end. -/
theorem receive_slight (hClient : client.Quiet) (depth : Nat) {sink : Sink κ}
    (hSlight : sink.Slight l m) (hClosed : l.Closed m) (value : Value) :
    After ((Calls.upTo client depth).receive sink value) l fun _ l' => Silent l l' m := by
  induction depth generalizing l sink value with
  | zero => exact ⟨Calm.aside l _ _ _ true, rfl, rfl⟩
  | succ depth ih =>
    cases sink with
    | client k =>
      obtain ⟨c, hc⟩ := hClient.receive (Calls.upTo client depth) k value l
      change Silent l ((client.receive (Calls.upTo client depth) k value).run l).2 m
      rw [hc]
      exact ⟨Calm.of_client l c, rfl, rfl⟩
    | projector p => exact project_silent hSlight value
    | derived t f =>
      have hGiven := Calm.of_driven l hSlight (f value)
      change After (setSignal (Calls.upTo client depth) t (f value)) l _
      unfold setSignal
      refine After.bind (m := fun _ l₁ => l₁ = { l with
        signals := l.signals.modify t fun g => { g with value := f value } }) rfl ?_
      rintro _ _ rfl
      rw [after_bind, after_get]
      refine (tellAll_of (fun l sink hs hc => ih hs hc (f value)) (fun w hw => ?_)
        (hGiven.closed hClosed)).mono fun _ l' h' => ?_
      · exact hGiven.closed hClosed t hSlight.2.1 w hw
      · exact .trans ⟨hGiven, rfl, rfl⟩ h'
    | _ => exact hSlight.elim

/-- Telling the watchers of a signal. -/
theorem tellAll_slight (hClient : client.Quiet) (depth : Nat) {ws : List (Signal.Watcher κ)}
    (hWatchers : ∀ w ∈ ws, w.sink.Slight l m) (hClosed : l.Closed m) (value : Value) :
    After (ws.forM fun w => (Calls.upTo client depth).receive w.sink value) l fun _ l' =>
      Silent l l' m :=
  tellAll_of (fun _ _ hs hc => receive_slight hClient depth hs hc value) hWatchers hClosed

end Receiving

/-! ## Subscriptions -/

theorem isActive_modify (l : Live κ σ) {s : SubscriptionId} (registered : Option Nat)
    (hs : (l.subscription? s).isSome) (t : SubscriptionId) :
    isActive { l with
      subscriptions := l.subscriptions.modify s fun x => { x with registered } } t =
        if s = t then registered.isSome else l.isActive t := by
  simp only [isActive, subscription?_modify]
  split
  · subst t
    obtain ⟨x, hx⟩ := Option.isSome_iff_exists.mp hs
    simp [hx]
  · rfl

theorem listen_silent (l : Live κ σ) (n : NodeId) (event : String) (handler : Handler κ) :
    After (listen n event handler) l fun _ l' => Silent l l' m ∧ l'.subscriptions = l.subscriptions :=
  ⟨⟨Calm.aside l _ _ _ _, rfl, rfl⟩, rfl⟩

theorem unlisten_silent (l : Live κ σ) (n : NodeId) (number : ListenerId) :
    After (unlisten n number) l fun _ l' => Silent l l' m := by
  unfold unlisten
  rw [after_bind, after_get]
  split
  · exact ⟨Calm.aside l _ _ _ _, rfl, rfl⟩
  · exact .refl l

/-- What switching on a subscription with a slight feed does. -/
theorem activate_quiet {client : Client κ σ} (hClient : client.Quiet) (depth : Nat) {s : SubscriptionId}
    (hFeed : ∀ feed, l.feed? s = some feed → feed.Slight l m)
    (hOther : ∀ f, m.spared f → ∀ r, l.Wire f r → s ≠ f.subscription) :
    After (activate (Calls.upTo client (depth + 1)) s) l fun _ l' =>
      Calm l l' m ∧ l'.bindings = l.bindings ∧
        ∀ t, l'.isActive t = if s = t then (l.subscription? s).isSome else l.isActive t := by
  have hSame : ∀ b, l.isActive s = b → ∀ t, l.isActive t = if s = t then b else l.isActive t := by
    intro b hb t
    by_cases h : s = t
    · rw [if_pos h, ← h, hb]
    · rw [if_neg h]
  unfold activate
  rw [after_bind, after_get]
  cases hSub : l.subscription? s with
  | none => exact ⟨Calm.refl l, rfl, hSame _ (by simp [isActive, hSub])⟩
  | some x =>
    obtain ⟨feed, registered⟩ := x
    have hs : (l.subscription? s).isSome := by simp [hSub]
    cases registered with
    | some number => exact ⟨Calm.refl l, rfl, hSame _ (by simp [isActive, hSub])⟩
    | none =>
      cases feed with
      | signal t sink =>
        obtain ⟨hSlight, hClosed⟩ : (Feed.signal t sink).Slight l m := hFeed _ (by simp [feed?, hSub])
        dsimp only
        simp only [watch, modifySignal, setRegistered, after_bind, after_get, after_modify, after_pure]
        let number := ((l.signal? t).map (·.nextWatcher)).getD 0
        have hOn := Calm.of_switched (m := m) l t (fun g => { g with
            watchers := g.watchers ++ [(⟨number, sink⟩ : Signal.Watcher κ)]
            nextWatcher := number + 1 }) s (some number) (fun _ => rfl) (fun _ => rfl)
          (fun g w hw => ?_) fun f hf r hWire => ?_
        · refine (receive_slight hClient (depth + 1) (hOn.slight hSlight) (hOn.closed hClosed) _).mono
            fun _ l' h' => ⟨hOn.trans h'.toCalm, h'.bindings, fun t => ?_⟩
          rw [h'.isActive]
          exact isActive_modify { l with signals := _ } (some number) hs t
        · rcases List.mem_append.mp hw with hOld | hNew
          · exact .inl hOld
          · exact .inr (List.mem_singleton.mp hNew ▸ hSlight)
        · refine hWire.other (hOther f hf r hWire) hSub _ (some number) fun g hg _ hServes _ => ?_
          rw [show number = g.nextWatcher by
            simp only [number, hg, Option.map_some, Option.getD_some]]
          refine ⟨hServes.add sink fun _ hn => .inl hn, Nat.le_succ _, ?_⟩
          rintro _ hn
          obtain rfl := Option.some.inj hn
          refine ⟨fun hEq => ?_, Nat.lt_succ_self _⟩
          exact Nat.lt_irrefl _ (hServes.lt_next _ (hServes.present _ hEq))
      | event node event handler =>
        refine (listen_silent (m := m) l node event handler).bind ?_
        rintro number l₁ ⟨h₁, hSubs⟩
        have hSub₁ : l₁.subscription? s = some { feed := .event node event handler } := by
          rw [subscription?, hSubs]
          exact hSub
        refine ⟨h₁.toCalm.trans (Calm.of_listening l₁ hSub₁ (some number)), h₁.bindings, fun t => ?_⟩
        refine (isActive_modify l₁ (some number) (by rw [hSub₁]; rfl) t).trans ?_
        rw [h₁.isActive]
        rfl

/-- What switching off a subscription does. -/
theorem deactivate_quiet (l : Live κ σ) (s : SubscriptionId)
    (hOther : ∀ f, m.spared f → ∀ r, l.Wire f r → s ≠ f.subscription) :
    After (deactivate s) l fun _ l' => Calm l l' m ∧ l'.bindings = l.bindings ∧
      ∀ t, l'.isActive t = if s = t then false else l.isActive t := by
  have hSame : l.isActive s = false → ∀ t, l.isActive t = if s = t then false else l.isActive t := by
    intro hs t
    by_cases h : s = t
    · rw [if_pos h, ← h, hs]
    · rw [if_neg h]
  unfold deactivate
  rw [after_bind, after_get]
  cases hSub : l.subscription? s with
  | none => exact ⟨Calm.refl l, rfl, hSame (by simp [isActive, hSub])⟩
  | some x =>
    obtain ⟨feed, registered⟩ := x
    have hs : (l.subscription? s).isSome := by simp [hSub]
    cases registered with
    | none => exact ⟨Calm.refl l, rfl, hSame (by simp [isActive, hSub])⟩
    | some number =>
      cases feed with
      | signal t sink =>
        dsimp only
        simp only [setRegistered, unwatch, modifySignal, after_bind, after_modify]
        refine ⟨Calm.of_switched l t
            (fun g => { g with watchers := g.watchers.filter fun w => !(w.number == number) }) s none
            (fun _ => rfl) (fun _ => rfl) (fun g w hw => .inl (List.mem_filter.mp hw).1)
            fun f hf r hWire => ?_, trivial, isActive_modify { l with signals := _ } none hs⟩
        refine hWire.other (hOther f hf r hWire) hSub _ none fun g _ _ hServes hNe => ?_
        refine ⟨hServes.drop number fun n hn => ⟨hn, ?_⟩, Nat.le_refl _, fun n hn => by cases hn⟩
        rintro rfl
        exact hNe n rfl hn
      | event node event handler =>
        dsimp only
        simp only [setRegistered, after_bind, after_modify]
        refine (unlisten_silent (m := m) _ node number).mono fun _ l' h' => ?_
        refine ⟨(Calm.of_listening l hSub none).trans h'.toCalm, h'.bindings, fun t => ?_⟩
        change l'.isActive t = _
        rw [h'.isActive]
        exact isActive_modify l none hs t

/-! ## Bindings -/

/-- Whether a binding is switched on, and whether it has ended. -/
def switchState? (l : Live κ σ) (b : BindingId) : Option (Bool × Bool) :=
  (l.binding? b).map fun x => (l.isActive x.subscription, x.destroyed)

/-- Every binding has a subscription of its own, with its number. -/
def OwnSubscriptions (l : Live κ σ) : Prop :=
  ∀ b x, l.binding? b = some x → x.subscription = b ∧ (l.subscription? b).isSome

/-- What a hook leaves of the state of a binding. -/
def Hook.leaves (h : Hook κ) (b : BindingId) (state : Bool × Bool) : Bool × Bool :=
  match h with
  | .switchOn c => if c = b ∧ state.2 = false then (true, false) else state
  | .switchOff c => if c = b then (false, state.2) else state
  | .endBinding c => if c = b then (false, true) else state
  | _ => state

theorem isBindingActive_eq (l : Live κ σ) (b : BindingId) :
    l.isBindingActive b = (l.switchState? b).any (·.1) := by
  unfold isBindingActive switchState?
  cases l.binding? b <;> rfl

namespace Frame

variable (h : Frame l l' m)
include h

theorem binding_some {b : BindingId} {x' : Binding}
    (hx' : l'.binding? b = some x') :
    ∃ x, l.binding? b = some x ∧ x.subscription = x'.subscription := by
  have hSub := h.subscription b
  rw [hx'] at hSub
  cases hx : l.binding? b with
  | none =>
    rw [hx] at hSub
    cases hSub
  | some x =>
    rw [hx] at hSub
    exact ⟨x, rfl, (Option.some.inj hSub).symm⟩

theorem subscription_isSome (s : SubscriptionId) :
    (l'.subscription? s).isSome = (l.subscription? s).isSome := by
  have hFeed := congrArg Option.isSome (h.feeds s)
  simpa [feed?] using hFeed

theorem ownSubscriptions (hOwn : l.OwnSubscriptions) : l'.OwnSubscriptions := by
  intro b x' hx'
  obtain ⟨x, hx, hEq⟩ := h.binding_some hx'
  rw [h.subscription_isSome, ← hEq]
  exact hOwn b x hx

theorem hook_quiet {hook : Hook κ} (hQuiet : hook.Quiet l m) : hook.Quiet l' m := by
  refine ⟨?_, hQuiet.apart⟩
  have hSlight := hQuiet.slight
  cases hook with
  | switchOn b =>
    intro x' hx' feed hFeed
    obtain ⟨x, hx, hEq⟩ := h.binding_some hx'
    rw [h.feeds, ← hEq] at hFeed
    exact h.feed_slight (hSlight x hx feed hFeed)
  | _ => exact hSlight

end Frame

theorem switchState?_of_bindings (h : l'.bindings = l.bindings)
    (hOwn : l.OwnSubscriptions) (b : BindingId) :
    l'.switchState? b = (l.switchState? b).map fun state => (l'.isActive b, state.2) := by
  have hBinding : l'.binding? b = l.binding? b := by simp only [binding?, h]
  simp only [switchState?, hBinding]
  cases hx : l.binding? b with
  | none => rfl
  | some x => simp [(hOwn b x hx).1]

/-! ## Hooks -/

theorem Hook.Quiet.other {h : Hook κ} (hQuiet : h.Quiet l m) {b : BindingId}
    (hb : h.binding? = some b) {x : Binding} (hx : l.binding? b = some x) {f : Follower κ}
    (hf : m.spared f) {r : Option Nat} (hWire : l.Wire f r) : x.subscription ≠ f.subscription :=
  fun hEq => hQuiet.apart f hf (hb.trans (congrArg some (hWire.own b x hx hEq)))

variable {client : Client κ σ}

theorem hook_upTo (client : Client κ σ) (depth : Nat) (h : Hook κ) (event : Event) :
    (Calls.upTo client (depth + 1)).hook h event =
      Calls.runHook client (Calls.upTo client depth) event h := rfl

theorem switchOn_quiet (hClient : client.Quiet) (depth : Nat) {b : BindingId}
    (hQuiet : (Hook.switchOn b : Hook κ).Quiet l m) :
    After (switchOn (Calls.upTo client (depth + 1)) b) l fun _ l' => Calm l l' m ∧
      (l.OwnSubscriptions → ∀ c,
        l'.switchState? c = (l.switchState? c).map ((Hook.switchOn b : Hook κ).leaves c)) := by
  unfold switchOn
  rw [after_bind, after_get]
  cases hx : l.binding? b with
  | none =>
    refine ⟨Calm.refl l, fun hOwn c => ?_⟩
    change l.switchState? c = _
    cases hc : l.switchState? c with
    | none => rfl
    | some state =>
      have hne : b ≠ c := by
        rintro rfl
        simp [switchState?, hx] at hc
      simp [Hook.leaves, hne]
  | some x =>
    obtain ⟨subscription, destroyed, held⟩ := x
    cases destroyed with
    | true =>
      refine ⟨Calm.refl l, fun hOwn c => ?_⟩
      change l.switchState? c = _
      cases hc : l.switchState? c with
      | none => rfl
      | some state =>
        have hne : ¬ (b = c ∧ state.2 = false) := by
          rintro ⟨rfl, hState⟩
          simp only [switchState?, hx, Option.map_some, Option.some.injEq] at hc
          rw [← hc] at hState
          cases hState
        simp [Hook.leaves, hne]
    | false =>
      refine (activate_quiet hClient depth (hQuiet.slight _ hx) fun f hf r hWire =>
        hQuiet.other rfl hx hf hWire).mono ?_
      rintro _ l' ⟨hCalm, hBindings, hActive⟩
      refine ⟨hCalm, fun hOwn c => ?_⟩
      obtain ⟨hSub, hSome⟩ := hOwn b _ hx
      obtain rfl : subscription = b := hSub
      rw [switchState?_of_bindings hBindings hOwn, hActive]
      cases hc : l.binding? c with
      | none => simp [switchState?, hc]
      | some y =>
        have hy := (hOwn c y hc).1
        by_cases hEq : subscription = c
        · subst hEq
          rw [hx] at hc
          obtain rfl := Option.some.inj hc
          simp [switchState?, hx, Hook.leaves, hSome]
        · simp [switchState?, hc, Hook.leaves, hEq, hy]

theorem switchOff_quiet {b : BindingId} (hQuiet : (Hook.switchOff b : Hook κ).Quiet l m) :
    After (switchOff b) l fun _ l' => Calm l l' m ∧ (l.OwnSubscriptions → ∀ c,
      l'.switchState? c = (l.switchState? c).map ((Hook.switchOff b : Hook κ).leaves c)) := by
  unfold switchOff
  rw [after_bind, after_get]
  cases hx : l.binding? b with
  | none =>
    refine ⟨Calm.refl l, fun hOwn c => ?_⟩
    change l.switchState? c = _
    cases hc : l.switchState? c with
    | none => rfl
    | some state =>
      have hne : b ≠ c := by
        rintro rfl
        simp [switchState?, hx] at hc
      simp [Hook.leaves, hne]
  | some x =>
    refine (deactivate_quiet l x.subscription fun f hf r hWire =>
      hQuiet.other rfl hx hf hWire).mono ?_
    rintro _ l' ⟨hCalm, hBindings, hActive⟩
    refine ⟨hCalm, fun hOwn c => ?_⟩
    rw [switchState?_of_bindings hBindings hOwn, hActive, (hOwn b x hx).1]
    cases hc : l.binding? c with
    | none => simp [switchState?, hc]
    | some y =>
      have hy := (hOwn c y hc).1
      by_cases hEq : b = c
      · simp [switchState?, hc, Hook.leaves, hEq]
      · simp [switchState?, hc, Hook.leaves, hEq, hy]

theorem endBinding_quiet {b : BindingId} (hQuiet : (Hook.endBinding b : Hook κ).Quiet l m) :
    After (endBinding b) l fun _ l' => Calm l l' m ∧ (l.OwnSubscriptions → ∀ c,
      l'.switchState? c = (l.switchState? c).map ((Hook.endBinding b : Hook κ).leaves c)) := by
  have hCalm₁ : Calm l { l with
      bindings := l.bindings.modify b fun x => { x with destroyed := true } } m :=
    Calm.of_binding l b _ (fun _ => rfl) fun f hf hEq =>
      hQuiet.apart f hf (congrArg some hEq)
  unfold endBinding
  rw [after_bind, modifyBinding, after_modify]
  refine (switchOff_quiet (m := m) ⟨trivial, hQuiet.apart⟩).mono ?_
  rintro _ l' ⟨hCalm, hState⟩
  refine ⟨hCalm₁.trans hCalm, fun hOwn c => ?_⟩
  rw [hState (hCalm₁.ownSubscriptions hOwn)]
  simp only [switchState?, binding?_modify]
  cases hc : l.binding? c with
  | none => split <;> rfl
  | some y =>
    by_cases hEq : b = c
    · subst hEq
      simp [Hook.leaves]
    · simp [Hook.leaves, hEq, isActive, subscription?]

/-- What a quiet hook does. -/
theorem runHook_quiet (hClient : client.Quiet) (depth : Nat) {h : Hook κ}
    (hQuiet : h.Quiet l m) (event : Event) :
    After ((Calls.upTo client (depth + 2)).hook h event) l fun _ l' => Calm l l' m ∧
      (l.OwnSubscriptions → ∀ c, l'.switchState? c = (l.switchState? c).map (h.leaves c)) := by
  rw [hook_upTo]
  cases h with
  | switchOn b => exact switchOn_quiet hClient depth hQuiet
  | switchOff b => exact switchOff_quiet hQuiet
  | endBinding b => exact endBinding_quiet hQuiet
  | client k =>
    obtain ⟨c, hc⟩ := hClient.hook (Calls.upTo client (depth + 1)) k event l
    change Calm l ((client.hook _ k event).run l).2 m ∧ (l.OwnSubscriptions →
      ∀ b, ((client.hook _ k event).run l).2.switchState? b = _)
    rw [hc]
    exact ⟨Calm.of_client l c, fun _ b => Option.map_id'.symm⟩
  | _ => exact hQuiet.slight.elim

/-- What the hooks of an event do: some of the first ones run, and all of them if the event cannot
be cancelled. -/
theorem runHooks_quiet (hClient : client.Quiet) (depth : Nat) {hooks : List (Hook κ)}
    (hQuiet : ∀ h ∈ hooks, h.Quiet l m) (event : Event) :
    After (runHooks (Calls.upTo client (depth + 2)) event hooks) l fun _ l' => Calm l l' m ∧
      (l.OwnSubscriptions → ∃ ran, ran <+: hooks ∧ (event.kind.isCancelable = false → ran = hooks) ∧
        ∀ c, l'.switchState? c =
          (l.switchState? c).map fun state => ran.foldl (fun s h => h.leaves c s) state) := by
  induction hooks generalizing l with
  | nil =>
    exact ⟨Calm.refl l, fun _ => ⟨[], List.prefix_refl _, fun _ => rfl, fun c => Option.map_id'.symm⟩⟩
  | cons h hooks ih =>
    unfold runHooks
    refine (runHook_quiet hClient depth (hQuiet h List.mem_cons_self) event).bind ?_
    rintro cancels l₁ ⟨hCalm₁, hState₁⟩
    by_cases hStop : (cancels && event.kind.isCancelable) = true
    · rw [if_pos hStop]
      refine ⟨hCalm₁, fun hOwn => ⟨[h], ⟨hooks, rfl⟩, fun hKind => ?_, hState₁ hOwn⟩⟩
      rw [hKind, Bool.and_false] at hStop
      cases hStop
    · rw [if_neg hStop]
      refine (ih fun h' hh' => hCalm₁.hook_quiet (hQuiet h' (List.mem_cons_of_mem _ hh'))).mono ?_
      rintro _ l₂ ⟨hCalm₂, hRest⟩
      refine ⟨hCalm₁.trans hCalm₂, fun hOwn => ?_⟩
      obtain ⟨ran, hPrefix, hAll, hState₂⟩ := hRest (hCalm₁.ownSubscriptions hOwn)
      refine ⟨h :: ran, ?_, fun hKind => by rw [hAll hKind], fun c => ?_⟩
      · exact (List.prefix_cons_inj h).mpr hPrefix
      · rw [hState₂, hState₁ hOwn, Option.map_map]
        rfl

/-! ### What hooks leave of one binding -/

theorem leaves_of_other {h : Hook κ} {b : BindingId} (hOther : h.binding? ≠ some b)
    (state : Bool × Bool) : h.leaves b state = state := by
  cases h with
  | switchOn c | switchOff c | endBinding c =>
    have hne : c ≠ b := fun he => hOther (he ▸ rfl)
    simp [Hook.leaves, hne]
  | _ => rfl

theorem leaves_leaves (h : Hook κ) (b : BindingId) (state : Bool × Bool) :
    h.leaves b (h.leaves b state) = h.leaves b state := by
  cases h <;> simp only [Hook.leaves] <;> split <;> simp_all

/-- Hooks of other bindings leave a binding as it is. -/
theorem foldl_leaves_of_others {hooks : List (Hook κ)} {b : BindingId}
    (h : ∀ hook ∈ hooks, hook.binding? ≠ some b) (state : Bool × Bool) :
    hooks.foldl (fun s hook => hook.leaves b s) state = state := by
  induction hooks generalizing state with
  | nil => rfl
  | cons hook hooks ih =>
    rw [List.foldl_cons, leaves_of_other (h hook List.mem_cons_self)]
    exact ih (fun hook' hh => h hook' (List.mem_cons_of_mem _ hh)) state

/-- If a binding has but one hook among some, that one counts. -/
theorem foldl_leaves_of_only {hooks : List (Hook κ)} {b : BindingId} {only : Hook κ}
    (hOnly : ∀ hook ∈ hooks, hook.binding? = some b → hook = only) (state : Bool × Bool)
    (h : only ∈ hooks ∨ only.leaves b state = state) :
    hooks.foldl (fun s hook => hook.leaves b s) state = only.leaves b state := by
  induction hooks generalizing state with
  | nil =>
    rcases h with hMem | hSame
    · cases hMem
    · exact hSame.symm
  | cons hook hooks ih =>
    have hRest : ∀ hook' ∈ hooks, hook'.binding? = some b → hook' = only :=
      fun hook' hh => hOnly hook' (List.mem_cons_of_mem _ hh)
    rw [List.foldl_cons]
    by_cases hAbout : hook.binding? = some b
    · obtain rfl := hOnly hook List.mem_cons_self hAbout
      rw [ih hRest _ (.inr (leaves_leaves hook b state)), leaves_leaves]
    · rw [leaves_of_other hAbout]
      refine ih hRest state ?_
      rcases h with hMem | hSame
      · rcases List.mem_cons.mp hMem with rfl | hMem
        · exact .inr (leaves_of_other hAbout state)
        · exact .inl hMem
      · exact .inr hSame

end LiveMarkup.Live
