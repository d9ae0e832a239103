import LiveMarkup.Proofs.Mirror.Restocking
import LiveMarkup.Proofs.Live.Transitions

/-!
# Telling followers

An operation leads from a document that is kept up to date to one that is. On the way plans may be
extended for what is made, and what was made before lasts.

What comes to reach the document is told so, and every follower in it is switched on and gets the
value of its signal. What ceases to is told as well, and switched off.

The changes at the place of one follower, by what they do to the tree: nothing, or one more, one
less or another order of kin.

* `Leads`: what an operation leads to; `Leads.forM` is for loops;
* `Pending.Under`: what is under way while a follower or a signal of some number is served;
* `hooksFor_eq`: the hooks of the observer of a follower;
* `Receives`: what it takes that a value is received as it should be;
* `notifyConnected_leads`, `notifyDisconnected_unmoved`: all followers in a node or container are
  told;
* `Maintained.refilled`: the tree stays as it is;
* `Maintained.gained`, `Maintained.lost`, `Maintained.shifted`: the kin are others.
-/

/-! ## One step after another -/

namespace LiveMarkup.Live

variable {κ σ : Type} {π π₁ π' : Plan} {P P₁ P' : Pending} {l l₁ l' : Live κ σ}
variable {u w : BindingId} {s t : SignalId} {sink sink' : Sink κ} {r q : NodeRef}

/-! ### Plans -/

namespace Plan.Extends

theorem refl (π : Plan) (l : Live κ σ) : π.Extends π l :=
  ⟨fun _ _ => rfl, fun _ _ => rfl, rfl, fun _ => id⟩

theorem trans {except : NodeRef → Prop} (h₁ : π.Extends π₁ l) (hLasts : Endures except l l₁)
    (h₂ : π₁.Extends π' l₁) : π.Extends π' l where
  role s hs := (h₂.role s (Nat.lt_of_lt_of_le hs hLasts.signals_size)).trans (h₁.role s hs)
  cap n hn := (h₂.cap n (Nat.lt_of_lt_of_le hn hLasts.nodes_size)).trans (h₁.cap n hn)
  values := h₂.values.trans h₁.values
  room k hk := h₂.room k (h₁.room k hk)

end Plan.Extends

/-! ### Leading on -/

/-- What was made lasts, and the document is kept up to date by an extended plan. -/
def Leads (π : Plan) (P : Pending) (l l' : Live κ σ) : Prop :=
  ∃ π', π.Extends π' l ∧ Endures (fun _ => False) l l' ∧ Maintained π' P l'

theorem Maintained.leads (h : Maintained π P l) : Leads π P l l :=
  ⟨π, .refl π l, .refl l, h⟩

theorem Leads.trans (hExtends : π.Extends π₁ l) (hLasts : Endures (fun _ => False) l l₁)
    (h : Leads π₁ P l₁ l') : Leads π P l l' := by
  obtain ⟨π', hExtends', hLasts', hMaintained⟩ := h
  exact ⟨π', hExtends.trans hLasts hExtends', hLasts.trans hLasts', hMaintained⟩

theorem Leads.imp (h : Leads π P l l') (hImp : ∀ π', Maintained π' P l' → Maintained π' P' l') :
    Leads π P' l l' := by
  obtain ⟨π', hExtends, hLasts, hMaintained⟩ := h
  exact ⟨π', hExtends, hLasts, hImp π' hMaintained⟩

/-- One operation after another. -/
theorem After.leads {α β : Type} {op : LiveM κ σ α} {f : α → LiveM κ σ β}
    (h : After op l fun _ l₁ => Leads π P₁ l l₁)
    (hRest : ∀ a π₁ l₁, π.Extends π₁ l → Endures (fun _ => False) l l₁ → Maintained π₁ P₁ l₁ →
      After (f a) l₁ fun _ l' => Leads π₁ P l₁ l') :
    After (op >>= f) l fun _ l' => Leads π P l l' :=
  h.bind fun a l₁ ⟨π₁, hExtends, hLasts, hMaintained⟩ =>
    (hRest a π₁ l₁ hExtends hLasts hMaintained).mono fun _ _ hLeads => hLeads.trans hExtends hLasts

/-- A loop, each round of which leads on. -/
theorem Leads.forM {α : Type} {xs : List α} {f : α → LiveM κ σ PUnit} {k : List α → Pending}
    (h : Maintained π (k xs) l) (hStep : ∀ x rest π₁ l₁, x ∈ xs → π.Extends π₁ l →
      Endures (fun _ => False) l l₁ → Maintained π₁ (k (x :: rest)) l₁ →
        After (f x) l₁ fun _ l₂ => Leads π₁ (k rest) l₁ l₂) :
    After (xs.forM f) l fun _ l' => Leads π (k []) l l' := by
  induction xs generalizing π l with
  | nil => exact h.leads
  | cons x xs ih =>
    refine After.leads (hStep x xs π l List.mem_cons_self (.refl π l) (.refl l) h)
      fun _ π₁ l₁ hExtends₁ hLasts₁ h₁ => ih h₁ fun y rest π₂ l₂ hy hExtends₂ hLasts₂ h₂ => ?_
    exact hStep y rest π₂ l₂ (List.mem_cons_of_mem x hy) (hExtends₁.trans hLasts₁ hExtends₂)
      (hLasts₁.trans hLasts₂) h₂

/-! ### What does not matter -/

/-- Values, wires and records are what they were. -/
structure Level (l l' : Live κ σ) : Prop where
  config : l'.config = l.config
  tornDown : l'.tornDown = l.tornDown
  document : l'.document = l.document
  bindings : l'.bindings = l.bindings
  projectors : l'.projectors = l.projectors
  signals : l'.signals = l.signals
  subscriptions : l'.subscriptions = l.subscriptions
  conditionals : l'.conditionals = l.conditionals
  switches : l'.switches = l.switches
  series : l'.series = l.series
  clock : l'.clock = l.clock

/-- Documents that differ in nothing that is looked at. -/
structure Twin (l l' : Live κ σ) : Prop extends Level l l' where
  dom : l'.dom = l.dom
  tracked : ∀ n, l'.trackedOf n = l.trackedOf n
  core : ∀ o, l'.core? o = l.core? o
  observers_size : l'.observers.size = l.observers.size

namespace Level

theorem refl (l : Live κ σ) : Level l l :=
  ⟨rfl, rfl, rfl, rfl, rfl, rfl, rfl, rfl, rfl, rfl, rfl⟩

theorem trans (h₁ : Level l l₁) (h₂ : Level l₁ l') : Level l l' where
  config := h₂.config.trans h₁.config
  tornDown := h₂.tornDown.trans h₁.tornDown
  document := h₂.document.trans h₁.document
  bindings := h₂.bindings.trans h₁.bindings
  projectors := h₂.projectors.trans h₁.projectors
  signals := h₂.signals.trans h₁.signals
  subscriptions := h₂.subscriptions.trans h₁.subscriptions
  conditionals := h₂.conditionals.trans h₁.conditionals
  switches := h₂.switches.trans h₁.switches
  series := h₂.series.trans h₁.series
  clock := h₂.clock.trans h₁.clock

end Level

namespace Twin

theorem refl (l : Live κ σ) : Twin l l :=
  ⟨.refl l, rfl, fun _ => rfl, fun _ => rfl, rfl⟩

theorem trans (h₁ : Twin l l₁) (h₂ : Twin l₁ l') : Twin l l' where
  toLevel := h₁.toLevel.trans h₂.toLevel
  dom := h₂.dom.trans h₁.dom
  tracked n := (h₂.tracked n).trans (h₁.tracked n)
  core o := (h₂.core o).trans (h₁.core o)
  observers_size := h₂.observers_size.trans h₁.observers_size

variable (h : Twin l l')
include h

theorem statusOf (o : ObserverId) : l'.statusOf o = l.statusOf o := by
  have hCore := congrArg (fun x => (x.map (·.status)).getD .destroyed) (h.core o)
  simpa only [core?, Option.map_map, Function.comp_def, Observer.core, Live.statusOf] using hCore

theorem steady : Unmoved l l' :=
  { h with
    signals_size := by rw [h.signals]
    subscriptions_size := by rw [h.subscriptions]
    core := fun o => by rw [h.core]
    ended := fun o => by rw [h.statusOf]
    feed := fun u => by rw [h.subscriptions]
    derives := fun s n d f => by simp only [watchersOf, signal?, h.signals] }

theorem valueOf (t : SignalId) : l'.valueOf t = l.valueOf t := by
  rw [Live.valueOf, signal?, h.signals]
  rfl

theorem maintained (hMaintained : Maintained π P l) : Maintained π P l' := by
  have hSteady := h.steady
  have hTracked : l'.trackedOf = l.trackedOf := funext h.tracked
  have hActive : ∀ u, l'.isActive u = l.isActive u := fun u => by
    rw [isActive, subscription?, h.subscriptions]
    rfl
  refine ⟨h.tornDown.trans hMaintained.running, hMaintained.closed, ?_, ?_, ?_, ?_, ?_,
    hSteady.shelves hMaintained.shelves, ?_, hSteady.alarms hMaintained.alarms⟩
  · rw [h.dom, h.document]
    exact hMaintained.rooted
  · rw [h.dom, hTracked, h.document]
    exact hMaintained.graves
  · rw [h.signals]
    exact hMaintained.wires
  · rw [h.signals, h.subscriptions]
    exact hMaintained.feeds
  · refine hSteady.rigs hMaintained.rigs rfl (fun u hu => ?_) fun u s sink r hu hOn => ?_
    · rw [hActive]
      exact hMaintained.rigs.asleep u (h.statusOf u ▸ hu)
    · rw [hActive]
      exact hMaintained.rigs.awake u s sink r hu (h.statusOf u ▸ hOn)
  · refine ⟨fun u s sink r hu hr => ?_, fun u s sink r hu hOn => ?_⟩
    · rw [h.dom, h.document] at hr
      rw [h.statusOf]
      exact hMaintained.upkeep.told u s sink r (hSteady.follower_iff.mp hu) hr
    · rw [h.statusOf] at hOn
      rw [h.dom, h.valueOf]
      refine (hMaintained.upkeep.current u s sink r (hSteady.follower_iff.mp hu) hOn).imp_right
        (Or.imp_right (Or.imp_right fun hCurrent => ?_))
      exact hCurrent.congr (.of_eq h.projectors h.conditionals h.switches h.series)
        (fun _ => by rw [h.dom]) fun _ _ _ _ _ _ => h.valueOf _

end Twin

theorem twin_withObserver (l : Live κ σ) (o : ObserverId) {g : Observer κ → Observer κ}
    (h : ∀ x, (g x).core = x.core) : Twin l (l.withObserver o g) :=
  { Twin.refl l with
    core := fun p => by
      refine ((Turned.of_withObserver l o (f := id) (m := .strict) h).core p).trans ?_
      cases l.core? p <;> simp
    observers_size := Array.size_modify }

theorem notePlace_twin (l : Live κ σ) (o : ObserverId) :
    After (notePlace o) l fun _ l' => Twin l l' :=
  twin_withObserver l o (g := fun x => { x with lastSeen := l.dom.position x.target }) fun _ => rfl

theorem noteMoves_twin (l : Live κ σ) (r : NodeRef) :
    After (noteMoves r) l fun _ l' => Twin l l' := by
  unfold noteMoves
  rw [after_bind, after_get]
  split
  · refine After.forM (k := fun _ l' => Twin l l') (.refl l) fun o _ l₁ h₁ => ?_
    exact (notePlace_twin l₁ o).mono fun _ _ h₂ => h₁.trans h₂
  · exact .refl l

/-! ### What is under way -/

/-- One more follower is behind its signal. -/
def Pending.behind (P : Pending) (u : BindingId) : Pending :=
  { P with lagging := fun w => P.lagging w ∨ w = u }

/-- Nothing is being destroyed, only followers of smaller numbers are at work, and the signals
that have to keep their values belong to nobody younger. -/
structure Pending.Under (P : Pending) (π : Plan) (m : Nat) : Prop where
  busy : ∀ w, P.hand w ≠ [] ∨ P.row w ≠ none ∨ P.showing w ≠ none → w < m
  pinned : ∀ t v, P.pinned t = some v → (π.role t).owner ≤ m
  dying : P.dying = fun _ => False

namespace Pending.Under

variable {m n : Nat}

theorem mono (h : P.Under π m) (hLe : m ≤ n) : P.Under π n :=
  ⟨fun w hw => Nat.lt_of_lt_of_le (h.busy w hw) hLe, fun t v hv =>
    Nat.le_trans (h.pinned t v hv) hLe,
    h.dying⟩

theorem extended (h : P.Under π m) (hMaintained : Maintained π P₁ l)
    (hPinned : ∀ t v, P.pinned t = some v → P₁.pinned t = some v) (hExtends : π.Extends π₁ l) :
    P.Under π₁ m where
  busy := h.busy
  pinned t v hv := by
    obtain ⟨g, hg, -⟩ := hMaintained.wires.pinned t v (hPinned t v hv)
    rw [hExtends.role t (Array.getElem?_eq_some_iff.mp hg).1]
    exact h.pinned t v hv
  dying := h.dying

theorem idle (h : P.Under π u) : P.hand u = [] ∧ P.row u = none ∧ P.showing u = none := by
  have hNot := mt (h.busy u) (Nat.lt_irrefl u)
  simpa only [not_or, ne_eq, not_not] using hNot

end Pending.Under

/-- Under an extended plan a node has the bound that it had. -/
theorem Plan.Extends.cap_key (hExtends : π.Extends π₁ l) (hLasts : Endures (fun _ => False) l l₁)
    (hSound : l.dom.Sound) (hr : l.dom.Known r) :
    π₁.cap (l₁.dom.key r) = π.cap (l.dom.key r) := by
  rw [hLasts.key r hr, hExtends.cap _ (hSound.key_lt_size hr)]

/-! ### Signals that keep their values -/

/-- One more signal has to keep its value. -/
def Pending.pin (P : Pending) (s : SignalId) (v : Value) : Pending :=
  { P with pinned := fun t => if t = s then some v else P.pinned t }

theorem Maintained.pin (h : Maintained π P l) {g : Signal κ} (hs : l.signals[s]? = some g) :
    Maintained π (P.pin s g.value) l :=
  { h with
    wires := { h.wires with
      pinned := fun t v hv => by
        rw [Pending.pin] at hv
        dsimp only at hv
        split at hv
        · rename_i hEq
          cases hv
          exact ⟨g, hEq ▸ hs, rfl⟩
        · exact h.wires.pinned t v hv }
    rigs := { h.rigs with }
    shelves := { h.shelves with }
    upkeep := { h.upkeep with } }

theorem Maintained.unpin {v : Value} (h : Maintained π (P.pin s v) l)
    (hAgree : ∀ v', P.pinned s = some v' → v' = v) : Maintained π P l :=
  h.relax (fun _ => id) (fun _ => id) (fun _ => id) (fun _ => id) rfl rfl rfl rfl fun t v' hv => by
    rw [Pending.pin]
    dsimp only
    split
    · rename_i hEq
      subst hEq
      rw [hAgree v' hv]
    · exact hv

theorem Pending.Under.pin {m : Nat} {v : Value} (h : P.Under π m) (hOwner : (π.role s).owner ≤ m) :
    (P.pin s v).Under π m where
  busy := h.busy
  pinned t v' hv := by
    rw [Pending.pin] at hv
    dsimp only at hv
    split at hv
    · rename_i hEq
      exact hEq ▸ hOwner
    · exact h.pinned t v' hv
  dying := h.dying

theorem Maintained.valueOf_pinned (h : Maintained π P l) {v : Value} (hv : P.pinned s = some v) :
    l.valueOf s = v := by
  obtain ⟨g, hg, rfl⟩ := h.wires.pinned s v hv
  exact valueOf_eq hg

/-! ### Reaching the document -/

theorem Maintained.dead_of_below (h : Maintained π P l) (hr : l.dom.Known r)
    (hq : l.dom.Below r q) :
    Dead P.dying l.trackedOf (l.dom.key q) ↔ Dead P.dying l.trackedOf (l.dom.key r) := by
  induction hq with
  | self => exact Iff.rfl
  | kin hp hx ih =>
    have hpKnown := h.rooted.sound.known_of_below hr hp
    exact ⟨fun hd => ih.mp (h.graves.up _ _ hpKnown hx hd),
      fun hd => h.graves.down _ _ hpKnown hx (ih.mpr hd)⟩

/-- What is below something is younger and made from no more. -/
theorem Maintained.edge_of_below (h : Maintained π P l) (hr : l.dom.Known r)
    (hq : l.dom.Below r q) :
    l.dom.key r ≤ l.dom.key q ∧ π.cap (l.dom.key q) ≤ π.cap (l.dom.key r) := by
  induction hq with
  | self => exact ⟨Nat.le_refl _, Nat.le_refl _⟩
  | kin hp hx ih =>
    have hEdge := h.rooted.edge _ _ (h.rooted.sound.known_of_below hr hp) hx
    exact ⟨Nat.le_trans ih.1 (Nat.le_of_lt hEdge.1), Nat.le_trans hEdge.2 ih.2⟩

theorem Maintained.known_document (h : Maintained π P l) : l.dom.Known (.node l.document) :=
  h.rooted.plain

theorem Maintained.not_dead_of_below (h : Maintained π P l)
    (hr : l.dom.Below (.node l.document) r) :
    ¬ Dead P.dying l.trackedOf (l.dom.key r) := by
  rw [h.dead_of_below h.known_document hr]
  exact h.graves.top

/-! ### What steps look up -/

section LookUps

variable (calls : Calls κ σ) (l : Live κ σ) (u : BindingId)

theorem fireAt_reads (r : NodeRef) (kind : EventKind) : (fireAt calls r kind).run l =
    (match (l.trackedOf (l.dom.key r)).observer with
      | none => pure false
      | some o => fire calls o { kind, target := r } : LiveM κ σ Bool).run l :=
  rfl

theorem tell_reads (kind : EventKind) : (tell calls u kind).run l =
    (match l.observer? u with
      | none => pure ()
      | some x => do
        let _ ← fire calls u { kind, target := x.target }
        pure () : LiveM κ σ Unit).run l :=
  rfl

theorem switchOn_reads : (switchOn calls u).run l =
    (match l.binding? u with
      | some { subscription, destroyed := false, .. } => activate calls subscription
      | _ => pure () : LiveM κ σ Unit).run l :=
  rfl

theorem switchOff_reads : (switchOff u).run l =
    (match l.binding? u with
      | some x => deactivate x.subscription
      | none => pure () : LiveM κ σ Unit).run l :=
  rfl

theorem activate_reads : (activate calls u).run l =
    (match l.subscription? u with
      | none => pure ()
      | some { registered := some _, .. } => pure ()
      | some { feed := .signal signal sink, registered := none } => do
        let number ← watch signal sink
        setRegistered u (some number)
        calls.receive sink ((← get).valueOf signal)
      | some { feed := .event node event handler, registered := none } => do
        let number ← listen node event handler
        setRegistered u (some number) : LiveM κ σ Unit).run l :=
  rfl

theorem deactivate_reads : (deactivate u).run l =
    (match l.subscription? u with
      | none => pure ()
      | some { registered := none, .. } => pure ()
      | some { feed := .signal signal _, registered := some number } => do
        setRegistered u none
        unwatch signal number
      | some { feed := .event node _ _, registered := some number } => do
        setRegistered u none
        let _ ← unlisten node number
        pure () : LiveM κ σ Unit).run l :=
  rfl

theorem stopGrace_reads (c : ConditionalId) : (stopGrace c).run l =
    (match (l.conditional? c).bind (·.timer) with
      | none => pure ()
      | some timer => do
        modifyConditional c fun x => { x with timer := none }
        let _ ← clearTimer timer
        pure () : LiveM κ σ Unit).run l :=
  rfl

theorem project_reads (p : ProjectorId) (v : Value) : (project p v).run l =
    (match l.projectors[p]? with
      | none => pure ()
      | some projector => do
        let aspect ← writeAspect projector.node v projector.aspect
        modify fun l => { l with projectors := l.projectors.modify p fun q => { q with aspect } }
      : LiveM κ σ Unit).run l :=
  rfl

end LookUps

/-! ### Hooks -/

/-- The hooks of the observer of a follower that wait for a kind of event. -/
theorem Maintained.hooksFor_eq (h : Maintained π P l) (hu : Keeper l u s sink r)
    (hStatus : l.statusOf u ≠ .destroyed) (kind : EventKind) :
    l.hooksFor u kind =
      (sink.rigging u).filterMap fun e => if e.1 = kind then some e.2 else none := by
  obtain ⟨x, hx, -⟩ := hu.exists_core
  have hHooks := (h.rigs.hooks u s sink r x hu hx (by rwa [← statusOf_eq hx])).1
  rw [← hHooks, List.filterMap_map]
  have hObserver : (l.observer? u).map (·.hooks) = some x.hooks := by
    have hMap := congrArg (Option.map Observer.Core.hooks) hx
    simpa only [core?, Option.map_map, Function.comp_def, Observer.core, Option.map_some] using hMap
  rw [hooksFor, hObserver]
  rfl

/-- What a follower does when its node comes to reach the document, and when it ceases to. -/
theorem Maintained.hooksFor_connect (h : Maintained π P l) (hu : Keeper l u s sink r)
    (hStatus : l.statusOf u ≠ .destroyed) : l.hooksFor u .connect = [.switchOn u] ∧
      l.hooksFor u .disconnect = [.switchOff u] := by
  constructor <;> rw [h.hooksFor_eq hu hStatus] <;> cases sink <;> rfl

/-- The hooks that run when a node is destroyed: what is kept is let go, and the binding ends. -/
theorem Maintained.hooksFor_destroy (h : Maintained π P l) (hu : Keeper l u s sink r)
    (hStatus : l.statusOf u ≠ .destroyed) :
    l.hooksFor u .destroy = sink.release.map (·.2) ++ [.endBinding u] := by
  rw [h.hooksFor_eq hu hStatus]
  cases sink <;> rfl

/-- Telling the observer of a follower runs its hooks. -/
theorem Keeper.tell_run (hu : Keeper l u s sink r) (calls : Calls κ σ) (kind : EventKind) :
    ∃ target, ((tell calls u kind).run l).2 =
      ((runHooks calls { kind, target } (l.hooksFor u kind)).run l).2 := by
  obtain ⟨c, hc, -⟩ := hu.exists_core
  obtain ⟨x, hx, -⟩ := Option.map_eq_some_iff.mp hc
  refine ⟨x.target, ?_⟩
  rw [tell_reads, hx]
  rfl

/-- The hooks of an event that cannot be cancelled run one after the other. -/
theorem runHooks_cons {event : Event} (hKind : event.kind.isCancelable = false) (calls : Calls κ σ)
    (hook : Hook κ) (rest : List (Hook κ)) :
    ((runHooks calls event (hook :: rest)).run l).2 =
      ((runHooks calls event rest).run ((calls.hook hook event).run l).2).2 := by
  have hRun : (runHooks calls event (hook :: rest)).run l =
      (if ((calls.hook hook event).run l).1 && event.kind.isCancelable then pure true
        else runHooks calls event rest : LiveM κ σ Bool).run
          ((calls.hook hook event).run l).2 := rfl
  rw [hRun, hKind, Bool.and_false]
  rfl

end LiveMarkup.Live

namespace LiveMarkup.Live

variable {κ σ : Type} {π π₁ π' : Plan} {P P₁ P' : Pending} {l l₁ l' : Live κ σ}
variable {u w : BindingId} {s t : SignalId} {sink sink' : Sink κ} {r q : NodeRef}
variable {client : Client κ σ} {n m : Nat}

/-- Calls that are nested deep enough bring every follower up to date that gets the value of its
signal. -/
def Receives (calls : Calls κ σ) (n : Nat) : Prop :=
  ∀ (π : Plan) (P : Pending) (l : Live κ σ) (u : BindingId) (s : SignalId) (sink : Sink κ)
    (r : NodeRef) (v : Value), Maintained π (P.behind u) l → Keeper l u s sink r →
      P.pinned s = some v → P.Under π u → 3 * π.cap (l.dom.key r) + 2 ≤ n →
        After (calls.receive sink v) l fun _ l' => Leads π P l l'

/-! ## Switching on -/

theorem Maintained.binding_eq (h : Maintained π P l) (hu : Keeper l u s sink r)
    (hStatus : l.statusOf u ≠ .destroyed) : ∃ held, l.binding? u = some ⟨u, false, held⟩ := by
  obtain ⟨x, hx, -⟩ := hu.exists_core
  have hEnded := (h.rigs.hooks u s sink r x hu hx (by rwa [← statusOf_eq hx])).2
  have hMap := h.rigs.binding u
  rw [if_pos hu.lt_size] at hMap
  obtain ⟨⟨subscription, destroyed, held⟩, hb, hEq⟩ := Option.map_eq_some_iff.mp hMap
  cases hEq
  rw [isBindingDestroyed, binding?, hb, Option.any_some] at hEnded
  cases hEnded
  exact ⟨held, hb⟩

theorem Keeper.subscription_eq (hu : Keeper l u s sink r) (hOff : l.isActive u = false) :
    l.subscriptions[u]? = some ⟨.signal s sink, none⟩ := by
  obtain ⟨⟨registered, hSub⟩, -, -⟩ := hu
  rw [isActive, subscription?, hSub, Option.any_some] at hOff
  cases registered with
  | none => exact hSub
  | some _ => cases hOff

theorem switchOn_leads {calls : Calls κ σ} (hReceives : Receives calls n)
    (h : Maintained π { P with waking := fun w => P.waking w ∨ w = u } l)
    (hu : Keeper l u s sink r) (hUnder : P.Under π u) (hOn : l.statusOf u = .connected)
    (hOff : l.isActive u = false) (hCap : 3 * π.cap (l.dom.key r) + 2 ≤ n) :
    After (switchOn calls u) l fun _ l' => Leads π P l l' := by
  obtain ⟨held, hBinding⟩ := h.binding_eq hu (by rw [hOn]; decide)
  have hSub := hu.subscription_eq hOff
  obtain ⟨hLt, hOwner, -⟩ := h.rigs.reads u s sink r hu
  obtain ⟨g, hg⟩ : ∃ g, l.signals[s]? = some g := ⟨_, Array.getElem?_eq_getElem hLt⟩
  have hSubscribed := h.subscribed hu hg hOn hOff
  have hRun : (switchOn calls u).run l =
      (calls.receive sink (l.valueOf s)).run (l.subscribed u s sink g.nextWatcher) := by
    have hValue : (l.subscribed u s sink g.nextWatcher).valueOf s = l.valueOf s :=
      valueOf_subscribed l u s sink _ s
    rw [← hValue]
    have hNumber : ((l.signal? s).map (·.nextWatcher)).getD 0 = g.nextWatcher := by
      rw [signal?, hg]
      rfl
    have hSwitch : (switchOn calls u).run l = (activate calls u).run l := by
      rw [switchOn_reads, hBinding]
    rw [hSwitch, activate_reads, subscription?, hSub]
    have hWatch : (do
        let number ← watch s sink
        setRegistered u (some number)
        calls.receive sink ((← get).valueOf s) : LiveM κ σ Unit).run l =
        (calls.receive sink ((l.subscribed u s sink
          (((l.signal? s).map (·.nextWatcher)).getD 0)).valueOf s)).run
          (l.subscribed u s sink (((l.signal? s).map (·.nextWatcher)).getD 0)) := rfl
    rw [hNumber] at hWatch
    exact hWatch
  have hSteady := steady_subscribed hu hg g.nextWatcher
  obtain ⟨g', hg', hValue'⟩ : ∃ g' : Signal κ,
      (l.subscribed u s sink g.nextWatcher).signals[s]? = some g' ∧ g'.value = l.valueOf s := by
    obtain ⟨g', hg'⟩ := exists_of_size hSteady.signals_size hg
    exact ⟨g', hg', by rw [← valueOf_eq hg', valueOf_subscribed]⟩
  have hPinned := hSubscribed.pin hg'
  rw [hValue'] at hPinned
  have hReceived := hReceives π (P.pin s (l.valueOf s)) _ u s sink r (l.valueOf s) hPinned
    (hSteady.follower_iff.mpr hu) (if_pos rfl) (hUnder.pin hOwner) hCap
  unfold After at hReceived ⊢
  rw [hRun]
  refine Leads.trans (.refl π l) hSteady.lasts (hReceived.imp fun π' h' => h'.unpin fun v hv => ?_)
  exact (h.valueOf_pinned (P := { P with waking := _ }) hv).symm

theorem tellConnected_leads (hReceives : Receives (Calls.upTo client n) n)
    (h : Maintained π { P with untold := fun w => P.untold w ∨ w = u } l)
    (hu : Keeper l u s sink r) (hUnder : P.Under π u) (hCap : 3 * π.cap (l.dom.key r) + 2 ≤ n) :
    After (tellConnected (Calls.upTo client (n + 1)) u) l fun _ l' => Leads π P l l' := by
  have hRun : (tellConnected (Calls.upTo client (n + 1)) u).run l =
      (if l.statusOf u = .disconnected then (do
          setStatus u .connected
          tell (Calls.upTo client (n + 1)) u .connect)
        else pure () : LiveM κ σ Unit).run l := rfl
  unfold After
  rw [hRun]
  split
  · rename_i hOff
    have hTold := h.connected hOff
    have hAlive : l.statusOf u ≠ .destroyed := by
      rw [hOff]
      decide
    have hSteady := steady_toldOf (c := .connected) hAlive (by decide)
    have hOn : (l.toldOf u .connected).statusOf u = .connected := by
      rw [statusOf_toldOf hAlive, if_pos rfl]
    have hu' := hSteady.follower_iff.mpr hu
    have hSwitched := switchOn_leads hReceives hTold hu' hUnder hOn
      (h.rigs.asleep u (by rw [hOff]; decide)) hCap
    have hHooks := (hTold.hooksFor_connect hu' (by rw [hOn]; decide)).1
    obtain ⟨event, hEvent⟩ := hu'.tell_run (Calls.upTo client (n + 1)) .connect
    have hTell : ((do
        setStatus u .connected
        tell (Calls.upTo client (n + 1)) u .connect : LiveM κ σ Unit).run l).2 =
          ((switchOn (Calls.upTo client n) u).run (l.toldOf u .connected)).2 := by
      rw [hHooks] at hEvent
      exact hEvent
    exact hTell ▸ Leads.trans (.refl π l) hSteady.lasts hSwitched
  · rename_i hNot
    -- whoever reaches the document is alive, so that it was told before
    refine (h.leads).imp fun π' h' => ?_
    refine { h' with
      upkeep := { h'.upkeep with
        told := fun w t sink' q hw hq => ?_ }
      rigs := { h'.rigs with }
      shelves := { h'.shelves with } }
    rcases h'.upkeep.told w t sink' q hw hq with (hUntold | rfl) | hOn
    · exact .inl hUntold
    rotate_left
    · exact .inr hOn
    · right
      obtain ⟨rfl, rfl, rfl⟩ := hu.unique hw
      have hAlive := h'.not_dead_of_below hq
      have hStatus := (h'.rigs.alive _ _ _ _ hw hAlive).1
      cases hCase : l.statusOf w with
      | connected => rfl
      | disconnected => exact absurd hCase hNot
      | destroyed => exact absurd hCase hStatus

/-! ## Everything in a node or container -/

/-- The observers in something alive are those of the followers in it. -/
theorem Maintained.mem_observersIn (h : Maintained π P l) (hr : l.dom.Known r)
    (hAlive : ¬ Dead P.dying l.trackedOf (l.dom.key r)) :
    u ∈ l.observersIn r ↔ ∃ s sink q, Keeper l u s sink q ∧ l.dom.Below r q := by
  have hSound := h.rooted.sound
  rw [observersIn, List.mem_filterMap]
  constructor
  · rintro ⟨k, hk, hObserver⟩
    obtain ⟨s, sink, q, hu, rfl⟩ := h.rigs.tracked k u hObserver
    have hq := h.rigs.known u s sink q hu
    exact ⟨s, sink, q, hu, hSound.below_of_inside hr hq ((hSound.key_mem_subtree hr hq).mp hk)⟩
  · rintro ⟨s, sink, q, hu, hBelow⟩
    have hq := h.rigs.known u s sink q hu
    exact ⟨l.dom.key q, (hSound.key_mem_subtree hr hq).mpr (hSound.inside_of_below hr hBelow),
      (h.rigs.alive u s sink q hu (by rwa [h.dead_of_below hr hBelow])).2⟩

/-- Everything in a node or container is told that it reaches the document. -/
theorem notifyConnected_leads (hReceives : Receives (Calls.upTo client n) n)
    (h : Maintained π { P with
      untold := fun w => P.untold w ∨ ∃ s sink q, Keeper l w s sink q ∧ l.dom.Below r q } l)
    (hr : l.dom.Known r) (hAlive : ¬ Dead P.dying l.trackedOf (l.dom.key r))
    (hUnder : ∀ w s sink q, Keeper l w s sink q → l.dom.Below r q → P.Under π w)
    (hCap : 3 * π.cap (l.dom.key r) + 2 ≤ n) :
    After (notifyConnected (Calls.upTo client (n + 1)) r) l fun _ l' => Leads π P l l' := by
  have hStart : Maintained π { P with untold := fun w => P.untold w ∨ w ∈ l.observersIn r } l :=
    h.relax (fun w hw => hw.imp_right (h.mem_observersIn hr hAlive).mpr) (fun _ => id) (fun _ => id)
      (fun _ => id) rfl rfl rfl rfl fun _ _ => id
  unfold notifyConnected
  rw [after_bind, after_get]
  refine (Leads.forM (k := fun os => { P with untold := fun w => P.untold w ∨ w ∈ os }) hStart
    fun o rest π₁ l₁ ho hExtends hLasts h₁ => ?_).mono fun _ l' hLeads => hLeads.imp fun π' h' => ?_
  · obtain ⟨s, sink, q, hu, hBelow⟩ := (h.mem_observersIn hr hAlive).mp ho
    have hq := h.rigs.known o s sink q hu
    refine tellConnected_leads (P := { P with untold := fun w => P.untold w ∨ w ∈ rest })
      hReceives ?_ (hLasts.follower hu) ?_ ?_
    · exact h₁.relax (fun w hw => by
        rcases hw with hUntold | hIn
        · exact .inl (.inl hUntold)
        · rcases List.mem_cons.mp hIn with rfl | hIn
          · exact .inr rfl
          · exact .inl (.inr hIn)) (fun _ => id) (fun _ => id) (fun _ => id) rfl rfl rfl rfl
          fun _ _ => id
    · obtain ⟨hBusy, hPinned, hDying⟩ :=
        (hUnder o s sink q hu hBelow).extended h (fun _ _ => id) hExtends
      exact ⟨hBusy, hPinned, hDying⟩
    · rw [hExtends.cap_key hLasts h.rooted.sound hq]
      have hLe := (h.edge_of_below hr hBelow).2
      omega
  · exact h'.relax (fun w hw => hw.elim id fun hIn => absurd hIn List.not_mem_nil) (fun _ => id)
      (fun _ => id) (fun _ => id) rfl rfl rfl rfl fun _ _ => id

theorem Maintained.not_below_of_off (h : Maintained π P l) (hr : l.dom.Known r)
    (hOff : l.dom.isPlaced r = false) (hNe : r ≠ .node l.document) (hq : l.dom.Below r q) :
    ¬ l.dom.Below (.node l.document) q := by
  have hSound := h.rooted.sound
  have hqKnown := hSound.known_of_below hr hq
  rw [← hSound.up_iff_below h.rooted.plain hqKnown, hSound.inside_up_root_iff hr
    (hSound.inside_of_below hr hq) h.rooted.plain h.rooted.top]
  exact hSound.not_up_of_not_placed hr h.rooted.plain hNe hOff

/-- A follower is told that it does not reach the document, and is switched off. -/
theorem tellDisconnected_unmoved (h : Maintained π P l) (hu : Keeper l u s sink r)
    (hOut : ¬ l.dom.Below (.node l.document) r) :
    After (tellDisconnected (Calls.upTo client (n + 1)) u) l fun _ l' =>
      Unmoved l l' ∧ Maintained π P l' := by
  have hRun : (tellDisconnected (Calls.upTo client (n + 1)) u).run l =
      (if l.statusOf u = .connected then (do
          setStatus u .disconnected
          tell (Calls.upTo client (n + 1)) u .disconnect)
        else pure () : LiveM κ σ Unit).run l := rfl
  unfold After
  rw [hRun]
  split
  · rename_i hOn
    have hAlive : l.statusOf u ≠ .destroyed := by
      rw [hOn]
      decide
    have hTold := steady_toldOf (c := .disconnected) hAlive (by decide)
    have hu' := hTold.follower_iff.mpr hu
    obtain ⟨event, hEvent⟩ := hu'.tell_run (Calls.upTo client (n + 1)) .disconnect
    have hHooks : (l.toldOf u .disconnected).hooksFor u .disconnect = [.switchOff u] := by
      rw [← (h.hooksFor_connect hu hAlive).2]
      have hObserver : ((l.toldOf u .disconnected).observer? u).map (·.hooks) =
          (l.observer? u).map (·.hooks) := by
        have hCore := hTold.core u
        simp only [core?, Option.map_map, Function.comp_def, Observer.core] at hCore
        have hSnd := congrArg (Option.map Prod.snd) hCore
        simpa only [Option.map_map, Function.comp_def] using hSnd
      rw [hooksFor, hObserver]
      rfl
    obtain ⟨held, hBinding⟩ := h.binding_eq hu hAlive
    have hOff : ((do
        setStatus u .disconnected
        tell (Calls.upTo client (n + 1)) u .disconnect : LiveM κ σ Unit).run l).2 =
          ((deactivate u).run (l.toldOf u .disconnected)).2 := by
      rw [hHooks] at hEvent
      refine hEvent.trans ?_
      have hSwitch := switchOff_reads (l.toldOf u .disconnected) u
      rw [show (l.toldOf u .disconnected).binding? u = l.binding? u from rfl, hBinding] at hSwitch
      exact congrArg Prod.snd hSwitch
    obtain ⟨⟨registered, hSub⟩, -, -⟩ := id hu
    have hDeactivate := deactivate_reads (l.toldOf u .disconnected) u
    rw [show (l.toldOf u .disconnected).subscription? u = l.subscriptions[u]? from rfl,
      hSub] at hDeactivate
    dsimp only
    rw [hOff, hDeactivate]
    cases registered with
    | none =>
      have hActive : l.isActive u = false := by
        rw [isActive, subscription?, hSub]
        rfl
      exact ⟨hTold, h.unheard hu hOn hOut hActive⟩
    | some number =>
      exact ⟨hTold.trans (steady_unsubscribed (l := l.toldOf u .disconnected) hSub h.wires h.feeds
        fun d f => hu.not_derived), h.hushed hu hOn hOut hSub⟩
  · rename_i hOff
    exact ⟨(Twin.refl l).steady, h⟩

/-- Everything in what was taken out is told that it does not reach the document. -/
theorem notifyDisconnected_unmoved (h : Maintained π P l) (hr : l.dom.Known r)
    (hAlive : ¬ Dead P.dying l.trackedOf (l.dom.key r)) (hOff : l.dom.isPlaced r = false)
    (hNe : r ≠ .node l.document) :
    After (notifyDisconnected (Calls.upTo client (n + 1)) r) l fun _ l' =>
      Unmoved l l' ∧ Maintained π P l' := by
  unfold notifyDisconnected
  rw [after_bind, after_get]
  refine (After.forM (k := fun os l₁ => (∀ o ∈ os, o ∈ l.observersIn r) ∧ Unmoved l l₁ ∧
    Maintained π P l₁) ⟨fun o ho => List.mem_reverse.mp ho, (Twin.refl l).steady, h⟩ ?_).mono
      fun _ _ hk => hk.2
  rintro o rest l₁ ⟨hIn, hSteady, h₁⟩
  obtain ⟨s, sink, q, hu, hBelow⟩ := (h.mem_observersIn hr hAlive).mp (hIn o List.mem_cons_self)
  have hOut := h.not_below_of_off hr hOff hNe hBelow
  rw [← hSteady.dom, ← hSteady.document] at hOut
  refine (tellDisconnected_unmoved h₁ (hSteady.follower_iff.mpr hu) hOut).mono ?_
  exact fun _ l₂ ⟨hSteady₂, h₂⟩ => ⟨fun o ho => hIn o (List.mem_cons_of_mem _ ho),
    hSteady.trans hSteady₂, h₂⟩

end LiveMarkup.Live

/-! ## Keeping, showing and hiding -/

namespace LiveMarkup.Live

variable {κ σ : Type} {π : Plan} {P P' : Pending} {l l₁ l' : Live κ σ}
variable {u w : BindingId} {s t : SignalId} {sink sink' : Sink κ} {p q r x : NodeRef}

/-- What holds of one follower of a place holds of all of them. -/
theorem Maintained.at_only (h : Maintained π P l) (hu : Keeper l u s sink p)
    (hAt : Refilled π P P' l l' p u s sink) (w : BindingId) (t : SignalId) (sink' : Sink κ)
    (hw : Keeper l w t sink' p) : Refilled π P P' l l' p w t sink' := by
  obtain rfl := h.rigs.eq_of_key hu hw rfl
  obtain ⟨rfl, rfl, -⟩ := hu.unique hw
  exact hAt

theorem Pending.Elsewhere.refl (P : Pending) (l : Live κ σ) (p : NodeRef) : P.Elsewhere P l p where
  untold _ := id
  waking := rfl
  stale := rfl
  dying := rfl
  pinned := rfl
  others _ _ _ _ _ _ := ⟨rfl, rfl, rfl, id⟩

/-- A follower of a container is the only one of its number. -/
theorem Pending.Elsewhere.of_follower (hu : Keeper l u s sink p)
    (hUntold : ∀ w, P.untold w → P'.untold w) (hWaking : P'.waking = P.waking)
    (hStale : P'.stale = P.stale) (hDying : P'.dying = P.dying) (hPinned : P'.pinned = P.pinned)
    (hOthers : ∀ w, w ≠ u → P'.hand w = P.hand w ∧ P'.row w = P.row w ∧
      P'.showing w = P.showing w ∧ (P.lagging w → P'.lagging w)) : P.Elsewhere P' l p where
  untold := hUntold
  waking := hWaking
  stale := hStale
  dying := hDying
  pinned := hPinned
  others w t sink' r hw hNe := hOthers w fun hEq => by
    subst hEq
    exact hNe (hw.unique hu).2.2

section Place

variable {c : ContainerId} (h : Maintained π P l) (hu : Keeper l u s sink (.container c))
variable (hR : Restocked l l' (.container c)) (hPend : P.Elsewhere P' l (.container c))
variable (hAt : Refilled π P P' l l' (.container c) u s sink)
include h hu hR hPend hAt

/-- What is kept changes, and the tree does not. -/
theorem Maintained.refilled (hDom : l'.dom = l.dom) : Maintained π P' l' :=
  h.restocked hR hPend (h.rigs.known _ _ _ _ hu) (fun x hx hNot => absurd (hDom ▸ hx) hNot)
    (fun _ hEq => by cases hEq) (.inr hDom) (h.at_only hu hAt)
    fun _ _ _ _ _ hBelow => .inr (hDom ▸ hBelow)

/-- One more is shown; what is in it and comes to reach the document is yet to be told. -/
theorem Maintained.gained {before : Option NodeRef}
    (hGains : Dom.Gains l.dom l'.dom x (.container c) before) (hDying : P.dying = fun _ => False)
    (hx : Comes π P l (.container c) x) (hOff : l.dom.isPlaced x = false)
    (hUntold : ∀ w t sink' q, Keeper l w t sink' q → l.dom.Below x q →
      l.dom.Below (.node l.document) (.container c) → P'.untold w) : Maintained π P' l' := by
  have hp := h.rigs.known _ _ _ _ hu
  have hSound := h.rooted.sound
  have hOut : ¬ l.dom.Below x (.container c) := fun hBelow =>
    absurd (h.edge_of_below hx.known hBelow).1 (Nat.not_le.mpr hx.lt)
  refine h.restocked hR hPend hp (fun y hy hNot => ?_) (fun _ hEq => by cases hEq) (.inl hDying)
    (h.at_only hu hAt) fun w t sink' q hw hBelow => ?_
  · rcases (hGains.mem_kin hp).mp hy with ⟨rfl, -⟩ | hOld
    · exact hx
    · exact absurd hOld hNot
  · rcases (hGains.below_iff hSound hx.known hp h.known_document hOff hOut).mp hBelow with
      hOld | ⟨hDocument, hIn⟩
    · exact .inr hOld
    · exact .inl (hUntold w t sink' q hw hIn hDocument)

/-- One less is shown. -/
theorem Maintained.lost (hLoses : Dom.Loses l.dom l'.dom x) (hDying : P.dying = fun _ => False) :
    Maintained π P' l' := by
  have hp := h.rigs.known _ _ _ _ hu
  exact h.restocked hR hPend hp
    (fun y hy hNot => absurd ((hLoses.mem_kin hp).mp hy).1 hNot) (fun _ hEq => by cases hEq)
    (.inl hDying) (h.at_only hu hAt) fun w t sink' q hw hBelow =>
      .inr (hLoses.below_mono h.rooted.sound h.known_document hBelow)

/-- What is shown takes another order. -/
theorem Maintained.shifted {before : Option NodeRef}
    (hShifts : Dom.Shifts l.dom l'.dom x (.container c) before)
    (hIn : x ∈ l.dom.kin (.container c)) (hDying : P.dying = fun _ => False) :
    Maintained π P' l' := by
  have hp := h.rigs.known _ _ _ _ hu
  exact h.restocked hR hPend hp
    (fun y hy hNot => absurd ((hShifts.mem_kin hIn hp).mp hy) hNot) (fun _ hEq => by cases hEq)
    (.inl hDying) (h.at_only hu hAt) fun w t sink' q hw hBelow =>
      .inr ((hShifts.below_iff hIn h.rooted.sound h.known_document).mp hBelow)

end Place

/-! ### Timers -/

/-- The timer of a conditional and the clock do not matter. -/
theorem Maintained.retimed {c : ConditionalId} {x : Conditional κ} (timer : Option TimerId)
    (K : Clock κ) (h : Maintained π P l) (hu : Keeper l u s (.conditional c) r)
    (hx : l.conditionals[c]? = some x)
    (hTimers : ∀ t ∈ K.timers, t ∈ l.clock.timers ∨ t.task = .endGrace c)
    (hMicrotasks : K.microtasks = l.clock.microtasks) :
    Maintained π P { l with
      conditionals := l.conditionals.modify c fun x => { x with timer }, clock := K } := by
  obtain ⟨y, hy, rfl⟩ := id hu.2.2
  cases hx.symm.trans hy
  have hR : Restocked l { l with
      conditionals := l.conditionals.modify c fun x => { x with timer }, clock := K }
      (.container x.box) :=
    Restocked.of_conditional (.refl l.dom) h.rooted.sound (fun _ _ _ => rfl) hx rfl rfl rfl
      (fun t ht => (hTimers t ht).imp_right fun hTask => ⟨c, u, s, _, hTask, hu⟩) hMicrotasks
  have hNew : ∀ x', (l.conditionals.modify c fun x => { x with timer })[c]? = some x' →
      x' = { x with timer } := by
    intro x' hx'
    rw [Array.getElem?_modify, if_pos rfl, hx] at hx'
    exact (Option.some.inj hx').symm
  have hSame : (l.conditionals.modify c fun x => { x with timer })[c]? = some { x with timer } := by
    rw [Array.getElem?_modify, if_pos rfl, hx]
    rfl
  refine h.refilled hu hR (.refl P l _) ⟨fun n hn => .inl ?_, fun n hn hPlaced => ?_,
    fun _ _ hAlive => ?_, fun x' hx' n hn hAlive => ?_, fun hOn => ?_⟩ rfl
  · rw [Sink.stock, hSame] at hn
    rw [Sink.stock, hx]
    exact hn
  · refine h.shelves.placed _ _ _ _ n hu ?_ hPlaced
    rw [Sink.stock, hSame] at hn
    rw [Sink.stock, hx]
    exact hn
  · refine (h.shelves.shape _ _ _ _ hu hAlive).trans ?_
    simp only [Sink.shown, hSame, hx]
  · obtain rfl := hNew x' hx'
    exact h.shelves.child _ _ _ _ x n hu hx hn hAlive
  · refine (h.upkeep.current _ _ _ _ hu hOn).imp_right (Or.imp_right (Or.imp_right
      fun hCurrent x' hx' => ?_))
    obtain rfl := hNew x' hx'
    exact hCurrent x hx

theorem stopGrace_run (l : Live κ σ) (c : ConditionalId) : ((stopGrace c).run l).2 = l ∨
    ∃ timer, ((stopGrace c).run l).2 = { l with
      conditionals := l.conditionals.modify c fun x => { x with timer := none }
      clock := { l.clock with timers := l.clock.timers.filter fun t =>
        !(t.number == timer) } } := by
  rw [stopGrace_reads]
  split
  · exact .inl rfl
  · exact .inr ⟨_, rfl⟩

end LiveMarkup.Live
