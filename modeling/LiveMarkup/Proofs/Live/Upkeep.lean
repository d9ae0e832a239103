import LiveMarkup.Live.Calling
import LiveMarkup.Live.Holding
import LiveMarkup.Proofs.Live.Bystander
import LiveMarkup.Proofs.Program.Names

/-!
# Conditions that operations keep

Most conditions on a live document look at a few of its tables only. If the few steps that change
these tables keep such a condition, then so does every operation, whatever it calls back, as long
as what is called back keeps it too. The same holds of the faults that may come up, and of what is
put aside to be rendered later.

* `Upkeep`: what is asked of a condition `P` on the state, of the kind `Q` of the faults, and of a
  condition `B` on what is rendered where;
* `Keeping`: calls that keep the condition;
* `Upkeep.bystander`: transitions keep it;
* `Upkeep.observe`, `Upkeep.setSignal`, `Upkeep.bind`, …: operations on signals and bindings keep
  it.
-/

namespace LiveMarkup

/-- The names that a loop gives to the signals of an item and of its index. -/
def Loop.frame (loop : Loop) (item index : Live.SignalId) : List (String × Live.SignalId) :=
  (loop.item, item) :: loop.aliases.map fun a => (a.name, index)

namespace Live

variable {κ σ α β : Type} {P : Live κ σ → Prop} {Q : Fault → Prop}

/-! ## What is asked -/

/-- The instructions that a factory renders meet a condition where it renders them. -/
def NodeFactory.Fits (B : Scope → Bool → Instruction → Prop) : NodeFactory κ → Prop
  | .body instruction scope hosted => B scope hosted instruction
  | .client _ => True

/-- The same for a factory of items: the loop itself meets the condition. -/
def ItemFactory.Fits (B : Scope → Bool → Instruction → Prop) : ItemFactory κ → Prop
  | .body loop instruction scope hosted => B scope hosted (.forLoop loop instruction)
  | .client _ => True

/-- All that is put aside to be rendered later meets a condition. -/
structure Stocked (B : Scope → Bool → Instruction → Prop) (l : Live κ σ) : Prop where
  conditionals : ∀ x ∈ l.conditionals, x.factory.Fits B
  cases : ∀ x ∈ l.switches, ∀ y ∈ x.cases, y.2.Fits B
  defaults : ∀ x ∈ l.switches, ∀ factory ∈ x.default, factory.Fits B
  series : ∀ x ∈ l.series, x.factory.Fits B

/-- A reference leads to a signal in a scope. -/
def Scope.Resolves (s : Scope) (path : String) : Prop :=
  ∃ p, DataPath.parse? path = some p ∧ (s.lookup? p.root).isSome

/-- Two states have the same signals and subscriptions, and the same conditionals, switches and
series. -/
structure Aside (l l' : Live κ σ) : Prop where
  signals : l'.signals = l.signals
  subscriptions : l'.subscriptions = l.subscriptions
  conditionals : l'.conditionals = l.conditionals
  switches : l'.switches = l.switches
  series : l'.series = l.series

/-- What is asked of a condition on the state, of faults and of what is rendered. -/
structure Upkeep (P : Live κ σ → Prop) (Q : Fault → Prop)
    (B : Scope → Bool → Instruction → Prop) : Prop where
  congr {l l' : Live κ σ} : P l → Aside l l' → P l'
  newSignal (value : Value) : Keeps P (newSignal value)
  setValue (s : SignalId) (value : Value) : Keeps P (modifySignal s fun g => { g with value })
  setSource (s : SignalId) (source : Option (SignalId × Nat)) :
    Keeps P (modifySignal s fun g => { g with source })
  watchDerived (s derived : SignalId) (f : Value → Value) : Keeps P (watch s (.derived derived f))
  unwatch (s : SignalId) (number : Nat) : Keeps P (unwatch s number)
  newSubscription (feed : Feed κ) : Keeps P (newSubscription feed)
  register {l : Live κ σ} {s : SubscriptionId} {signal : SignalId} {sink : Sink κ} : P l →
    l.subscription? s = some { feed := .signal signal sink } →
    After (watch signal sink) l fun number l' =>
      After (setRegistered s (some number)) l' fun _ => P
  unregister {l : Live κ σ} {s : SubscriptionId} {signal : SignalId} {sink : Sink κ}
    {number : Nat} : P l →
    l.subscription? s = some { feed := .signal signal sink, registered := some number } →
    After (setRegistered s none) l fun _ l' => After (Live.unwatch signal number) l' fun _ => P
  setListening {l : Live κ σ} {s : SubscriptionId} {x : Subscription κ} {node : NodeId}
    {event : String} {handler : Handler κ} (registered : Option Nat) : P l →
    l.subscription? s = some x → x.feed = .event node event handler →
    After (setRegistered s registered) l fun _ => P
  stocked {l : Live κ σ} : P l → Stocked B l
  addConditional {l : Live κ σ} {x : Conditional κ} : P l → x.factory.Fits B →
    P { l with conditionals := l.conditionals.push x }
  addSwitch {l : Live κ σ} {x : Switch κ} : P l → (∀ y ∈ x.cases, y.2.Fits B) →
    (∀ factory ∈ x.default, factory.Fits B) → P { l with switches := l.switches.push x }
  addSeries {l : Live κ σ} {x : Series κ} : P l → x.factory.Fits B →
    P { l with series := l.series.push x }
  modifyConditional (c : ConditionalId) {f : Conditional κ → Conditional κ}
    (h : ∀ x, (f x).factory = x.factory) : Keeps P (modifyConditional c f)
  modifySwitch (s : SwitchId) {f : Switch κ → Switch κ}
    (h : ∀ x, (f x).cases = x.cases ∧ (f x).default = x.default) : Keeps P (modifySwitch s f)
  modifySeries (s : SeriesId) {f : Series κ → Series κ} (h : ∀ x, (f x).factory = x.factory) :
    Keeps P (modifySeries s f)
  structural {e : Fault} : e.IsStructural → Q e
  part {scope : Scope} {hosted : Bool} {i j : Instruction} : B scope hosted i →
    (none, j) ∈ i.parts → B scope hosted j
  item {scope : Scope} {hosted : Bool} {loop : Loop} {body : Instruction} (item index : SignalId) :
    B scope hosted (.forLoop loop body) → B (scope.extend (loop.frame item index)) hosted body
  unresolved {scope : Scope} {hosted : Bool} {i : Instruction} {path : String} :
    B scope hosted i → .reference path ∈ i.ownSources → ¬ scope.Resolves path →
    Q (.unresolvedSymbol ((ValueSource.reference path).root?.getD path))
  unhosted {scope : Scope} {i : Instruction} : B scope false i → i.AsksHost → Q .missingHost

/-- Calls that keep a condition. -/
structure Keeping (P : Live κ σ → Prop) (Q : Fault → Prop)
    (B : Scope → Bool → Instruction → Prop) (calls : Calls κ σ) : Prop where
  hook (h : Hook κ) (event : Event) : Keeps P (calls.hook h event)
  receive (sink : Sink κ) (value : Value) : Keeps P (calls.receive sink value)
  handle (h : Handler κ) (event : HostEvent) : Keeps P (calls.handle h event)
  run (task : Task κ) : Keeps P (calls.run task)
  build {factory : NodeFactory κ} : factory.Fits B → Sustains P Q (calls.build factory)
  buildItem {factory : ItemFactory κ} (value : Value) (cursor : SignalId) : factory.Fits B →
    Sustains P Q (calls.buildItem factory value cursor)
  evaluate (code : String) (scope : Scope) : Sustains P Q (calls.evaluate code scope)

namespace Keeping

variable {B : Scope → Bool → Instruction → Prop} {calls : Calls κ σ} (hCalls : Keeping P Q B calls)
include hCalls

theorem bubble (path : List NodeId) (event : HostEvent) : Keeps P (bubble calls path event) := by
  induction path generalizing event with
  | nil => exact Keeps.pure _
  | cons n rest ih =>
    refine Keeps.bind Keeps.get fun l => ?_
    have hListeners : Keeps P (((l.listenersOf n).filter (·.event == event.name)).foldlM
        (fun event (x : Listener κ) => calls.handle x.handler event) event) :=
      Keeps.foldlM (fun _ _ => hCalls.handle _ _) event
    refine Keeps.bind hListeners fun event => ?_
    split
    · exact Keeps.pure _
    · exact ih event

theorem dispatch (target : NodeId) (name : String) (detail : Value) :
    Keeps P (dispatch calls target name detail) :=
  Keeps.bind Keeps.get fun _ => hCalls.bubble _ _

end Keeping

namespace Upkeep

variable {B : Scope → Bool → Instruction → Prop} (hU : Upkeep P Q B)
include hU

/-- The tables that matter are not those that transitions change. -/
theorem bystander : Bystander P Q where
  congr := by
    rintro l _ hl ⟨_, _, _, _, _, rfl⟩
    exact hU.congr hl ⟨rfl, rfl, rfl, rfl, rfl⟩
  structural := hU.structural

/-! ## Steps that call nothing -/

theorem aside {op : LiveM κ σ α} (h : ∀ l, After op l fun _ => Aside l) : Keeps P op :=
  fun l hl => (h l).mono fun _ _ hl' => hU.congr hl hl'

theorem change {f : Live κ σ → Live κ σ} (h : ∀ l, Aside l (f l)) :
    Sustains P Q (modify f : Act κ σ PUnit) := by
  intro l hl
  exact ⟨hU.congr hl (h l), fun _ he => nomatch he⟩

theorem makeInDom (f : Dom → Dom × α) : Keeps P (makeInDom f : LiveM κ σ α) :=
  hU.aside fun _ => ⟨rfl, rfl, rfl, rfl, rfl⟩

theorem newObserver (target : NodeRef) (status : Connectivity) :
    Keeps P (newObserver target status : LiveM κ σ ObserverId) :=
  hU.aside fun _ => ⟨rfl, rfl, rfl, rfl, rfl⟩

theorem trackMoves (o : ObserverId) : Keeps P (trackMoves o : LiveM κ σ Unit) := by
  refine Keeps.bind Keeps.get fun l => ?_
  split
  · exact Keeps.bind (hU.bystander.notePlace o) fun _ => hU.aside fun _ => ⟨rfl, rfl, rfl, rfl, rfl⟩
  · exact Keeps.pure _

theorem observe (r : NodeRef) : Sustains P Q (observe r : Act κ σ ObserverId) := by
  refine (Sustains.ensureLive (hU.structural trivial)).bind fun _ => Sustains.get.bind fun l => ?_
  split
  · exact Sustains.sure (hU.newObserver _ _)
  · dsimp only
    split
    · exact Sustains.sure_bind (hU.bystander.modifyTracked _ _) fun _ => Sustains.pure _
    · refine Sustains.sure (Keeps.bind (hU.newObserver _ _) fun o => ?_)
      refine Keeps.bind (hU.bystander.modifyTracked _ _) fun _ => ?_
      exact Keeps.bind (hU.trackMoves o) fun _ => Keeps.pure _

theorem addHook (o : ObserverId) (kind : EventKind) (hook : Hook κ) :
    Keeps P (addHook o kind hook : LiveM κ σ Nat) :=
  Keeps.bind Keeps.get fun _ => Keeps.bind (hU.bystander.modifyObserver _ _) fun _ => Keeps.pure _

theorem modifyBinding (b : BindingId) (f : Binding → Binding) :
    Keeps P (modifyBinding b f : LiveM κ σ Unit) :=
  hU.aside fun _ => ⟨rfl, rfl, rfl, rfl, rfl⟩

theorem modifyClock (f : Clock κ → Clock κ) : Keeps P (modifyClock f : LiveM κ σ Unit) :=
  hU.aside fun _ => ⟨rfl, rfl, rfl, rfl, rfl⟩

/-! ## Properties and listeners -/

theorem modifyExtras (n : NodeId) (f : Extras κ → Extras κ) :
    Keeps P (modifyExtras n f : LiveM κ σ Unit) :=
  hU.aside fun _ => ⟨rfl, rfl, rfl, rfl, rfl⟩

theorem writeAspect (n : NodeId) (value : Value) (aspect : Aspect) :
    Keeps P (writeAspect n value aspect : LiveM κ σ Aspect) := by
  unfold Live.writeAspect
  split
  · exact Keeps.bind (hU.modifyExtras _ _) fun _ => Keeps.pure _
  · exact hU.makeInDom _

theorem project (p : ProjectorId) (value : Value) :
    Keeps P (project p value : LiveM κ σ Unit) := by
  refine Keeps.bind Keeps.get fun l => ?_
  split
  · exact Keeps.pure _
  · exact Keeps.bind (hU.writeAspect _ _ _) fun _ => hU.aside fun _ => ⟨rfl, rfl, rfl, rfl, rfl⟩

theorem listen (n : NodeId) (event : String) (handler : Handler κ) :
    Keeps P (listen n event handler : LiveM κ σ ListenerId) := by
  refine Keeps.bind Keeps.get fun l => ?_
  refine Keeps.bind (hU.aside fun _ => ⟨rfl, rfl, rfl, rfl, rfl⟩) fun _ => ?_
  exact Keeps.bind (hU.modifyExtras _ _) fun _ => Keeps.pure _

theorem unlisten (n : NodeId) (number : ListenerId) :
    Keeps P (unlisten n number : LiveM κ σ Bool) := by
  refine Keeps.bind Keeps.get fun l => ?_
  split
  · exact Keeps.bind (hU.modifyExtras _ _) fun _ => Keeps.pure _
  · exact Keeps.pure _

/-! ## Signals and the clock -/

theorem derive (s : SignalId) (f : Value → Value) :
    Keeps P (derive s f : LiveM κ σ SignalId) := by
  refine Keeps.bind Keeps.get fun l => Keeps.bind (hU.newSignal _) fun derived => ?_
  refine Keeps.bind (hU.watchDerived s derived f) fun number => ?_
  exact Keeps.bind (hU.setSource derived _) fun _ => Keeps.pure _

theorem resolve (scope : Scope) (path : String) :
    Keeps P (resolve scope path : LiveM κ σ (Option SignalId)) := by
  unfold Live.resolve
  split
  · exact Keeps.pure _
  · split
    · exact Keeps.pure _
    · split
      · exact Keeps.pure _
      · exact Keeps.bind (hU.derive _ _) fun _ => Keeps.pure _

theorem sweep (given : List SignalId) : Keeps P (sweep given : LiveM κ σ Unit) := by
  refine Keeps.bind Keeps.get fun l => ?_
  dsimp only
  split
  · refine Keeps.forM fun s => Keeps.bind Keeps.get fun l => ?_
    split
    · exact Keeps.pure _
    · exact Keeps.bind (hU.unwatch _ _) fun _ => hU.setSource s none
  · exact Keeps.pure _

theorem popMicrotask : Keeps P (popMicrotask : LiveM κ σ (Option (Task κ))) := by
  refine hU.aside fun l => ?_
  unfold Live.popMicrotask
  rw [after_modifyGet]
  split <;> exact ⟨rfl, rfl, rfl, rfl, rfl⟩

theorem setTimer (delay : Nat) (task : Task κ) :
    Keeps P (setTimer delay task : LiveM κ σ TimerId) := by
  refine Keeps.bind Keeps.get fun l => Keeps.bind (hU.modifyClock _) fun _ => ?_
  split
  · exact Keeps.bind (hU.modifyClock _) fun _ => Keeps.pure _
  · exact Keeps.bind (Keeps.pure _) fun _ => Keeps.pure _

theorem clearTimer (number : TimerId) : Keeps P (clearTimer number : LiveM κ σ Bool) :=
  Keeps.bind Keeps.get fun _ => Keeps.bind (hU.modifyClock _) fun _ => Keeps.pure _

theorem popTimer (limit : Nat) : Keeps P (popTimer limit : LiveM κ σ (Option (Timer κ))) := by
  refine hU.aside fun l => ?_
  unfold Live.popTimer
  rw [after_modifyGet]
  split
  · exact ⟨rfl, rfl, rfl, rfl, rfl⟩
  · split <;> exact ⟨rfl, rfl, rfl, rfl, rfl⟩

/-! ## Switching off -/

theorem deactivate (s : SubscriptionId) : Keeps P (deactivate s : LiveM κ σ Unit) := by
  intro l hl
  unfold Live.deactivate
  rw [after_bind, after_get]
  split
  next => exact hl
  next => exact hl
  next h => exact hU.unregister hl h
  next h =>
    refine (hU.setListening none hl h rfl).bind fun _ l' hl' => ?_
    exact Keeps.bind (hU.unlisten _ _) (fun _ => Keeps.pure _) l' hl'

theorem switchOff (b : BindingId) : Keeps P (Live.switchOff b : LiveM κ σ Unit) := by
  refine Keeps.bind Keeps.get fun l => ?_
  split
  · exact hU.deactivate _
  · exact Keeps.pure _

theorem endBinding (b : BindingId) : Keeps P (endBinding b : LiveM κ σ Unit) :=
  Keeps.bind (hU.modifyBinding _ _) fun _ => hU.switchOff b

theorem tearDown : Keeps P (tearDown : LiveM κ σ Unit) := by
  refine Keeps.bind Keeps.get fun l => ?_
  split
  · refine Keeps.bind (Keeps.forM fun o => hU.bystander.modifyObserver o _) fun _ => ?_
    refine Keeps.bind (hU.aside fun _ => ⟨rfl, rfl, rfl, rfl, rfl⟩) fun _ => ?_
    refine Keeps.forM fun b => Keeps.bind Keeps.get fun l => ?_
    split
    · exact hU.switchOff b
    · exact Keeps.pure _
  · exact Keeps.pure _

variable {calls : Calls κ σ} (hCalls : Keeping P Q B calls)
include hCalls

theorem stepwise : Stepwise P Q calls :=
  hU.bystander.stepwise hCalls.hook

/-! ## Moves behind the back of the document -/

theorem inferMove (o : ObserverId) (target : NodeRef) (parent lastParent : Option NodeId) :
    Keeps P (inferMove calls o target parent lastParent) := by
  unfold Live.inferMove
  split
  case' isTrue => refine Keeps.bind (Keeps.fire hCalls.hook _ _) fun _ => ?_
  all_goals
    refine Keeps.bind Keeps.get fun l => ?_
    split
    · exact (hU.stepwise hCalls).notifyConnected _
    · exact (hU.stepwise hCalls).notifyDisconnected _
    · exact Keeps.pure _

theorem compareMoves : Keeps P (compareMoves calls) := by
  refine Keeps.bind (hU.aside fun _ => ⟨rfl, rfl, rfl, rfl, rfl⟩) fun _ => ?_
  refine Keeps.bind Keeps.get fun l => Keeps.forM fun o => Keeps.bind Keeps.get fun l => ?_
  dsimp only
  split
  · exact hU.bystander.untrackMoves _
  · split
    · exact hU.bystander.untrackMoves _
    · split
      · exact Keeps.bind (hU.bystander.notePlace _) fun _ => hU.inferMove hCalls _ _ _ _
      · exact Keeps.pure _

/-! ## Notifications -/

theorem setSignal (s : SignalId) (value : Value) : Keeps P (setSignal calls s value) := by
  refine Keeps.bind (hU.setValue s value) fun _ => Keeps.bind Keeps.get fun l => ?_
  exact Keeps.forM fun w => hCalls.receive w.sink value

theorem setIfChanged (s : SignalId) (value : Value) : Keeps P (setIfChanged calls s value) := by
  refine Keeps.bind Keeps.get fun l => ?_
  split
  · exact Keeps.pure _
  · exact Keeps.bind (hU.setSignal hCalls s value) fun _ => Keeps.pure _

theorem drain : Keeps P (drain calls) := by
  have hTo (n : Nat) : Keeps P (drainTo calls n) := by
    induction n with
    | zero => exact Keeps.pure _
    | succ n ih =>
      refine Keeps.bind hU.popMicrotask fun task => ?_
      split
      · exact Keeps.pure _
      · exact Keeps.bind (hCalls.run _) fun _ => Keeps.bind ih fun _ => Keeps.pure _
  exact Keeps.bind Keeps.get fun _ => hTo _

theorem advance (delay : Nat) : Keeps P (advance calls delay) := by
  have hDue (limit n : Nat) : Keeps P (runDue calls limit n) := by
    induction n with
    | zero => exact hU.aside fun _ => ⟨rfl, rfl, rfl, rfl, rfl⟩
    | succ n ih =>
      refine Keeps.bind (hU.popTimer limit) fun timer => ?_
      split
      · exact Keeps.pure _
      · refine Keeps.bind (hU.modifyClock _) fun _ => Keeps.bind (hCalls.run _) fun _ => ?_
        exact Keeps.bind (hU.drain hCalls) fun _ => ih
  refine Keeps.bind Keeps.get fun l => Keeps.bind (hU.drain hCalls) fun _ => ?_
  refine Keeps.bind Keeps.get fun l => Keeps.bind (hDue _ _) fun _ => hU.modifyClock _

/-! ## Bindings -/

theorem activate (s : SubscriptionId) : Keeps P (activate calls s) := by
  intro l hl
  unfold Live.activate
  rw [after_bind, after_get]
  split
  next => exact hl
  next => exact hl
  next h =>
    refine After.bind (hU.register hl h) fun number l' h' => ?_
    refine After.bind h' fun _ l'' hl'' => ?_
    exact Keeps.bind Keeps.get (fun _ => hCalls.receive _ _) l'' hl''
  next h => exact hU.setListening _ (hU.listen _ _ _ l hl) h rfl

theorem switchOn (b : BindingId) : Keeps P (switchOn calls b) := by
  refine Keeps.bind Keeps.get fun l => ?_
  split
  · exact hU.activate hCalls _
  · exact Keeps.pure _

theorem activateBinding (b : BindingId) : Sustains P Q (activateBinding calls b) := by
  refine Sustains.get.bind fun l => ?_
  split
  · exact Sustains.throw (hU.structural trivial)
  · exact Sustains.sure (hU.switchOn hCalls b)

theorem bind (r : NodeRef) (feed : Feed κ) (held : Bool) :
    Sustains P Q (bind calls r feed held) := by
  refine (hU.observe r).bind fun o => Sustains.get.bind fun l => ?_
  split
  · exact Sustains.throw (hU.structural trivial)
  · refine Sustains.sure (Keeps.bind (hU.newSubscription feed) fun s => ?_)
    refine Keeps.bind (hU.aside fun _ => ⟨rfl, rfl, rfl, rfl, rfl⟩) fun _ => ?_
    refine Keeps.bind (hU.addHook _ _ _) fun _ => Keeps.bind (hU.addHook _ _ _) fun _ => ?_
    refine Keeps.bind (hU.addHook _ _ _) fun _ => Keeps.bind Keeps.get fun l => ?_
    split
    · exact Keeps.bind (hU.activate hCalls s) fun _ => Keeps.pure _
    · exact Keeps.pure _

theorem bindAspect (node : NodeId) (aspect : Aspect) (signal : SignalId) (held : Bool) :
    Sustains P Q (bindAspect calls node aspect signal held) := by
  refine Sustains.get.bind fun l => ?_
  refine Sustains.bind (hU.change fun _ => ⟨rfl, rfl, rfl, rfl, rfl⟩) fun _ => ?_
  exact hU.bind hCalls _ _ _

theorem bindEvent (node : NodeId) (event : String) (handler : Handler κ) (held : Bool) :
    Sustains P Q (bindEvent calls node event handler held) :=
  hU.bind hCalls _ _ _

end Upkeep

end Live

end LiveMarkup
