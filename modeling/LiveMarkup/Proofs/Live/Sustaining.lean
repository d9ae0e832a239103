import LiveMarkup.Proofs.Live.Upkeep

/-!
# Rendering and scripts keep conditions

Conditionals, switches and series build from what was put aside for them, and rendering an
instruction puts its body aside. So a condition that the steps of a document keep is also kept by
all of these, if what is rendered meets a condition of its own.

A client works on a live document with the operations that there are for it, in any order and
nesting, from outside and in its callbacks alike. What it writes keeps every condition that the
steps of a document keep, and so do calls that are nested to a depth.

* `Upkeep.setVisible`, `Upkeep.select`, `Upkeep.reconcile`: following a value;
* `Upkeep.render`, `Upkeep.renderItem`, `Upkeep.renderProgram`: rendering;
* `Script`: what can be written with the operations of a document;
* `Client.Scripted`: all callbacks of a client are scripts;
* `Upkeep.script`, `Upkeep.upTo`: scripts and nested calls keep a condition.
-/

/-! ## Rendering keeps conditions -/

namespace LiveMarkup.Live

variable {κ σ : Type} {P : Live κ σ → Prop} {Q : Fault → Prop}
variable {B : Scope → Bool → Instruction → Prop}

namespace Upkeep

variable (hU : Upkeep P Q B) {calls : Calls κ σ} (hCalls : Keeping P Q B calls)
include hU

/-! ### What was put aside -/

theorem factory_fits {l : Live κ σ} (hl : P l) {c : ConditionalId} {x : Conditional κ}
    (hx : l.conditional? c = some x) : x.factory.Fits B :=
  (hU.stocked hl).conditionals x (Array.mem_of_getElem? hx)

theorem arm_fits {l : Live κ σ} (hl : P l) {s : SwitchId} {x : Switch κ}
    (hx : l.switch? s = some x) {arm : Nat} {factory : NodeFactory κ}
    (hFactory : x.factory? arm = some factory) : factory.Fits B := by
  have hMem := Array.mem_of_getElem? hx
  rcases Option.or_eq_some_iff.mp hFactory with hCase | ⟨-, hDefault⟩
  · obtain ⟨y, hy, rfl⟩ := Option.map_eq_some_iff.mp hCase
    exact (hU.stocked hl).cases x hMem y (List.mem_of_getElem? hy)
  · exact (hU.stocked hl).defaults x hMem factory hDefault

theorem series_fits {l : Live κ σ} (hl : P l) {s : SeriesId} {x : Series κ}
    (hx : l.series? s = some x) : x.factory.Fits B :=
  (hU.stocked hl).series x (Array.mem_of_getElem? hx)

/-! ### Conditionals -/

theorem stopGrace (c : ConditionalId) : Keeps P (stopGrace c : LiveM κ σ Unit) := by
  refine Keeps.bind Keeps.get fun l => ?_
  split
  · exact Keeps.pure _
  · refine Keeps.bind (hU.modifyConditional c fun _ => rfl) fun _ => ?_
    exact Keeps.bind (hU.clearTimer _) fun _ => Keeps.pure _

theorem releaseSeries (s : SeriesId) : Keeps P (releaseSeries s : LiveM κ σ Unit) :=
  hU.modifySeries s fun _ => rfl

include hCalls

theorem discardChild (c : ConditionalId) : Sustains P Q (discardChild calls c) := by
  refine Sustains.get.bind fun l => ?_
  split
  · exact Sustains.pure _
  · refine Sustains.sure_bind (hU.modifyConditional c fun _ => rfl) fun _ => ?_
    refine Sustains.get.bind fun l => ?_
    split
    · exact (hU.stepwise hCalls).destroy _
    · exact Sustains.pure _

theorem childOf (c : ConditionalId) {x : Conditional κ} (hx : x.factory.Fits B) :
    Sustains P Q (childOf calls c x) := by
  refine Sustains.get.bind fun l => ?_
  split
  · exact Sustains.pure _
  · refine (hCalls.build hx).bind fun child => ?_
    exact Sustains.sure_bind (hU.modifyConditional c fun _ => rfl) fun _ => Sustains.pure _

theorem showChild (c : ConditionalId) : Sustains P Q (showChild calls c) := by
  refine Sustains.sure_bind (hU.stopGrace c) fun _ => Sustains.get_bind fun l hl => ?_
  split
  next => exact Sustains.pure _
  next x hx =>
    refine (hU.childOf hCalls c (hU.factory_fits hl hx)).bind fun child => ?_
    exact (hU.stepwise hCalls).attachAnywhere _ _ _

theorem hideChild (c : ConditionalId) : Sustains P Q (hideChild calls c) := by
  refine Sustains.get.bind fun l => ?_
  split
  · exact Sustains.pure _
  · refine ((hU.stepwise hCalls).detachIfAttached _).bind fun _ => Sustains.get.bind fun l => ?_
    split
    · exact Sustains.pure _
    · exact hU.discardChild hCalls c
    · refine Sustains.sure (Keeps.bind (hU.stopGrace c) fun _ => ?_)
      exact Keeps.bind (hU.setTimer _ _) fun _ => hU.modifyConditional c fun _ => rfl

theorem setVisible (c : ConditionalId) (visible : Bool) :
    Sustains P Q (setVisible calls c visible) := by
  refine Sustains.sure_bind (hU.modifyConditional c fun _ => rfl) fun _ => ?_
  split
  · exact hU.showChild hCalls c
  · exact hU.hideChild hCalls c

theorem endGrace (c : ConditionalId) : Keeps P (endGrace calls c) := by
  refine Keeps.bind (hU.modifyConditional c fun _ => rfl) fun _ => Keeps.bind Keeps.get fun l => ?_
  split
  · exact (hU.discardChild hCalls c).attempt
  · exact Keeps.pure _

theorem releaseConditional (c : ConditionalId) : Keeps P (releaseConditional calls c) :=
  Keeps.bind (hU.stopGrace c) fun _ => (hU.discardChild hCalls c).attempt

theorem newConditional (condition : SignalId) {factory : NodeFactory κ} (h : factory.Fits B) :
    Sustains P Q (newConditional calls condition factory) := by
  refine Sustains.sure_bind (hU.makeInDom _) fun box => Sustains.get.bind fun l => ?_
  refine Sustains.bind (fun l hl => ⟨hU.addConditional hl h, fun _ he => nomatch he⟩) fun _ => ?_
  refine (hU.observe _).bind fun o => Sustains.sure_bind (hU.addHook _ _ _) fun _ => ?_
  exact (hU.bind hCalls _ _ _).bind fun _ => Sustains.pure _

/-! ### Switches -/

theorem hideArm (s : SwitchId) : Sustains P Q (hideArm calls s) := by
  refine Sustains.get.bind fun l => ?_
  split
  · exact Sustains.pure _
  · refine Sustains.sure_bind (hU.modifySwitch s fun _ => ⟨rfl, rfl⟩) fun _ => ?_
    split
    · exact Sustains.pure _
    · exact (hU.stepwise hCalls).detachIfAttached _

theorem nodeOfArm? (s : SwitchId) {x : Switch κ} {arm : Nat}
    (hx : ∀ factory, x.factory? arm = some factory → factory.Fits B) :
    Sustains P Q (nodeOfArm? calls s x arm) := by
  refine Sustains.get.bind fun l => ?_
  split
  · exact Sustains.pure _
  · split
    next => exact Sustains.pure _
    next factory hFactory =>
      refine (hCalls.build (hx factory hFactory)).bind fun node => ?_
      refine Sustains.sure_bind (hU.modifySwitch s fun _ => ⟨rfl, rfl⟩) fun _ => ?_
      exact Sustains.pure _

theorem showArm (s : SwitchId) (arm : Nat) : Sustains P Q (showArm calls s arm) := by
  refine Sustains.get_bind fun l hl => ?_
  split
  next => exact Sustains.pure _
  next x hx =>
    refine (hU.nodeOfArm? hCalls s fun _ hFactory => hU.arm_fits hl hx hFactory).bind fun node => ?_
    split
    · exact Sustains.pure _
    · refine ((hU.stepwise hCalls).attachAnywhere _ _ _).bind fun _ => ?_
      exact Sustains.sure (hU.modifySwitch s fun _ => ⟨rfl, rfl⟩)

theorem select (s : SwitchId) (value : Value) : Sustains P Q (select calls s value) := by
  refine Sustains.get.bind fun l => ?_
  split
  · exact Sustains.pure _
  · dsimp only
    split
    · refine (hU.hideArm hCalls s).bind fun _ => ?_
      split
      · exact Sustains.pure _
      · exact hU.showArm hCalls s _
    · exact Sustains.pure _

theorem releaseSwitch (s : SwitchId) : Keeps P (releaseSwitch calls s) := by
  refine Keeps.bind Keeps.get fun l => ?_
  refine Keeps.bind (hU.modifySwitch s fun _ => ⟨rfl, rfl⟩) fun _ => Keeps.forM fun x => ?_
  refine Keeps.bind Keeps.get fun l => ?_
  split
  · exact ((hU.stepwise hCalls).destroy _).attempt
  · exact Keeps.pure _

theorem newSwitch (value : SignalId) {cases : List (Value × NodeFactory κ)}
    {default : Option (NodeFactory κ)} (hCases : ∀ y ∈ cases, y.2.Fits B)
    (hDefault : ∀ factory ∈ default, factory.Fits B) :
    Sustains P Q (newSwitch calls value cases default) := by
  refine Sustains.sure_bind (hU.makeInDom _) fun box => Sustains.get.bind fun l => ?_
  refine Sustains.bind
    (fun l hl => ⟨hU.addSwitch hl hCases hDefault, fun _ he => nomatch he⟩) fun _ => ?_
  refine (hU.observe _).bind fun o => Sustains.sure_bind (hU.addHook _ _ _) fun _ => ?_
  exact (hU.bind hCalls _ _ _).bind fun _ => Sustains.pure _

/-! ### Series -/

end Upkeep

/-- The fault that a pass remembers is of a kind. -/
def Series.Pass.FaultsIn (Q : Fault → Prop) (p : Series.Pass) : Prop :=
  ∀ e, p.fault = some e → Q e

namespace Series.Pass.FaultsIn

variable {p : Series.Pass}

theorem fail (h : p.FaultsIn Q) {e : Fault} (he : Q e) : (p.fail e).FaultsIn Q := by
  intro e' hEq
  cases hFault : p.fault with
  | none =>
    rw [Pass.fail, hFault, Option.none_or] at hEq
    exact Option.some.inj hEq ▸ he
  | some first =>
    rw [Pass.fail, hFault, Option.some_or] at hEq
    exact h e' (hFault.trans hEq)

theorem note (h : p.FaultsIn Q) {out : Except Fault Unit} (hOut : ∀ e, out = .error e → Q e) :
    (p.note out).FaultsIn Q := by
  cases out with
  | ok _ => exact h
  | error e => exact h.fail (hOut e rfl)

end Series.Pass.FaultsIn

/-- A step of a pass keeps a condition, and the fault that is remembered stays of a kind. -/
def PassesOn (P : Live κ σ → Prop) (Q : Fault → Prop) (op : LiveM κ σ Series.Pass) : Prop :=
  ∀ l, P l → After op l fun p l' => P l' ∧ p.FaultsIn Q

namespace PassesOn

theorem pure {p : Series.Pass} (hp : p.FaultsIn Q) :
    PassesOn P Q (Pure.pure p : LiveM κ σ Series.Pass) := fun _ hl => ⟨hl, hp⟩

theorem get_bind {f : Live κ σ → LiveM κ σ Series.Pass} (h : ∀ l, PassesOn P Q (f l)) :
    PassesOn P Q (get >>= f) := fun l hl => h l l hl

theorem keeps_bind {α : Type} {op : LiveM κ σ α} {f : α → LiveM κ σ Series.Pass}
    (h : Keeps P op) (hRest : ∀ a, PassesOn P Q (f a)) : PassesOn P Q (op >>= f) :=
  fun l hl => (h l hl).bind fun a l' hl' => hRest a l' hl'

/-- A step that may be refused, whose outcome the pass takes note of. -/
theorem run_bind {α : Type} {op : Act κ σ α} {f : Except Fault α → LiveM κ σ Series.Pass}
    (h : Sustains P Q op) (hRest : ∀ out, (∀ e, out = .error e → Q e) → PassesOn P Q (f out)) :
    PassesOn P Q (op.run >>= f) :=
  fun l hl => (h l hl).bind fun out l' h' => hRest out h'.2 l' h'.1

theorem foldlM {α : Type} {xs : List α} {f : Series.Pass → α → LiveM κ σ Series.Pass}
    (h : ∀ p x, p.FaultsIn Q → PassesOn P Q (f p x)) {p : Series.Pass} (hp : p.FaultsIn Q) :
    PassesOn P Q (xs.foldlM f p) := fun _ hl =>
  After.foldlM (k := fun _ p l => P l ∧ p.FaultsIn Q) ⟨hl, hp⟩ fun x _ p l' h' => h p x h'.2 l' h'.1

theorem bind {op : LiveM κ σ Series.Pass} {f : Series.Pass → LiveM κ σ Series.Pass}
    (h : PassesOn P Q op) (hRest : ∀ p, p.FaultsIn Q → PassesOn P Q (f p)) :
    PassesOn P Q (op >>= f) :=
  fun l hl => (h l hl).bind fun p l' h' => hRest p h'.2 l' h'.1

end PassesOn

namespace Upkeep

variable (hU : Upkeep P Q B) {calls : Calls κ σ} (hCalls : Keeping P Q B calls)
variable {p : Series.Pass} (hp : p.FaultsIn Q)
include hU hCalls hp

theorem matchItem {factory : ItemFactory κ} (hFactory : factory.Fits B) (value : Value)
    (index : Nat) : PassesOn P Q (matchItem calls factory p value index) := by
  unfold Live.matchItem
  split
  · exact PassesOn.keeps_bind (hU.setIfChanged hCalls _ _) fun _ => PassesOn.pure hp
  · refine PassesOn.keeps_bind (hU.newSignal _) fun cursor => ?_
    refine PassesOn.run_bind (hCalls.buildItem value cursor hFactory) fun out hOut => ?_
    cases out with
    | ok node => exact PassesOn.pure hp
    | error e => exact PassesOn.pure (hp.fail (hOut e rfl))

theorem removeItem (item : Series.Item) : PassesOn P Q (removeItem calls p item) := by
  refine PassesOn.run_bind ((hU.stepwise hCalls).destroyFully item.node) fun out hOut => ?_
  refine PassesOn.get_bind fun l => ?_
  split
  · exact PassesOn.pure (hp.note hOut)
  · exact PassesOn.pure (hp.note hOut)

theorem appendItem (parent : NodeRef) (item : Series.Item) :
    PassesOn P Q (appendItem calls parent p item) :=
  PassesOn.run_bind ((hU.stepwise hCalls).attach item.node parent none) fun _ hOut =>
    PassesOn.pure (hp.note hOut)

theorem placeItem (parent : NodeRef) (anchor : Option NodeRef) (inPlace : Bool)
    (item : Series.Item) : PassesOn P Q (placeItem calls parent anchor inPlace p item) := by
  refine PassesOn.get_bind fun l => ?_
  split
  · exact PassesOn.run_bind ((hU.stepwise hCalls).attach item.node parent anchor) fun _ hOut =>
      PassesOn.pure (hp.note hOut)
  · split
    · exact PassesOn.pure hp
    · refine PassesOn.run_bind ((hU.stepwise hCalls).moveTo item.node parent anchor)
        fun out hOut => ?_
      cases out with
      | ok _ => exact PassesOn.pure hp
      | error e => exact PassesOn.pure (hp.fail (hOut e rfl))
  · exact PassesOn.pure hp

theorem placeItems (parent : NodeRef) (stable : List Nat) (anchor : Option NodeRef)
    (items : List (Option Nat × Series.Item)) :
    PassesOn P Q (placeItems calls parent stable anchor p items) := by
  induction items generalizing anchor p with
  | nil => exact PassesOn.pure hp
  | cons x rest ih =>
    obtain ⟨place, item⟩ := x
    refine PassesOn.bind (hU.placeItem hCalls hp parent anchor _ item) fun p hp => ?_
    exact PassesOn.get_bind fun l => ih hp _

omit hp in
theorem passOver {x : Series κ} (hx : x.factory.Fits B) (values : List Value) :
    PassesOn P Q (passOver calls x values) := by
  have hFirst : (Series.Pass.ofItems x.items).FaultsIn Q := fun _ he => nomatch he
  refine PassesOn.bind (PassesOn.foldlM (fun p y hp => ?_) hFirst) fun p hp => ?_
  · exact hU.matchItem hCalls hp hx y.1 y.2
  refine PassesOn.get_bind fun l => PassesOn.bind (PassesOn.foldlM (fun p y hp => hU.removeItem hCalls hp y) hp) fun p hp => ?_
  split
  · exact PassesOn.foldlM (fun p y hp => hU.appendItem hCalls hp _ y) hp
  · exact hU.placeItems hCalls hp _ _ _ _

omit hp in
theorem reconcile (s : SeriesId) (values : List Value) :
    Sustains P Q (reconcile calls s values) := by
  refine Sustains.get_bind fun l hl => ?_
  split
  next => exact Sustains.throw (hU.structural trivial)
  next x hx =>
    refine Sustains.sure_bind (hU.modifySeries s fun _ => rfl) fun _ => ?_
    refine Sustains.sure_bind_of (hU.passOver hCalls (hU.series_fits hl hx) values) fun p hp => ?_
    refine Sustains.sure_bind (hU.modifySeries s fun _ => rfl) fun _ => ?_
    split
    next e he => exact Sustains.throw (hp e he)
    next => exact Sustains.pure _

omit hp in
theorem newSeries (iterable : SignalId) {factory : ItemFactory κ} (h : factory.Fits B) :
    Sustains P Q (newSeries calls iterable factory) := by
  refine Sustains.sure_bind (hU.makeInDom _) fun box => Sustains.get.bind fun l => ?_
  refine Sustains.bind (fun l hl => ⟨hU.addSeries hl h, fun _ he => nomatch he⟩) fun _ => ?_
  refine (hU.observe _).bind fun o => Sustains.sure_bind (hU.addHook _ _ _) fun _ => ?_
  exact (hU.bind hCalls _ _ _).bind fun _ => Sustains.pure _

end Upkeep

/-! ### Rendering -/

/-- A reference that leads to a signal is resolved in every state. -/
theorem Scope.Resolves.isSome {scope : Scope} {path : String} (h : scope.Resolves path)
    (l : Live κ σ) : After (resolve scope path) l fun found _ => found.isSome = true := by
  obtain ⟨p, hParse, hRoot⟩ := h
  obtain ⟨signal, hSignal⟩ := Option.isSome_iff_exists.mp hRoot
  simp only [resolve, hParse, hSignal]
  split
  · rfl
  · rfl

namespace Upkeep

variable (hU : Upkeep P Q B) {calls : Calls κ σ} (hCalls : Keeping P Q B calls)
variable {scope : Scope} {hosted : Bool}
include hU hCalls

theorem sourceSignal {i : Instruction} {source : ValueSource} (hB : B scope hosted i)
    (hSource : source ∈ i.ownSources) : Sustains P Q (sourceSignal calls hosted scope source) := by
  cases source with
  | reference path =>
    by_cases hPath : scope.Resolves path
    · refine Sustains.sure_bind_of (m := fun found => found.isSome = true)
        (fun l hl => ⟨hU.resolve scope path l hl, hPath.isSome l⟩) fun found hSome => ?_
      cases found with
      | none => cases hSome
      | some signal => exact Sustains.pure _
    · refine Sustains.sure_bind (hU.resolve scope path) fun found => ?_
      split
      · exact Sustains.pure _
      · exact Sustains.throw (hU.unresolved hB hSource hPath)
  | expression code =>
    cases hosted with
    | true => exact hCalls.evaluate code scope
    | false => exact Sustains.throw (hU.unhosted hB (.inl ⟨_, hSource, rfl⟩))

theorem perform {tag : String} {operations : List Operation} {children : List Instruction}
    {op : Operation} (hB : B scope hosted (.element tag operations children))
    (hOp : op ∈ operations) (node : NodeId) :
    Sustains P Q (perform calls hosted scope node op) := by
  cases op with
  | setAttribute name value => exact Sustains.sure (hU.bystander.modifyDom _)
  | bind target source =>
    have hSource : source ∈ (Instruction.element tag operations children).ownSources :=
      List.mem_flatMap.mpr ⟨_, hOp, List.mem_singleton.mpr rfl⟩
    refine (hU.sourceSignal hCalls hB hSource).bind fun signal => ?_
    exact (hU.bindAspect hCalls _ _ _ _).bind fun _ => Sustains.pure _
  | listen event handler =>
    cases hosted with
    | true => exact (hU.bindEvent hCalls _ _ _ _).bind fun _ => Sustains.pure _
    | false => exact Sustains.throw (hU.unhosted hB (.inr ⟨event, handler, hOp⟩))

theorem renderInto {is : List Instruction}
    (h : ∀ i ∈ is, Sustains P Q (Live.render calls hosted scope i)) (parent : NodeRef) :
    Sustains P Q (renderInto calls hosted scope parent is) := by
  induction is with
  | nil => exact Sustains.pure _
  | cons i rest ih =>
    refine (h i List.mem_cons_self).bind fun node => ?_
    refine ((hU.stepwise hCalls).attach node parent none).bind fun _ => ?_
    exact ih fun j hj => h j (List.mem_cons_of_mem _ hj)

theorem render {i : Instruction} (hB : B scope hosted i) :
    Sustains P Q (render calls hosted scope i) := by
  -- Only the children of an element are rendered at once; other parts are put aside.
  induction i using Instruction.parts_induction with
  | step i ih =>
    cases i with
    | element tag operations children =>
      have hChild : ∀ c ∈ children,
          (none, c) ∈ (Instruction.element tag operations children).parts :=
        fun c hc => List.mem_map_of_mem hc
      refine Sustains.sure_bind (hU.makeInDom _) fun node => ?_
      refine (Sustains.forM fun op hOp => hU.perform hCalls hB hOp node).bind fun _ => ?_
      refine (hU.renderInto hCalls (fun c hc => ?_) _).bind fun _ => Sustains.pure _
      exact ih _ (hChild c hc) (hU.part hB (hChild c hc))
    | text value => exact Sustains.sure_bind (hU.makeInDom _) fun _ => Sustains.pure _
    | dynamicText source =>
      refine Sustains.sure_bind (hU.makeInDom _) fun node => ?_
      refine (hU.sourceSignal hCalls hB (List.mem_singleton.mpr rfl)).bind fun signal => ?_
      exact (hU.bindAspect hCalls _ _ _ _).bind fun _ => Sustains.pure _
    | conditional condition body =>
      refine (hU.sourceSignal hCalls hB (List.mem_singleton.mpr rfl)).bind fun signal => ?_
      refine (hU.newConditional hCalls signal ?_).bind fun _ => Sustains.pure _
      exact hU.part hB (List.mem_singleton.mpr rfl)
    | forLoop loop body =>
      refine (hU.sourceSignal hCalls hB (List.mem_singleton.mpr rfl)).bind fun signal => ?_
      exact Sustains.bind (hU.newSeries hCalls signal hB) fun _ => Sustains.pure _
    | switch value cases default =>
      refine (hU.sourceSignal hCalls hB (List.mem_singleton.mpr rfl)).bind fun signal => ?_
      refine (hU.newSwitch hCalls signal ?_ ?_).bind fun _ => Sustains.pure _
      · intro y hy
        obtain ⟨x, hx, rfl⟩ := List.mem_map.mp hy
        exact hU.part hB (List.mem_append_left _ (List.mem_map.mpr ⟨x, hx, rfl⟩))
      · intro factory hFactory
        obtain ⟨body, rfl, rfl⟩ := Option.map_eq_some_iff.mp hFactory
        exact hU.part hB (List.mem_append_right _ (List.mem_singleton.mpr rfl))

theorem renderItem {loop : Loop} {body : Instruction} (hB : B scope hosted (.forLoop loop body))
    (value : Value) (cursor : SignalId) :
    Sustains P Q (renderItem calls hosted scope loop body value cursor) := by
  refine Sustains.sure_bind (hU.derive cursor id) fun index => ?_
  refine Sustains.sure_bind (hU.newSignal value) fun item => ?_
  exact hU.render hCalls (hU.item item index hB)

omit hCalls in
theorem needHost {program : Program}
    (hHost : program.requiresHost = true → hosted = false → Q .missingHost) :
    Sustains P Q (needHost program hosted : Act κ σ Unit) := by
  refine (Sustains.ensureLive (hU.structural trivial)).bind fun _ => ?_
  split
  next h =>
    rw [Bool.and_eq_true, Bool.not_eq_true'] at h
    exact Sustains.throw (hHost h.1 h.2)
  next => exact Sustains.pure _

theorem renderProgram {program : Program}
    (hHost : program.requiresHost = true → hosted = false → Q .missingHost)
    (hB : ∀ i ∈ program.instructions, B scope hosted i) :
    Sustains P Q (renderProgram calls program scope hosted) := by
  refine (hU.needHost hHost).bind fun _ => Sustains.sure_bind (hU.makeInDom _) fun box => ?_
  exact (hU.renderInto hCalls (fun i hi => hU.render hCalls (hB i hi)) _).bind fun _ =>
    Sustains.pure _

end Upkeep

end LiveMarkup.Live

/-! ## What a client writes -/

namespace LiveMarkup.Live

variable {κ σ : Type}

/-- What a client binds itself to: the kind of its faults, a condition on what it renders where, and
which of its callbacks may watch a signal without a subscription. -/
structure Terms (κ : Type) where
  fault : Fault → Prop
  rendered : Scope → Bool → Instruction → Prop
  loose : κ → Prop

/-- What a client can write on its terms with the operations of a live document. It may read all of
the state and change it as it likes apart from signals, subscriptions, conditionals, switches and
series. -/
inductive Script (calls : Calls κ σ) (T : Terms κ) : {α : Type} → Act κ σ α → Prop where
  | pure {α : Type} (a : α) : Script calls T (Pure.pure a)
  | throw {α : Type} {e : Fault} (he : T.fault e) : Script calls T (throw e : Act κ σ α)
  | bind {α β : Type} {op : Act κ σ α} {f : α → Act κ σ β} (h : Script calls T op)
      (hRest : ∀ a, Script calls T (f a)) : Script calls T (op >>= f)
  | outcome {α : Type} {op : Act κ σ α} (h : Script calls T op) :
      Script calls T (sure op.run)
  | get : Script calls T get
  | change {α : Type} {op : LiveM κ σ α} (h : ∀ l, After op l fun _ => Aside l) :
      Script calls T (sure op)
  -- signals and what follows them
  | newSignal (value : Value) : Script calls T (sure (newSignal value))
  | setSignal (s : SignalId) (value : Value) : Script calls T (sure (setSignal calls s value))
  | derive (s : SignalId) (f : Value → Value) : Script calls T (sure (derive s f))
  | watch (s : SignalId) {k : κ} (hk : T.loose k) : Script calls T (sure (watch s (.client k)))
  | unwatch (s : SignalId) (number : Nat) : Script calls T (sure (unwatch s number))
  | newSubscription (feed : Feed κ) : Script calls T (sure (newSubscription feed))
  | activate (s : SubscriptionId) : Script calls T (sure (activate calls s))
  | deactivate (s : SubscriptionId) : Script calls T (sure (deactivate s))
  | sweep (given : List SignalId) : Script calls T (sure (sweep given))
  -- nodes and what is bound to them
  | attach (r parent : NodeRef) (before : Option NodeRef) :
      Script calls T (attach calls r parent before)
  | detach (r : NodeRef) : Script calls T (detach calls r)
  | destroy (r : NodeRef) : Script calls T (destroy calls r)
  | moveTo (r parent : NodeRef) (before : Option NodeRef) :
      Script calls T (moveTo calls r parent before)
  | tie (r : NodeRef) (feed : Feed κ) (held : Bool) :
      Script calls T (Live.bind calls r feed held)
  | activateBinding (b : BindingId) : Script calls T (activateBinding calls b)
  | switchOff (b : BindingId) : Script calls T (sure (switchOff b))
  | dispatch (target : NodeId) (name : String) (detail : Value) :
      Script calls T (sure (dispatch calls target name detail))
  -- conditionals, switches, series and programs
  | newConditional (condition : SignalId) {factory : NodeFactory κ} (h : factory.Fits T.rendered) :
      Script calls T (newConditional calls condition factory)
  | newSwitch (value : SignalId) {cases : List (Value × NodeFactory κ)}
      {default : Option (NodeFactory κ)} (hCases : ∀ y ∈ cases, y.2.Fits T.rendered)
      (hDefault : ∀ factory ∈ default, factory.Fits T.rendered) :
      Script calls T (newSwitch calls value cases default)
  | newSeries (iterable : SignalId) {factory : ItemFactory κ} (h : factory.Fits T.rendered) :
      Script calls T (newSeries calls iterable factory)
  | reconcile (s : SeriesId) (values : List Value) :
      Script calls T (reconcile calls s values)
  | renderProgram {program : Program} {scope : Scope} {hosted : Bool}
      (hHost : program.requiresHost = true → hosted = false → T.fault .missingHost)
      (hB : ∀ i ∈ program.instructions, T.rendered scope hosted i) :
      Script calls T (renderProgram calls program scope hosted)
  -- time and the end
  | drain : Script calls T (sure (drain calls))
  | advance (delay : Nat) : Script calls T (sure (advance calls delay))
  | tearDown : Script calls T (sure tearDown)

/-- What a client does when it is called is written on its terms. -/
structure Client.Scripted (client : Client κ σ) (T : Terms κ) : Prop where
  hook (calls : Calls κ σ) (k : κ) (event : Event) : Script calls T (sure (client.hook calls k event))
  receive (calls : Calls κ σ) (k : κ) (value : Value) :
    Script calls T (sure (client.receive calls k value))
  handle (calls : Calls κ σ) (k : κ) (event : HostEvent) :
    Script calls T (sure (client.handle calls k event))
  run (calls : Calls κ σ) (k : κ) : Script calls T (sure (client.run calls k))
  build (calls : Calls κ σ) (k : κ) : Script calls T (client.build calls k)
  buildItem (calls : Calls κ σ) (k : κ) (value : Value) (cursor : SignalId) :
    Script calls T (client.buildItem calls k value cursor)
  evaluate (calls : Calls κ σ) (code : String) (scope : Scope) :
    Script calls T (client.evaluate calls code scope)
  invoke (calls : Calls κ σ) (code : String) (scope : Scope) (event : HostEvent) :
    Script calls T (client.invoke calls code scope event)

namespace Upkeep

variable {P : Live κ σ → Prop} {T : Terms κ} (hU : Upkeep P T.fault T.rendered)
variable (hWatch : ∀ (s : SignalId) (k : κ), T.loose k → Keeps P (watch s (.client k)))
include hU hWatch

/-- A script keeps what the calls that it is given keep. -/
theorem script {α : Type} {calls : Calls κ σ} (hCalls : Keeping P T.fault T.rendered calls)
    {op : Act κ σ α} (h : Script calls T op) : Sustains P T.fault op := by
  induction h with
  | pure a => exact Sustains.pure a
  | throw he => exact Sustains.throw he
  | bind _ _ ih ihRest => exact ih.bind ihRest
  | outcome _ ih => exact Sustains.sure ih.keeps
  | get => exact Sustains.get
  | change h => exact Sustains.sure (hU.aside h)
  | newSignal value => exact Sustains.sure (hU.newSignal value)
  | setSignal s value => exact Sustains.sure (hU.setSignal hCalls s value)
  | derive s f => exact Sustains.sure (hU.derive s f)
  | watch s hk => exact Sustains.sure (hWatch s _ hk)
  | unwatch s number => exact Sustains.sure (hU.unwatch s number)
  | newSubscription feed => exact Sustains.sure (hU.newSubscription feed)
  | activate s => exact Sustains.sure (hU.activate hCalls s)
  | deactivate s => exact Sustains.sure (hU.deactivate s)
  | sweep given => exact Sustains.sure (hU.sweep given)
  | attach r parent before => exact (hU.stepwise hCalls).attach r parent before
  | detach r => exact (hU.stepwise hCalls).detach r
  | destroy r => exact (hU.stepwise hCalls).destroy r
  | moveTo r parent before => exact (hU.stepwise hCalls).moveTo r parent before
  | tie r feed held => exact hU.bind hCalls r feed held
  | activateBinding b => exact hU.activateBinding hCalls b
  | switchOff b => exact Sustains.sure (hU.switchOff b)
  | dispatch target name detail => exact Sustains.sure (hCalls.dispatch target name detail)
  | newConditional condition h => exact hU.newConditional hCalls condition h
  | newSwitch value hCases hDefault => exact hU.newSwitch hCalls value hCases hDefault
  | newSeries iterable h => exact hU.newSeries hCalls iterable h
  | reconcile s values => exact hU.reconcile hCalls s values
  | renderProgram hHost hB => exact hU.renderProgram hCalls hHost hB
  | drain => exact Sustains.sure (hU.drain hCalls)
  | advance delay => exact Sustains.sure (hU.advance hCalls delay)
  | tearDown => exact Sustains.sure hU.tearDown

variable {client : Client κ σ} (hClient : client.Scripted T)
include hClient

/-- Calls that call back through calls that keep a condition keep it too. -/
theorem next {calls : Calls κ σ} (hCalls : Keeping P T.fault T.rendered calls) (fuel : Nat) :
    Keeping P T.fault T.rendered (Calls.next client fuel fun _ => calls) where
  hook h event := by
    cases h with
    | switchOn b => exact Keeps.bind (hU.switchOn hCalls b) fun _ => Keeps.pure _
    | switchOff b => exact Keeps.bind (hU.switchOff b) fun _ => Keeps.pure _
    | endBinding b => exact Keeps.bind (hU.endBinding b) fun _ => Keeps.pure _
    | releaseConditional c =>
      exact Keeps.bind (hU.releaseConditional hCalls c) fun _ => Keeps.pure _
    | releaseSwitch s => exact Keeps.bind (hU.releaseSwitch hCalls s) fun _ => Keeps.pure _
    | releaseSeries s => exact Keeps.bind (hU.releaseSeries s) fun _ => Keeps.pure _
    | client k => exact (hU.script hWatch hCalls (hClient.hook calls k event)).keeps_of_sure
  receive sink value := by
    cases sink with
    | derived signal f => exact hU.setSignal hCalls signal (f value)
    | projector p => exact hU.project p value
    | conditional c => exact (hU.setVisible hCalls c _).attempt
    | switch s => exact (hU.select hCalls s value).attempt
    | series s => exact ((hU.reconcile hCalls s _).bind fun _ => Sustains.pure _).attempt
    | client k => exact (hU.script hWatch hCalls (hClient.receive calls k value)).keeps_of_sure
  handle h event := by
    cases h with
    | code text scope =>
      refine Keeps.bind (hU.script hWatch hCalls (hClient.invoke calls text scope event)).keeps ?_
      intro out
      split
      · exact Keeps.pure _
      · exact Keeps.pure _
    | client k => exact (hU.script hWatch hCalls (hClient.handle calls k event)).keeps_of_sure
  run task := by
    cases task with
    | compareMoves => exact hU.compareMoves hCalls
    | endGrace c => exact hU.endGrace hCalls c
    | client k => exact (hU.script hWatch hCalls (hClient.run calls k)).keeps_of_sure
  build {factory} h := by
    cases factory with
    | body instruction scope hosted => exact hU.render hCalls h
    | client k => exact hU.script hWatch hCalls (hClient.build calls k)
  buildItem {factory} value cursor h := by
    cases factory with
    | body loop instruction scope hosted => exact hU.renderItem hCalls h value cursor
    | client k => exact hU.script hWatch hCalls (hClient.buildItem calls k value cursor)
  evaluate code scope := hU.script hWatch hCalls (hClient.evaluate calls code scope)

omit hWatch hClient in
theorem idle : Keeping P T.fault T.rendered (Calls.idle : Calls κ σ) := by
  have hMark : Keeps P (Calls.markOverrun : LiveM κ σ Unit) :=
    hU.aside fun _ => ⟨rfl, rfl, rfl, rfl, rfl⟩
  have hTorn {α : Type} :
      Sustains P T.fault (sure Calls.markOverrun >>= fun _ => throw .tornDown : Act κ σ α) :=
    Sustains.sure_bind hMark fun _ => Sustains.throw (hU.structural trivial)
  exact
    { hook := fun _ _ => Keeps.bind hMark fun _ => Keeps.pure _
      receive := fun _ _ => hMark
      handle := fun _ _ => Keeps.bind hMark fun _ => Keeps.pure _
      run := fun _ => hMark
      build := fun _ => hTorn
      buildItem := fun _ _ _ => hTorn
      evaluate := fun _ _ => hTorn }

/-- Calls that are nested to a depth keep every condition that the steps of a document keep. -/
theorem upTo (depth : Nat) : Keeping P T.fault T.rendered (Calls.upTo client depth) := by
  induction depth with
  | zero => exact hU.idle
  | succ depth ih => exact hU.next hWatch hClient ih (depth + 1)

end Upkeep

end LiveMarkup.Live
