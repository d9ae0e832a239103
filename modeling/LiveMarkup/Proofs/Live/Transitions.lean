import LiveMarkup.Proofs.Live.Telling

/-!
# Transitions with quiet hooks

What the operations on the life of nodes do if the hooks that they run are quiet. They are refused,
or cancelled, and nothing changes; or the tree changes and the observers in the node or container
are told.

* `attach_outcome`, `detach_outcome`, `moveTo_outcome`, `destroy_outcome`: what comes of each, with
  the fault that is reported;
* `AttachOutcome.changed` and its like: what changes.
-/

namespace LiveMarkup.Live

variable {κ σ β : Type} {client : Client κ σ} {l l₁ l' : Live κ σ} {K : ObserverId → Prop}
variable {m : Leeway κ}
variable {r parent : NodeRef} {before : Option NodeRef}

/-! ## Notes -/

/-- The state of a node or container is noted, or its note is taken away. -/
structure Noted (l l' : Live κ σ) (r : NodeRef) (state : Option NodeState)
    (m : Leeway κ := .strict) : Prop extends Frame l l' m where
  dom : l'.dom = l.dom
  client : l'.client = l.client
  clock : l'.clock = l.clock
  comparing : l'.comparing = l.comparing
  movers : l'.movers = l.movers
  observers : l'.observers = l.observers
  tracked : ∀ n, l'.trackedOf n =
    if n = l.dom.key r then { l.trackedOf n with state } else l.trackedOf n

theorem core?_of_observers (h : l'.observers = l.observers) (o : ObserverId) :
    l'.core? o = l.core? o := by
  simp only [core?, observer?, h]

theorem Noted.core {state : Option NodeState} (h : Noted l l' r state m) (o : ObserverId) :
    l'.core? o = l.core? o :=
  core?_of_observers h.observers o

theorem trackedOf_set (l : Live κ σ) (n m : NodeId) (t : Tracked) :
    trackedOf { l with tracked := l.tracked.set n (some t) } m =
      if m = n then t else l.trackedOf m := by
  simp only [trackedOf, Table.get?_set]
  by_cases h : n = m
  · simp [h]
  · have hne : m ≠ n := fun he => h he.symm
    simp [h, hne]

theorem setState_noted (l : Live κ σ) (r : NodeRef) (state : NodeState)
    (m : Leeway κ := .strict) :
    After (setState r state) l fun _ l' =>
      Noted l l' r (if state.isSettled then none else some state) m := by
  refine ⟨Frame.aside l _ _ _ _ _ _ _ _ _ (.refl _), rfl, rfl, rfl, rfl, rfl, rfl, fun n => ?_⟩
  refine (trackedOf_set l (l.dom.key r) n _).trans ?_
  by_cases h : n = l.dom.key r
  · simp [h]
  · simp [h]

theorem stateOf_of_none (hNone : (l.trackedOf (l.dom.key r)).state = none)
    (hKey : l.dom.key r ≠ l.document) : l.stateOf r = l.shownState r := by
  simp [stateOf, hKey, hNone]

theorem stateOf_ne_destroyed_of_none (hNone : (l.trackedOf (l.dom.key r)).state = none) :
    l.stateOf r ≠ .destroyed := by
  rw [stateOf, hNone, Option.getD_none, shownState]
  split
  · decide
  · split <;> decide

/-! ## What depends on the tree -/

/-- The state with another tree. -/
def withDom (l : Live κ σ) (d : Dom) : Live κ σ :=
  { l with dom := d }

theorem isConnected_relabeled (hDom : l.dom.Relabeled l'.dom) (hDocument : l'.document = l.document)
    (r : NodeRef) : l'.isConnected r = l.isConnected r := by
  simp only [isConnected, hDom.first?, hDom.nodes.root, hDocument]

theorem observersIn_relabeled (hDom : l.dom.Relabeled l'.dom)
    (hTracked : ∀ n, (l'.trackedOf n).observer = (l.trackedOf n).observer) (r : NodeRef) :
    l'.observersIn r = l.observersIn r := by
  simp only [observersIn, hDom.subtree, hTracked]

theorem isConnected_congr (hDom : l'.dom = l.dom) (hDocument : l'.document = l.document)
    (r : NodeRef) : l'.isConnected r = l.isConnected r :=
  isConnected_relabeled (hDom ▸ .refl _) hDocument r

theorem observersIn_congr (hDom : l'.dom = l.dom)
    (hTracked : ∀ n, (l'.trackedOf n).observer = (l.trackedOf n).observer) (r : NodeRef) :
    l'.observersIn r = l.observersIn r :=
  observersIn_relabeled (hDom ▸ .refl _) hTracked r

theorem withDom_frame (l : Live κ σ) {d : Dom} (h : l.dom.SameKinds d) : Frame l (l.withDom d) m :=
  Frame.aside l _ _ _ _ _ _ _ _ _ h

theorem core?_withDom (l : Live κ σ) (d : Dom) (o : ObserverId) :
    (l.withDom d).core? o = l.core? o := rfl

theorem Changed.calm {d : Dom} {f : ObserverId → Observer.Core κ → Observer.Core κ}
    (h : Changed l l₁ d f m) (hCalm : Calm l₁ l' m) : Changed l l' d f m where
  toFrame := h.toFrame.trans hCalm.toFrame
  tree := h.tree.trans hCalm.tree
  tracked n := (hCalm.trackedOf_eq n).trans (h.tracked n)
  core o := (hCalm.core?_eq o).trans (h.core o)

/-- What is seen of a node or container does not depend on statuses. -/
theorem Changed.seen {d : Dom} {f : ObserverId → Observer.Core κ → Observer.Core κ}
    (h : Changed l l' d f m) (r : NodeRef) : l'.isConnected r = (l.withDom d).isConnected r ∧
      l'.observersIn r = (l.withDom d).observersIn r :=
  ⟨isConnected_relabeled (l := l.withDom d) h.tree.relabeled h.document r,
    observersIn_relabeled (l := l.withDom d) h.tree.relabeled (fun n => congrArg _ (h.tracked n)) r⟩

/-- A change of the tree, then one of the observers, then of nothing that can be seen. -/
theorem Changed.then {d : Dom} {f : ObserverId → Observer.Core κ → Observer.Core κ}
    {l₂ : Live κ σ} (h : Changed l l₁ d (fun _ => id) m) (h₂ : Changed l₁ l₂ l₁.dom f m)
    (h₃ : Alike l₂ l' m) : Changed l l' d f m where
  toFrame := (h.toFrame.trans h₂.toFrame).trans h₃.toFrame
  tree := (h.tree.trans h₂.tree).trans h₃.tree
  tracked n := (h₃.tracked n).trans ((h₂.tracked n).trans (h.tracked n))
  core o := by
    rw [h₃.core, h₂.core, h.core]
    simp

/-- The changes of the observers in a node or container that comes to reach the document. -/
def connecting (l : Live κ σ) (r : NodeRef) : ObserverId → Observer.Core κ → Observer.Core κ :=
  if l.isConnected r then turnAll (l.observersIn r) .connected else fun _ => id

/-- The changes of the observers in a node or container that ceases to reach the document. -/
def disconnecting (l : Live κ σ) (r : NodeRef) : ObserverId → Observer.Core κ → Observer.Core κ :=
  turnAll (l.observersIn r) .disconnected

theorem turnAll_hooks (os : List ObserverId) (c : Connectivity) (o : ObserverId)
    (x : Observer.Core κ) : (turnAll os c o x).hooks = x.hooks := by
  unfold turnAll
  split <;> simp

theorem connecting_hooks (l : Live κ σ) (r : NodeRef) (o : ObserverId) (x : Observer.Core κ) :
    (l.connecting r o x).hooks = x.hooks := by
  unfold connecting
  split
  · exact turnAll_hooks _ _ o x
  · rfl

theorem connecting_target (l : Live κ σ) (r : NodeRef) (o : ObserverId) (x : Observer.Core κ) :
    (l.connecting r o x).target = x.target := by
  unfold connecting
  split
  · exact turnAll_target _ _ o x
  · rfl

theorem disconnecting_hooks (l : Live κ σ) (r : NodeRef) (o : ObserverId) (x : Observer.Core κ) :
    (l.disconnecting r o x).hooks = x.hooks :=
  turnAll_hooks _ _ o x

/-! ## Checks -/

section Checks

variable {α : Type} {rest : Act κ σ α} {post : Except Fault α → Live κ σ → Prop}

/-- What does not fail is followed by what comes next. -/
theorem After.act_ok {op : Act κ σ β} {f : β → Act κ σ α} {b : β} {m : Live κ σ → Prop}
    (h : After op.run l fun out l' => out = .ok b ∧ m l')
    (hRest : ∀ l', m l' → After (f b).run l' post) : After (op >>= f).run l post := by
  refine h.act_bind ?_ ?_
  · rintro a l' ⟨hEq, hMid⟩
    rw [Except.ok.inj hEq]
    exact hRest l' hMid
  · rintro e l' ⟨hEq, -⟩
    cases hEq

theorem After.get_act {f : Live κ σ → Act κ σ α} (h : After (f l).run l post) :
    After (get >>= f : Act κ σ α).run l post := by
  refine After.act_ok (b := l) (m := (· = l)) ⟨rfl, rfl⟩ ?_
  rintro _ rfl
  exact h

theorem After.sure_bind {op : LiveM κ σ β} {f : β → Act κ σ α} {m : β → Live κ σ → Prop}
    (h : After op l m) (hRest : ∀ b l', m b l' → After (f b).run l' post) :
    After (sure op >>= f : Act κ σ α).run l post := by
  refine After.act_bind (m := fun out l' => ∃ b, out = .ok b ∧ m b l') ⟨_, rfl, h⟩ ?_ ?_
  · rintro a l' ⟨b, hEq, hMid⟩
    rw [Except.ok.inj hEq]
    exact hRest b l' hMid
  · rintro e l' ⟨b, hEq, _⟩
    cases hEq

/-- Of a step that cannot be refused it is known what it returns and where it ends. -/
theorem After.sure_run {op : LiveM κ σ β} {f : β → Act κ σ α} {b : β} {t : Live κ σ}
    (hRun : op.run l = (b, t)) (h : After (f b).run t post) :
    After (sure op >>= f : Act κ σ α).run l post := by
  refine After.sure_bind (m := fun out l' => out = b ∧ l' = t)
    ⟨congrArg Prod.fst hRun, congrArg Prod.snd hRun⟩ ?_
  rintro _ _ ⟨rfl, rfl⟩
  exact h

theorem After.lift_bind {op : LiveM κ σ β} {f : β → Act κ σ α} {m : β → Live κ σ → Prop}
    (h : After op l m) (hRest : ∀ b l', b = (op.run l).1 → m b l' → After (f b).run l' post) :
    After ((liftM op : Act κ σ β) >>= f).run l post :=
  After.sure_bind (m := fun b l' => b = (op.run l).1 ∧ m b l') ⟨rfl, h⟩
    fun b l' hMid => hRest b l' hMid.1 hMid.2

/-- A loop over operations that cannot be refused. -/
theorem After.forM_sure {γ : Type} {xs : List γ} {f : γ → LiveM κ σ PUnit}
    {m : Live κ σ → Prop} (h : After (xs.forM f) l fun _ => m) :
    After (xs.forM fun x => sure (f x) : Act κ σ PUnit).run l fun out l' =>
      out = .ok ⟨⟩ ∧ m l' := by
  induction xs generalizing l with
  | nil => exact ⟨rfl, h⟩
  | cons x xs ih =>
    refine After.sure_bind (m := fun _ l₁ => After (xs.forM f) l₁ fun _ => m) h ?_
    exact fun _ l₁ h₁ => ih h₁

theorem After.tryInDom {f : Dom → Except NotAChild Dom}
    (hError : ∀ cause, f l.dom = .error cause → post (.error (.notAChild cause)) l)
    (hOk : ∀ d, f l.dom = .ok d → After rest.run (l.withDom d) post) :
    After (do Live.tryInDom f; rest).run l post := by
  refine After.act_bind (m := fun out l' => (∃ cause, f l.dom = .error cause ∧
    out = .error (.notAChild cause) ∧ l' = l) ∨ ∃ d, f l.dom = .ok d ∧ out = .ok () ∧
      l' = l.withDom d) ?_ ?_ ?_
  · unfold Live.tryInDom
    refine After.get_act ?_
    cases hf : f l.dom with
    | error cause => exact .inl ⟨cause, rfl, rfl, rfl⟩
    | ok d => exact .inr ⟨d, rfl, rfl, rfl⟩
  · rintro _ _ (⟨cause, _, hEq, _⟩ | ⟨d, hf, _, rfl⟩)
    · cases hEq
    · exact hOk d hf
  · rintro e _ (⟨cause, hf, hEq, rfl⟩ | ⟨d, _, hEq, _⟩)
    · cases hEq
      exact hError cause hf
    · cases hEq

theorem After.check {c : Prop} [Decidable c] {fault : Fault} (hFails : c → post (.error fault) l)
    (hRest : ¬ c → After rest.run l post) :
    After ((do if c then throw fault : Act κ σ Unit) >>= fun _ => rest).run l post := by
  by_cases hc : c
  · rw [if_pos hc]
    exact hFails hc
  · rw [if_neg hc]
    exact hRest hc

theorem After.ensureLive (hTorn : l.tornDown = true → post (.error .tornDown) l)
    (hRest : l.tornDown = false → After rest.run l post) :
    After (do Live.ensureLive; rest).run l post := by
  unfold Live.ensureLive
  simp only [bind_assoc]
  exact After.get_act (After.check hTorn fun h => hRest (by simpa using h))

theorem After.needState {transition : Transition}
    (hWrong : l.stateOf r ≠ transition.needs →
      post (.error (.invalidState transition (l.dom.describeRef r) (l.stateOf r))) l)
    (hRest : l.stateOf r = transition.needs → After rest.run l post) :
    After (do Live.needState transition r; rest).run l post := by
  unfold Live.needState
  simp only [bind_assoc]
  exact After.get_act (After.check hWrong fun h => hRest (by simpa using h))

theorem After.needParent (hEnding : (l.stateOf parent).isEnding = true →
      post (.error (.parentUnavailable (l.dom.describeRef parent) (l.stateOf parent))) l)
    (hRest : (l.stateOf parent).isEnding = false → After rest.run l post) :
    After (do Live.needParent parent; rest).run l post := by
  unfold Live.needParent
  simp only [bind_assoc]
  exact After.get_act (After.check hEnding fun h => hRest (by simpa using h))

end Checks

/-- Nothing is under way: nodes have the state that the tree shows, or are destroyed. -/
def Settled (l : Live κ σ) : Prop :=
  ∀ n, (l.trackedOf n).state = none ∨ (l.trackedOf n).state = some .destroyed

/-- A state that the tree shows needs no note. -/
theorem state_none_of_shown (h : (l.trackedOf (l.dom.key r)).state = none ∨
      (l.trackedOf (l.dom.key r)).state = some .destroyed)
    (hShown : (l.stateOf r).isSettled = true) (hKey : l.dom.key r ≠ l.document) :
    (l.trackedOf (l.dom.key r)).state = none := by
  rcases h with hNone | hDestroyed
  · exact hNone
  · simp [stateOf, hKey, hDestroyed, NodeState.isSettled] at hShown

/-- What is attached or detached is placed or not. -/
theorem isPlaced_of_state (h : (l.trackedOf (l.dom.key r)).state = none ∨
      (l.trackedOf (l.dom.key r)).state = some .destroyed) (hKey : l.dom.key r ≠ l.document) :
    (l.stateOf r = .detached → l.dom.isPlaced r = false) ∧
      (l.stateOf r = .attached → l.dom.isPlaced r = true) := by
  rcases h with hNone | hDestroyed
  · rw [stateOf_of_none hNone hKey, shownState]
    cases l.dom.isPlaced r <;> simp
  · simp [stateOf, hKey, hDestroyed]

/-- Noting a state that the tree shows restores the tables. -/
theorem Noted.back {s : NodeState} (h₁ : Noted l l₁ r (some s) m) (l₂ : Live κ σ)
    (hDom : l₂.dom.key r = l.dom.key r) (hTracked : ∀ n, l₂.trackedOf n = l₁.trackedOf n)
    (h₃ : Noted l₂ l' r none m) (hNone : (l.trackedOf (l.dom.key r)).state = none) (n : NodeId) :
    l'.trackedOf n = l.trackedOf n := by
  rw [h₃.tracked, hTracked, h₁.tracked, hDom]
  by_cases hn : n = l.dom.key r
  · subst hn
    simp only [if_true]
    rw [← hNone]
  · simp [hn]

theorem Noted.observer {s : Option NodeState} (h : Noted l l' r s m) (n : NodeId) :
    (l'.trackedOf n).observer = (l.trackedOf n).observer := by
  rw [h.tracked]
  split <;> rfl

theorem Noted.quietFor {s : Option NodeState} (h : Noted l l' r s m) (hQuiet : l.QuietFor K m) :
    l'.QuietFor K m :=
  hQuiet.of_core h.toFrame fun o x' hx' => ⟨x', h.core o ▸ hx', fun _ he => he⟩

/-! ## Asking and telling -/

/-- Whether a hook cancels what a node or container is noted to be about to do. -/
def cancels (l : Live κ σ) (calls : Calls κ σ) (r : NodeRef) (state : NodeState)
    (kind : EventKind) : Bool :=
  ((fireAt calls r kind).run ((setState r state).run l).2).1

/-- Hooks were asked about a transition that is noted. When its note is taken away, in the same tree
or another, nothing but the tree has changed. -/
structure Asked (l l' : Live κ σ) (r : NodeRef) (m : Leeway κ := .strict) : Prop
    extends Frame l l' m where
  tree : m.Tree l.dom l'.dom
  clock : l'.clock = l.clock
  comparing : l'.comparing = l.comparing
  observers : l'.observers = l.observers
  movers : l'.movers = l.movers
  back : ∀ d d' l₁, m.Tree d d' → l'.dom.SameKinds d' → d.key r = l.dom.key r →
    Noted (l'.withDom d') l₁ r none m → Changed l l₁ d (fun _ => id) m

theorem Noted.asked {s : NodeState} (h : Noted l l₁ r (some s) m) (hCalm : Calm l₁ l' m)
    (hNone : (l.trackedOf (l.dom.key r)).state = none) : Asked l l' r m where
  toFrame := h.toFrame.trans hCalm.toFrame
  tree := h.dom ▸ hCalm.tree
  clock := hCalm.clock.trans h.clock
  comparing := hCalm.comparing.trans h.comparing
  observers := hCalm.observers.trans h.observers
  movers := hCalm.movers.trans h.movers
  back d d' l₁ hTree hKinds hKey hBack := by
    have hKey' : (l'.withDom d').dom.key r = l.dom.key r := (hTree.relabeled.key r).trans hKey
    refine ⟨(h.toFrame.trans hCalm.toFrame).trans ((withDom_frame l' hKinds).trans hBack.toFrame),
      ?_, h.back (l'.withDom d') hKey' hCalm.trackedOf_eq hBack hNone, fun o => ?_⟩
    · rw [hBack.dom]
      exact hTree
    rw [hBack.core, core?_withDom, hCalm.core?_eq, h.core, Option.map_id, id]

theorem Changed.unheard {d : Dom} (h : Changed l l₁ d (fun _ => id) m) :
    After (sure (noteMoves r) : Act κ σ Unit).run l₁ fun out l' =>
      out = .ok () ∧ Changed l l' d (fun _ => id) m := by
  rw [after_sure]
  exact (noteMoves_alike l₁ r m).mono fun _ _ hNoted =>
    ⟨rfl, h.then (Changed.alike_of_calm (Calm.refl l₁)) hNoted.1⟩

/-- Then observers are told, and that nodes may have moved. -/
theorem Changed.heard {d : Dom} (h : Changed l l₁ d (fun _ => id) m) {notify : LiveM κ σ Unit}
    {f : ObserverId → Observer.Core κ → Observer.Core κ}
    (hNotify : After notify l₁ fun _ l' => Changed l₁ l' l₁.dom f m) :
    After (do notify; sure (noteMoves r) : Act κ σ Unit).run l₁ fun out l' =>
      out = .ok () ∧ Changed l l' d f m := by
  refine After.lift_bind hNotify fun _ l₂ _ h₂ => ?_
  rw [after_sure]
  exact (noteMoves_alike l₂ r m).mono fun _ _ hNoted => ⟨rfl, h.then h₂ hNoted.1⟩

/-- The tree has become another one and hooks were asked. Nobody else has heard of it yet. -/
structure Struck (A : σ → σ → Prop) (l l' : Live κ σ) (d : Dom) (m : Leeway κ := .strict) : Prop
    extends Changed l l' d (fun _ => id) m where
  clock : l'.clock = l.clock
  comparing : l'.comparing = l.comparing
  observers : l'.observers = l.observers
  movers : l'.movers = l.movers
  client : A l.client l'.client

/-- The hooks of a node or container that are asked about transitions are quiet. -/
def Pliant (l : Live κ σ) (r : NodeRef) (m : Leeway κ := .strict) : Prop :=
  ∀ o, (l.trackedOf (l.dom.key r)).observer = some o → ∀ kind : EventKind, kind.isCancelable = true →
    ∀ hook ∈ l.hooksFor o kind, hook.Quiet l m

theorem QuietFor.pliant (h : l.QuietFor K m)
    (hOwn : ∀ o, (l.trackedOf (l.dom.key r)).observer = some o → K o) : l.Pliant r m := by
  intro o ho kind _ hook hHook
  obtain ⟨x, hx, e, he, -, rfl⟩ := mem_hooksFor.mp hHook
  exact h o (hOwn o ho) x hx e he

theorem Pliant.of_same (h : l.Pliant r m)
    (hTracked : (l'.trackedOf (l'.dom.key r)).observer = (l.trackedOf (l.dom.key r)).observer)
    (hCore : ∀ o, l'.core? o = l.core? o) (hFrame : Frame l l' m) : l'.Pliant r m := by
  intro o ho kind hKind hook hHook
  obtain ⟨x, hx, hMem⟩ := mem_hooksFor.mp hHook
  exact hFrame.hook_quiet (h o (hTracked ▸ ho) kind hKind hook
    (mem_hooksFor.mpr ⟨x, hCore o ▸ hx, hMem⟩))

/-- What is left of the client's state when hooks are asked, one after the other. -/
structure Asks (A : σ → σ → Prop) (calls : Calls κ σ) (m : Leeway κ := .strict) : Prop where
  refl (c : σ) : A c c
  trans {a b c : σ} : A a b → A b c → A a c
  ask {l : Live κ σ} {r : NodeRef} (hPliant : l.Pliant r m) {kind : EventKind}
    (hKind : kind.isCancelable = true) : After (fireAt calls r kind) l fun _ l' => A l.client l'.client

theorem asks_any (calls : Calls κ σ) : Asks (fun _ _ => True) calls m :=
  ⟨fun _ => trivial, fun _ _ => trivial, fun _ _ _ => trivial⟩

variable {A : σ → σ → Prop}

theorem Struck.refl (h : A l.client l.client) : Struck A l l l.dom m :=
  ⟨Changed.alike_of_calm (Calm.refl l), rfl, rfl, rfl, rfl, h⟩

theorem Struck.withDom (h : Struck A l l₁ l.dom m) {d : Dom} (hKinds : l₁.dom.SameKinds d) :
    Struck A l (l₁.withDom d) d m where
  toFrame := h.toFrame.trans (withDom_frame l₁ hKinds)
  tree := .refl m d
  tracked := h.tracked
  core := h.core
  clock := h.clock
  comparing := h.comparing
  observers := h.observers
  movers := h.movers
  client := h.client

theorem Asked.struck (h : Asked l l₁ r m) (hClient : A l.client l₁.client) {d d' : Dom}
    (hTree : m.Tree d d') (hKinds : l₁.dom.SameKinds d') (hKey : d.key r = l.dom.key r)
    (hNoted : Noted (l₁.withDom d') l' r none m) : Struck A l l' d m where
  toChanged := h.back d d' l' hTree hKinds hKey hNoted
  clock := hNoted.clock.trans h.clock
  comparing := hNoted.comparing.trans h.comparing
  observers := hNoted.observers.trans h.observers
  movers := hNoted.movers.trans h.movers
  client := hNoted.client ▸ hClient

theorem Asked.restored (h : Asked l l₁ r m) (hClient : A l.client l₁.client)
    (hNoted : Noted l₁ l' r none m) : Struck A l l' l.dom m :=
  h.struck hClient h.tree (.refl _) rfl hNoted

section Asking

variable (hClient : client.Quiet) (depth : Nat) (hA : Asks A (Calls.upTo client (depth + 2)) m)
include hClient

theorem Pliant.fireAt_calm (h : l.Pliant r m) {kind : EventKind} (hKind : kind.isCancelable = true) :
    After (fireAt (Calls.upTo client (depth + 2)) r kind) l fun _ l' => Calm l l' m := by
  unfold fireAt
  rw [after_bind, after_get]
  split
  · exact Calm.refl l
  · rename_i o ho
    exact (runHooks_quiet hClient depth (h o ho kind hKind) _).mono fun _ _ h => h.1

variable (hPliant : l.Pliant r m)
include hA hPliant

/-- A transition is noted and the hooks of the node or container are asked. -/
theorem after_asked (state : NodeState) (hTransient : state.isSettled = false) {kind : EventKind}
    (hKind : kind.isCancelable = true) (hNone : (l.trackedOf (l.dom.key r)).state = none)
    {k : Bool → Act κ σ Unit} {post : Except Fault Unit → Live κ σ → Prop}
    (hRest : ∀ l', Asked l l' r m → A l.client l'.client →
      After (k (l.cancels (Calls.upTo client (depth + 2)) r state kind)).run l' post) :
    After (do
        sure (setState r state)
        let cancelled ← fireAt (Calls.upTo client (depth + 2)) r kind
        k cancelled : Act κ σ Unit).run l post := by
  refine After.sure_bind (setState_noted l r state m).run_eq fun _ l₁ ⟨hRun, h₁⟩ => ?_
  rw [hTransient, if_neg Bool.false_ne_true] at h₁
  have hPliant₁ : l₁.Pliant r m :=
    hPliant.of_same (by rw [h₁.observer, h₁.dom]) h₁.core h₁.toFrame
  refine After.lift_bind ((hPliant₁.fireAt_calm hClient depth hKind).and
    (hA.ask hPliant₁ hKind)) fun cancelled l₂ hCancelled ⟨h₂, hAsked⟩ => ?_
  have hCancels : l.cancels (Calls.upTo client (depth + 2)) r state kind = cancelled := by
    rw [cancels, hRun, hCancelled]
  exact hCancels ▸ hRest l₂ (h₁.asked h₂ hNone) (h₁.client ▸ hAsked)

/-- After a change of the tree the hooks of the node or container are run. -/
theorem Struck.after_fireAt {d : Dom} (h : Struck A l l₁ d m) (hKey : d.key r = l.dom.key r)
    {kind : EventKind} (hKind : kind.isCancelable = true) {k : Bool → Act κ σ Unit}
    {post : Except Fault Unit → Live κ σ → Prop}
    (hRest : ∀ cancelled l', Struck A l l' d m → After (k cancelled).run l' post) :
    After (do
        let cancelled ← fireAt (Calls.upTo client (depth + 2)) r kind
        k cancelled : Act κ σ Unit).run l₁ post := by
  have hPliant₁ : l₁.Pliant r m :=
    hPliant.of_same (by rw [h.tracked, h.tree.relabeled.key, hKey])
      (fun o => by rw [h.core, Option.map_id, id]) h.toFrame
  refine After.lift_bind ((hPliant₁.fireAt_calm hClient depth hKind).and
    (hA.ask hPliant₁ hKind)) fun cancelled l₂ _ ⟨h₂, hAsked⟩ => ?_
  exact hRest cancelled l₂ ⟨h.toChanged.calm h₂, h₂.clock.trans h.clock,
    h₂.comparing.trans h.comparing, h₂.observers.trans h.observers, h₂.movers.trans h.movers,
    hA.trans h.client hAsked⟩

end Asking

/-! ## Attaching -/

/-- Why a node or container was not attached. -/
def AttachRefused (l : Live κ σ) (calls : Calls κ σ) (r parent : NodeRef)
    (before : Option NodeRef) : Prop :=
  l.tornDown = true ∨ l.stateOf r ≠ .detached ∨ (l.stateOf parent).isEnding = true ∨
    l.cancels calls r .attaching .beforeAttach = true ∨
    ∃ cause, l.dom.place r parent before = .error cause

/-- What comes of attaching. -/
inductive AttachOutcome (l : Live κ σ) (calls : Calls κ σ) (r parent : NodeRef)
    (before : Option NodeRef) (l' : Live κ σ) (m : Leeway κ := .strict) : Except Fault Unit → Prop
  | tornDown (hTorn : l.tornDown = true) (hSame : Alike l l' m) :
    AttachOutcome l calls r parent before l' m (.error .tornDown)
  | wrongState (hTorn : l.tornDown = false) (hState : l.stateOf r ≠ .detached)
    (hSame : Alike l l' m) : AttachOutcome l calls r parent before l' m
      (.error (.invalidState .attach (l.dom.describeRef r) (l.stateOf r)))
  | noParent (hTorn : l.tornDown = false) (hState : l.stateOf r = .detached)
    (hEnding : (l.stateOf parent).isEnding = true) (hSame : Alike l l' m) :
    AttachOutcome l calls r parent before l' m
      (.error (.parentUnavailable (l.dom.describeRef parent) (l.stateOf parent)))
  | cancelled (hTorn : l.tornDown = false) (hState : l.stateOf r = .detached)
    (hParent : (l.stateOf parent).isEnding = false)
    (hCancel : l.cancels calls r .attaching .beforeAttach = true) (hSame : Alike l l' m) :
    AttachOutcome l calls r parent before l' m (.ok ())
  | astray (hTorn : l.tornDown = false) (hState : l.stateOf r = .detached)
    (hParent : (l.stateOf parent).isEnding = false)
    (hCancel : l.cancels calls r .attaching .beforeAttach = false) {cause : NotAChild}
    (hPlace : l.dom.place r parent before = .error cause) (hSame : Alike l l' m) :
    AttachOutcome l calls r parent before l' m (.error (.notAChild cause))
  | attached (hTorn : l.tornDown = false) (hState : l.stateOf r = .detached)
    (hParent : (l.stateOf parent).isEnding = false)
    (hCancel : l.cancels calls r .attaching .beforeAttach = false) {d' : Dom}
    (hPlace : l.dom.place r parent before = .ok d')
    (hChanged : Changed l l' d' ((l.withDom d').connecting r) m) :
    AttachOutcome l calls r parent before l' m (.ok ())

variable (hClient : client.Quiet) (depth : Nat)
include hClient

/-- Attaching is refused or cancelled, or the tree becomes another one and hooks are asked; then the
observers in the node or container are told if it reaches the document. -/
theorem After.attach {post : Except Fault Unit → Live κ σ → Prop}
    (hA : Asks A (Calls.upTo client (depth + 2)) m) (hPliant : l.Pliant r m)
    (hSettled : (l.trackedOf (l.dom.key r)).state = none ∨
      (l.trackedOf (l.dom.key r)).state = some .destroyed)
    (hKey : l.stateOf r = .detached → ∀ d', l.dom.place r parent before = .ok d' →
      d'.key r = l.dom.key r)
    (hRefused : ∀ out l', Struck A l l' l.dom m →
      l.AttachOutcome (Calls.upTo client (depth + 2)) r parent before l' m out → post out l')
    (hRest : ∀ d' l₁, l.tornDown = false → l.stateOf r = .detached →
      (l.stateOf parent).isEnding = false →
      l.cancels (Calls.upTo client (depth + 2)) r .attaching .beforeAttach = false →
      l.dom.place r parent before = .ok d' → Struck A l l₁ d' m →
      (l₁.isConnected r = true → After (do
          notifyConnected (Calls.upTo client (depth + 2)) r
          sure (noteMoves r) : Act κ σ Unit).run l₁ post) ∧
        (l₁.isConnected r = false → After (sure (noteMoves r) : Act κ σ Unit).run l₁ post)) :
    After (Live.attach (Calls.upTo client (depth + 2)) r parent before).run l post := by
  have hSame : Struck A l l l.dom m := .refl (hA.refl _)
  have hAlike : Alike l l m := hSame.toChanged
  unfold Live.attach
  refine After.ensureLive (fun hTorn => hRefused _ _ hSame (.tornDown hTorn hAlike)) fun hTorn => ?_
  refine After.needState (fun hState => hRefused _ _ hSame (.wrongState hTorn hState hAlike))
    fun hState => ?_
  refine After.needParent (fun hEnding => hRefused _ _ hSame (.noParent hTorn hState hEnding hAlike))
    fun hParent => ?_
  have hNone := state_none_of_shown hSettled (by rw [hState]; rfl) fun hDocument => by
    simp [stateOf, hDocument, Transition.needs] at hState
  refine after_asked hClient depth hA hPliant .attaching rfl rfl hNone fun l₂ hAsked hLeft => ?_
  split
  · rename_i hCancel
    rw [after_sure]
    refine (setState_noted l₂ r .detached m).mono fun _ l₃ h₃ => ?_
    have hUndone := hAsked.restored hLeft h₃
    exact hRefused _ _ hUndone (.cancelled hTorn hState hParent hCancel hUndone.toChanged)
  · rename_i hGo
    rw [Bool.not_eq_true] at hGo
    refine After.get_act ?_
    rcases hAsked.tree.place r parent before with ⟨cause, hPlace, hPlace₂⟩ |
      ⟨d', d₂, hPlace, hPlace₂, hTree⟩
    · rw [hPlace₂]
      refine After.sure_bind (setState_noted l₂ r .detached m) fun _ l₃ h₃ => ?_
      have hUndone := hAsked.restored hLeft h₃
      exact hRefused _ _ hUndone (.astray hTorn hState hParent hGo hPlace hUndone.toChanged)
    · rw [hPlace₂]
      have hKey := hKey hState d' hPlace
      refine After.sure_run (t := l₂.withDom d₂) rfl ?_
      refine After.sure_bind (setState_noted (l₂.withDom d₂) r .attached m) fun _ l₃ h₃ => ?_
      refine (hAsked.struck hLeft hTree (.place hPlace₂) hKey h₃).after_fireAt hClient depth hA hPliant
        hKey rfl fun _ l₄ hStruck => ?_
      obtain ⟨hTold, hUntold⟩ := hRest d' l₄ hTorn hState hParent hGo hPlace hStruck
      refine After.get_act ?_
      split
      · exact hTold ‹_›
      · exact hUntold (Bool.eq_false_iff.mpr ‹_›)

theorem attach_outcome (hQuiet : l.QuietFor K m)
    (hSettled : (l.trackedOf (l.dom.key r)).state = none ∨
      (l.trackedOf (l.dom.key r)).state = some .destroyed)
    (hOwn : ∀ o, (l.trackedOf (l.dom.key r)).observer = some o → K o)
    (hIn : l.stateOf r = .detached → ∀ d', l.dom.place r parent before = .ok d' →
      d'.key r = l.dom.key r ∧ ∀ o ∈ (l.withDom d').observersIn r, K o) :
    After (attach (Calls.upTo client (depth + 2)) r parent before).run l fun out l' =>
      l.AttachOutcome (Calls.upTo client (depth + 2)) r parent before l' m out := by
  refine After.attach hClient depth (asks_any _) (hQuiet.pliant hOwn) hSettled
    (fun hState d' hPlace => (hIn hState d' hPlace).1) (fun _ _ _ hOut => hOut) ?_
  intro d' l₁ hTorn hState hParent hGo hPlace hStruck
  have hQuiet₁ : l₁.QuietFor K m := hStruck.quietFor hQuiet fun _ _ _ he => he
  obtain ⟨hConnected, hObservers⟩ := hStruck.toChanged.seen r
  refine ⟨fun hc => ?_, fun hc => ?_⟩
  · refine (hStruck.heard (notifyConnected_changed hClient depth hQuiet₁ (r := r)
      (by rw [hObservers]; exact (hIn hState d' hPlace).2))).mono ?_
    rintro _ l' ⟨rfl, hTold⟩
    refine .attached hTorn hState hParent hGo hPlace ?_
    rwa [connecting, if_pos (hConnected ▸ hc), ← hObservers]
  · refine hStruck.unheard.mono ?_
    rintro _ l' ⟨rfl, hTold⟩
    refine .attached hTorn hState hParent hGo hPlace ?_
    rwa [connecting, if_neg (by rw [← hConnected, hc]; exact Bool.false_ne_true)]

omit hClient in
theorem AttachOutcome.changed {calls : Calls κ σ} {out : Except Fault Unit}
    (h : l.AttachOutcome calls r parent before l' m out) :
    (Alike l l' m ∧ l.AttachRefused calls r parent before) ∨
      ∃ d', l.dom.place r parent before = .ok d' ∧ out = .ok () ∧ l.tornDown = false ∧
        l.stateOf r = .detached ∧ Changed l l' d' ((l.withDom d').connecting r) m := by
  cases h with
  | tornDown hTorn hSame => exact .inl ⟨hSame, .inl hTorn⟩
  | wrongState _ hState hSame => exact .inl ⟨hSame, .inr (.inl hState)⟩
  | noParent _ _ hEnding hSame => exact .inl ⟨hSame, .inr (.inr (.inl hEnding))⟩
  | cancelled _ _ _ hCancel hSame =>
    exact .inl ⟨hSame, .inr (.inr (.inr (.inl hCancel)))⟩
  | astray _ _ _ _ hPlace hSame => exact .inl ⟨hSame, .inr (.inr (.inr (.inr ⟨_, hPlace⟩)))⟩
  | attached hTorn hState _ _ hPlace hChanged =>
    exact .inr ⟨_, hPlace, rfl, hTorn, hState, hChanged⟩
/-! ## Detaching -/

omit hClient in
/-- Why a node or container was not detached. -/
def DetachRefused (l : Live κ σ) (calls : Calls κ σ) (r : NodeRef) : Prop :=
  l.tornDown = true ∨ l.stateOf r ≠ .attached ∨
    l.cancels calls r .detaching .beforeDetach = true

omit hClient in
/-- What comes of detaching. -/
inductive DetachOutcome (l : Live κ σ) (calls : Calls κ σ) (r : NodeRef) (l' : Live κ σ)
    (m : Leeway κ := .strict) : Except Fault Unit → Prop
  | tornDown (hTorn : l.tornDown = true) (hSame : Alike l l' m) :
    DetachOutcome l calls r l' m (.error .tornDown)
  | wrongState (hTorn : l.tornDown = false) (hState : l.stateOf r ≠ .attached)
    (hSame : Alike l l' m) : DetachOutcome l calls r l' m
      (.error (.invalidState .detach (l.dom.describeRef r) (l.stateOf r)))
  | cancelled (hTorn : l.tornDown = false) (hState : l.stateOf r = .attached)
    (hCancel : l.cancels calls r .detaching .beforeDetach = true) (hSame : Alike l l' m) :
    DetachOutcome l calls r l' m (.ok ())
  | detached (hTorn : l.tornDown = false) (hState : l.stateOf r = .attached)
    (hCancel : l.cancels calls r .detaching .beforeDetach = false)
    (hChanged : Changed l l' (l.dom.takeOut r)
      (if l.isConnected r then (l.withDom (l.dom.takeOut r)).disconnecting r else fun _ => id) m) :
    DetachOutcome l calls r l' m (.ok ())

/-- Detaching is refused or cancelled, or the tree becomes another one and hooks are asked; then the
observers in the node or container are told if it reached the document before. -/
theorem After.detach {post : Except Fault Unit → Live κ σ → Prop}
    (hA : Asks A (Calls.upTo client (depth + 2)) m) (hPliant : l.Pliant r m)
    (hSettled : (l.trackedOf (l.dom.key r)).state = none ∨
      (l.trackedOf (l.dom.key r)).state = some .destroyed)
    (hDocument : l.dom.key r ≠ l.document)
    (hKey : l.stateOf r = .attached → (l.dom.takeOut r).key r = l.dom.key r)
    (hRefused : ∀ out l', Struck A l l' l.dom m →
      l.DetachOutcome (Calls.upTo client (depth + 2)) r l' m out → post out l')
    (hRest : ∀ l₁, l.tornDown = false → l.stateOf r = .attached →
      l.cancels (Calls.upTo client (depth + 2)) r .detaching .beforeDetach = false →
      Struck A l l₁ (l.dom.takeOut r) m →
      (l.isConnected r = true → After (do
          notifyDisconnected (Calls.upTo client (depth + 2)) r
          sure (noteMoves r) : Act κ σ Unit).run l₁ post) ∧
        (l.isConnected r = false → After (sure (noteMoves r) : Act κ σ Unit).run l₁ post)) :
    After (Live.detach (Calls.upTo client (depth + 2)) r).run l post := by
  have hSame : Struck A l l l.dom m := .refl (hA.refl _)
  have hAlike : Alike l l m := hSame.toChanged
  unfold Live.detach
  refine After.ensureLive (fun hTorn => hRefused _ _ hSame (.tornDown hTorn hAlike)) fun hTorn => ?_
  refine After.needState (fun hState => hRefused _ _ hSame (.wrongState hTorn hState hAlike))
    fun hState => ?_
  have hNone := state_none_of_shown hSettled (by rw [hState]; rfl) hDocument
  refine after_asked hClient depth hA hPliant .detaching rfl rfl hNone fun l₂ hAsked hLeft => ?_
  split
  · rename_i hCancel
    rw [after_sure]
    refine (setState_noted l₂ r .attached m).mono fun _ l₃ h₃ => ?_
    have hUndone := hAsked.restored hLeft h₃
    exact hRefused _ _ hUndone (.cancelled hTorn hState hCancel hUndone.toChanged)
  · rename_i hGo
    rw [Bool.not_eq_true] at hGo
    refine After.get_act ?_
    have hWas : l₂.isConnected r = l.isConnected r :=
      isConnected_relabeled hAsked.tree.relabeled hAsked.document r
    refine After.sure_run (t := l₂.withDom (l₂.dom.takeOut r)) rfl ?_
    refine After.sure_bind (setState_noted _ r .detached m) fun _ l₃ h₃ => ?_
    have hKey := hKey hState
    refine (hAsked.struck hLeft (hAsked.tree.takeOut r) (.takeOut _ r) hKey h₃).after_fireAt hClient
      depth hA hPliant hKey rfl fun _ l₄ hStruck => ?_
    obtain ⟨hTold, hUntold⟩ := hRest l₄ hTorn hState hGo hStruck
    dsimp only
    rw [hWas]
    split
    · exact hTold ‹_›
    · exact hUntold (Bool.eq_false_iff.mpr ‹_›)

theorem detach_outcome (hQuiet : l.QuietFor K m)
    (hSettled : (l.trackedOf (l.dom.key r)).state = none ∨
      (l.trackedOf (l.dom.key r)).state = some .destroyed)
    (hKey : l.dom.key r ≠ l.document)
    (hOwn : ∀ o, (l.trackedOf (l.dom.key r)).observer = some o → K o)
    (hIn : l.stateOf r = .attached → (l.dom.takeOut r).key r = l.dom.key r ∧
      ∀ o ∈ (l.withDom (l.dom.takeOut r)).observersIn r, K o) :
    After (detach (Calls.upTo client (depth + 2)) r).run l fun out l' =>
      l.DetachOutcome (Calls.upTo client (depth + 2)) r l' m out := by
  refine After.detach hClient depth (asks_any _) (hQuiet.pliant hOwn) hSettled hKey
    (fun hState => (hIn hState).1) (fun _ _ _ hOut => hOut) ?_
  intro l₁ hTorn hState hGo hStruck
  have hQuiet₁ : l₁.QuietFor K m := hStruck.quietFor hQuiet fun _ _ _ he => he
  obtain ⟨-, hObservers⟩ := hStruck.toChanged.seen r
  refine ⟨fun hc => ?_, fun hc => ?_⟩
  · refine (hStruck.heard (notifyDisconnected_changed hClient depth hQuiet₁ (r := r)
      (by rw [hObservers]; exact (hIn hState).2))).mono ?_
    rintro _ l' ⟨rfl, hTold⟩
    refine .detached hTorn hState hGo ?_
    rwa [if_pos hc, disconnecting, ← hObservers]
  · refine hStruck.unheard.mono ?_
    rintro _ l' ⟨rfl, hTold⟩
    refine .detached hTorn hState hGo ?_
    rwa [if_neg (by rw [hc]; exact Bool.false_ne_true)]

omit hClient in
theorem DetachOutcome.changed {calls : Calls κ σ} {out : Except Fault Unit}
    (h : l.DetachOutcome calls r l' m out) :
    (Alike l l' m ∧ l.DetachRefused calls r) ∨
      out = .ok () ∧ l.stateOf r = .attached ∧ Changed l l' (l.dom.takeOut r)
        (if l.isConnected r then (l.withDom (l.dom.takeOut r)).disconnecting r
          else fun _ => id) m := by
  cases h with
  | tornDown hTorn hSame => exact .inl ⟨hSame, .inl hTorn⟩
  | wrongState _ hState hSame => exact .inl ⟨hSame, .inr (.inl hState)⟩
  | cancelled _ _ hCancel hSame => exact .inl ⟨hSame, .inr (.inr hCancel)⟩
  | detached _ hState _ hChanged => exact .inr ⟨rfl, hState, hChanged⟩
/-! ## Moving -/

omit hClient in
/-- Why a node or container was not moved. -/
def MoveRefused (l : Live κ σ) (r parent : NodeRef) (before : Option NodeRef) : Prop :=
  l.tornDown = true ∨ l.stateOf r ≠ .attached ∨ ∃ cause, l.dom.move r parent before = .error cause

omit hClient in
/-- The changes of the observers in a node or container that was moved. -/
def moving (l : Live κ σ) (d : Dom) (r : NodeRef) :
    ObserverId → Observer.Core κ → Observer.Core κ :=
  if !l.isConnected r && (l.withDom d).isConnected r then
    turnAll ((l.withDom d).observersIn r) .connected
  else if l.isConnected r && !(l.withDom d).isConnected r then
    turnAll ((l.withDom d).observersIn r) .disconnected
  else fun _ => id

omit hClient in
theorem moving_hooks (l : Live κ σ) (d : Dom) (r : NodeRef) (o : ObserverId)
    (x : Observer.Core κ) : (l.moving d r o x).hooks = x.hooks := by
  unfold moving
  split
  · exact turnAll_hooks _ _ o x
  · split
    · exact turnAll_hooks _ _ o x
    · rfl

omit hClient in
/-- What comes of moving. -/
inductive MoveOutcome (l : Live κ σ) (r parent : NodeRef) (before : Option NodeRef)
    (l' : Live κ σ) (m : Leeway κ := .strict) : Except Fault Unit → Prop
  | tornDown (hTorn : l.tornDown = true) (hSame : Alike l l' m) :
    MoveOutcome l r parent before l' m (.error .tornDown)
  | wrongState (hTorn : l.tornDown = false) (hState : l.stateOf r ≠ .attached)
    (hSame : Alike l l' m) : MoveOutcome l r parent before l' m
      (.error (.invalidState .move (l.dom.describeRef r) (l.stateOf r)))
  | astray (hTorn : l.tornDown = false) (hState : l.stateOf r = .attached) {cause : NotAChild}
    (hMove : l.dom.move r parent before = .error cause) (hSame : Alike l l' m) :
    MoveOutcome l r parent before l' m (.error (.notAChild cause))
  | moved (hTorn : l.tornDown = false) (hState : l.stateOf r = .attached) {d' : Dom}
    (hMove : l.dom.move r parent before = .ok d') (hChanged : Changed l l' d' (l.moving d' r) m) :
    MoveOutcome l r parent before l' m (.ok ())

omit hClient in
/-- Moving is refused, or the tree becomes another one; then the observers in the node or container
are told if it comes to reach the document or ceases to. -/
theorem After.moveTo {calls : Calls κ σ} {post : Except Fault Unit → Live κ σ → Prop}
    (hRefused : ∀ out, l.MoveOutcome r parent before l m out → post out l)
    (hRest : ∀ d', l.tornDown = false → l.stateOf r = .attached →
      l.dom.move r parent before = .ok d' →
      (l.isConnected r = false → (l.withDom d').isConnected r = true → After (do
          notifyConnected calls r
          sure (noteMoves r) : Act κ σ Unit).run (l.withDom d') post) ∧
        (l.isConnected r = true → (l.withDom d').isConnected r = false → After (do
          notifyDisconnected calls r
          sure (noteMoves r) : Act κ σ Unit).run (l.withDom d') post) ∧
        (l.isConnected r = (l.withDom d').isConnected r →
          After (sure (noteMoves r) : Act κ σ Unit).run (l.withDom d') post)) :
    After (Live.moveTo calls r parent before).run l post := by
  have hSame : Alike l l m := Changed.alike_of_calm (Calm.refl l)
  unfold Live.moveTo
  refine After.ensureLive (fun hTorn => hRefused _ (.tornDown hTorn hSame)) fun hTorn => ?_
  refine After.needState (fun hState => hRefused _ (.wrongState hTorn hState hSame))
    fun hState => ?_
  refine After.get_act (After.tryInDom (fun cause hMove => ?_) fun d' hMove => ?_)
  · exact hRefused _ (.astray hTorn hState hMove hSame)
  · obtain ⟨hComes, hCeases, hStays⟩ := hRest d' hTorn hState hMove
    refine After.get_act ?_
    dsimp only
    cases hWas : l.isConnected r <;> cases hIs : (l.withDom d').isConnected r
    · exact hStays (hWas.trans hIs.symm)
    · exact hComes hWas hIs
    · exact hCeases hWas hIs
    · exact hStays (hWas.trans hIs.symm)

theorem moveTo_outcome (hQuiet : l.QuietFor K m)
    (hIn : l.stateOf r = .attached → ∀ d', l.dom.move r parent before = .ok d' →
      ∀ o ∈ (l.withDom d').observersIn r, K o) :
    After (moveTo (Calls.upTo client (depth + 2)) r parent before).run l fun out l' =>
      l.MoveOutcome r parent before l' m out := by
  refine After.moveTo (fun _ hOut => hOut) fun d' hTorn hState hMove => ?_
  have hMoved : Changed l (l.withDom d') d' (fun _ => id) m :=
    ((Struck.refl (A := fun _ _ => True) trivial).withDom (.move hMove)).toChanged
  have hQuiet' : (l.withDom d').QuietFor K m := hMoved.quietFor hQuiet fun _ _ _ he => he
  refine ⟨fun hWas hIs => ?_, fun hWas hIs => ?_, fun hStays => ?_⟩
  · refine (hMoved.heard (notifyConnected_changed hClient depth hQuiet'
      (hIn hState d' hMove))).mono ?_
    rintro _ l' ⟨rfl, hTold⟩
    refine .moved hTorn hState hMove ?_
    rwa [moving, if_pos (by rw [hWas, hIs]; rfl)]
  · refine (hMoved.heard (notifyDisconnected_changed hClient depth hQuiet'
      (hIn hState d' hMove))).mono ?_
    rintro _ l' ⟨rfl, hTold⟩
    refine .moved hTorn hState hMove ?_
    rwa [moving, if_neg (by rw [hWas, hIs]; decide), if_pos (by rw [hWas, hIs]; rfl)]
  · refine hMoved.unheard.mono ?_
    rintro _ l' ⟨rfl, hTold⟩
    refine .moved hTorn hState hMove ?_
    rwa [moving, ← hStays, if_neg (by cases l.isConnected r <;> decide),
      if_neg (by cases l.isConnected r <;> decide)]

omit hClient in
theorem MoveOutcome.changed {out : Except Fault Unit} (h : l.MoveOutcome r parent before l' m out) :
    (Alike l l' m ∧ l.MoveRefused r parent before) ∨
      ∃ d', l.dom.move r parent before = .ok d' ∧ out = .ok () ∧ l.stateOf r = .attached ∧
        Changed l l' d' (l.moving d' r) m := by
  cases h with
  | tornDown hTorn hSame => exact .inl ⟨hSame, .inl hTorn⟩
  | wrongState _ hState hSame => exact .inl ⟨hSame, .inr (.inl hState)⟩
  | astray _ _ hMove hSame => exact .inl ⟨hSame, .inr (.inr ⟨_, hMove⟩)⟩
  | moved _ hState hMove hChanged => exact .inr ⟨_, hMove, rfl, hState, hChanged⟩
/-! ## Destroying -/

omit hClient in
/-- A node or container is destroyed with all that is in it. -/
structure Destroyed (l l' : Live κ σ) (r : NodeRef) (m : Leeway κ := .strict) : Prop
    extends Frame l l' m where
  tree : m.Tree l.dom l'.dom
  tracked : ∀ n, l'.trackedOf n =
    if n ∈ l.dom.subtree r then { state := some .destroyed } else l.trackedOf n
  core : ∀ o, l'.core? o = (l.core? o).map fun x => if o ∈ l.observersIn r then x.ended else x

omit hClient in
theorem Destroyed.dom (h : Destroyed l l' r) : l'.dom = l.dom := h.tree

omit hClient in
/-- Burying nodes, one after the other. -/
theorem bury_all (l : Live κ σ) (ns : List NodeId) (m : Leeway κ := .strict) :
    After (ns.forM bury) l fun _ l' => Frame l l' m ∧ l'.dom = l.dom ∧ l'.bindings = l.bindings ∧
      l'.subscriptions = l.subscriptions ∧ (∀ o, l'.core? o = l.core? o) ∧
      ∀ n, l'.trackedOf n = if n ∈ ns then { state := some .destroyed } else l.trackedOf n := by
  induction ns generalizing l with
  | nil => exact ⟨Frame.refl l, rfl, rfl, rfl, fun _ => rfl, fun _ => rfl⟩
  | cons k ns ih =>
    let l₁ : Live κ σ := { l with
      tracked := l.tracked.set k (some { state := some .destroyed })
      extras := l.extras.set k none }
    have hFrame : Frame l l₁ m := Frame.aside l _ _ _ _ _ _ _ _ _ (.refl _)
    refine (show After (bury k) l fun _ l₂ => l₂ = l₁ from rfl).bind ?_
    rintro _ _ rfl
    refine (ih l₁).mono ?_
    rintro _ l' ⟨hFrame', hDom, hBindings, hSubscriptions, hCore, hTracked⟩
    refine ⟨hFrame.trans hFrame', hDom, hBindings, hSubscriptions, hCore, fun n => ?_⟩
    rw [hTracked]
    by_cases hn : n ∈ ns
    · simp [hn]
    · rw [if_neg hn]
      refine (trackedOf_set l k n _).trans ?_
      by_cases hk : n = k <;> simp [hk, hn]

omit hClient in
/-- What comes of destroying. -/
inductive DestroyOutcome (l : Live κ σ) (r : NodeRef) (l' : Live κ σ) (m : Leeway κ := .strict) :
    Except Fault Unit → Prop
  | tornDown (hTorn : l.tornDown = true) (hSame : Alike l l' m) :
    DestroyOutcome l r l' m (.error .tornDown)
  | wrongState (hTorn : l.tornDown = false) (hState : l.stateOf r ≠ .detached)
    (hSame : Alike l l' m) : DestroyOutcome l r l' m
      (.error (.invalidState .destroy (l.dom.describeRef r) (l.stateOf r)))
  | destroyed (hTorn : l.tornDown = false) (hState : l.stateOf r = .detached)
    (hDestroyed : Destroyed l l' r m) : DestroyOutcome l r l' m (.ok ())

theorem destroy_outcome (hQuiet : l.QuietFor K m)
    (hKeyIn : l.dom.key r ∈ l.dom.subtree r) (hIn : ∀ o ∈ l.observersIn r, K o) :
    After (destroy (Calls.upTo client (depth + 2)) r).run l fun out l' =>
      l.DestroyOutcome r l' m out := by
  have hSame : Alike l l m := Changed.alike_of_calm (Calm.refl l)
  unfold destroy
  refine After.ensureLive (fun hTorn => .tornDown hTorn hSame) fun hTorn => ?_
  refine After.needState (fun hState => .wrongState hTorn hState hSame) fun hState => ?_
  refine After.sure_bind (setState_noted l r .destroying m) fun _ l₁ h₁ => ?_
  have hObservers : l₁.observersIn r = l.observersIn r :=
    observersIn_congr h₁.dom h₁.observer r
  refine After.get_act ?_
  refine After.act_ok (After.forM_sure (tellAllDestroyed_changed hClient depth
    (h₁.quietFor hQuiet) (r := r) (by rwa [hObservers]))) ?_
  rintro l₂ h₂
  refine After.get_act ?_
  have hTree₂ : m.Tree l.dom l₂.dom := h₁.dom ▸ h₂.tree
  refine (After.forM_sure (bury_all l₂ (l₂.dom.subtree r) m)).mono ?_
  rintro out l₃ ⟨hOut, hFrame₃, hDom₃, _, _, hCore₃, hTracked₃⟩
  rw [hOut]
  refine .destroyed hTorn hState ⟨(h₁.toFrame.trans h₂.toFrame).trans hFrame₃, hDom₃ ▸ hTree₂,
    fun n => ?_, fun o => ?_⟩
  · rw [hTracked₃, hTree₂.relabeled.subtree]
    split
    · rfl
    · rename_i hn
      have hNe : n ≠ l.dom.key r := fun he => hn (by rw [he]; exact hKeyIn)
      rw [h₂.tracked, h₁.tracked, if_neg hNe]
  · rw [hCore₃, h₂.core, h₁.core, hObservers]

omit hClient in
theorem DestroyOutcome.changed {out : Except Fault Unit} (h : l.DestroyOutcome r l' m out) :
    (Alike l l' m ∧ (l.tornDown = true ∨ l.stateOf r ≠ .detached)) ∨
      out = .ok () ∧ l.stateOf r = .detached ∧ Destroyed l l' r m := by
  cases h with
  | tornDown hTorn hSame => exact .inl ⟨hSame, .inl hTorn⟩
  | wrongState _ hState hSame => exact .inl ⟨hSame, .inr hState⟩
  | destroyed _ hState hDestroyed => exact .inr ⟨rfl, hState, hDestroyed⟩
end LiveMarkup.Live
