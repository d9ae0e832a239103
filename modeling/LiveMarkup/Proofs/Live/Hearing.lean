import LiveMarkup.Proofs.Live.Transitions

/-!
# What transitions call

A transition of a node or container calls the hooks of the observers in it, with events of these
observers, and nothing else. Other hooks that do the same on these events give the same run.

* `Agrees`: hooks that do the same for some observers;
* `attach_withHook`, `detach_withHook`, `destroy_withHook`: the run of a transition with other
  hooks.
-/

namespace LiveMarkup.Live

variable {κ σ α β : Type} {client : Client κ σ} {calls : Calls κ σ} {l l₁ l' : Live κ σ}
variable {K : ObserverId → Prop} {r parent : NodeRef} {before : Option NodeRef} {m : Leeway κ}
variable {hook : Hook κ → Event → LiveM κ σ Bool} {kinds : List EventKind}

def Calls.withHook (calls : Calls κ σ) (hook : Hook κ → Event → LiveM κ σ Bool) : Calls κ σ :=
  { calls with hook }

/-! ## One operation after the other -/

theorem bind_congr_run {op₂ op : LiveM κ σ α} {f₂ f : α → LiveM κ σ β}
    {m : α → Live κ σ → Prop} (hOp : op₂.run l = op.run l) (h : After op l m)
    (hRest : ∀ a l', m a l' → (f₂ a).run l' = (f a).run l') :
    (op₂ >>= f₂).run l = (op >>= f).run l := by
  change (f₂ (op₂.run l).1).run (op₂.run l).2 = (f (op.run l).1).run (op.run l).2
  rw [hOp]
  exact hRest _ _ h

theorem read_congr_run {f₂ f : Live κ σ → LiveM κ σ β} (h : (f₂ l).run l = (f l).run l) :
    (get >>= f₂).run l = (get >>= f).run l := h

theorem act_bind_congr_run {op₂ op : Act κ σ α} {f₂ f : α → Act κ σ β}
    {m : Except Fault α → Live κ σ → Prop} (hOp : op₂.run.run l = op.run.run l)
    (h : After op.run l m) (hRest : ∀ a l', m (.ok a) l' → (f₂ a).run.run l' = (f a).run.run l') :
    (op₂ >>= f₂).run.run l = (op >>= f).run.run l := by
  rw [ExceptT.run_bind, ExceptT.run_bind]
  refine bind_congr_run hOp h fun out l' hOut => ?_
  cases out with
  | ok a => exact hRest a l' hOut
  | error e => rfl

theorem sure_bind_congr_run {op₂ op : LiveM κ σ α} {f₂ f : α → Act κ σ β}
    {m : α → Live κ σ → Prop} (hOp : op₂.run l = op.run l) (h : After op l m)
    (hRest : ∀ a l', m a l' → (f₂ a).run.run l' = (f a).run.run l') :
    (sure op₂ >>= f₂).run.run l = (sure op >>= f).run.run l := by
  change (f₂ (op₂.run l).1).run.run (op₂.run l).2 = (f (op.run l).1).run.run (op.run l).2
  rw [hOp]
  exact hRest _ _ h

theorem get_bind_congr_run {f₂ f : Live κ σ → Act κ σ β}
    (h : (f₂ l).run.run l = (f l).run.run l) :
    (get >>= f₂ : Act κ σ β).run.run l = (get >>= f : Act κ σ β).run.run l := h

/-- What only checks changes nothing. -/
theorem check_bind_congr_run {op : Act κ σ Unit} {f₂ f : Unit → Act κ σ β}
    (hSame : ∀ l, (op.run.run l).2 = l)
    (h : (op.run.run l).1 = .ok () → (f₂ ()).run.run l = (f ()).run.run l) :
    (op >>= f₂).run.run l = (op >>= f).run.run l := by
  refine act_bind_congr_run (m := fun out l' => l' = l ∧ out = (op.run.run l).1) rfl
    ⟨hSame l, rfl⟩ ?_
  rintro _ _ ⟨rfl, hOut⟩
  exact h hOut.symm

theorem forM_congr_run {xs : List α} {f₂ f : α → LiveM κ σ PUnit}
    {k : List α → Live κ σ → Prop} (h : k xs l)
    (hStep : ∀ x rest l', k (x :: rest) l' → (f₂ x).run l' = (f x).run l' ∧
      After (f x) l' fun _ => k rest) : (xs.forM f₂).run l = (xs.forM f).run l := by
  induction xs generalizing l with
  | nil => rfl
  | cons x xs ih =>
    obtain ⟨hSame, hAfter⟩ := hStep x xs l h
    exact bind_congr_run hSame hAfter fun _ l' h' => ih h'

theorem forM_sure_congr_run {xs : List α} {f₂ f : α → LiveM κ σ PUnit}
    (h : (xs.forM f₂).run l = (xs.forM f).run l) :
    (xs.forM fun x => sure (f₂ x) : Act κ σ PUnit).run.run l =
      (xs.forM fun x => sure (f x) : Act κ σ PUnit).run.run l := by
  have hLift : ∀ (f : α → LiveM κ σ PUnit) (l : Live κ σ),
      (xs.forM fun x => sure (f x) : Act κ σ PUnit).run.run l =
        (.ok ⟨⟩, ((xs.forM f).run l).2) := by
    intro f l
    have hDone : After (xs.forM f) l fun _ l' => l' = ((xs.forM f).run l).2 := rfl
    obtain ⟨hOut, hState⟩ := After.forM_sure hDone
    exact Prod.ext hOut hState
  rw [hLift, hLift, h]

/-- An operation runs as another one does, of which something is known. -/
def Alongside (op₂ op : LiveM κ σ α) (l : Live κ σ) (post : α → Live κ σ → Prop) : Prop :=
  op₂.run l = op.run l ∧ After op l post

theorem Alongside.bind {op₂ op : LiveM κ σ α} {f₂ f : α → LiveM κ σ β}
    {m : α → Live κ σ → Prop} {post : β → Live κ σ → Prop} (h : Alongside op₂ op l m)
    (hRest : ∀ a l', m a l' → Alongside (f₂ a) (f a) l' post) :
    Alongside (op₂ >>= f₂) (op >>= f) l post :=
  ⟨bind_congr_run h.1 h.2 fun a l' h' => (hRest a l' h').1,
    After.bind h.2 fun a l' h' => (hRest a l' h').2⟩

theorem Alongside.mono {op₂ op : LiveM κ σ α} {post post' : α → Live κ σ → Prop}
    (h : Alongside op₂ op l post) (hPost : ∀ a l', post a l' → post' a l') :
    Alongside op₂ op l post' :=
  ⟨h.1, h.2.mono hPost⟩

theorem Alongside.same {op : LiveM κ σ α} {post : α → Live κ σ → Prop} (h : After op l post) :
    Alongside op op l post :=
  ⟨rfl, h⟩

theorem Alongside.get_bind {f₂ f : Live κ σ → LiveM κ σ β} {post : β → Live κ σ → Prop}
    (h : Alongside (f₂ l) (f l) l post) : Alongside (get >>= f₂) (get >>= f) l post := h

/-! ## Hooks that agree -/

/-- Other hooks do the same on the events of some kinds to some observers. The events come from the
target of the observer or from a node or container that is asked. -/
def Agrees (l : Live κ σ) (calls : Calls κ σ) (hook : Hook κ → Event → LiveM κ σ Bool)
    (K : ObserverId → Prop) (r : NodeRef) (kinds : List EventKind) : Prop :=
  ∀ o, K o → ∀ x, l.core? o = some x → ∀ e ∈ x.hooks, e.kind ∈ kinds →
    ∀ target, target = x.target ∨ target = r →
      hook e.hook { kind := e.kind, target } = calls.hook e.hook { kind := e.kind, target }

namespace Agrees

theorem of_core (h : l.Agrees calls hook K r kinds) (hCore : ∀ o x', l'.core? o = some x' →
    ∃ x, l.core? o = some x ∧ x'.target = x.target ∧ ∀ e ∈ x'.hooks, e ∈ x.hooks) :
    l'.Agrees calls hook K r kinds := by
  intro o ho x' hx' e he hKind target hTarget
  obtain ⟨x, hx, hSame, hHooks⟩ := hCore o x' hx'
  exact h o ho x hx e (hHooks e he) hKind target (hSame ▸ hTarget)

theorem of_same (h : l.Agrees calls hook K r kinds) (hCore : ∀ o, l'.core? o = l.core? o) :
    l'.Agrees calls hook K r kinds :=
  h.of_core fun o x' hx' => ⟨x', hCore o ▸ hx', rfl, fun _ he => he⟩

theorem of_map (h : l.Agrees calls hook K r kinds) {f : ObserverId → Observer.Core κ → Observer.Core κ}
    (hCore : ∀ o, l'.core? o = (l.core? o).map (f o)) (hTarget : ∀ o x, (f o x).target = x.target)
    (hHooks : ∀ o x, ∀ e ∈ (f o x).hooks, e ∈ x.hooks) : l'.Agrees calls hook K r kinds := by
  refine h.of_core fun o x' hx' => ?_
  obtain ⟨x, hx, rfl⟩ := Option.map_eq_some_iff.mp ((hCore o).symm.trans hx')
  exact ⟨x, hx, hTarget o x, hHooks o x⟩

end Agrees

theorem runHooks_withHook {event : Event} {hooks : List (Hook κ)}
    (h : ∀ x ∈ hooks, hook x event = calls.hook x event) :
    runHooks (calls.withHook hook) event hooks = runHooks calls event hooks := by
  induction hooks with
  | nil => rfl
  | cons first rest ih =>
    obtain ⟨hFirst, hRest⟩ := List.forall_mem_cons.mp h
    rw [runHooks, runHooks, ih hRest]
    change (hook first event >>= _) = _
    rw [hFirst]

theorem fire_withHook (h : l.Agrees calls hook K r kinds) {o : ObserverId} (ho : K o)
    {kind : EventKind} (hKind : kind ∈ kinds) {target : NodeRef}
    (hTarget : ∀ x, l.core? o = some x → target = x.target ∨ target = r) :
    (fire (calls.withHook hook) o { kind, target }).run l =
      (fire calls o { kind, target }).run l := by
  have hSame : runHooks (calls.withHook hook) { kind, target } (l.hooksFor o kind) =
      runHooks calls { kind, target } (l.hooksFor o kind) := by
    refine runHooks_withHook fun x hx => ?_
    obtain ⟨y, hy, e, he, rfl, rfl⟩ := mem_hooksFor.mp hx
    exact h o ho y hy e he hKind target (hTarget y hy)
  exact congrArg (·.run l) hSame

theorem fireAt_withHook (h : l.Agrees calls hook K r kinds)
    (hOwn : ∀ o, (l.trackedOf (l.dom.key r)).observer = some o → K o) {kind : EventKind}
    (hKind : kind ∈ kinds) :
    (fireAt (calls.withHook hook) r kind).run l = (fireAt calls r kind).run l := by
  unfold fireAt
  refine read_congr_run ?_
  split
  · rfl
  · rename_i o ho
    exact fire_withHook h (hOwn o ho) hKind fun _ _ => .inr rfl

theorem tell_withHook (h : l.Agrees calls hook K r kinds) {o : ObserverId} (ho : K o) {kind : EventKind}
    (hKind : kind ∈ kinds) : (tell (calls.withHook hook) o kind).run l = (tell calls o kind).run l := by
  unfold tell
  refine read_congr_run ?_
  split
  · rfl
  · rename_i x hx
    refine bind_congr_run (m := fun _ _ => True) (fire_withHook h ho hKind fun y hy => ?_) trivial
      fun _ _ _ => rfl
    rw [core?, hx] at hy
    rw [← Option.some.inj hy]
    exact .inl rfl

/-! ## Notices -/

section Telling

variable (hClient : client.Quiet) (depth : Nat) (hQuiet : l.QuietFor K m)
variable (h : l.Agrees (Calls.upTo client (depth + 2)) hook K r kinds)
include hClient hQuiet h

omit hClient hQuiet in
theorem tellConnected_withHook (hKind : .connect ∈ kinds) {o : ObserverId} (ho : K o) :
    (tellConnected ((Calls.upTo client (depth + 2)).withHook hook) o).run l =
      (tellConnected (Calls.upTo client (depth + 2)) o).run l := by
  unfold tellConnected
  refine read_congr_run ?_
  split
  · refine bind_congr_run rfl (setStatus_turned _ o .connected) fun _ l₁ h₁ => ?_
    exact tell_withHook (h.of_map h₁.core (fun p x => by split <;> simp)
      fun p x => by split <;> simp) ho hKind
  · rfl

omit hClient hQuiet in
theorem tellDisconnected_withHook (hKind : .disconnect ∈ kinds) {o : ObserverId} (ho : K o) :
    (tellDisconnected ((Calls.upTo client (depth + 2)).withHook hook) o).run l =
      (tellDisconnected (Calls.upTo client (depth + 2)) o).run l := by
  unfold tellDisconnected
  refine read_congr_run ?_
  split
  · refine bind_congr_run rfl (setStatus_turned _ o .disconnected) fun _ l₁ h₁ => ?_
    exact tell_withHook (h.of_map h₁.core (fun p x => by split <;> simp)
      fun p x => by split <;> simp) ho hKind
  · rfl

omit hClient hQuiet in
theorem tellDestroyed_withHook (hKind : .destroy ∈ kinds) {o : ObserverId} (ho : K o) :
    (tellDestroyed ((Calls.upTo client (depth + 2)).withHook hook) o).run l =
      (tellDestroyed (Calls.upTo client (depth + 2)) o).run l := by
  unfold tellDestroyed
  refine read_congr_run ?_
  split
  · exact bind_congr_run (m := fun _ _ => True) (tell_withHook h ho hKind) trivial fun _ _ _ => rfl
  · rfl

omit hClient in
/-- Telling one observer after the other. -/
theorem tellAll_withHook {tellOne₂ tellOne : ObserverId → LiveM κ σ Unit}
    {f : Observer.Core κ → Observer.Core κ} (hTarget : ∀ x, (f x).target = x.target)
    (hHooks : ∀ x, ∀ e ∈ (f x).hooks, e ∈ x.hooks)
    (hSame : ∀ l : Live κ σ, l.Agrees (Calls.upTo client (depth + 2)) hook K r kinds → ∀ o, K o →
      (tellOne₂ o).run l = (tellOne o).run l)
    (hOne : ∀ l : Live κ σ, l.QuietFor K m → ∀ o, K o → After (tellOne o) l fun _ l' =>
      Turned l l' o f m)
    (os : List ObserverId) (hos : ∀ o ∈ os, K o) :
    (os.forM tellOne₂).run l = (os.forM tellOne).run l := by
  refine forM_congr_run (k := fun rest l' => (∀ o ∈ rest, K o) ∧ l'.QuietFor K m ∧
    l'.Agrees (Calls.upTo client (depth + 2)) hook K r kinds) ⟨hos, hQuiet, h⟩ ?_
  rintro o rest l₁ ⟨hRest, hQuiet₁, h₁⟩
  obtain ⟨ho, hRest⟩ := List.forall_mem_cons.mp hRest
  refine ⟨hSame l₁ h₁ o ho, (hOne l₁ hQuiet₁ o ho).mono fun _ l₂ h₂ => ?_⟩
  refine ⟨hRest, hQuiet₁.turned h₂ hHooks, h₁.of_map h₂.core (fun p x => ?_) fun p x e he => ?_⟩
  · split
    · exact hTarget x
    · rfl
  · split at he
    · exact hHooks x e he
    · exact he

theorem notifyConnected_withHook (hKind : .connect ∈ kinds) {s : NodeRef}
    (hs : ∀ o ∈ l.observersIn s, K o) :
    (notifyConnected ((Calls.upTo client (depth + 2)).withHook hook) s).run l =
      (notifyConnected (Calls.upTo client (depth + 2)) s).run l := by
  unfold notifyConnected
  refine read_congr_run ?_
  exact tellAll_withHook depth hQuiet h (Observer.Core.turn_target _) (by simp)
    (fun l₁ h₁ o ho => tellConnected_withHook depth h₁ hKind ho)
    (fun l₁ hQuiet₁ o ho => tellConnected_turned hClient depth hQuiet₁ ho) _ hs

theorem notifyDisconnected_withHook (hKind : .disconnect ∈ kinds) {s : NodeRef}
    (hs : ∀ o ∈ l.observersIn s, K o) :
    (notifyDisconnected ((Calls.upTo client (depth + 2)).withHook hook) s).run l =
      (notifyDisconnected (Calls.upTo client (depth + 2)) s).run l := by
  unfold notifyDisconnected
  refine read_congr_run ?_
  exact tellAll_withHook depth hQuiet h (Observer.Core.turn_target _) (by simp)
    (fun l₁ h₁ o ho => tellDisconnected_withHook depth h₁ hKind ho)
    (fun l₁ hQuiet₁ o ho => tellDisconnected_turned hClient depth hQuiet₁ ho) _
    fun o ho => hs o (List.mem_reverse.mp ho)

end Telling

/-! ## Transitions -/

section Transitions

/-- A check changes nothing, whether it fails or not. -/
theorem check_same (c : Live κ σ → Prop) [DecidablePred c] (fault : Live κ σ → Fault)
    (l : Live κ σ) : ((do
      let l' ← get
      if c l' then throw (fault l') : Act κ σ Unit).run.run l).2 = l := by
  have h : After (do
      let l' ← get
      if c l' then throw (fault l') : Act κ σ Unit).run l fun _ l' => l' = l := by
    refine After.get_act ?_
    split <;> rfl
  exact h

theorem needState_ok {transition : Transition} {r : NodeRef}
    (h : ((needState transition r : Act κ σ Unit).run.run l).1 = .ok ()) :
    l.stateOf r = transition.needs := by
  refine Decidable.byContradiction fun hNe => ?_
  have hError : After (needState transition r : Act κ σ Unit).run l fun out _ => out ≠ .ok () := by
    unfold needState
    refine After.get_act ?_
    rw [if_pos hNe]
    exact fun hEq => nomatch hEq
  exact hError h

variable (hClient : client.Quiet) (depth : Nat) (hQuiet : l.QuietFor K m)
include hClient hQuiet

/-- A transition is noted and the hooks of the node or container are asked. -/
theorem asked_withHook (h : l.Agrees (Calls.upTo client (depth + 2)) hook K r kinds)
    (hOwn : ∀ o, (l.trackedOf (l.dom.key r)).observer = some o → K o) {state : NodeState}
    {kind : EventKind} (hKind : kind ∈ kinds) {k₂ k : Bool → Act κ σ Unit}
    (hRest : ∀ cancelled l', m.Tree l.dom l'.dom → l'.document = l.document →
      l'.QuietFor K m →
      l'.Agrees (Calls.upTo client (depth + 2)) hook K r kinds →
      (∀ n, (l'.trackedOf n).observer = (l.trackedOf n).observer) →
      (k₂ cancelled).run.run l' = (k cancelled).run.run l') :
    (do
        sure (setState r state)
        let cancelled ← fireAt ((Calls.upTo client (depth + 2)).withHook hook) r kind
        k₂ cancelled : Act κ σ Unit).run.run l =
      (do
        sure (setState r state)
        let cancelled ← fireAt (Calls.upTo client (depth + 2)) r kind
        k cancelled : Act κ σ Unit).run.run l := by
  refine sure_bind_congr_run rfl (setState_noted l r state m) fun _ l₁ h₁ => ?_
  have hOwn₁ : ∀ o, (l₁.trackedOf (l₁.dom.key r)).observer = some o → K o := fun o ho => by
    rw [h₁.observer, h₁.dom] at ho
    exact hOwn o ho
  have hAgrees₁ := h.of_same h₁.core
  refine sure_bind_congr_run (fireAt_withHook hAgrees₁ hOwn₁ hKind)
    (fireAt_calm hClient depth (h₁.quietFor hQuiet) hOwn₁ kind) fun cancelled l₂ h₂ => ?_
  refine hRest cancelled l₂ (h₁.dom ▸ h₂.tree) (h₂.document.trans h₁.document) ?_
    (hAgrees₁.of_same h₂.core?_eq) fun n => ?_
  · exact (h₁.quietFor hQuiet).of_core h₂.toFrame fun o x' hx' =>
      ⟨x', h₂.core?_eq o ▸ hx', fun _ he => he⟩
  · rw [h₂.trackedOf_eq, h₁.observer]

/-- Attaching calls the hooks of the observers in the node or container alone. -/
theorem attach_withHook (h : l.Agrees (Calls.upTo client (depth + 2)) hook K r
      [.beforeAttach, .afterAttach, .connect])
    (hOwn : ∀ o, (l.trackedOf (l.dom.key r)).observer = some o → K o)
    (hIn : l.stateOf r = .detached → ∀ d', l.dom.place r parent before = .ok d' →
      d'.key r = l.dom.key r ∧ ∀ o ∈ (l.withDom d').observersIn r, K o) :
    (attach ((Calls.upTo client (depth + 2)).withHook hook) r parent before).run.run l =
      (attach (Calls.upTo client (depth + 2)) r parent before).run.run l := by
  unfold attach
  refine check_bind_congr_run (check_same _ _) fun _ => ?_
  refine check_bind_congr_run (check_same _ _) fun hState => ?_
  refine check_bind_congr_run (check_same _ _) fun _ => ?_
  refine asked_withHook hClient depth hQuiet h hOwn (by simp)
    fun cancelled l₁ hTree₁ hDocument₁ hQuiet₁ h₁ hTracked₁ => ?_
  split
  · rfl
  · refine get_bind_congr_run ?_
    rcases hTree₁.place r parent before with ⟨cause, -, hPlace₁⟩ | ⟨d, d', hPlace, hPlace₁, hTree'⟩
    · rw [hPlace₁]
    · rw [hPlace₁]
      obtain ⟨hKey, hIn⟩ := hIn (needState_ok hState) d hPlace
      refine sure_bind_congr_run (m := fun _ l₂ => l₂ = l₁.withDom d') rfl rfl ?_
      rintro _ _ rfl
      have hQuiet₂ : (l₁.withDom d').QuietFor K m := hQuiet₁.of_core
        (withDom_frame l₁ (.place hPlace₁)) fun o x' hx' => ⟨x', hx', fun _ he => he⟩
      have h₂ : (l₁.withDom d').Agrees (Calls.upTo client (depth + 2)) hook K r
          [.beforeAttach, .afterAttach, .connect] :=
        h₁.of_same fun _ => rfl
      refine asked_withHook hClient depth hQuiet₂ h₂ (fun o ho => ?_) (by simp)
        fun _ l₃ hTree₃ hDocument₃ hQuiet₃ h₃ hTracked₃ => ?_
      · change (l₁.trackedOf (d'.key r)).observer = some o at ho
        rw [hTracked₁, hTree'.relabeled.key, hKey] at ho
        exact hOwn o ho
      · refine get_bind_congr_run ?_
        have hObservers : l₃.observersIn r = (l.withDom d).observersIn r := by
          refine observersIn_relabeled (l := l.withDom d) (hTree'.trans hTree₃).relabeled
            (fun n => ?_) r
          rw [hTracked₃]
          exact hTracked₁ n
        split
        · refine sure_bind_congr_run (m := fun _ _ => True)
            (notifyConnected_withHook hClient depth hQuiet₃ h₃ (by simp) (by rwa [hObservers])) trivial
            fun _ _ _ => rfl
        · rfl

/-- Detaching calls the hooks of the observers in the node or container alone. -/
theorem detach_withHook (h : l.Agrees (Calls.upTo client (depth + 2)) hook K r
      [.beforeDetach, .afterDetach, .disconnect])
    (hOwn : ∀ o, (l.trackedOf (l.dom.key r)).observer = some o → K o)
    (hIn : l.stateOf r = .attached → (l.dom.takeOut r).key r = l.dom.key r ∧
      ∀ o ∈ (l.withDom (l.dom.takeOut r)).observersIn r, K o) :
    (detach ((Calls.upTo client (depth + 2)).withHook hook) r).run.run l =
      (detach (Calls.upTo client (depth + 2)) r).run.run l := by
  unfold detach
  refine check_bind_congr_run (check_same _ _) fun _ => ?_
  refine check_bind_congr_run (check_same _ _) fun hState => ?_
  obtain ⟨hKey, hIn⟩ := hIn (needState_ok hState)
  refine asked_withHook hClient depth hQuiet h hOwn (by simp)
    fun cancelled l₁ hTree₁ hDocument₁ hQuiet₁ h₁ hTracked₁ => ?_
  split
  · rfl
  · refine get_bind_congr_run ?_
    refine sure_bind_congr_run (m := fun _ l₂ => l₂ = l₁.withDom (l₁.dom.takeOut r)) rfl rfl ?_
    rintro _ _ rfl
    have hTree' := hTree₁.takeOut r
    have hQuiet₂ : (l₁.withDom (l₁.dom.takeOut r)).QuietFor K m :=
      hQuiet₁.of_core (withDom_frame l₁ (.takeOut _ r)) fun o x' hx' => ⟨x', hx', fun _ he => he⟩
    have h₂ : (l₁.withDom (l₁.dom.takeOut r)).Agrees (Calls.upTo client (depth + 2)) hook K r
        [.beforeDetach, .afterDetach, .disconnect] :=
      h₁.of_same fun _ => rfl
    refine asked_withHook hClient depth hQuiet₂ h₂ (fun o ho => ?_) (by simp) fun _ l₃ hTree₃ hDocument₃
      hQuiet₃ h₃ hTracked₃ => ?_
    · change (l₁.trackedOf ((l₁.dom.takeOut r).key r)).observer = some o at ho
      rw [hTracked₁, hTree'.relabeled.key, hKey] at ho
      exact hOwn o ho
    · have hObservers : l₃.observersIn r = (l.withDom (l.dom.takeOut r)).observersIn r := by
        refine observersIn_relabeled (l := l.withDom (l.dom.takeOut r))
          (hTree'.trans hTree₃).relabeled (fun n => ?_) r
        rw [hTracked₃]
        exact hTracked₁ n
      split
      · refine sure_bind_congr_run (m := fun _ _ => True)
          (notifyDisconnected_withHook hClient depth hQuiet₃ h₃ (by simp) (by rwa [hObservers])) trivial
          fun _ _ _ => rfl
      · rfl

/-- Destroying calls the hooks of the observers in the node or container alone. -/
theorem destroy_withHook (h : l.Agrees (Calls.upTo client (depth + 2)) hook K r [.destroy])
    (hIn : ∀ o ∈ l.observersIn r, K o) :
    (destroy ((Calls.upTo client (depth + 2)).withHook hook) r).run.run l =
      (destroy (Calls.upTo client (depth + 2)) r).run.run l := by
  unfold destroy
  refine check_bind_congr_run (check_same _ _) fun _ => ?_
  refine check_bind_congr_run (check_same _ _) fun _ => ?_
  refine sure_bind_congr_run rfl (setState_noted l r .destroying m) fun _ l₁ h₁ => ?_
  refine get_bind_congr_run ?_
  refine act_bind_congr_run (m := fun _ _ => True) (forM_sure_congr_run ?_) trivial
    fun _ _ _ => rfl
  refine tellAll_withHook depth (h₁.quietFor hQuiet) (h.of_same h₁.core) (f := Observer.Core.ended)
    Observer.Core.ended_target (fun x e he => ?_)
    (fun l₂ h₂ o ho => tellDestroyed_withHook depth h₂ (by simp) ho)
    (fun l₂ hQuiet₂ o ho => tellDestroyed_turned hClient depth hQuiet₂ ho) _ fun o ho => ?_
  · exact Observer.Core.mem_of_mem_ended he
  · rw [List.mem_reverse, observersIn_congr h₁.dom h₁.observer r] at ho
    exact hIn o ho

end Transitions

end LiveMarkup.Live
