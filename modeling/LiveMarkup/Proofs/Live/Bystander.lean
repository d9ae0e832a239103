import LiveMarkup.Proofs.Live.Running

/-!
# Conditions that transitions do not matter to

A transition changes the tree, what is known about nodes, and observers. A condition that these do
not matter to is kept by every transition, if the hooks keep it.

* `Sustains`: an operation keeps a condition, and its faults are of a kind;
* `Stepwise`: every step of a transition keeps it;
* `Stepwise.attach`, `Stepwise.destroy`, …: so transitions keep it;
* `Bystander.stepwise`: a condition that what transitions change does not matter to.
-/

namespace LiveMarkup.Live

variable {κ σ α β : Type} {P : Live κ σ → Prop} {Q : Fault → Prop}

/-! ## Keeping a condition, with faults of a kind -/

/-- An operation keeps a condition, and its faults are of a kind. -/
def Sustains (P : Live κ σ → Prop) (Q : Fault → Prop) (op : Act κ σ α) : Prop :=
  ∀ l, P l → After op.run l fun out l' => P l' ∧ ∀ e, out = .error e → Q e

namespace Sustains

theorem pure (a : α) : Sustains P Q (Pure.pure a : Act κ σ α) := by
  intro l hl
  exact ⟨hl, fun _ he => nomatch he⟩

theorem throw {e : Fault} (he : Q e) : Sustains P Q (throw e : Act κ σ α) := by
  intro l hl
  exact ⟨hl, fun _ hEq => Except.error.inj hEq ▸ he⟩

theorem get : Sustains P Q (MonadState.get : Act κ σ (Live κ σ)) := by
  intro l hl
  exact ⟨hl, fun _ he => nomatch he⟩

theorem sure {op : LiveM κ σ α} (h : Keeps P op) : Sustains P Q (Live.sure op) := by
  intro l hl
  exact ⟨h l hl, fun _ he => nomatch he⟩

theorem bind {op : Act κ σ α} {f : α → Act κ σ β} (h : Sustains P Q op)
    (hRest : ∀ a, Sustains P Q (f a)) : Sustains P Q (op >>= f) := by
  intro l hl
  refine After.act_bind (h l hl) (fun a l' h' => hRest a l' h'.1) ?_
  rintro e l' ⟨hl', he⟩
  exact ⟨hl', fun _ hEq => Except.error.inj hEq ▸ he e rfl⟩

/-- What comes out of a step that cannot be refused may be used from then on. -/
theorem sure_bind_of {op : LiveM κ σ α} {f : α → Act κ σ β} {m : α → Prop}
    (h : ∀ l, P l → After op l fun a l' => P l' ∧ m a) (hRest : ∀ a, m a → Sustains P Q (f a)) :
    Sustains P Q (Live.sure op >>= f) :=
  fun l hl => After.bind (h l hl) fun a l' h' => hRest a h'.2 l' h'.1

theorem sure_bind {op : LiveM κ σ α} {f : α → Act κ σ β} (h : Keeps P op)
    (hRest : ∀ a, Sustains P Q (f a)) : Sustains P Q (Live.sure op >>= f) :=
  (sure h).bind hRest

theorem ensureLive (hTorn : Q .tornDown) : Sustains P Q (ensureLive : Act κ σ Unit) := by
  refine get.bind fun l => ?_
  split
  · exact throw hTorn
  · exact pure _

theorem get_bind {f : Live κ σ → Act κ σ β} (h : ∀ l, P l → Sustains P Q (f l)) :
    Sustains P Q (MonadState.get >>= f) := fun l hl => h l hl l hl

theorem forM {xs : List α} {f : α → Act κ σ PUnit} (h : ∀ x ∈ xs, Sustains P Q (f x)) :
    Sustains P Q (xs.forM f) := by
  induction xs with
  | nil => exact pure _
  | cons x xs ih =>
    exact (h x List.mem_cons_self).bind fun _ => ih fun y hy => h y (List.mem_cons_of_mem _ hy)

theorem keeps {op : Act κ σ α} (h : Sustains P Q op) : Keeps P op.run := by
  intro l hl
  exact (h l hl).mono fun _ _ h' => h'.1

theorem keeps_of_sure {op : LiveM κ σ α} (h : Sustains P Q (Live.sure op)) : Keeps P op := by
  intro l hl
  exact (h l hl).1

theorem attempt {op : Act κ σ Unit} (h : Sustains P Q op) : Keeps P (Live.attempt op) :=
  Keeps.bind h.keeps fun _ => Keeps.pure _

end Sustains

theorem Keeps.foldlM {xs : List α} {f : β → α → LiveM κ σ β} (h : ∀ b x, Keeps P (f b x)) (b : β) :
    Keeps P (xs.foldlM f b) := fun _ hl =>
  After.foldlM (k := fun _ _ => P) hl fun x _ b l' hl' => h b x l' hl'

/-! ## Hooks -/

namespace Keeps

variable {calls : Calls κ σ} (hHook : ∀ h event, Keeps P (calls.hook h event))
include hHook

theorem runHooks (event : Event) (hooks : List (Hook κ)) :
    Keeps P (runHooks calls event hooks) := by
  induction hooks with
  | nil => exact Keeps.pure _
  | cons hook rest ih =>
    refine Keeps.bind (hHook hook event) fun cancels => ?_
    split
    · exact Keeps.pure _
    · exact ih

theorem fire (o : ObserverId) (event : Event) : Keeps P (fire calls o event) :=
  Keeps.bind Keeps.get fun _ => Keeps.runHooks hHook event _

theorem fireAt (r : NodeRef) (kind : EventKind) : Keeps P (fireAt calls r kind) := by
  refine Keeps.bind Keeps.get fun l => ?_
  split
  · exact Keeps.pure _
  · exact Keeps.fire hHook _ _

theorem tell (o : ObserverId) (kind : EventKind) : Keeps P (tell calls o kind) := by
  refine Keeps.bind Keeps.get fun l => ?_
  split
  · exact Keeps.pure _
  · exact Keeps.bind (Keeps.fire hHook _ _) fun _ => Keeps.pure _

end Keeps

/-! ## What is asked -/

/-- The faults that operations on nodes report. -/
def Fault.IsStructural : Fault → Prop
  | .invalidState _ _ _ => True
  | .parentUnavailable _ _ => True
  | .notAChild _ => True
  | .subscriptionDestroyed => True
  | .tornDown => True
  | _ => False

/-! ## Transitions -/

/-- Each step of a transition keeps a condition, and the faults of transitions are of a kind. -/
structure Stepwise (P : Live κ σ → Prop) (Q : Fault → Prop) (calls : Calls κ σ) : Prop where
  structural {e : Fault} : e.IsStructural → Q e
  modifyDom (f : Dom → Dom) : Keeps P (modifyDom f)
  setState (r : NodeRef) (state : NodeState) : Keeps P (setState r state)
  noteMoves (r : NodeRef) : Keeps P (noteMoves r)
  bury (n : NodeId) : Keeps P (bury n)
  fireAt (r : NodeRef) {kind : EventKind} : kind ∉ [.connect, .disconnect, .destroy] →
    Keeps P (fireAt calls r kind)
  tellConnected (o : ObserverId) : Keeps P (tellConnected calls o)
  tellDisconnected (o : ObserverId) : Keeps P (tellDisconnected calls o)
  tellDestroyed (o : ObserverId) : Keeps P (tellDestroyed calls o)

namespace Stepwise

variable {calls : Calls κ σ} (h : Stepwise P Q calls)
include h

theorem ensureLive : Sustains P Q (ensureLive : Act κ σ Unit) :=
  Sustains.ensureLive (h.structural trivial)

theorem tryInDom (f : Dom → Except NotAChild Dom) :
    Sustains P Q (tryInDom f : Act κ σ Unit) := by
  refine Sustains.get.bind fun l => ?_
  split
  · exact Sustains.sure (h.modifyDom fun _ => _)
  · exact Sustains.throw (h.structural trivial)

theorem needState (transition : Transition) (r : NodeRef) :
    Sustains P Q (needState transition r : Act κ σ Unit) := by
  refine Sustains.get.bind fun l => ?_
  split
  · exact Sustains.throw (h.structural trivial)
  · exact Sustains.pure _

theorem needParent (parent : NodeRef) : Sustains P Q (needParent parent : Act κ σ Unit) := by
  refine Sustains.get.bind fun l => ?_
  split
  · exact Sustains.throw (h.structural trivial)
  · exact Sustains.pure _

theorem notifyConnected (r : NodeRef) : Keeps P (notifyConnected calls r) :=
  Keeps.bind Keeps.get fun _ => Keeps.forM fun o => h.tellConnected o

theorem notifyDisconnected (r : NodeRef) : Keeps P (notifyDisconnected calls r) :=
  Keeps.bind Keeps.get fun _ => Keeps.forM fun o => h.tellDisconnected o

theorem attach (r parent : NodeRef) (before : Option NodeRef) :
    Sustains P Q (attach calls r parent before) := by
  refine h.ensureLive.bind fun _ => (h.needState _ _).bind fun _ => ?_
  refine (h.needParent _).bind fun _ => Sustains.sure_bind (h.setState _ _) fun _ => ?_
  refine Sustains.sure_bind (h.fireAt _ (by decide)) fun cancels => ?_
  split
  · exact Sustains.sure (h.setState _ _)
  · refine Sustains.get.bind fun l => ?_
    split
    · refine Sustains.sure_bind (h.setState _ _) fun _ => ?_
      exact Sustains.throw (h.structural trivial)
    · refine Sustains.sure_bind (h.modifyDom _) fun _ => ?_
      refine Sustains.sure_bind (h.setState _ _) fun _ => ?_
      refine Sustains.sure_bind (h.fireAt _ (by decide)) fun _ => Sustains.get.bind fun l => ?_
      split
      · refine Sustains.sure_bind (h.notifyConnected _) fun _ => ?_
        exact Sustains.sure (h.noteMoves _)
      · exact Sustains.sure (h.noteMoves _)

theorem detach (r : NodeRef) : Sustains P Q (detach calls r) := by
  refine h.ensureLive.bind fun _ => (h.needState _ _).bind fun _ => ?_
  refine Sustains.sure_bind (h.setState _ _) fun _ => ?_
  refine Sustains.sure_bind (h.fireAt _ (by decide)) fun cancels => ?_
  split
  · exact Sustains.sure (h.setState _ _)
  · refine Sustains.get.bind fun l => Sustains.sure_bind (h.modifyDom _) fun _ => ?_
    refine Sustains.sure_bind (h.setState _ _) fun _ => ?_
    refine Sustains.sure_bind (h.fireAt _ (by decide)) fun _ => ?_
    dsimp only
    split
    · refine Sustains.sure_bind (h.notifyDisconnected _) fun _ => ?_
      exact Sustains.sure (h.noteMoves _)
    · exact Sustains.sure (h.noteMoves _)

theorem destroy (r : NodeRef) : Sustains P Q (destroy calls r) := by
  refine h.ensureLive.bind fun _ => (h.needState _ _).bind fun _ => ?_
  refine Sustains.sure_bind (h.setState _ _) fun _ => Sustains.get.bind fun l => ?_
  refine (Sustains.forM fun o _ => Sustains.sure (h.tellDestroyed o)).bind fun _ => ?_
  exact Sustains.get.bind fun _ => Sustains.forM fun n _ => Sustains.sure (h.bury n)

theorem moveTo (r parent : NodeRef) (before : Option NodeRef) :
    Sustains P Q (moveTo calls r parent before) := by
  refine h.ensureLive.bind fun _ => (h.needState _ _).bind fun _ => ?_
  refine Sustains.get.bind fun l => (h.tryInDom _).bind fun _ => Sustains.get.bind fun l' => ?_
  dsimp only
  split
  · refine Sustains.sure_bind (h.notifyConnected _) fun _ => ?_
    exact Sustains.sure (h.noteMoves _)
  · split
    · refine Sustains.sure_bind (h.notifyDisconnected _) fun _ => ?_
      exact Sustains.sure (h.noteMoves _)
    · exact Sustains.sure (h.noteMoves _)

theorem attachAnywhere (r parent : NodeRef) (before : Option NodeRef) :
    Sustains P Q (attachAnywhere calls r parent before) := by
  refine Sustains.get.bind fun l => ?_
  split
  · exact h.attach _ _ _
  · split
    · refine (h.detach r).bind fun _ => Sustains.get.bind fun _ => ?_
      split
      · exact h.attach _ _ _
      · exact Sustains.pure _
    · exact Sustains.pure _
  · exact Sustains.pure _

theorem detachIfAttached (r : NodeRef) : Sustains P Q (detachIfAttached calls r) := by
  refine Sustains.get.bind fun l => ?_
  split
  · exact h.detach r
  · exact Sustains.pure _

theorem destroyFully (r : NodeRef) : Sustains P Q (destroyFully calls r) := by
  refine Sustains.get.bind fun l => ?_
  split
  · exact Sustains.pure _
  · exact Sustains.pure _
  · refine (h.detach r).bind fun _ => Sustains.get.bind fun _ => ?_
    split
    · exact h.destroy r
    · exact Sustains.pure _
  · exact h.destroy r

end Stepwise

/-! ## Bystanders -/

/-- Two states differ in the tree, in what is known about nodes and in observers at most. -/
def Besides (l l' : Live κ σ) : Prop :=
  ∃ dom tracked observers movers extras,
    l' = { l with dom, tracked, observers, movers, extras }

/-- A condition that the tree, what is known about nodes and observers do not matter to. -/
structure Bystander (P : Live κ σ → Prop) (Q : Fault → Prop) : Prop where
  congr {l l' : Live κ σ} : P l → Besides l l' → P l'
  structural {e : Fault} : e.IsStructural → Q e

namespace Bystander

variable (hB : Bystander P Q)
include hB

/-! ## Steps that call nothing -/

theorem aside {op : LiveM κ σ α} (h : ∀ l, After op l fun _ => Besides l) : Keeps P op :=
  fun l hl => (h l).mono fun _ _ hl' => hB.congr hl hl'

theorem modifyDom (f : Dom → Dom) : Keeps P (modifyDom f : LiveM κ σ Unit) :=
  hB.aside fun _ => ⟨_, _, _, _, _, rfl⟩

theorem modifyTracked (n : NodeId) (f : Tracked → Tracked) :
    Keeps P (modifyTracked n f : LiveM κ σ Unit) :=
  hB.aside fun _ => ⟨_, _, _, _, _, rfl⟩

theorem setState (r : NodeRef) (state : NodeState) :
    Keeps P (setState r state : LiveM κ σ Unit) :=
  hB.aside fun _ => ⟨_, _, _, _, _, rfl⟩

theorem modifyObserver (o : ObserverId) (f : Observer κ → Observer κ) :
    Keeps P (modifyObserver o f : LiveM κ σ Unit) :=
  hB.aside fun _ => ⟨_, _, _, _, _, rfl⟩

theorem notePlace (o : ObserverId) : Keeps P (notePlace o : LiveM κ σ Unit) :=
  hB.aside fun _ => ⟨_, _, _, _, _, rfl⟩

theorem untrackMoves (o : ObserverId) : Keeps P (untrackMoves o : LiveM κ σ Unit) :=
  hB.aside fun _ => ⟨_, _, _, _, _, rfl⟩

theorem noteMoves (r : NodeRef) : Keeps P (noteMoves r : LiveM κ σ Unit) := by
  refine Keeps.bind Keeps.get fun l => ?_
  split
  · exact Keeps.forM fun o => hB.notePlace o
  · exact Keeps.pure _

theorem bury (n : NodeId) : Keeps P (bury n : LiveM κ σ Unit) :=
  hB.aside fun _ => ⟨_, _, _, _, _, rfl⟩

variable {calls : Calls κ σ} (hHook : ∀ h event, Keeps P (calls.hook h event))
include hHook

/-! ## Notices -/

theorem tellConnected (o : ObserverId) : Keeps P (tellConnected calls o) := by
  refine Keeps.bind Keeps.get fun l => ?_
  split
  · exact Keeps.bind (hB.modifyObserver _ _) fun _ => Keeps.tell hHook _ _
  · exact Keeps.pure _

theorem tellDisconnected (o : ObserverId) : Keeps P (tellDisconnected calls o) := by
  refine Keeps.bind Keeps.get fun l => ?_
  split
  · exact Keeps.bind (hB.modifyObserver _ _) fun _ => Keeps.tell hHook _ _
  · exact Keeps.pure _

theorem tellDestroyed (o : ObserverId) : Keeps P (tellDestroyed calls o) := by
  refine Keeps.bind Keeps.get fun l => ?_
  split
  · refine Keeps.bind (Keeps.tell hHook _ _) fun _ => ?_
    exact Keeps.bind (hB.modifyObserver _ _) fun _ => hB.untrackMoves _
  · exact Keeps.pure _

theorem stepwise : Stepwise P Q calls where
  structural := hB.structural
  modifyDom := hB.modifyDom
  setState := hB.setState
  noteMoves := hB.noteMoves
  bury := hB.bury
  fireAt r _ _ := Keeps.fireAt hHook r _
  tellConnected := hB.tellConnected hHook
  tellDisconnected := hB.tellDisconnected hHook
  tellDestroyed := hB.tellDestroyed hHook

end Bystander

end LiveMarkup.Live
