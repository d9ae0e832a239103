import LiveMarkup.Proofs.Live.Quiet
import LiveMarkup.Live.Lifecycle

/-!
# Telling observers

What the operations do to observers whose hooks are quiet: the tree stays as it is but for what is
written, and the status of those that are told changes.

* `tellConnected_turned`, `tellDisconnected_turned`, `tellDestroyed_turned`: one observer is told;
* `notifyConnected_changed`, `notifyDisconnected_changed`: all observers in a node or container
  are told.
-/

namespace LiveMarkup.Live

variable {κ σ : Type} {client : Client κ σ} {l l₁ l' : Live κ σ} {K : ObserverId → Prop}
variable {m : Leeway κ}

/-! ## Observers without their places -/

/-- What there is to an observer but the place where its target was seen last. -/
structure Observer.Core (κ : Type) where
  target : NodeRef
  status : Connectivity
  hooks : List (Observer.Entry κ)

/-- What there is to an observer but the place where its target was seen last. -/
def Observer.core (x : Observer κ) : Observer.Core κ :=
  ⟨x.target, x.status, x.hooks⟩

/-- The target, status and hooks of an observer. -/
def core? (l : Live κ σ) (o : ObserverId) : Option (Observer.Core κ) :=
  (l.observer? o).map Observer.core

namespace Observer.Core

/-- Another status, unless the observer is destroyed. -/
def turn (c : Connectivity) (x : Core κ) : Core κ :=
  if x.status = .destroyed then x else { x with status := c }

/-- The observer has ended. -/
def ended (x : Core κ) : Core κ :=
  if x.status = .destroyed then x else { x with status := .destroyed, hooks := [] }

theorem turn_of_ne {x : Core κ} (c : Connectivity) (h : x.status ≠ .destroyed) :
    x.turn c = { x with status := c } := if_neg h

theorem turn_of_eq {x : Core κ} (c : Connectivity) (h : x.status = .destroyed) :
    x.turn c = x := if_pos h

theorem ended_of_ne {x : Core κ} (h : x.status ≠ .destroyed) :
    x.ended = { x with status := .destroyed, hooks := [] } := if_neg h

theorem ended_of_eq {x : Core κ} (h : x.status = .destroyed) : x.ended = x := if_pos h

@[simp]
theorem turn_target (c : Connectivity) (x : Core κ) : (x.turn c).target = x.target := by
  unfold turn
  split <;> rfl

@[simp]
theorem turn_hooks (c : Connectivity) (x : Core κ) : (x.turn c).hooks = x.hooks := by
  unfold turn
  split <;> rfl

@[simp]
theorem ended_target (x : Core κ) : x.ended.target = x.target := by
  unfold ended
  split <;> rfl

/-- An observer that has ended has no more hooks than before. -/
theorem mem_of_mem_ended {x : Core κ} {e : Observer.Entry κ} (h : e ∈ x.ended.hooks) :
    e ∈ x.hooks := by
  unfold ended at h
  split at h
  · exact h
  · cases h

@[simp]
theorem ended_status (x : Core κ) : x.ended.status = .destroyed := by
  unfold ended
  split
  · assumption
  · rfl

theorem turn_turn (c : Connectivity) (x : Core κ) : (x.turn c).turn c = x.turn c := by
  by_cases h : x.status = .destroyed
  · rw [turn_of_eq c h, turn_of_eq c h]
  · rw [turn_of_ne c h]
    unfold turn
    split <;> rfl

theorem ended_ended (x : Core κ) : x.ended.ended = x.ended :=
  ended_of_eq x.ended_status

end Observer.Core

theorem statusOf_eq {o : ObserverId} {x : Observer.Core κ} (hx : l.core? o = some x) :
    l.statusOf o = x.status := by
  unfold core? at hx
  cases hy : l.observer? o with
  | none => simp [hy] at hx
  | some y =>
    rw [hy] at hx
    obtain rfl := Option.some.inj hx
    simp [statusOf, hy, Observer.core]

theorem exists_core {o : ObserverId} (h : l.statusOf o ≠ .destroyed) :
    ∃ x, l.core? o = some x ∧ x.status = l.statusOf o := by
  cases hx : l.core? o with
  | none =>
    have hNone : l.observer? o = none := by simpa [core?] using hx
    simp [statusOf, hNone] at h
  | some x => exact ⟨x, rfl, (statusOf_eq hx).symm⟩

theorem mem_hooksFor {o : ObserverId} {kind : EventKind} {h : Hook κ} :
    h ∈ l.hooksFor o kind ↔ ∃ x, l.core? o = some x ∧
      ∃ e ∈ x.hooks, e.kind = kind ∧ e.hook = h := by
  unfold hooksFor core?
  rw [List.mem_filterMap]
  cases hx : l.observer? o with
  | none => simp
  | some x => simp [Observer.core]

theorem Calm.core?_eq (h : Calm l l' m) (o : ObserverId) : l'.core? o = l.core? o := by
  simp only [core?, observer?, h.observers]

theorem Calm.trackedOf_eq (h : Calm l l' m) (n : NodeId) : l'.trackedOf n = l.trackedOf n := by
  simp only [trackedOf, h.tracked]

/-! ## One observer -/

/-- The state with one observer changed. -/
def withObserver (l : Live κ σ) (o : ObserverId) (f : Observer κ → Observer κ) : Live κ σ :=
  { l with observers := l.observers.modify o f }

/-- One observer changes; tree and tables stay as they are, but for what is written. -/
structure Turned (l l' : Live κ σ) (o : ObserverId) (f : Observer.Core κ → Observer.Core κ)
    (m : Leeway κ := .strict) : Prop extends Frame l l' m where
  tree : m.Tree l.dom l'.dom
  tracked : l'.tracked = l.tracked
  core : ∀ p, l'.core? p = (l.core? p).map fun x => if p = o then f x else x

namespace Turned

variable {o : ObserverId} {f : Observer.Core κ → Observer.Core κ}

theorem dom (h : Turned l l' o f) : l'.dom = l.dom := h.tree

theorem refl (l : Live κ σ) (o : ObserverId) (h : ∀ x, l.core? o = some x → f x = x) :
    Turned l l o f m := by
  refine ⟨Frame.refl l, .refl m _, rfl, fun p => ?_⟩
  cases hx : l.core? p with
  | none => rfl
  | some x =>
    by_cases hp : p = o
    · subst hp
      simp [h x hx]
    · simp [hp]

theorem of_withObserver (l : Live κ σ) (o : ObserverId) {g : Observer κ → Observer κ}
    (h : ∀ x, (g x).core = f x.core) : Turned l (l.withObserver o g) o f m := by
  refine ⟨Frame.aside l _ _ _ _ _ _ _ _ _ (.refl _), .refl m _, rfl, fun p => ?_⟩
  simp only [core?, observer?, withObserver, Array.getElem?_modify]
  by_cases hp : o = p
  · subst hp
    cases l.observers[o]? <;> simp [h]
  · have hne : p ≠ o := fun he => hp he.symm
    rw [if_neg hp]
    cases l.observers[p]? <;> simp [hne]

theorem calm (h : Turned l l₁ o f m) (hCalm : Calm l₁ l' m) : Turned l l' o f m where
  toFrame := h.toFrame.trans hCalm.toFrame
  tree := h.tree.trans hCalm.tree
  tracked := hCalm.tracked.trans h.tracked
  core p := by rw [hCalm.core?_eq, h.core]

variable (h : Turned l l' o f m)
include h

theorem of_other {p : ObserverId} {y : Observer.Core κ} (hp : p ≠ o) :
    l'.core? p = some y ↔ l.core? p = some y := by
  rw [h.core]
  cases l.core? p <;> simp [hp]

theorem of_self {x : Observer.Core κ} (hx : l.core? o = some x) : l'.core? o = some (f x) := by
  rw [h.core, hx]
  simp

end Turned

/-- If one observer changed, one that is found afterwards is that or was there before. -/
theorem core_cases {o p : ObserverId} {f : Observer.Core κ → Observer.Core κ} {x y : Observer.Core κ}
    (hCore : ∀ p, l'.core? p = (l.core? p).map fun x => if p = o then f x else x)
    (hx : l.core? o = some x) (hy : l'.core? p = some y) :
    (p = o ∧ y = f x) ∨ (p ≠ o ∧ l.core? p = some y) := by
  rw [hCore] at hy
  by_cases hp : p = o
  · subst hp
    rw [hx, Option.map_some, if_pos rfl] at hy
    exact .inl ⟨rfl, (Option.some.inj hy).symm⟩
  · simp only [if_neg hp, Option.map_id'] at hy
    exact .inr ⟨hp, hy⟩

/-! ## Quiet observers -/

/-- The hooks of some observers are quiet. -/
def QuietFor (l : Live κ σ) (K : ObserverId → Prop) (m : Leeway κ := .strict) : Prop :=
  ∀ o, K o → ∀ x, l.core? o = some x → ∀ e ∈ x.hooks, e.hook.Quiet l m

theorem QuietFor.of_core (h : l.QuietFor K m) (hFrame : Frame l l' m)
    (hCore : ∀ o x', l'.core? o = some x' → ∃ x, l.core? o = some x ∧ ∀ e ∈ x'.hooks, e ∈ x.hooks) :
    l'.QuietFor K m := by
  intro o ho x' hx' e he
  obtain ⟨x, hx, hHooks⟩ := hCore o x' hx'
  exact hFrame.hook_quiet (h o ho x hx e (hHooks e he))

theorem QuietFor.turned {o : ObserverId} {f : Observer.Core κ → Observer.Core κ}
    (h : l.QuietFor K m) (hTurned : Turned l l' o f m)
    (hHooks : ∀ x, ∀ e ∈ (f x).hooks, e ∈ x.hooks) : l'.QuietFor K m := by
  refine h.of_core hTurned.toFrame fun p x' hx' => ?_
  obtain ⟨x, hx, rfl⟩ := Option.map_eq_some_iff.mp ((hTurned.core p).symm.trans hx')
  refine ⟨x, hx, fun e he => ?_⟩
  split at he
  · exact hHooks x e he
  · exact he

variable (hClient : client.Quiet) (depth : Nat)
include hClient

theorem fire_calm (hQuiet : l.QuietFor K m) {o : ObserverId} (ho : K o) (event : Event) :
    After (fire (Calls.upTo client (depth + 2)) o event) l fun _ l' => Calm l l' m := by
  unfold fire
  rw [after_bind, after_get]
  refine (runHooks_quiet hClient depth (fun h hh => ?_) event).mono fun _ _ h => h.1
  obtain ⟨x, hx, e, he, _, rfl⟩ := mem_hooksFor.mp hh
  exact hQuiet o ho x hx e he

theorem fireAt_calm (hQuiet : l.QuietFor K m) {r : NodeRef}
    (hr : ∀ o, (l.trackedOf (l.dom.key r)).observer = some o → K o) (kind : EventKind) :
    After (fireAt (Calls.upTo client (depth + 2)) r kind) l fun _ l' => Calm l l' m := by
  unfold fireAt
  rw [after_bind, after_get]
  split
  · exact Calm.refl l
  · rename_i o ho
    exact fire_calm hClient depth hQuiet (hr o ho) _

theorem tell_calm (hQuiet : l.QuietFor K m) {o : ObserverId} (ho : K o) (kind : EventKind) :
    After (tell (Calls.upTo client (depth + 2)) o kind) l fun _ l' => Calm l l' m := by
  unfold tell
  rw [after_bind, after_get]
  split
  · exact Calm.refl l
  · rw [after_bind]
    exact fire_calm hClient depth hQuiet ho _

omit hClient in
theorem setStatus_turned (l : Live κ σ) (o : ObserverId) (c : Connectivity)
    (m : Leeway κ := .strict) :
    After (setStatus o c) l fun _ l' => Turned l l' o (Observer.Core.turn c) m :=
  Turned.of_withObserver l o fun x => by
    unfold Observer.Core.turn Observer.core
    split <;> rfl

/-- Telling an observer of its new status. -/
theorem turn_turned (hQuiet : l.QuietFor K m) {o : ObserverId} (ho : K o) (c : Connectivity)
    (kind : EventKind) :
    After (do
        setStatus o c
        tell (Calls.upTo client (depth + 2)) o kind) l fun _ l' =>
      Turned l l' o (Observer.Core.turn c) m := by
  refine (setStatus_turned l o c m).bind fun _ l₁ h₁ => ?_
  refine (tell_calm hClient depth (hQuiet.turned h₁ ?_) ho kind).mono fun _ l' h => h₁.calm h
  simp

theorem tellConnected_turned (hQuiet : l.QuietFor K m) {o : ObserverId} (ho : K o) :
    After (tellConnected (Calls.upTo client (depth + 2)) o) l fun _ l' =>
      Turned l l' o (Observer.Core.turn .connected) m := by
  unfold tellConnected
  rw [after_bind, after_get]
  split
  · exact turn_turned hClient depth hQuiet ho _ _
  · rename_i hStatus
    refine Turned.refl l o fun x hx => ?_
    rw [statusOf_eq hx] at hStatus
    obtain ⟨target, status, hooks⟩ := x
    cases status <;> simp_all [Observer.Core.turn]

theorem tellDisconnected_turned (hQuiet : l.QuietFor K m) {o : ObserverId} (ho : K o) :
    After (tellDisconnected (Calls.upTo client (depth + 2)) o) l fun _ l' =>
      Turned l l' o (Observer.Core.turn .disconnected) m := by
  unfold tellDisconnected
  rw [after_bind, after_get]
  split
  · exact turn_turned hClient depth hQuiet ho _ _
  · rename_i hStatus
    refine Turned.refl l o fun x hx => ?_
    rw [statusOf_eq hx] at hStatus
    obtain ⟨target, status, hooks⟩ := x
    cases status <;> simp_all [Observer.Core.turn]

omit hClient in
theorem endObserver_turned (l : Live κ σ) {o : ObserverId} (h : l.statusOf o ≠ .destroyed)
    (m : Leeway κ := .strict) :
    After (endObserver o) l fun _ l' => Turned l l' o Observer.Core.ended m := by
  refine Turned.calm ?_
    (Calm.refl (l.withObserver o fun x => { x with status := .destroyed, hooks := [] }))
  have hRaw := Turned.of_withObserver (m := m) l o
    (g := fun x => { x with status := .destroyed, hooks := [] })
    (f := fun x => { x with status := .destroyed, hooks := [] }) fun _ => rfl
  refine ⟨hRaw.toFrame, hRaw.tree, hRaw.tracked, fun p => ?_⟩
  rw [hRaw.core]
  cases hx : l.core? p with
  | none => rfl
  | some x =>
    by_cases hp : p = o
    · subst hp
      rw [statusOf_eq hx] at h
      simp [Observer.Core.ended_of_ne h]
    · simp [hp]

omit hClient in
theorem untrackMoves_calm (l : Live κ σ) (o : ObserverId) :
    After (untrackMoves o) l fun _ l' => Frame l l' m ∧ l'.dom = l.dom ∧ l'.tracked = l.tracked ∧
      ∀ p, l'.core? p = l.core? p :=
  ⟨Frame.aside l _ _ _ _ _ _ _ _ _ (.refl _), rfl, rfl, fun _ => rfl⟩

theorem tellDestroyed_turned (hQuiet : l.QuietFor K m) {o : ObserverId} (ho : K o) :
    After (tellDestroyed (Calls.upTo client (depth + 2)) o) l fun _ l' =>
      Turned l l' o Observer.Core.ended m := by
  unfold tellDestroyed
  rw [after_bind, after_get]
  split
  · rename_i hStatus
    refine (tell_calm hClient depth hQuiet ho .destroy).bind fun _ l₁ h₁ => ?_
    have hStatus₁ : l₁.statusOf o ≠ .destroyed := by
      simpa [statusOf, observer?, h₁.observers] using hStatus
    refine (endObserver_turned l₁ hStatus₁ m).bind fun _ l₂ h₂ => ?_
    refine (untrackMoves_calm (m := m) l₂ o).mono ?_
    rintro _ l₃ ⟨hFrame, hDom, hTracked, hCore⟩
    refine ⟨(h₁.toFrame.trans h₂.toFrame).trans hFrame, hDom ▸ h₁.tree.trans h₂.tree,
      hTracked.trans (h₂.tracked.trans h₁.tracked), fun p => ?_⟩
    rw [hCore, h₂.core, h₁.core?_eq]
  · rename_i hStatus
    refine Turned.refl l o fun x hx => ?_
    rw [statusOf_eq hx, Decidable.not_not] at hStatus
    exact Observer.Core.ended_of_eq hStatus

/-! ## Many observers -/

/-- The tree becomes another one, but for what is written, and observers change; the tables stay as
they are. -/
structure Changed (l l' : Live κ σ) (d : Dom) (f : ObserverId → Observer.Core κ → Observer.Core κ)
    (m : Leeway κ := .strict) : Prop extends Frame l l' m where
  tree : m.Tree d l'.dom
  tracked : ∀ n, l'.trackedOf n = l.trackedOf n
  core : ∀ o, l'.core? o = (l.core? o).map (f o)

/-- Nothing changes that can be seen of the tree, the tables and the observers. -/
abbrev Alike (l l' : Live κ σ) (m : Leeway κ := .strict) : Prop :=
  Changed l l' l.dom (fun _ => id) m

/-- Some observers get another status. -/
def turnAll (os : List ObserverId) (c : Connectivity) (o : ObserverId) (x : Observer.Core κ) :
    Observer.Core κ :=
  if o ∈ os then x.turn c else x

omit hClient in
theorem turnAll_target (os : List ObserverId) (c : Connectivity) (o : ObserverId)
    (x : Observer.Core κ) : (turnAll os c o x).target = x.target := by
  unfold turnAll
  split <;> simp

omit hClient in
theorem turnAll_ended (os : List ObserverId) {c : Connectivity} (hC : c ≠ .destroyed)
    (o : ObserverId) (x : Observer.Core κ) :
    (turnAll os c o x).status = .destroyed ↔ x.status = .destroyed := by
  unfold turnAll Observer.Core.turn
  split
  · split
    · rfl
    · rename_i hNe
      exact iff_of_false hC hNe
  · rfl

omit hClient in
theorem turnAll_of_mem {os : List ObserverId} (c : Connectivity) {o : ObserverId}
    {x : Observer.Core κ} (ho : o ∈ os) (hNe : x.status ≠ .destroyed) :
    (turnAll os c o x).status = c := by
  rw [turnAll, if_pos ho, Observer.Core.turn_of_ne c hNe]

omit hClient in
theorem turnAll_of_not_mem {os : List ObserverId} (c : Connectivity) {o : ObserverId}
    (x : Observer.Core κ) (ho : o ∉ os) : turnAll os c o x = x :=
  if_neg ho

namespace Changed

omit hClient in
theorem dom {d : Dom} {f : ObserverId → Observer.Core κ → Observer.Core κ} (h : Changed l l' d f) :
    l'.dom = d := h.tree

omit hClient in
theorem alike_of_calm (h : Calm l l' m) : Alike l l' m :=
  ⟨h.toFrame, h.tree, h.trackedOf_eq, fun o => by rw [h.core?_eq, Option.map_id, id]⟩

omit hClient in
theorem quietFor {d : Dom} {f : ObserverId → Observer.Core κ → Observer.Core κ}
    (h : Changed l l' d f m) (hQuiet : l.QuietFor K m)
    (hHooks : ∀ o x, ∀ e ∈ (f o x).hooks, e ∈ x.hooks) : l'.QuietFor K m := by
  refine hQuiet.of_core h.toFrame fun o x' hx' => ?_
  obtain ⟨x, hx, rfl⟩ := Option.map_eq_some_iff.mp ((h.core o).symm.trans hx')
  exact ⟨x, hx, hHooks o x⟩

end Changed

omit hClient in
theorem Alike.core_eq (h : Alike l l' m) (o : ObserverId) : l'.core? o = l.core? o := by
  rw [h.core, Option.map_id, id]

omit hClient in
theorem Alike.trans (h₁ : Alike l l₁ m) (h₂ : Alike l₁ l' m) : Alike l l' m where
  toFrame := h₁.toFrame.trans h₂.toFrame
  tree := h₁.tree.trans h₂.tree
  tracked n := (h₂.tracked n).trans (h₁.tracked n)
  core o := by rw [h₂.core_eq, h₁.core]

omit hClient in
/-- A loop that tells one observer after the other. -/
theorem changed_forM (tellOne : ObserverId → LiveM κ σ Unit)
    {f : Observer.Core κ → Observer.Core κ} (hTwice : ∀ x, f (f x) = f x)
    (hHooks : ∀ x, ∀ e ∈ (f x).hooks, e ∈ x.hooks)
    (hOne : ∀ l : Live κ σ, l.QuietFor K m → ∀ o, K o → After (tellOne o) l fun _ l' =>
      Turned l l' o f m)
    (hQuiet : l.QuietFor K m) (os : List ObserverId) (hos : ∀ o ∈ os, K o) :
    After (os.forM tellOne) l fun _ l' =>
      Changed l l' l.dom (fun o x => if o ∈ os then f x else x) m := by
  -- some are told already, the others are still to be told
  refine (After.forM (k := fun rest l' => ∃ told, told ++ rest = os ∧
    Changed l l' l.dom (fun o x => if o ∈ told then f x else x) m) ?_ ?_).mono ?_
  · refine ⟨[], rfl, Frame.refl l, .refl m _, fun _ => rfl, fun o => ?_⟩
    simp
  · rintro o rest l₁ ⟨told, rfl, h₁⟩
    have hQuiet₁ := h₁.quietFor hQuiet fun p x e he => by
      by_cases hp : p ∈ told
      · rw [if_pos hp] at he
        exact hHooks x e he
      · rwa [if_neg hp] at he
    refine (hOne l₁ hQuiet₁ o (hos o (by simp))).mono fun _ l₂ h₂ => ?_
    refine ⟨told ++ [o], by simp, h₁.toFrame.trans h₂.toFrame, h₁.tree.trans h₂.tree, fun n => ?_,
      fun p => ?_⟩
    · rw [← h₁.tracked]
      simp only [trackedOf, h₂.tracked]
    · rw [h₂.core, h₁.core, Option.map_map]
      congr 1
      funext x
      by_cases hp : p = o
      · subst hp
        by_cases hTold : p ∈ told <;> simp [hTold, hTwice]
      · simp [hp]
  · rintro _ l' ⟨told, hTold, h⟩
    rw [List.append_nil] at hTold
    exact hTold ▸ h

/-- All observers in a node or container learn that it reaches the document. -/
theorem notifyConnected_changed (hQuiet : l.QuietFor K m) {r : NodeRef}
    (hr : ∀ o ∈ l.observersIn r, K o) :
    After (notifyConnected (Calls.upTo client (depth + 2)) r) l fun _ l' =>
      Changed l l' l.dom (turnAll (l.observersIn r) .connected) m := by
  unfold notifyConnected
  rw [after_bind, after_get]
  exact changed_forM _ (Observer.Core.turn_turn _) (by simp)
    (fun l₁ hQuiet₁ o ho => tellConnected_turned hClient depth hQuiet₁ ho) hQuiet _ hr

/-- All observers in a node or container learn that it does not reach the document any more. -/
theorem notifyDisconnected_changed (hQuiet : l.QuietFor K m) {r : NodeRef}
    (hr : ∀ o ∈ l.observersIn r, K o) :
    After (notifyDisconnected (Calls.upTo client (depth + 2)) r) l fun _ l' =>
      Changed l l' l.dom (turnAll (l.observersIn r) .disconnected) m := by
  unfold notifyDisconnected
  rw [after_bind, after_get]
  have hAll := changed_forM (tellDisconnected (Calls.upTo client (depth + 2)))
    (f := Observer.Core.turn .disconnected) (Observer.Core.turn_turn _) (by simp)
    (fun l₁ hQuiet₁ o ho => tellDisconnected_turned hClient depth hQuiet₁ ho) hQuiet
    (l.observersIn r).reverse (fun o ho => hr o (List.mem_reverse.mp ho))
  simp only [List.mem_reverse] at hAll
  exact hAll

/-- All observers in a node or container learn that it is destroyed, and end. -/
theorem tellAllDestroyed_changed (hQuiet : l.QuietFor K m) {r : NodeRef}
    (hr : ∀ o ∈ l.observersIn r, K o) :
    After ((l.observersIn r).reverse.forM (tellDestroyed (Calls.upTo client (depth + 2)))) l
      fun _ l' => Changed l l' l.dom (fun o x => if o ∈ l.observersIn r then x.ended else x) m := by
  have hAll := changed_forM (tellDestroyed (Calls.upTo client (depth + 2)))
    (f := Observer.Core.ended) Observer.Core.ended_ended
    (fun _ _ => Observer.Core.mem_of_mem_ended)
    (fun l₁ hQuiet₁ o ho => tellDestroyed_turned hClient depth hQuiet₁ ho) hQuiet
    (l.observersIn r).reverse (fun o ho => hr o (List.mem_reverse.mp ho))
  simpa only [List.mem_reverse] using hAll

/-! ## Places -/

omit hClient in
theorem notePlace_alike (l : Live κ σ) (o : ObserverId) (m : Leeway κ := .strict) :
    After (notePlace o) l fun _ l' => Alike l l' m ∧ l'.bindings = l.bindings ∧
      l'.subscriptions = l.subscriptions := by
  have hTurned := Turned.of_withObserver (m := m) l o (f := id)
    (g := fun x => { x with lastSeen := l.dom.position x.target }) fun _ => rfl
  refine ⟨⟨hTurned.toFrame, hTurned.tree, fun n => ?_, fun p => ?_⟩, rfl, rfl⟩
  · rfl
  · refine (hTurned.core p).trans ?_
    congr 1
    funext x
    split <;> rfl

omit hClient in
theorem noteMoves_alike (l : Live κ σ) (r : NodeRef) (m : Leeway κ := .strict) :
    After (noteMoves r) l fun _ l' => Alike l l' m ∧ l'.bindings = l.bindings ∧
      l'.subscriptions = l.subscriptions := by
  have hRefl : Alike l l m := Changed.alike_of_calm (Calm.refl l)
  unfold noteMoves
  rw [after_bind, after_get]
  split
  · refine After.forM (k := fun _ l' => Alike l l' m ∧ l'.bindings = l.bindings ∧
      l'.subscriptions = l.subscriptions) ⟨hRefl, rfl, rfl⟩ ?_
    rintro o _ l₁ ⟨h₁, hBindings₁, hSubscriptions₁⟩
    refine (notePlace_alike l₁ o m).mono ?_
    rintro _ l₂ ⟨h₂, hBindings₂, hSubscriptions₂⟩
    exact ⟨h₁.trans h₂, hBindings₂.trans hBindings₁, hSubscriptions₂.trans hSubscriptions₁⟩
  · exact ⟨hRefl, rfl, rfl⟩

end LiveMarkup.Live
