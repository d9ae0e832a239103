import LiveMarkup.Proofs.Live.Transitions

/-!
# Hooks that release what they hold

Destroying walks the tree below a node or container. What a conditional or a switch hides is not in
the tree: a hook on its own container destroys it in turn, while the walk outside goes on over the
observers that it found before.

* `Stowed`: no two hooks hide the same, and hiding goes down a rank;
* `Going`, `Waiting`: what has become of the beginning in the midst of the walks;
* `runHook_releases`: what one hook does, given what destroying does further inside;
* `tellDestroyed_ends`: an observer that is told of the end has ended.
-/

namespace LiveMarkup.Live

variable {κ σ : Type}

/-- All that is known about a node once it is buried. -/
def Tracked.buried : Tracked := { state := some .destroyed }

/-- What a hook destroys with its container, if it is hidden. -/
def held (l : Live κ σ) : Hook κ → List NodeRef
  | .releaseConditional c => ((l.conditional? c).bind (·.child)).toList
  | .releaseSwitch s => ((l.switch? s).map (·.built)).getD [] |>.map (·.2)
  | _ => []

/-- A hook of an observer hides a node or container. -/
structure Hides (l : Live κ σ) (o : ObserverId) (h : Hook κ) (y : NodeRef) : Prop where
  hook : h ∈ l.hooksFor o .destroy
  held : y ∈ l.held h
  detached : l.stateOf y = .detached

/-- A hook has nothing left to part from: its binding is off, its conditional waits for nothing. -/
def Parted (m : Live κ σ) : Hook κ → Prop
  | .endBinding b => m.isBindingActive b = false
  | .releaseConditional c => ∀ t ∈ m.clock.timers, t.task ≠ .endGrace c
  | _ => True

/-- Hooks that wait for the end of a node switch nothing on. -/
def Hook.parts : Hook κ → Bool
  | .switchOn _ => false
  | .switchOff _ => false
  | _ => true

/-- What is hidden is hidden once and apart from the rest; the observers in it rank below the one
that hides it. -/
structure Stowed (l : Live κ σ) (rank : ObserverId → Nat) : Prop where
  live : l.tornDown = false
  watched : ∀ n o, (l.trackedOf n).observer = some o → l.statusOf o ≠ .destroyed
  parts : ∀ o, ∀ h ∈ l.hooksFor o .destroy, h.parts = true
  apart : ∀ {o h y o' h' y'}, l.Hides o h y → l.Hides o' h' y' →
    l.dom.key y ∈ l.dom.subtree y' → y = y' ∧ o = o'
  below : ∀ {o h y}, l.Hides o h y → ∀ o' ∈ l.observersIn y, rank o' < rank o
  grace : ∀ c, ∀ t ∈ l.clock.timers, t.task = .endGrace c →
    (l.conditional? c).bind (·.timer) = some t.number

/-! ## What only fades -/

/-- Nothing is built, shown or switched on, and what is buried stays so. -/
structure Fading (m m' : Live κ σ) : Prop where
  dom : m'.dom = m.dom
  document : m'.document = m.document
  tornDown : m'.tornDown = m.tornDown
  buried : ∀ n, m.trackedOf n = .buried → m'.trackedOf n = .buried
  active : ∀ b, m.isBindingActive b = false → m'.isBindingActive b = false
  timers : m'.clock.timers ⊆ m.clock.timers

namespace Fading

variable {m m₁ m' : Live κ σ}

theorem refl (m : Live κ σ) : Fading m m :=
  ⟨rfl, rfl, rfl, fun _ h => h, fun _ h => h, List.Subset.refl _⟩

theorem trans (h₁ : Fading m m₁) (h₂ : Fading m₁ m') : Fading m m' where
  dom := h₂.dom.trans h₁.dom
  document := h₂.document.trans h₁.document
  tornDown := h₂.tornDown.trans h₁.tornDown
  buried n h := h₂.buried n (h₁.buried n h)
  active s h := h₂.active s (h₁.active s h)
  timers := List.Subset.trans h₂.timers h₁.timers

theorem parted (h : Fading m m') {hook : Hook κ} (hParted : m.Parted hook) : m'.Parted hook := by
  cases hook with
  | endBinding b => exact h.active b hParted
  | releaseConditional c => exact fun t ht => hParted t (h.timers ht)
  | _ => trivial

end Fading

/-- A node or container of the beginning is buried with all that was in it. -/
def Buried (l m : Live κ σ) (y : NodeRef) : Prop :=
  ∀ n ∈ l.dom.subtree y, m.trackedOf n = .buried

/-- The hooks of an observer of the beginning have parted, and what they hid is buried. -/
def Ended (l m : Live κ σ) (o : ObserverId) : Prop :=
  ∀ h ∈ l.hooksFor o .destroy, m.Parted h ∧ ∀ y, l.Hides o h y → Buried l m y

theorem Fading.ended {l m m' : Live κ σ} (h : Fading m m') {o : ObserverId} (hEnded : Ended l m o) :
    Ended l m' o := by
  intro hook hHook
  obtain ⟨hParted, hBuried⟩ := hEnded hook hHook
  exact ⟨h.parted hParted, fun y hy n hn => h.buried n (hBuried y hy n hn)⟩

/-- What has become of the beginning: an observer is as it was or has ended, and what a hook holds
is as it was or let go. -/
structure Going (l m : Live κ σ) : Prop extends Fading l m where
  tracked : ∀ n o, (l.trackedOf n).observer = some o →
    (m.trackedOf n).observer = some o ∨ Ended l m o
  newTracked : ∀ n o, (m.trackedOf n).observer = some o → (l.trackedOf n).observer = some o
  observer : ∀ o, m.observer? o = l.observer? o ∨ Ended l m o ∧ m.statusOf o = .destroyed
  state : ∀ y, m.stateOf y = .detached → l.stateOf y = .detached
  held : ∀ h, m.held h = l.held h ∨ m.held h = []
  grace : ∀ c, (m.conditional? c).bind (·.timer) = (l.conditional? c).bind (·.timer) ∨
    ∀ t ∈ m.clock.timers, t.task ≠ .endGrace c

/-- What hooks below a level hide is still hidden, or buried. -/
def Waiting (l : Live κ σ) (rank : ObserverId → Nat) (level : Nat) (m : Live κ σ) : Prop :=
  ∀ o h y, l.Hides o h y → rank o < level →
    (y ∈ m.held h ∧ m.stateOf y = .detached) ∨ Buried l m y

/-- What was hidden in the beginning is touched only to be buried. -/
def Spares (l m m' : Live κ σ) : Prop :=
  ∀ o h y, l.Hides o h y → Buried l m' y ∨
    (m'.stateOf y = m.stateOf y ∧ (y ∈ m.held h → y ∈ m'.held h))

variable {l m m₁ m' : Live κ σ} {rank : ObserverId → Nat}

theorem Buried.mono {y : NodeRef} (h : Buried l m y) (hFading : Fading m m') : Buried l m' y :=
  fun n hn => hFading.buried n (h n hn)

theorem Spares.refl (l m : Live κ σ) : Spares l m m :=
  fun _ _ _ _ => .inr ⟨rfl, fun h => h⟩

theorem Spares.trans (h₁ : Spares l m m₁) (h₂ : Spares l m₁ m') (hFading : Fading m₁ m') :
    Spares l m m' := by
  intro o h y hy
  rcases h₂ o h y hy with hBuried | ⟨hState₂, hHeld₂⟩
  · exact .inl hBuried
  · rcases h₁ o h y hy with hBuried | ⟨hState₁, hHeld₁⟩
    · exact .inl (hBuried.mono hFading)
    · exact .inr ⟨hState₂.trans hState₁, fun hm => hHeld₂ (hHeld₁ hm)⟩

theorem Waiting.spares {level : Nat} (h : Waiting l rank level m) (hSpares : Spares l m m')
    (hFading : Fading m m') : Waiting l rank level m' := by
  intro o hook y hy hLevel
  rcases hSpares o hook y hy with hBuried | ⟨hState, hHeld⟩
  · exact .inr hBuried
  · rcases h o hook y hy hLevel with ⟨hm, hDetached⟩ | hBuried
    · exact .inl ⟨hHeld hm, hState.trans hDetached⟩
    · exact .inr (hBuried.mono hFading)

theorem stateOf_of_tables (hDom : m'.dom = m.dom) (hDocument : m'.document = m.document)
    (hTracked : m'.tracked = m.tracked) (y : NodeRef) : m'.stateOf y = m.stateOf y := by
  simp only [stateOf, shownState, trackedOf, hDom, hDocument, hTracked]

/-- A step that leaves nodes and observers alone and may let go of what hooks hold. -/
theorem Going.step (h : Going l m) (hFading : Fading m m') (hTracked : m'.tracked = m.tracked)
    (hObservers : m'.observers = m.observers)
    (hHeld : ∀ hook, m'.held hook = m.held hook ∨ m'.held hook = [])
    (hGrace : ∀ c, (m'.conditional? c).bind (·.timer) = (m.conditional? c).bind (·.timer) ∨
      ∀ t ∈ m'.clock.timers, t.task ≠ .endGrace c) : Going l m' where
  toFading := h.toFading.trans hFading
  tracked n o ho := by
    rw [trackedOf, hTracked]
    exact (h.tracked n o ho).imp_right hFading.ended
  newTracked n o ho := by
    rw [trackedOf, hTracked] at ho
    exact h.newTracked n o ho
  observer o := by
    rw [statusOf, observer?, hObservers]
    exact (h.observer o).imp_right fun hEnded => ⟨hFading.ended hEnded.1, hEnded.2⟩
  state y hy := by
    rw [stateOf_of_tables hFading.dom hFading.document hTracked] at hy
    exact h.state y hy
  held hook := by
    rcases hHeld hook with hSame | hNone
    · rw [hSame]
      exact h.held hook
    · exact .inr hNone
  grace c := by
    rcases hGrace c with hSame | hNone
    · rw [hSame]
      exact (h.grace c).imp_right fun hNone t ht => hNone t (hFading.timers ht)
    · exact .inr hNone

theorem Spares.of_same (hState : ∀ y, m'.stateOf y = m.stateOf y)
    (hHeld : ∀ h, m'.held h = m.held h) : Spares l m m' :=
  fun _ h y _ => .inr ⟨hState y, fun hy => (hHeld h).symm ▸ hy⟩

/-! ## Steps aside -/

/-- A step that leaves nodes, observers and what hooks hold alone. -/
structure Aloof (m m' : Live κ σ) : Prop where
  dom : m'.dom = m.dom
  document : m'.document = m.document
  tornDown : m'.tornDown = m.tornDown
  tracked : m'.tracked = m.tracked
  observers : m'.observers = m.observers
  conditionals : m'.conditionals = m.conditionals
  switches : m'.switches = m.switches
  clock : m'.clock = m.clock

namespace Aloof

theorem refl (m : Live κ σ) : Aloof m m :=
  ⟨rfl, rfl, rfl, rfl, rfl, rfl, rfl, rfl⟩

theorem held (h : Aloof m m') (hook : Hook κ) : m'.held hook = m.held hook := by
  cases hook with
  | releaseConditional c => simp only [Live.held, conditional?, h.conditionals]
  | releaseSwitch s => simp only [Live.held, switch?, h.switches]
  | _ => rfl

theorem fading (h : Aloof m m')
    (hActive : ∀ b, m.isBindingActive b = false → m'.isBindingActive b = false) :
    Fading m m' where
  dom := h.dom
  document := h.document
  tornDown := h.tornDown
  buried n hn := by
    rw [trackedOf, h.tracked]
    exact hn
  active := hActive
  timers := by rw [h.clock]; exact List.Subset.refl _

theorem going (h : Aloof m m') (hFading : Fading m m') (hGoing : Going l m) : Going l m' :=
  hGoing.step hFading h.tracked h.observers (fun hook => .inl (h.held hook)) fun c =>
    .inl (by rw [conditional?, h.conditionals]; rfl)

theorem spares (h : Aloof m m') : Spares l m m' :=
  Spares.of_same (stateOf_of_tables h.dom h.document h.tracked) h.held

end Aloof

theorem deactivate_aloof (m : Live κ σ) (s : SubscriptionId) :
    After (deactivate s) m fun _ => Aloof m := by
  unfold deactivate
  rw [after_bind, after_get]
  split
  next => exact Aloof.refl m
  next => exact Aloof.refl m
  next => exact ⟨rfl, rfl, rfl, rfl, rfl, rfl, rfl, rfl⟩
  next node _ _ number _ =>
    rw [after_bind, setRegistered, after_modify, after_bind]
    unfold unlisten
    rw [after_bind, after_get]
    split
    · exact ⟨rfl, rfl, rfl, rfl, rfl, rfl, rfl, rfl⟩
    · exact ⟨rfl, rfl, rfl, rfl, rfl, rfl, rfl, rfl⟩

theorem endBinding_aloof (m : Live κ σ) (b : BindingId) :
    After (endBinding b) m fun _ m' => Aloof m m' ∧ Fading m m' ∧ m'.isBindingActive b = false := by
  let m₁ : Live κ σ :=
    { m with bindings := m.bindings.modify b fun x => { x with destroyed := true } }
  have hBinding (c : BindingId) :
      (m₁.binding? c).map (·.subscription) = (m.binding? c).map (·.subscription) := by
    rw [binding?_modify]
    split
    · rw [Option.map_map]
      rfl
    · rfl
  have hActive₁ (c : BindingId) : m₁.isBindingActive c = m.isBindingActive c := by
    have hEq := congrArg (fun s => s.any m.isActive) (hBinding c)
    simp only [Option.any_map] at hEq
    exact hEq
  unfold endBinding modifyBinding
  rw [after_bind, after_modify]
  change After (switchOff b) m₁ _
  unfold switchOff
  rw [after_bind, after_get]
  split
  next x hx =>
    refine ((deactivate_aloof m₁ x.subscription).run_eq).mono fun _ m' ⟨hRun, hAloof⟩ => ?_
    obtain ⟨_, hSame, hOff⟩ := deactivate_quiet (m := .strict) m₁ x.subscription fun _ h => h.elim
    rw [hRun] at hSame hOff
    have hActive (c : BindingId) : m'.isBindingActive c = true → m.isBindingActive c = true := by
      rw [← hActive₁, isBindingActive, isBindingActive, binding?, hSame]
      change (m₁.binding? c).any _ = true → (m₁.binding? c).any _ = true
      cases m₁.binding? c with
      | none => exact fun h => h
      | some y =>
        intro hy
        rw [Option.any_some, hOff] at hy
        split at hy
        · cases hy
        · exact hy
    have hAloof' : Aloof m m' := ⟨hAloof.dom, hAloof.document, hAloof.tornDown, hAloof.tracked,
      hAloof.observers, hAloof.conditionals, hAloof.switches, hAloof.clock⟩
    refine ⟨hAloof', hAloof'.fading fun c hc => ?_, ?_⟩
    · rw [Bool.eq_false_iff] at hc ⊢
      exact fun h => hc (hActive c h)
    · rw [isBindingActive, binding?, hSame]
      change (m₁.binding? b).any _ = false
      rw [hx, Option.any_some, hOff, if_pos rfl]
  next hNone =>
    have hAloof : Aloof m m₁ := ⟨rfl, rfl, rfl, rfl, rfl, rfl, rfl, rfl⟩
    rw [after_pure]
    refine ⟨hAloof, hAloof.fading fun c hc => (hActive₁ c).trans hc, ?_⟩
    rw [isBindingActive, hNone]
    rfl

/-! ## Letting go -/

/-- The grace of a conditional is over, and nothing else has changed. -/
theorem stopGrace_going (hGoing : Going l m)
    (hGrace : ∀ c, ∀ t ∈ l.clock.timers, t.task = .endGrace c →
      (l.conditional? c).bind (·.timer) = some t.number) (c : ConditionalId) :
    After (stopGrace c) m fun _ m' => Fading m m' ∧ Going l m' ∧ Spares l m m' ∧
      m'.Parted (.releaseConditional c) ∧ ∀ hook, m'.held hook = m.held hook := by
  unfold stopGrace
  rw [after_bind, after_get]
  cases hTimer : (m.conditional? c).bind (·.timer) with
  | none =>
    refine ⟨Fading.refl m, hGoing, Spares.refl l m, fun t ht hTask => ?_, fun _ => rfl⟩
    rcases hGoing.grace c with hSame | hNone
    · rw [hTimer, hGrace c t (hGoing.timers ht) hTask] at hSame
      cases hSame
    · exact hNone t ht hTask
  | some number =>
    dsimp only
    rw [after_bind, modifyConditional, after_modify, after_bind]
    unfold clearTimer modifyClock
    rw [after_bind, after_get, after_bind, after_modify, after_pure, after_pure]
    let m' : Live κ σ :=
      { m with
        conditionals := m.conditionals.modify c fun x => { x with timer := none }
        clock := { m.clock with timers := m.clock.timers.filter fun t => !(t.number == number) } }
    have hFading : Fading m m' :=
      ⟨rfl, rfl, rfl, fun _ h => h, fun _ h => h, List.filter_sublist.subset⟩
    have hHeld (hook : Hook κ) : m'.held hook = m.held hook := by
      cases hook with
      | releaseConditional d =>
        change ((conditional? { m with conditionals := m.conditionals.modify c _ } d).bind
          (·.child)).toList = ((m.conditional? d).bind (·.child)).toList
        rw [conditional?_modify]
        split
        · cases m.conditional? d <;> rfl
        · rfl
      | _ => rfl
    -- The only timer of the conditional in the beginning had this number.
    have hNone (t : Timer κ) (ht : t ∈ m'.clock.timers) : t.task ≠ .endGrace c := by
      intro hTask
      obtain ⟨ht, hNumber⟩ := List.mem_filter.mp ht
      rcases hGoing.grace c with hSame | hNone
      · rw [hTimer, hGrace c t (hGoing.timers ht) hTask] at hSame
        rw [Option.some.inj hSame] at hNumber
        simp at hNumber
      · exact hNone t ht hTask
    refine ⟨hFading, hGoing.step hFading rfl rfl (fun hook => .inl (hHeld hook)) fun d => ?_,
      Spares.of_same (stateOf_of_tables rfl rfl rfl) hHeld, hNone, hHeld⟩
    by_cases hEq : c = d
    · subst hEq
      exact .inr hNone
    · refine .inl ?_
      change (conditional? { m with conditionals := m.conditionals.modify c _ } d).bind _ = _
      rw [conditional?_modify, if_neg hEq]

/-- Holding nothing any more, a hook leaves what others hold alone. -/
structure LetGo (hook : Hook κ) (m m' : Live κ σ) : Prop where
  fading : Fading m m'
  state : ∀ y, m'.stateOf y = m.stateOf y
  none : m'.held hook = []
  others : ∀ h, h ≠ hook → m'.held h = m.held h

theorem dropChild_letGo (hGoing : Going l m) (c : ConditionalId) :
    After (modifyConditional c fun x => { x with child := none }) m fun _ m' =>
      LetGo (.releaseConditional c) m m' ∧ Going l m' := by
  let m' : Live κ σ :=
    { m with conditionals := m.conditionals.modify c fun x => { x with child := none } }
  have hFading : Fading m m' :=
    ⟨rfl, rfl, rfl, fun _ h => h, fun _ h => h, List.Subset.refl _⟩
  have hNone : m'.held (.releaseConditional c) = [] := by
    change ((conditional? { m with conditionals := m.conditionals.modify c _ } c).bind
      (·.child)).toList = []
    rw [conditional?_modify, if_pos rfl]
    cases m.conditional? c <;> rfl
  have hOthers (h : Hook κ) (hNe : h ≠ .releaseConditional c) : m'.held h = m.held h := by
    cases h with
    | releaseConditional d =>
      change ((conditional? { m with conditionals := m.conditionals.modify c _ } d).bind
        (·.child)).toList = ((m.conditional? d).bind (·.child)).toList
      rw [conditional?_modify, if_neg fun hEq => hNe (congrArg _ hEq.symm)]
    | _ => rfl
  refine ⟨⟨hFading, stateOf_of_tables rfl rfl rfl, hNone, hOthers⟩,
    hGoing.step hFading rfl rfl (fun h => ?_) fun d => ?_⟩
  · by_cases hEq : h = .releaseConditional c
    · rw [hEq]
      exact .inr hNone
    · exact .inl (hOthers h hEq)
  · refine .inl ?_
    change (conditional? { m with conditionals := m.conditionals.modify c _ } d).bind _ = _
    rw [conditional?_modify]
    split
    · cases m.conditional? d <;> rfl
    · rfl

theorem dropArms_letGo (hGoing : Going l m) (s : SwitchId) :
    After (modifySwitch s fun x => { x with built := [] }) m fun _ m' =>
      LetGo (.releaseSwitch s) m m' ∧ Going l m' := by
  let m' : Live κ σ :=
    { m with switches := m.switches.modify s fun x => { x with built := [] } }
  have hFading : Fading m m' :=
    ⟨rfl, rfl, rfl, fun _ h => h, fun _ h => h, List.Subset.refl _⟩
  have hNone : m'.held (.releaseSwitch s) = [] := by
    change (((switch? { m with switches := m.switches.modify s _ } s).map
      (·.built)).getD []).map _ = []
    rw [switch?_modify, if_pos rfl]
    cases m.switch? s <;> rfl
  have hOthers (h : Hook κ) (hNe : h ≠ .releaseSwitch s) : m'.held h = m.held h := by
    cases h with
    | releaseSwitch d =>
      change (((switch? { m with switches := m.switches.modify s _ } d).map
        (·.built)).getD []).map _ = (((m.switch? d).map (·.built)).getD []).map _
      rw [switch?_modify, if_neg fun hEq => hNe (congrArg _ hEq.symm)]
    | _ => rfl
  refine ⟨⟨hFading, stateOf_of_tables rfl rfl rfl, hNone, hOthers⟩,
    hGoing.step hFading rfl rfl (fun h => ?_) fun d => .inl rfl⟩
  by_cases hEq : h = .releaseSwitch s
  · rw [hEq]
    exact .inr hNone
  · exact .inl (hOthers h hEq)

/-- With what hooks below a level hide waiting, destroying something in it buries all of it. -/
def Buries (l : Live κ σ) (rank : ObserverId → Nat) (calls : Calls κ σ) (depth : Nat) : Prop :=
  ∀ (x : NodeRef) (level : Nat) (m : Live κ σ), level ≤ depth → m.stateOf x = .detached →
    (∀ o ∈ l.observersIn x, rank o < level) →
    (∀ o h y, l.Hides o h y → l.dom.key y ∈ l.dom.subtree x → y = x ∧ level ≤ rank o) →
    Going l m → Waiting l rank level m →
    After (destroy calls x).run m fun out m' =>
      out = .ok () ∧ Fading m m' ∧ Going l m' ∧ Spares l m m' ∧ Buried l m' x

section Releasing

variable {calls : Calls κ σ} {depth level : Nat} {o : ObserverId} {hook : Hook κ}
variable (hS : Stowed l rank) (hCalls : Buries l rank calls depth)
variable (hHook : hook ∈ l.hooksFor o .destroy)
include hS hHook

omit hS hHook in
theorem key_mem_self (d : Dom) (y : NodeRef) : d.key y ∈ d.subtree y := by
  cases y <;> exact List.mem_cons_self

/-- What a hook hides is hidden by its observer alone. -/
theorem Stowed.same_observer {o' : ObserverId} {y : NodeRef} (hHides : l.Hides o' hook y) :
    o' = o :=
  (hS.apart hHides ⟨hHook, hHides.held, hHides.detached⟩ (key_mem_self l.dom y)).2

/-- While a hook lets go, what hooks below hide is still waiting. -/
theorem LetGo.waiting (h : LetGo hook m m') (hWaiting : Waiting l rank level m)
    (hLevel : rank o < level) : Waiting l rank (rank o) m' := by
  intro o' h' y hHides hBelow
  have hNe : h' ≠ hook := by
    rintro rfl
    rw [hS.same_observer hHook hHides] at hBelow
    exact Nat.lt_irrefl _ hBelow
  rcases hWaiting o' h' y hHides (Nat.lt_trans hBelow hLevel) with ⟨hHeld, hDetached⟩ | hBuried
  · refine .inl ⟨?_, (h.state y).trans hDetached⟩
    rw [h.others h' hNe]
    exact hHeld
  · exact .inr (hBuried.mono h.fading)

omit hS hHook in
/-- Once all that a hook hid is buried, its letting go has spared the rest. -/
theorem LetGo.spares (h : LetGo hook m m₁) (hSpares : Spares l m₁ m')
    (hBuried : ∀ o y, l.Hides o hook y → Buried l m' y) : Spares l m m' := by
  intro o' h' y hHides
  by_cases hEq : h' = hook
  · subst hEq
    exact .inl (hBuried o' y hHides)
  · rcases hSpares o' h' y hHides with hBuried | ⟨hState, hHeld⟩
    · exact .inl hBuried
    · refine .inr ⟨hState.trans (h.state y), fun hm => hHeld ?_⟩
      rw [h.others h' hEq]
      exact hm

include hCalls

/-- Something that a hook holds is destroyed if it is hidden. -/
theorem destroyHidden_buries {y : NodeRef} (hHeld : y ∈ l.held hook) (hDepth : rank o ≤ depth)
    (hGoing : Going l m) (hWaiting : Waiting l rank (rank o) m) :
    After (destroyHidden calls y) m fun _ m' => Fading m m' ∧ Going l m' ∧ Spares l m m' ∧
      (m.stateOf y = .detached → Buried l m' y) := by
  unfold destroyHidden
  rw [after_bind, after_get]
  by_cases hDetached : m.stateOf y = .detached
  · rw [if_pos hDetached]
    have hHides : l.Hides o hook y := ⟨hHook, hHeld, hGoing.state y hDetached⟩
    refine after_attempt.mpr
      ((hCalls y (rank o) m hDepth hDetached (hS.below hHides) ?_ hGoing hWaiting).mono ?_)
    · intro o' h' y' hHides' hKey
      obtain ⟨hEq, hSame⟩ := hS.apart hHides' hHides hKey
      exact ⟨hEq, hSame ▸ Nat.le_refl _⟩
    · rintro _ m' ⟨_, hFading, hGoing', hSpares, hBuried⟩
      exact ⟨hFading, hGoing', hSpares, fun _ => hBuried⟩
  · rw [if_neg hDetached]
    exact ⟨Fading.refl m, hGoing, Spares.refl l m, fun h => absurd h hDetached⟩

/-- All that a hook held is destroyed, one after the other, once it has let go of it. -/
theorem LetGo.buries {ys : List NodeRef} (h : LetGo hook m m₁) (hGoing : Going l m)
    (hGoing₁ : Going l m₁) (hDepth : rank o ≤ depth) (hLevel : rank o < level)
    (hWaiting : Waiting l rank level m) (hYs : ys.Perm (m.held hook)) :
    After (ys.forM (destroyHidden calls)) m₁ fun _ m' =>
      Fading m m' ∧ Going l m' ∧ Spares l m m' ∧ ∀ o' y, l.Hides o' hook y → Buried l m' y := by
  have hWaiting₁ := h.waiting hS hHook hWaiting hLevel
  have hHeld (y : NodeRef) (hy : y ∈ ys) : y ∈ l.held hook := by
    rcases hGoing.held hook with hSame | hNone
    · rw [← hSame]
      exact hYs.mem_iff.mp hy
    · rw [hYs.mem_iff, hNone] at hy
      cases hy
  -- What the hook hid is among what it holds now, and still hidden, or buried already.
  have hCases (o' : ObserverId) (y : NodeRef) (hHides : l.Hides o' hook y) :
      (y ∈ ys ∧ m₁.stateOf y = .detached) ∨ Buried l m₁ y := by
    obtain rfl := hS.same_observer hHook hHides
    rcases hWaiting o' hook y hHides hLevel with ⟨hIn, hDetached⟩ | hBuried
    · exact .inl ⟨hYs.mem_iff.mpr hIn, (h.state y).trans hDetached⟩
    · exact .inr (hBuried.mono h.fading)
  have hLoop : After (ys.forM (destroyHidden calls)) m₁ fun _ m' => ([] : List NodeRef) ⊆ ys ∧
      Fading m₁ m' ∧ Going l m' ∧ Spares l m₁ m' ∧
      ∀ o' y, l.Hides o' hook y → y ∉ ([] : List NodeRef) → Buried l m' y := by
    refine After.forM (k := fun rest m' => rest ⊆ ys ∧ Fading m₁ m' ∧ Going l m' ∧
      Spares l m₁ m' ∧ ∀ o' y, l.Hides o' hook y → y ∉ rest → Buried l m' y) ?_ ?_
    · refine ⟨List.Subset.refl _, Fading.refl _, hGoing₁, Spares.refl _ _, fun o' y hHides hy => ?_⟩
      exact (hCases o' y hHides).resolve_left fun hIn => hy hIn.1
    · rintro y rest m₂ ⟨hSub, hFading₂, hGoing₂, hSpares₂, hBuried₂⟩
      refine (destroyHidden_buries hS hCalls hHook (hHeld y (hSub List.mem_cons_self)) hDepth hGoing₂
        (hWaiting₁.spares hSpares₂ hFading₂)).mono ?_
      rintro _ m₃ ⟨hFading₃, hGoing₃, hSpares₃, hBuried₃⟩
      refine ⟨fun z hz => hSub (List.mem_cons_of_mem _ hz), hFading₂.trans hFading₃, hGoing₃,
        hSpares₂.trans hSpares₃ hFading₃, fun o' z hHides hz => ?_⟩
      by_cases hEq : z = y
      · subst hEq
        have hNow : m₂.stateOf z = .detached ∨ Buried l m₂ z := by
          rcases hSpares₂ o' hook z hHides with hBuried | ⟨hState, _⟩
          · exact .inr hBuried
          · rcases hCases o' z hHides with hIn | hBuried
            · exact .inl (hState.trans hIn.2)
            · exact .inr (hBuried.mono hFading₂)
        rcases hNow with hDetached | hBuried
        · exact hBuried₃ hDetached
        · exact hBuried.mono hFading₃
      · refine (hBuried₂ o' z hHides ?_).mono hFading₃
        rw [List.mem_cons, not_or]
        exact ⟨hEq, hz⟩
  refine hLoop.mono fun _ m' ⟨_, hFading, hGoing', hSpares, hBuried⟩ => ?_
  have hAll (o' : ObserverId) (y : NodeRef) (hHides : l.Hides o' hook y) : Buried l m' y :=
    hBuried o' y hHides List.not_mem_nil
  exact ⟨h.fading.trans hFading, hGoing', h.spares hSpares hAll, hAll⟩

omit hCalls in
/-- A hook that has let go before hides nothing any more but what is buried. -/
theorem Waiting.buried_of_none (hWaiting : Waiting l rank level m) (hLevel : rank o < level)
    (hNone : m.held hook = []) {o' : ObserverId} {y : NodeRef} (hHides : l.Hides o' hook y) :
    Buried l m y := by
  obtain rfl := hS.same_observer hHook hHides
  refine (hWaiting o' hook y hHides hLevel).resolve_left fun hIn => ?_
  rw [hNone] at hIn
  cases hIn.1

end Releasing

section Hooks

variable {calls : Calls κ σ} {depth level : Nat} {o : ObserverId}
variable (hS : Stowed l rank) (hCalls : Buries l rank calls depth)
include hS hCalls

/-- A hook hears of the end of its node: it parts, and what it hid is buried. -/
def Releases (l m : Live κ σ) (hook : Hook κ) (m' : Live κ σ) : Prop :=
  Fading m m' ∧ Going l m' ∧ Spares l m m' ∧ m'.Parted hook ∧
    ∀ o' y, l.Hides o' hook y → Buried l m' y

theorem releaseSwitch_releases {s : SwitchId}
    (hHook : .releaseSwitch s ∈ l.hooksFor o .destroy) (hDepth : rank o ≤ depth)
    (hLevel : rank o < level) (hGoing : Going l m) (hWaiting : Waiting l rank level m) :
    After (releaseSwitch calls s) m fun _ => Releases l m (.releaseSwitch s) := by
  unfold releaseSwitch
  rw [after_bind, after_get]
  refine (dropArms_letGo hGoing s).bind ?_
  rintro _ m₁ ⟨hLetGo, hGoing₁⟩
  let arms := calls.shuffle.list m (((m.switch? s).map (·.built)).getD [])
  have hForM : (arms.forM fun arm => destroyHidden calls arm.2) =
      (arms.map (·.2)).forM (destroyHidden calls) := by
    simp only [List.forM_eq_forM, List.forM_map]
  change After (arms.forM fun arm => destroyHidden calls arm.2) m₁ _
  rw [hForM]
  refine (hLetGo.buries hS hCalls hHook hGoing hGoing₁ hDepth hLevel hWaiting
    ((calls.shuffle.perm m _).map _)).mono ?_
  rintro _ m' ⟨hFading, hGoing', hSpares, hBuried⟩
  exact ⟨hFading, hGoing', hSpares, trivial, hBuried⟩

theorem discardChild_releases {c : ConditionalId}
    (hHook : .releaseConditional c ∈ l.hooksFor o .destroy) (hDepth : rank o ≤ depth)
    (hLevel : rank o < level) (hGoing : Going l m) (hWaiting : Waiting l rank level m)
    (hParted : m.Parted (.releaseConditional c)) :
    After (discardChild calls c).run m fun _ => Releases l m (.releaseConditional c) := by
  unfold discardChild
  refine After.get_act ?_
  cases hChild : (m.conditional? c).bind (·.child) with
  | none =>
    have hNone : m.held (.releaseConditional c) = [] := by
      rw [held, hChild]
      rfl
    exact ⟨Fading.refl m, hGoing, Spares.refl l m, hParted, fun _ _ hHides =>
      hWaiting.buried_of_none hS hHook hLevel hNone hHides⟩
  | some child =>
    have hHeld : m.held (.releaseConditional c) = [child] := by
      rw [held, hChild]
      rfl
    refine After.sure_bind (dropChild_letGo hGoing c) fun _ m₁ ⟨hLetGo, hGoing₁⟩ => ?_
    have hBuries := hLetGo.buries hS hCalls hHook hGoing hGoing₁ hDepth hLevel hWaiting
      (.of_eq hHeld.symm)
    have hDestroy : After (destroyHidden calls child) m₁ fun _ =>
        Releases l m (.releaseConditional c) := by
      refine After.mono (show After (destroyHidden calls child) m₁ _ from hBuries) ?_
      rintro _ m' ⟨hFading, hGoing', hSpares, hBuried⟩
      exact ⟨hFading, hGoing', hSpares, hFading.parted hParted, hBuried⟩
    refine After.get_act ?_
    rw [destroyHidden, after_bind, after_get] at hDestroy
    split at hDestroy
    next hDetached =>
      rw [if_pos hDetached]
      exact after_attempt.mp hDestroy
    next hNot =>
      rw [if_neg hNot]
      exact hDestroy

theorem releaseConditional_releases {c : ConditionalId}
    (hHook : .releaseConditional c ∈ l.hooksFor o .destroy) (hDepth : rank o ≤ depth)
    (hLevel : rank o < level) (hGoing : Going l m) (hWaiting : Waiting l rank level m) :
    After (releaseConditional calls c) m fun _ => Releases l m (.releaseConditional c) := by
  unfold releaseConditional
  refine (stopGrace_going hGoing hS.grace c).bind ?_
  rintro _ m₁ ⟨hFading₁, hGoing₁, hSpares₁, hParted₁, hHeld₁⟩
  have hWaiting₁ := hWaiting.spares hSpares₁ hFading₁
  refine after_attempt.mpr ((discardChild_releases hS hCalls hHook hDepth hLevel hGoing₁ hWaiting₁
    hParted₁).mono ?_)
  rintro _ m₂ ⟨hFading₂, hGoing₂, hSpares₂, hParted₂, hBuried₂⟩
  exact ⟨hFading₁.trans hFading₂, hGoing₂, hSpares₁.trans hSpares₂ hFading₂, hParted₂, hBuried₂⟩

variable {client : Client κ σ}

/-- Whatever a hook does that hears of the end of its node, it releases what it holds. -/
theorem runHook_releases (hClient : client.Quiet) {hook : Hook κ} {event : Event}
    (hHook : hook ∈ l.hooksFor o .destroy) (hDepth : rank o ≤ depth) (hLevel : rank o < level)
    (hGoing : Going l m) (hWaiting : Waiting l rank level m) :
    After (Calls.runHook client calls event hook) m fun _ => Releases l m hook := by
  have hNothing {h : Hook κ} (hNone : l.held h = []) {m' : Live κ σ} (o' : ObserverId)
      (y : NodeRef) (hHides : l.Hides o' h y) : Buried l m' y := by
    have hIn := hHides.held
    rw [hNone] at hIn
    cases hIn
  cases hook with
  | switchOn b => exact absurd (hS.parts o _ hHook) Bool.false_ne_true
  | switchOff b => exact absurd (hS.parts o _ hHook) Bool.false_ne_true
  | endBinding b =>
    refine (endBinding_aloof m b).bind fun _ m' ⟨hAloof, hFading, hOff⟩ => ?_
    exact ⟨hFading, hAloof.going hFading hGoing, hAloof.spares, hOff, hNothing rfl⟩
  | releaseConditional c =>
    exact (releaseConditional_releases hS hCalls hHook hDepth hLevel hGoing hWaiting).bind
      fun _ _ h => h
  | releaseSwitch s =>
    exact (releaseSwitch_releases hS hCalls hHook hDepth hLevel hGoing hWaiting).bind
      fun _ _ h => h
  | releaseSeries s =>
    have hAloof : Aloof m ((releaseSeries s).run m).2 := ⟨rfl, rfl, rfl, rfl, rfl, rfl, rfl, rfl⟩
    have hFading := hAloof.fading fun _ h => h
    exact ⟨hFading, hAloof.going hFading hGoing, hAloof.spares, trivial, hNothing rfl⟩
  | client k =>
    obtain ⟨c, hc⟩ := hClient.hook calls k event m
    change Releases l m _ ((client.hook calls k event).run m).2
    rw [hc]
    have hAloof : Aloof m { m with client := c } := ⟨rfl, rfl, rfl, rfl, rfl, rfl, rfl, rfl⟩
    have hFading := hAloof.fading fun _ h => h
    exact ⟨hFading, hAloof.going hFading hGoing, hAloof.spares, trivial, hNothing rfl⟩

end Hooks

section Telling

variable {client : Client κ σ} {depth level : Nat} {o : ObserverId}
variable (hClient : client.Quiet) (hS : Stowed l rank)
variable (hCalls : Buries l rank (Calls.upTo client depth) depth)
include hClient hS hCalls

/-- All hooks that hear of the end of a node release what they hold, one after the other. -/
theorem runHooks_releases {hooks : List (Hook κ)} {event : Event}
    (hHooks : ∀ h ∈ hooks, h ∈ l.hooksFor o .destroy) (hKind : event.kind = .destroy)
    (hDepth : rank o ≤ depth) (hLevel : rank o < level) (hGoing : Going l m)
    (hWaiting : Waiting l rank level m) :
    After (runHooks (Calls.upTo client (depth + 1)) event hooks) m fun _ m' =>
      Fading m m' ∧ Going l m' ∧ Spares l m m' ∧
      ∀ h ∈ hooks, m'.Parted h ∧ ∀ y, l.Hides o h y → Buried l m' y := by
  induction hooks generalizing m with
  | nil => exact ⟨Fading.refl m, hGoing, Spares.refl l m, nofun⟩
  | cons hook rest ih =>
    unfold runHooks
    have hHook := hHooks hook List.mem_cons_self
    refine (runHook_releases hS hCalls hClient hHook hDepth hLevel hGoing hWaiting).bind ?_
    rintro cancelled m₁ ⟨hFading₁, hGoing₁, hSpares₁, hParted₁, hBuried₁⟩
    have hNever : (cancelled && event.kind.isCancelable) = false := by
      rw [hKind]
      exact Bool.and_false cancelled
    rw [hNever, if_neg Bool.false_ne_true]
    refine (ih (fun h hh => hHooks h (List.mem_cons_of_mem _ hh)) hGoing₁
      (hWaiting.spares hSpares₁ hFading₁)).mono ?_
    rintro _ m₂ ⟨hFading₂, hGoing₂, hSpares₂, hRest₂⟩
    refine ⟨hFading₁.trans hFading₂, hGoing₂, hSpares₁.trans hSpares₂ hFading₂, fun h hh => ?_⟩
    rcases List.mem_cons.mp hh with rfl | hh
    · exact ⟨hFading₂.parted hParted₁, fun y hHides => (hBuried₁ o y hHides).mono hFading₂⟩
    · exact hRest₂ h hh

omit hClient hS hCalls in
theorem endObserver_going (hGoing : Going l m) (hEnded : Ended l m o) :
    After (endObserver o) m fun _ m' => Fading m m' ∧ Going l m' ∧ Spares l m m' := by
  let m' : Live κ σ :=
    { m with
      observers := m.observers.modify o fun x => { x with status := .destroyed, hooks := [] } }
  have hFading : Fading m m' := ⟨rfl, rfl, rfl, fun _ h => h, fun _ h => h, List.Subset.refl _⟩
  have hObserver (p : ObserverId) : m'.observer? p = if o = p then
      (m.observer? p).map fun x => { x with status := .destroyed, hooks := [] }
      else m.observer? p := Array.getElem?_modify
  refine ⟨hFading, ⟨hGoing.toFading.trans hFading, fun n p hp => ?_, hGoing.newTracked,
    fun p => ?_, hGoing.state, hGoing.held, hGoing.grace⟩, Spares.of_same (fun _ => rfl) fun _ => rfl⟩
  · exact (hGoing.tracked n p hp).imp_right hFading.ended
  · by_cases hEq : o = p
    · subst hEq
      refine .inr ⟨hFading.ended hEnded, ?_⟩
      change m'.statusOf o = _
      rw [statusOf, hObserver, if_pos rfl]
      cases m.observer? o <;> rfl
    · change m'.observer? p = _ ∨ _ ∧ m'.statusOf p = _
      rw [statusOf, hObserver, if_neg hEq]
      exact (hGoing.observer p).imp_right fun hOther => ⟨hFading.ended hOther.1, hOther.2⟩

/-- An observer that is told of the end of its node has ended then, if it had not before. -/
theorem tellDestroyed_ends {n : NodeId} (hTracked : (l.trackedOf n).observer = some o)
    (hDepth : rank o ≤ depth) (hLevel : rank o < level) (hGoing : Going l m)
    (hWaiting : Waiting l rank level m) :
    After (tellDestroyed (Calls.upTo client (depth + 1)) o) m fun _ m' =>
      Fading m m' ∧ Going l m' ∧ Spares l m m' ∧ Ended l m' o := by
  unfold tellDestroyed
  rw [after_bind, after_get]
  by_cases hStatus : m.statusOf o ≠ .destroyed
  · rw [if_pos hStatus]
    have hSame : m.observer? o = l.observer? o :=
      (hGoing.observer o).resolve_right fun hEnded => hStatus hEnded.2
    have hHooks : m.hooksFor o .destroy = l.hooksFor o .destroy := by
      rw [hooksFor, hooksFor, hSame]
    unfold tell
    rw [after_bind, after_bind, after_get]
    cases hObserver : m.observer? o with
    | none =>
      rw [statusOf, hObserver] at hStatus
      exact absurd rfl hStatus
    | some x =>
      dsimp only
      unfold fire
      rw [after_bind, after_bind, after_get]
      dsimp only
      rw [hHooks]
      refine (runHooks_releases hClient hS hCalls (fun _ h => h) rfl hDepth hLevel hGoing
        hWaiting).mono ?_
      rintro _ m₁ ⟨hFading₁, hGoing₁, hSpares₁, hEnded₁⟩
      rw [after_pure]
      refine (endObserver_going hGoing₁ hEnded₁).bind ?_
      rintro _ m₂ ⟨hFading₂, hGoing₂, hSpares₂⟩
      have hAloof : Aloof m₂ ((untrackMoves o).run m₂).2 :=
        ⟨rfl, rfl, rfl, rfl, rfl, rfl, rfl, rfl⟩
      have hFading₃ := hAloof.fading fun _ h => h
      exact ⟨(hFading₁.trans hFading₂).trans hFading₃, hAloof.going hFading₃ hGoing₂,
        (hSpares₁.trans hSpares₂ hFading₂).trans hAloof.spares hFading₃,
        hFading₃.ended (hFading₂.ended hEnded₁)⟩
  · rw [if_neg hStatus]
    refine ⟨Fading.refl m, hGoing, Spares.refl l m, ?_⟩
    rcases hGoing.observer o with hSame | hEnded
    · refine absurd ?_ (hS.watched n o hTracked)
      rw [statusOf, ← hSame]
      exact Decidable.not_not.mp hStatus
    · exact hEnded.1

end Telling

end LiveMarkup.Live
