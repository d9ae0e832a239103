import LiveMarkup.Proofs.Live.Poised

/-!
# Followers that are mounted

The container of a follower is attached, detached, or its signal is set. While the container comes
to reach the document, its observer is told first and switches the binding on, which passes the value
of the signal to the sink; what is shown is told next. When it ceases to, its observer is told last
and switches the binding off.

What is done to a follower from outside: its signal is set, its container is put somewhere or taken
out. A value is delivered when the signal is set while the container reaches the document, and when
the container comes to reach it.

* `Delivers`: somewhere in a step the sink is given a value by a poised follower;
* `Poised.mount`, `Poised.unmount`, `Poised.set`: what the steps of a follower do;
* `Motion`, `Motion.delivers`: what is done, and whether it delivers a value;
* `Poised.moves`: a motion leaves a follower alone, or delivers the value of its signal;
* `Made`: the nodes that factories were asked for, with the states in which they were asked.
-/

namespace LiveMarkup.Live

variable {κ σ : Type} {client : Client κ σ} {calls : Calls κ σ} {l l₁ l₂ l' : Live κ σ}
variable {m : Leeway κ} {f : Follower κ} {on : Bool} {rs order : List NodeRef}
variable {registered : Option Nat}

/-! ## Deliveries -/

/-- Somewhere on the way a poised follower whose container reaches the document passes a value to its
sink. If the sink leaves the follower poised, it is so in the end, and nothing else is done. -/
def Delivers (calls : Calls κ σ) (f : Follower κ) (rs order : List NodeRef) (value : Value)
    (l l' : Live κ σ) (m : Leeway κ) : Prop :=
  ∃ l₁, Still l l₁ m ∧ l₁.Poised f rs order true m ∧
    After (calls.receive f.sink value) l₁ fun _ l₂ => Abides l₁ l₂ m →
      ∀ rs' order', l₂.Poised f rs' order' true m → Still l₂ l' m ∧ l'.Poised f rs' order' true m

namespace Delivers

variable {value : Value}

theorem before (hStill : Still l l₁ m) (h : Delivers calls f rs order value l₁ l' m) :
    Delivers calls f rs order value l l' m := by
  obtain ⟨l₂, hStill₂, h₂⟩ := h
  exact ⟨l₂, hStill.trans hStill₂, h₂⟩

theorem after (h : Delivers calls f rs order value l l₁ m)
    (hRest : Abides l l₁ m → ∀ rs' order', l₁.Poised f rs' order' true m →
      Still l₁ l' m ∧ l'.Poised f rs' order' true m) : Delivers calls f rs order value l l' m := by
  obtain ⟨l₂, hStill, hPoised, hReceive⟩ := h
  refine ⟨l₂, hStill, hPoised, hReceive.mono fun _ l₃ hDone hAbides rs' order' h₃ => ?_⟩
  obtain ⟨hStill₃, h₁⟩ := hDone hAbides rs' order' h₃
  obtain ⟨hStill', h'⟩ :=
    hRest (hStill.toAbides.trans (hAbides.trans hStill₃.toAbides)) rs' order' h₁
  exact ⟨hStill₃.trans hStill', h'⟩

end Delivers

/-! ## Hooks that switch the binding -/

section Hooks

variable (hClient : client.Quiet) (depth : Nat) {hooks : List (Hook κ)} {event : Event}
include hClient

/-- Hooks that switch the binding on again, among quiet ones. -/
theorem runHooks_awake {n : Nat} (event : Event) (hCircuit : l.Circuit f (some n) m)
    (hSpared : m.spared f) (hHooks : ∀ h ∈ hooks, h = .switchOn f.binding ∨ h.Quiet l m) :
    After (runHooks (Calls.upTo client (depth + 2)) event hooks) l fun _ l' => Calm l l' m := by
  induction hooks generalizing l with
  | nil => exact Calm.refl l
  | cons h hooks ih =>
    obtain ⟨hHook, hRest⟩ := List.forall_mem_cons.mp hHooks
    unfold runHooks
    refine After.bind (m := fun _ l₁ => Calm l l₁ m) ?_ ?_
    · rcases hHook with rfl | hQuiet
      · rw [hook_upTo]
        refine After.bind (m := fun _ l₁ => l₁ = l) ?_ ?_
        · change ((switchOn _ f.binding).run l).2 = l
          rw [hCircuit.awake]
        · rintro _ _ rfl
          exact Calm.refl _
      · exact (runHook_quiet hClient depth hQuiet event).mono fun _ _ h => h.1
    · rintro cancels l₁ hCalm₁
      split
      · exact hCalm₁
      · refine (ih (hCircuit.frame hCalm₁.toFrame hSpared) fun h' hh' => ?_).mono fun _ l₂ hCalm₂ =>
          hCalm₁.trans hCalm₂
        exact (hRest h' hh').imp_right hCalm₁.hook_quiet

/-- Hooks that switch the binding off, among quiet ones. -/
theorem runHooks_sleeping (hCircuit : l.Circuit f registered m) (hSpared : m.spared f)
    (hKind : event.kind.isCancelable = false)
    (hHooks : ∀ h ∈ hooks, h = .switchOff f.binding ∨ h.Quiet l m)
    (hOff : .switchOff f.binding ∈ hooks ∨ registered = none) :
    After (runHooks (Calls.upTo client (depth + 2)) event hooks) l fun _ l' =>
      Placid l l' m ∧ l'.Circuit f none m := by
  induction hooks generalizing l registered with
  | nil =>
    obtain rfl := hOff.resolve_left List.not_mem_nil
    exact ⟨Placid.refl l, hCircuit⟩
  | cons h hooks ih =>
    obtain ⟨hHook, hRest⟩ := List.forall_mem_cons.mp hHooks
    unfold runHooks
    refine After.bind (m := fun _ l₁ => Placid l l₁ m ∧ ∃ registered₁, l₁.Circuit f registered₁ m ∧
      (.switchOff f.binding ∈ hooks ∨ registered₁ = none)) ?_ ?_
    · by_cases hOwn : h = .switchOff f.binding
      · subst hOwn
        rw [hook_upTo]
        refine hCircuit.sleeps.bind fun _ l₁ h₁ => ?_
        exact ⟨h₁.1, none, h₁.2, .inr rfl⟩
      · have hQuiet := hHook.resolve_left hOwn
        refine (runHook_quiet hClient depth hQuiet event).mono fun _ l₁ h₁ => ?_
        refine ⟨Placid.of_calm h₁.1 hSpared, registered, hCircuit.frame h₁.1.toFrame hSpared,
          hOff.imp_left ?_⟩
        exact fun hMem => (List.mem_cons.mp hMem).resolve_left (Ne.symm hOwn)
    · rintro cancels l₁ ⟨hPlacid, registered₁, hCircuit₁, hOff₁⟩
      rw [hKind, Bool.and_false, if_neg Bool.false_ne_true]
      refine (ih hCircuit₁ (fun h' hh' => ?_) hOff₁).mono fun _ l₂ h₂ =>
        ⟨hPlacid.trans h₂.1, h₂.2⟩
      exact (hRest h' hh').imp_right (hPlacid.quiet h')

/-- Hooks that switch the binding on, among quiet ones, while it is off: the value of the signal is
delivered. -/
theorem runHooks_waking (hStaged : l.Staged f rs order m) (hHung : l.Hung f true m)
    (hCircuit : l.Circuit f none m) (hConnected : l.isConnected (.container f.box) = true)
    (hKind : event.kind.isCancelable = false)
    (hHooks : ∀ h ∈ hooks, h = .switchOn f.binding ∨ h.Quiet l m)
    (hOn : .switchOn f.binding ∈ hooks) :
    After (runHooks (Calls.upTo client (depth + 3)) event hooks) l fun _ l' =>
      Delivers (Calls.upTo client (depth + 2)) f rs order (l.valueOf f.signal) l l' m := by
  have hSpared := hStaged.spared
  induction hooks generalizing l with
  | nil => cases hOn
  | cons h hooks ih =>
    obtain ⟨hHook, hRest⟩ := List.forall_mem_cons.mp hHooks
    unfold runHooks
    by_cases hOwn : h = .switchOn f.binding
    · subst hOwn
      rw [hook_upTo]
      change After (switchOn (Calls.upTo client (depth + 2)) f.binding >>= fun _ =>
        runHooks (Calls.upTo client (depth + 3)) event hooks) l _
      refine After.bind (hCircuit.wakes (Q := fun l₂ => ∃ l₁, Placid l l₁ m ∧
        l₁.Poised f rs order true m ∧
          ((Calls.upTo client (depth + 2)).receive f.sink (l.valueOf f.signal)).run l₁ = (⟨⟩, l₂))
        fun n l₁ hPlacid hCircuit₁ => ?_) ?_
      · exact ⟨l₁, hPlacid, ⟨hPlacid.staged hStaged, hPlacid.hung hHung, ⟨some n, hCircuit₁, rfl⟩,
          (hPlacid.isConnected _).trans hConnected⟩, rfl⟩
      · rintro _ l₂ ⟨l₁, hPlacid, hPoised, hRun⟩
        refine ⟨l₁, hPlacid.toStill, hPoised, ?_⟩
        unfold After
        rw [hRun]
        intro hAbides rs' order' h₂
        obtain ⟨registered, hCircuit₂, hOn₂⟩ := h₂.circuit
        obtain ⟨n, rfl⟩ := Option.isSome_iff_exists.mp hOn₂
        have hCalm := runHooks_awake hClient (depth + 1) event hCircuit₂ hSpared fun h' hh' =>
          (hRest h' hh').imp_right fun hQuiet => hAbides.quiet h' (hPlacid.quiet h' hQuiet)
        exact ⟨(Placid.of_calm hCalm hSpared).toStill, h₂.alike (Changed.alike_of_calm hCalm)⟩
    · have hQuiet := hHook.resolve_left hOwn
      refine (runHook_quiet hClient (depth + 1) hQuiet event).bind ?_
      rintro cancels l₁ ⟨hCalm, -⟩
      have hPlacid := Placid.of_calm hCalm hSpared
      rw [hKind, Bool.and_false, if_neg Bool.false_ne_true]
      refine (ih (hPlacid.staged hStaged) (hPlacid.hung hHung) (hCircuit.frame hCalm.toFrame hSpared)
        ((hPlacid.isConnected _).trans hConnected) (fun h' hh' => ?_) ?_).mono fun _ l' h' => ?_
      · exact (hRest h' hh').imp_right (hPlacid.quiet h')
      · exact (List.mem_cons.mp hOn).resolve_left (Ne.symm hOwn)
      · rw [hPlacid.value _ hCircuit.lt_size hCircuit.drives] at h'
        exact h'.before hPlacid.toStill

end Hooks

/-! ## Observers in the container -/

theorem Staged.observersIn_box (h : l.Staged f rs order m) (hHung : l.Hung f on m) :
    ∃ os, l.observersIn (.container f.box) = f.observer :: os ∧
      ∀ o ∈ os, ∃ r ∈ order, o ∈ l.observersIn r := by
  have hTracked : (l.trackedOf (l.dom.container f.box).start).observer = some f.observer := by
    rw [show (l.dom.container f.box).start = l.dom.key (.container f.box) from rfl, hHung.tracked]
  refine ⟨_, List.filterMap_cons_some hTracked, fun o ho => ?_⟩
  obtain ⟨n, hn, ho⟩ := List.mem_filterMap.mp ho
  obtain ⟨k, hk, hn⟩ := List.mem_flatMap.mp hn
  rw [h.shelf.row] at hk
  obtain ⟨r, hr, hk⟩ := List.mem_flatMap.mp hk
  have hKnown := h.shelf.known r (h.shelf.subset r hr)
  refine ⟨r, hr, List.mem_filterMap.mpr ⟨n, (h.sound.mem_subtree hKnown).mpr ⟨⟨k, hk, ?_⟩, ?_⟩, ho⟩⟩
  · exact h.sound.linked.mem_self_descendants.mp hn
  · rintro c rfl rfl
    rw [h.ends c (h.shelf.subset _ hr)] at ho
    cases ho

theorem Staged.others_quietFor {os : List ObserverId} (h : l.Staged f rs order m)
    (hos : ∀ o ∈ os, ∃ r ∈ order, o ∈ l.observersIn r) : l.QuietFor (· ∈ os) m := by
  intro o ho
  obtain ⟨r, hr, ho⟩ := hos o ho
  exact h.quiet r (h.shelf.subset r hr) o ho

/-- Nothing but statuses of others changes. -/
theorem Changed.stirred {os : List ObserverId} {c : Connectivity}
    (hC : Changed l l' l.dom (turnAll os c) m) (hSpared : m.spared f) (hNot : f.observer ∉ os) :
    Stirred l l' f m := by
  refine ⟨Still.of_changed hC (Dom.SameParts.refl _) hSpared (turnAll_target os c)
    (turnAll_hooks os c), fun _ hCircuit => hCircuit.frame hC.toFrame hSpared, fun on hHung => ?_,
    isConnected_relabeled hC.tree.relabeled hC.document _⟩
  refine hHung.of_same (fun _ => hC.hook_quiet) (by rw [hC.tracked, hC.tree.relabeled.key])
    fun x hx => ?_
  rw [hC.core, hx, Option.map_some, turnAll_of_not_mem c x hNot]

theorem Staged.told {os : List ObserverId} {c : Connectivity} (h : l.Staged f rs order m)
    (hC : Changed l l' l.dom (turnAll os c) m) : l'.Staged f rs order m :=
  h.changed hC (turnAll_target os c) (turnAll_hooks os c) h.sound (Dom.SameParts.refl _) h.shelf
    fun _ _ _ => Iff.rfl

/-! ## The observer of the container -/

/-- What the hooks of the observer are that wait for anything but the end. -/
theorem Hung.hooks (h : l.Hung f on m) {kind : EventKind} (hKind : kind ≠ .destroy) {hook : Hook κ}
    (hHook : hook ∈ l.hooksFor f.observer kind) :
    (kind = .connect ∧ hook = .switchOn f.binding) ∨
      (kind = .disconnect ∧ hook = .switchOff f.binding) ∨ hook.Quiet l m := by
  obtain ⟨x, hx, -, hTame, -⟩ := h.core
  obtain ⟨y, hy, e, he, rfl, rfl⟩ := mem_hooksFor.mp hHook
  rw [hx, Option.some.injEq] at hy
  subst hy
  exact (hTame e he).resolve_left hKind

theorem Hung.switchOn_mem (h : l.Hung f on m) :
    .switchOn f.binding ∈ l.hooksFor f.observer .connect := by
  obtain ⟨x, hx, -, -, hOn, -⟩ := h.core
  exact mem_hooksFor.mpr ⟨x, hx, hOn⟩

theorem Hung.switchOff_mem (h : l.Hung f on m) :
    .switchOff f.binding ∈ l.hooksFor f.observer .disconnect := by
  obtain ⟨x, hx, -, -, -, hOff⟩ := h.core
  exact mem_hooksFor.mpr ⟨x, hx, hOff⟩

/-- Telling the observer runs its hooks. -/
theorem Hung.after_tell (h : l.Hung f on m) {kind : EventKind} {post : Live κ σ → Prop}
    (hRun : ∀ event : Event, event.kind = kind →
      After (runHooks calls event (l.hooksFor f.observer kind)) l fun _ => post) :
    After (tell calls f.observer kind) l fun _ => post := by
  obtain ⟨x, hx, -⟩ := h.core
  obtain ⟨y, hy, -⟩ := Option.map_eq_some_iff.mp hx
  unfold tell
  rw [after_bind, after_get, hy]
  exact hRun { kind, target := y.target } rfl

theorem Hung.turned (h : l.Hung f on m) (now : Bool)
    (hC : Changed l l' l.dom (turnAll [f.observer] (if now then .connected else .disconnected)) m) :
    l'.Hung f now m := by
  obtain ⟨x, hx, hStatus, hTame, hOn, hOff⟩ := h.core
  have hLives : x.status ≠ .destroyed := by
    rw [hStatus]
    split <;> simp
  refine ⟨by rw [hC.tracked, hC.tree.relabeled.key, h.tracked], _, by rw [hC.core, hx]; rfl,
    turnAll_of_mem _ (List.mem_singleton_self _) hLives, ?_, ?_, ?_⟩
  · rw [turnAll_hooks]
    exact fun e he => (hTame e he).mono fun _ => hC.hook_quiet
  · rwa [turnAll_hooks]
  · rwa [turnAll_hooks]

theorem setStatus_own (l : Live κ σ) (f : Follower κ) (c : Connectivity) (m : Leeway κ) :
    After (setStatus f.observer c) l fun _ l' => Changed l l' l.dom (turnAll [f.observer] c) m := by
  refine (setStatus_turned l f.observer c m).mono fun _ l' hT => ?_
  refine ⟨hT.toFrame, hT.tree, fun n => by rw [trackedOf, trackedOf, hT.tracked], fun p => ?_⟩
  rw [hT.core]
  congr 1
  funext x
  simp only [turnAll, List.mem_singleton]

section Own

variable (hClient : client.Quiet) (depth : Nat)
include hClient

/-- The observer of the container is told that this reaches the document. -/
theorem tellConnected_own (hStaged : l.Staged f rs order m) (hHung : l.Hung f false m)
    (hCircuit : l.Circuit f none m) (hConnected : l.isConnected (.container f.box) = true) :
    After (tellConnected (Calls.upTo client (depth + 3)) f.observer) l fun _ l' =>
      Delivers (Calls.upTo client (depth + 2)) f rs order (l.valueOf f.signal) l l' m := by
  obtain ⟨x, hx, hStatus, -⟩ := hHung.core
  unfold tellConnected
  rw [after_bind, after_get, statusOf_eq hx, hStatus]
  refine (setStatus_own l f .connected m).bind fun _ l₁ hC => ?_
  have hHung₁ : l₁.Hung f true m := hHung.turned true hC
  have hStill : Still l l₁ m := Still.of_changed hC (Dom.SameParts.refl _) hStaged.spared
    (turnAll_target _ _) (turnAll_hooks _ _)
  refine hHung₁.after_tell fun event hKind => ?_
  refine (runHooks_waking hClient depth (hStaged.told hC) hHung₁
    (hCircuit.frame hC.toFrame hStaged.spared)
    ((isConnected_relabeled hC.tree.relabeled hC.document _).trans hConnected)
    (by rw [hKind]; rfl) (fun hook hHook => ?_) hHung₁.switchOn_mem).mono fun _ l' h' => ?_
  · rcases hHung₁.hooks (by simp) hHook with ⟨-, rfl⟩ | ⟨hEq, -⟩ | hQuiet
    · exact .inl rfl
    · cases hEq
    · exact .inr hQuiet
  · rw [hStill.value _ hCircuit.lt_size hCircuit.drives] at h'
    exact h'.before hStill

/-- The observer of the container is told that this does not reach the document any more. -/
theorem tellDisconnected_own (hHung : l.Hung f true m) (hCircuit : l.Circuit f registered m)
    (hSpared : m.spared f) :
    After (tellDisconnected (Calls.upTo client (depth + 2)) f.observer) l fun _ l' =>
      ∃ l₁, Changed l l₁ l.dom (turnAll [f.observer] .disconnected) m ∧ l₁.Hung f false m ∧
        Placid l₁ l' m ∧ l'.Circuit f none m := by
  obtain ⟨x, hx, hStatus, -⟩ := hHung.core
  unfold tellDisconnected
  rw [after_bind, after_get, statusOf_eq hx, hStatus]
  refine (setStatus_own l f .disconnected m).bind fun _ l₁ hC => ?_
  have hHung₁ : l₁.Hung f false m := hHung.turned false hC
  refine hHung₁.after_tell fun event hKind => ?_
  refine (runHooks_sleeping hClient depth (hCircuit.frame hC.toFrame hSpared) hSpared
    (by rw [hKind]; rfl) (fun hook hHook => ?_) (.inl hHung₁.switchOff_mem)).mono fun _ l' h' => ?_
  · rcases hHung₁.hooks (by simp) hHook with ⟨hEq, -⟩ | ⟨-, rfl⟩ | hQuiet
    · cases hEq
    · exact .inl rfl
    · exact .inr hQuiet
  · exact ⟨l₁, hC, hHung₁, h'⟩

/-! ## All observers -/

/-- All in the container are told that it reaches the document. -/
theorem notifyConnected_box (hStaged : l.Staged f rs order m) (hHung : l.Hung f false m)
    (hCircuit : l.Circuit f none m) (hConnected : l.isConnected (.container f.box) = true) :
    After (notifyConnected (Calls.upTo client (depth + 3)) (.container f.box)) l fun _ l' =>
      Delivers (Calls.upTo client (depth + 2)) f rs order (l.valueOf f.signal) l l' m := by
  obtain ⟨os, hObservers, hos⟩ := hStaged.observersIn_box hHung
  have hNot : f.observer ∉ os := fun hMem => by
    obtain ⟨r, hr, ho⟩ := hos _ hMem
    exact hStaged.observer_not_mem hHung (hStaged.shelf.subset r hr) ho
  have hThere : ∀ o ∈ os, (l.core? o).isSome := fun o ho => by
    obtain ⟨r, -, ho⟩ := hos o ho
    obtain ⟨n, -, hn⟩ := List.mem_filterMap.mp ho
    exact hStaged.observers n o hn
  unfold notifyConnected
  rw [after_bind, after_get, hObservers, List.forM_eq_forM, List.forM_cons]
  refine (tellConnected_own hClient depth hStaged hHung hCircuit hConnected).bind fun _ l₁ h₁ => ?_
  refine h₁.after fun hAbides rs' order' hPoised => ?_
  have hC := changed_forM _ (Observer.Core.turn_turn .connected) (by simp)
    (fun _ hQuiet _ ho => tellConnected_turned hClient (depth + 1) hQuiet ho)
    (hAbides.quietFor (hStaged.others_quietFor hos) hThere) os fun _ ho => ho
  have hStirred := Changed.stirred hC hStaged.spared hNot
  exact ⟨hStirred.toStill, hPoised.stirred hStirred (hPoised.toStaged.told hC)⟩

/-- All in the container are told that it does not reach the document any more. -/
theorem notifyDisconnected_box (hStaged : l.Staged f rs order m) (hHung : l.Hung f true m)
    (hCircuit : l.Circuit f registered m) :
    After (notifyDisconnected (Calls.upTo client (depth + 2)) (.container f.box)) l fun _ l' =>
      Still l l' m ∧ l.dom.Relabeled l'.dom ∧ l'.Staged f rs order m ∧ l'.Hung f false m ∧
        l'.Circuit f none m := by
  have hSpared := hStaged.spared
  obtain ⟨os, hObservers, hos⟩ := hStaged.observersIn_box hHung
  have hNot : f.observer ∉ os := fun hMem => by
    obtain ⟨r, hr, ho⟩ := hos _ hMem
    exact hStaged.observer_not_mem hHung (hStaged.shelf.subset r hr) ho
  unfold notifyDisconnected
  rw [after_bind, after_get, hObservers, List.reverse_cons, List.forM_eq_forM, List.forM_append]
  refine (changed_forM _ (Observer.Core.turn_turn .disconnected) (by simp)
    (fun _ hQuiet _ ho => tellDisconnected_turned hClient depth hQuiet ho)
    (hStaged.others_quietFor fun o ho => hos o (List.mem_reverse.mp ho)) os.reverse
    fun _ ho => ho).bind fun _ l₁ hC => ?_
  have hStirred : Stirred l l₁ f m :=
    Changed.stirred hC hSpared fun hMem => hNot (List.mem_reverse.mp hMem)
  have hStaged₁ : l₁.Staged f rs order m := hStaged.told hC
  rw [List.forM_cons]
  refine (tellDisconnected_own hClient depth (hStirred.hung _ hHung) (hStirred.circuit _ hCircuit)
    hSpared).bind ?_
  rintro _ l' ⟨l₂, hC₂, hHung₂, hPlacid, hCircuit'⟩
  have hStill₂ : Still l₁ l₂ m := Still.of_changed hC₂ (Dom.SameParts.refl _) hSpared
    (turnAll_target _ _) (turnAll_hooks _ _)
  exact ⟨hStirred.toStill.trans (hStill₂.trans hPlacid.toStill),
    (hC.tree.relabeled.trans hC₂.tree.relabeled).trans hPlacid.tree,
    hPlacid.staged (hStaged₁.told hC₂), hPlacid.hung hHung₂, hCircuit'⟩

end Own

/-! ## Mounting -/

theorem given_abides (l : Live κ σ) (s : SignalId) (value : Value) :
    Abides l (l.given s value) m where
  config := rfl
  document := rfl
  tornDown := rfl
  known _ hr := hr
  destroyed _ _ hr := hr
  core _ x hx := ⟨x, hx, rfl, fun _ he => he⟩
  signals_size := Nat.le_of_eq Array.size_modify.symm
  drives _ hs := (sturdy_given l s value).drives_iff hs
  slight _ := (sturdy_given l s value).slight
  closed h := closed_given h s value
  quiet _ := (sturdy_given l s value).hook_quiet (closed_given · s value) rfl rfl

/-- Hooks that can cancel something do not switch the binding. -/
theorem Hung.pliant (h : l.Hung f on m) : l.Pliant (.container f.box) m := by
  intro o ho kind hKind hook hHook
  rw [h.tracked] at ho
  obtain rfl := Option.some.inj ho
  rcases h.hooks (fun he => by rw [he] at hKind; cases hKind) hHook with ⟨rfl, -⟩ | ⟨rfl, -⟩ | hMild
  · cases hKind
  · cases hKind
  · exact hMild

section Steps

variable (hClient : client.Quiet) (depth : Nat)
include hClient

namespace Poised

omit hClient in
theorem same (h : l.Poised f rs order on m) (hAlike : Alike l l' m) :
    Still l l' m ∧ l'.Poised f rs order on m :=
  ⟨(Placid.of_alike hAlike h.spared).toStill, h.alike hAlike⟩

omit hClient in
theorem noted (h : l.Poised f rs order on m) (r : NodeRef) :
    After (noteMoves r) l fun _ l' => Still l l' m ∧ l'.Poised f rs order on m :=
  (noteMoves_alike l r m).mono fun _ _ hPost => h.same hPost.1

/-- The container is put somewhere, outside of what is kept. If it comes to reach the document by
that, the value of the signal is delivered. -/
theorem mount (h : l.Poised f rs order on m) {parent : NodeRef} (before : Option NodeRef)
    (hParent : l.dom.Known parent) (hOut : ¬ l.dom.Inside (.container f.box) (l.dom.key parent))
    (hAway : ∀ r ∈ rs, ¬ l.dom.Inside r (l.dom.key parent)) :
    After (attach (Calls.upTo client (depth + 3)) (.container f.box) parent before).run l
      fun _ l' => (Still l l' m ∧ l'.Poised f rs order on m) ∨ on = false ∧
        Delivers (Calls.upTo client (depth + 2)) f rs order (l.valueOf f.signal) l l' m := by
  have hKnown : l.dom.Known (.container f.box) := h.shelf.box_lt
  have hPut : l.stateOf (.container f.box) = .detached →
      ∀ d', l.dom.place (.container f.box) parent before = .ok d' →
        l.dom.isPlaced (.container f.box) = false ∧ ∃ host reference,
          l.dom.point parent before = .ok (host, reference) ∧ l.dom.Host (.container f.box) host ∧
          Dom.Housed l.dom d' (.container f.box) host reference := by
    intro hState d' hPlace
    have hOff := (isPlaced_of_state (.inl (by rw [h.hung.tracked])) h.ne_document).1 hState
    exact ⟨hOff, h.sound.housed_of_place hKnown hParent (fun he => hOut (he ▸ Dom.inside_key _)) hOut
      hOff hPlace⟩
  refine After.attach hClient (depth + 1) (asks_any _) h.hung.pliant
    (.inl (by rw [h.hung.tracked])) (fun hState d' hPlace => ?_)
    (fun _ _ hStruck _ => .inl (h.same hStruck.toChanged)) ?_
  · obtain ⟨-, _, _, -, -, hHoused⟩ := hPut hState d' hPlace
    exact hHoused.toSameParts.key _
  intro d' l₄ _ hState _ _ hPlace hStruck
  have hC := hStruck.toChanged
  obtain ⟨hOff, host, reference, hPoint, hHost, hHoused⟩ := hPut hState d' hPlace
  have hParts := hHoused.toSameParts
  have hSound := hHoused.sound h.sound hKnown hHost
  obtain ⟨hShelf, hInside⟩ := h.shelf.carried_in h.sound hHoused hHost fun r hr =>
    h.sound.host_of_point (h.shelf.known r hr) hParent (fun he => hAway r hr (he ▸ Dom.inside_key _))
      (hAway r hr) hPoint
  have hNot : on = false := by
    rw [← h.connected, Bool.eq_false_iff, Ne, isConnected_container_iff h.sound]
    rintro ⟨hLive, -⟩
    exact Bool.false_ne_true (hOff.symm.trans hLive)
  subst hNot
  obtain ⟨registered, hCircuit, hNone⟩ := h.circuit
  obtain rfl : registered = none := Option.isNone_iff_eq_none.mp (by simpa using hNone)
  -- the container stands at its place, and nobody but its own hooks has heard of it
  have hStill : Still l l₄ m :=
    Still.of_changed hC hParts h.spared (fun _ _ => rfl) fun _ _ => rfl
  have hStaged : l₄.Staged f rs order m :=
    h.toStaged.changed hC (fun _ _ => rfl) (fun _ _ => rfl) hSound hParts hShelf hInside
  have hHung : l₄.Hung f false m := h.hung.of_same hStill.quiet
    (by rw [hC.tracked, hC.tree.relabeled.key, hParts.key]) fun x hx => by rw [hC.core, hx]; rfl
  have hCircuit₄ := hCircuit.frame hC.toFrame h.spared
  refine ⟨fun hConnected => ?_, fun hConnected => ?_⟩
  · refine After.lift_bind (notifyConnected_box hClient depth hStaged hHung hCircuit₄ hConnected)
      fun _ l₅ _ h₅ => ?_
    rw [after_sure]
    refine .inr ⟨rfl, ?_⟩
    rw [h.signal_eq hStill] at h₅
    exact (h₅.before hStill).after fun _ rs' order' hPoised => hPoised.noted _
  · have hPoised : l₄.Poised f rs order false m :=
      ⟨hStaged, hHung, ⟨none, hCircuit₄, rfl⟩, hConnected⟩
    rw [after_sure]
    refine (hPoised.noted _).mono fun _ l' h' => .inl ⟨hStill.trans h'.1, h'.2⟩

/-- The container is taken out. -/
theorem unmount (h : l.Poised f rs order on m) :
    After (detach (Calls.upTo client (depth + 2)) (.container f.box)).run l fun _ l' =>
      Still l l' m ∧ ∃ on', l'.Poised f rs order on' m ∧ (on' = true → on = true) := by
  have hKnown : l.dom.Known (.container f.box) := h.shelf.box_lt
  have hTaken (hState : l.stateOf (.container f.box) = .attached) :=
    h.sound.unhoused_takeOut hKnown
      ((isPlaced_of_state (.inl (by rw [h.hung.tracked])) h.ne_document).2 hState)
  refine After.detach hClient depth (asks_any _) h.hung.pliant (.inl (by rw [h.hung.tracked]))
    h.ne_document (fun hState => (hTaken hState).1.toSameParts.key _)
    (fun _ _ hStruck _ => ⟨(h.same hStruck.toChanged).1, on, (h.same hStruck.toChanged).2, id⟩) ?_
  intro l₄ _ hState _ hStruck
  have hC := hStruck.toChanged
  obtain ⟨hUnhoused, hLinked⟩ := hTaken hState
  have hParts := hUnhoused.toSameParts
  have hSound := hUnhoused.sound h.sound hKnown hLinked
  obtain ⟨hShelf, hInside⟩ := h.shelf.carried_out h.sound hUnhoused hLinked
  -- the container stands nowhere, and nobody but its own hooks has heard of it
  have hStill : Still l l₄ m :=
    Still.of_changed hC hParts h.spared (fun _ _ => rfl) fun _ _ => rfl
  have hStaged : l₄.Staged f rs order m :=
    h.toStaged.changed hC (fun _ _ => rfl) (fun _ _ => rfl) hSound hParts hShelf hInside
  have hHung : l₄.Hung f on m := h.hung.of_same hStill.quiet
    (by rw [hC.tracked, hC.tree.relabeled.key, hParts.key]) fun x hx => by rw [hC.core, hx]; rfl
  obtain ⟨registered, hCircuit, hSome⟩ := h.circuit
  have hCircuit₄ := hCircuit.frame hC.toFrame h.spared
  have hAway : l₄.isConnected (.container f.box) = false := by
    rw [(hC.seen _).1, Bool.eq_false_iff, Ne,
      isConnected_container_iff (l := l.withDom (l.dom.takeOut (.container f.box))) hSound]
    rintro ⟨hLive, -⟩
    exact ((hUnhoused.live _ h.shelf.box_lt).mp hLive).2 rfl
  rw [h.connected]
  refine ⟨fun hTrue => ?_, fun hFalse => ?_⟩
  · rw [hTrue] at hHung
    refine After.lift_bind (notifyDisconnected_box hClient depth hStaged hHung hCircuit₄) ?_
    rintro _ l₅ - ⟨hStill₅, hTree, hStaged₅, hHung₅, hCircuit₅⟩
    have hPoised : l₅.Poised f rs order false m := ⟨hStaged₅, hHung₅, ⟨none, hCircuit₅, rfl⟩,
      (isConnected_relabeled hTree hStill₅.document _).trans hAway⟩
    rw [after_sure]
    refine (hPoised.noted _).mono fun _ l' h' => ?_
    exact ⟨hStill.trans (hStill₅.trans h'.1), false, h'.2, fun he => by cases he⟩
  · obtain rfl : on = false := hFalse
    have hPoised : l₄.Poised f rs order false m :=
      ⟨hStaged, hHung, ⟨registered, hCircuit₄, hSome⟩, hAway⟩
    rw [after_sure]
    exact (hPoised.noted _).mono fun _ l' h' => ⟨hStill.trans h'.1, false, h'.2, id⟩

omit hClient in
theorem given (h : l.Poised f rs order on m) (s : SignalId) (value : Value) :
    (l.given s value).Poised f rs order on m := by
  have hAbides : Abides l (l.given s value) m := given_abides l s value
  obtain ⟨registered, hCircuit, hSome⟩ := h.circuit
  exact ⟨h.toStaged.abides hAbides (.refl _) fun _ => rfl,
    h.hung.of_same hAbides.quiet rfl fun _ hx => hx, ⟨registered, hCircuit.given s value, hSome⟩,
    h.connected⟩

/-- Slight watchers are told a value. -/
theorem tellSlight (h : l.Poised f rs order on m) {ws : List (Signal.Watcher κ)}
    (hWatchers : ∀ w ∈ ws, w.sink.Slight l m) (value : Value) :
    After (ws.forM fun w => (Calls.upTo client depth).receive w.sink value) l fun _ l' =>
      Still l l' m ∧ l'.Poised f rs order on m :=
  (tellAll_slight hClient depth hWatchers h.closed value).mono fun _ _ hSilent =>
    ⟨(Placid.of_calm hSilent.toCalm h.spared).toStill,
      h.alike (Changed.alike_of_calm hSilent.toCalm)⟩

/-- The signal is set. If the container reaches the document, the value is delivered. -/
theorem set (h : l.Poised f rs order on m) (value : Value) :
    After (setSignal (Calls.upTo client (depth + 1)) f.signal value) l fun _ l' =>
      (on = false ∧ Still (l.given f.signal value) l' m ∧ l'.Poised f rs order on m) ∨ on = true ∧
        Delivers (Calls.upTo client (depth + 1)) f rs order value (l.given f.signal value) l' m := by
  have hGiven := h.given f.signal value
  obtain ⟨registered, hCircuit, hSome⟩ := hGiven.circuit
  obtain ⟨g, -, hWatchers, hServes⟩ := Circuit.watchers_eq hCircuit.toWire
  have hOthers := hCircuit.others
  rw [hWatchers] at hOthers
  unfold setSignal
  refine After.bind (m := fun _ l₁ => l₁ = l.given f.signal value) rfl ?_
  rintro _ _ rfl
  rw [after_bind, after_get, hWatchers]
  cases registered with
  | none =>
    obtain rfl : on = false := hSome.symm
    exact (hGiven.tellSlight hClient (depth + 1) (fun w hw => (hOthers w hw).resolve_right (by simp))
      value).mono fun _ _ h' => .inl ⟨rfl, h'⟩
  | some n =>
    obtain rfl : on = true := hSome.symm
    obtain ⟨before, after, hSplit, hRest⟩ := hServes.split
    have hSlight : ∀ w ∈ before ++ after, w.sink.Slight (l.given f.signal value) m := fun w hw =>
      (hOthers w (hRest w hw).1).resolve_right fun he => (hRest w hw).2 (Option.some.inj he).symm
    rw [hSplit, List.forM_eq_forM, List.forM_append, List.forM_cons]
    refine (hGiven.tellSlight hClient (depth + 1)
      (fun w hw => hSlight w (List.mem_append_left _ hw)) value).bind ?_
    rintro _ l₁ ⟨hStill, hPoised⟩
    refine After.bind (m := fun _ l₂ => l₂ = (((Calls.upTo client (depth + 1)).receive f.sink
      value).run l₁).2) rfl fun _ l₂ hRun => ?_
    refine .inr ⟨rfl, l₁, hStill, hPoised, ?_⟩
    unfold After
    rw [← hRun]
    exact fun hAbides rs' order' h₂ => h₂.tellSlight hClient (depth + 1) (fun w hw =>
      hAbides.slight _ (hStill.slight _ (hSlight w (List.mem_append_right _ hw)))) value

end Poised

end Steps

end LiveMarkup.Live

/-! ## Motions of followers -/

namespace LiveMarkup.Live

variable {κ σ ι : Type} {client : Client κ σ} {l l₀ l₁ l' : Live κ σ} {w : Leeway κ}
variable {f : Follower κ} {on : Bool} {rs order : List NodeRef}

/-- What is done to a follower. -/
inductive Motion where
  | set (value : Value)
  | mount (parent : NodeRef) (before : Option NodeRef)
  | unmount

namespace Motion

/-- A motion is made. What is refused has no effect. -/
def run (calls : Calls κ σ) (f : Follower κ) : Motion → LiveM κ σ Unit
  | set value => setSignal calls f.signal value
  | mount parent before => attempt (attach calls (.container f.box) parent before)
  | unmount => attempt (detach calls (.container f.box))

/-- The container is only put into what is outside of it and of what was made for it. -/
def Proper (l : Live κ σ) (f : Follower κ) (kept : List NodeRef) : Motion → Prop
  | mount parent _ => l.dom.Known parent ∧ ¬ l.dom.Inside (.container f.box) (l.dom.key parent) ∧
      ∀ r ∈ kept, ¬ l.dom.Inside r (l.dom.key parent)
  | _ => True

/-- Whether a motion delivers the value of the signal. -/
def delivers (f : Follower κ) (l l' : Live κ σ) : Motion → Bool
  | set _ => l.isConnected (.container f.box)
  | mount _ _ => !l.isConnected (.container f.box) && l'.isConnected (.container f.box)
  | unmount => false

/-- When a value was delivered last, and which one. -/
def last (f : Follower κ) (l l' : Live κ σ) (before : Option (Nat × Value)) (m : Motion) :
    Option (Nat × Value) :=
  if m.delivers f l l' then some (l.clock.now, l'.valueOf f.signal) else before

/-- The state that a motion begins with: a signal that is set has its value at once. -/
def start (f : Follower κ) (l : Live κ σ) : Motion → Live κ σ
  | set value => l.given f.signal value
  | _ => l

end Motion

/-- A motion leaves a follower and what it keeps as they are, or delivers the value of the signal. -/
theorem Poised.moves (hClient : client.Quiet) (depth : Nat)
    (h : l.Poised f rs order on w) {m : Motion} (hProper : m.Proper l f rs) :
    (m.start f l).Poised f rs order on w ∧
    After (m.run (Calls.upTo client (depth + 3)) f) l fun _ l' =>
      (Still (m.start f l) l' w ∧ m.delivers f l l' = false ∧
        ∃ on', l'.Poised f rs order on' w ∧ (on' = true → on = true ∧ m.start f l = l)) ∨
      (∃ n, Delivers (Calls.upTo client (depth + 2 + n)) f rs order
        ((m.start f l).valueOf f.signal) (m.start f l) l' w) ∧
        ∀ rs' order', l'.Poised f rs' order' true w → m.delivers f l l' = true := by
  cases m with
  | set value =>
    refine ⟨h.given _ _, (h.set hClient (depth + 2) value).mono ?_⟩
    rintro _ l' (⟨rfl, hStill, hPoised⟩ | ⟨rfl, hDelivers⟩)
    · exact .inl ⟨hStill, h.connected, false, hPoised, fun he => by cases he⟩
    · refine .inr ⟨⟨1, ?_⟩, fun _ _ _ => h.connected⟩
      obtain ⟨registered, hCircuit, -⟩ := h.circuit
      rw [Motion.start, valueOf_given hCircuit.lt_size]
      exact hDelivers
  | mount parent before =>
    obtain ⟨hParent, hOut, hAway⟩ := hProper
    refine ⟨h, after_attempt.mpr <|
      (h.mount hClient depth before hParent hOut hAway).mono ?_⟩
    rintro _ l' (⟨hStill, hPoised⟩ | ⟨rfl, hDelivers⟩)
    · refine .inl ⟨hStill, ?_, on, hPoised, fun he => ⟨he, rfl⟩⟩
      rw [Motion.delivers, h.connected, hPoised.connected, Bool.not_and_self]
    · refine .inr ⟨⟨0, hDelivers⟩, fun rs' order' hPoised => ?_⟩
      rw [Motion.delivers, h.connected, hPoised.connected]
      rfl
  | unmount =>
    refine ⟨h, after_attempt.mpr <| (h.unmount hClient (depth + 1)).mono ?_⟩
    rintro _ l' ⟨hStill, on', hPoised, hOn⟩
    exact .inl ⟨hStill, rfl, on', hPoised, fun he => ⟨hOn he, rfl⟩⟩

/-! ### What is made -/

/-- A node that a factory was asked for, and the state in which it was. -/
structure Making (ι κ σ : Type) where
  tag : ι
  node : NodeRef
  state : Live κ σ

/-- What factories were asked for since a state, the last one first. Nothing else was made. -/
inductive Made (client : Client κ σ) (factory? : ι → Option (NodeFactory κ)) (l₀ : Live κ σ) :
    List (Making ι κ σ) → Live κ σ → Prop
  | nothing {l : Live κ σ} (hSize : l.dom.nodes.size = l₀.dom.nodes.size) : Made client factory? l₀ [] l
  | call {makings : List (Making ι κ σ)} {l₁ l₂ l : Live κ σ} {tag : ι} {factory : NodeFactory κ}
      {node : NodeRef} {depth : Nat} (h : Made client factory? l₀ makings l₁)
      (hFactory : factory? tag = some factory)
      (hBuild : ((Calls.upTo client depth).build factory).run.run l₁ = (.ok node, l₂))
      (hSize : l.dom.nodes.size = l₂.dom.nodes.size) :
      Made client factory? l₀ (⟨tag, node, l₁⟩ :: makings) l

theorem Made.later {factory? : ι → Option (NodeFactory κ)} {makings : List (Making ι κ σ)}
    (h : Made client factory? l₀ makings l) (hSize : l'.dom.nodes.size = l.dom.nodes.size) :
    Made client factory? l₀ makings l' := by
  cases h with
  | nothing h => exact .nothing (hSize.trans h)
  | call h hFactory hBuild h₂ => exact .call h hFactory hBuild (hSize.trans h₂)

end LiveMarkup.Live
