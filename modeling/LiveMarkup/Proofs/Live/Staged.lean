import LiveMarkup.Proofs.Dom.Shelf
import LiveMarkup.Proofs.Live.Unhindered

/-!
# What a follower shows and hides

A conditional or a switch is a container with a binding. While the container is connected, the
subscription of the binding is on: a watcher with a number of its own passes the value of a signal to
a sink. A follower puts nodes and containers into its own container and takes them out again. The
hooks of all that is in them are quiet and leave its wire alone, and so the observer of its container.

* `Abides`, `Still`, `Placid`: what lasts whatever is shown, what lasts while nothing is made, and
  steps that neither the tree nor observers notice;
* `Circuit`: the wire of a follower, and who watches its signal besides;
* `Circuit.wakes`, `Circuit.sleeps`: what switching the binding on and off does;
* `Hung`, `Staged`: the observer of a follower, and what it shows and keeps;
* `Staged.attach`, `Staged.detach`, `Staged.destroy`: the transitions of what is kept.
-/

namespace LiveMarkup.Live

variable {κ σ : Type} {client : Client κ σ} {calls : Calls κ σ} {l l₁ l' : Live κ σ} {m : Leeway κ}
variable {f : Follower κ} {on : Bool} {rs order : List NodeRef} {r parent : NodeRef}
variable {before : Option NodeRef} {registered : Option Nat} {K : ObserverId → Prop}

/-! ## What lasts -/

/-- What lasts whatever is made, shown and hidden. -/
structure Abides (l l' : Live κ σ) (m : Leeway κ) : Prop where
  config : l'.config = l.config
  document : l'.document = l.document
  tornDown : l'.tornDown = l.tornDown
  known : ∀ r, l.dom.Known r → l'.dom.Known r
  destroyed : ∀ r, l.dom.Known r → l.stateOf r = .destroyed → l'.stateOf r = .destroyed
  core : ∀ o x, l.core? o = some x →
    ∃ x', l'.core? o = some x' ∧ x'.target = x.target ∧ ∀ e ∈ x'.hooks, e ∈ x.hooks
  signals_size : l.signals.size ≤ l'.signals.size
  drives : ∀ s < l.signals.size, m.Drives l' s ↔ m.Drives l s
  slight : ∀ sink : Sink κ, sink.Slight l m → sink.Slight l' m
  closed : l.Closed m → l'.Closed m
  quiet : ∀ hook : Hook κ, hook.Quiet l m → hook.Quiet l' m

/-- What lasts while nothing is made, and conditionals, switches and the clock are left alone. -/
structure Still (l l' : Live κ σ) (m : Leeway κ) : Prop extends Abides l l' m where
  conditionals : l'.conditionals = l.conditionals
  switches : l'.switches = l.switches
  clock : l'.clock = l.clock
  nodes_size : l'.dom.nodes.size = l.dom.nodes.size
  value : ∀ s < l.signals.size, ¬ m.Drives l s → l'.valueOf s = l.valueOf s

/-- Neither the tree nor observers notice, but for what is written. -/
structure Placid (l l' : Live κ σ) (m : Leeway κ) : Prop extends Still l l' m where
  tree : l.dom.Relabeled l'.dom
  tracked : ∀ n, l'.trackedOf n = l.trackedOf n
  sameCore : ∀ o, l'.core? o = l.core? o

namespace Abides

theorem refl (l : Live κ σ) : Abides l l m :=
  ⟨rfl, rfl, rfl, fun _ h => h, fun _ _ h => h, fun _ x hx => ⟨x, hx, rfl, fun _ he => he⟩,
    Nat.le_refl _, fun _ _ => Iff.rfl, fun _ h => h, fun h => h, fun _ h => h⟩

theorem trans (h₁ : Abides l l₁ m) (h₂ : Abides l₁ l' m) : Abides l l' m where
  config := h₂.config.trans h₁.config
  document := h₂.document.trans h₁.document
  tornDown := h₂.tornDown.trans h₁.tornDown
  known r hr := h₂.known r (h₁.known r hr)
  destroyed r hr h := h₂.destroyed r (h₁.known r hr) (h₁.destroyed r hr h)
  core o x hx := by
    obtain ⟨x₁, hx₁, hTarget₁, hHooks₁⟩ := h₁.core o x hx
    obtain ⟨x₂, hx₂, hTarget₂, hHooks₂⟩ := h₂.core o x₁ hx₁
    exact ⟨x₂, hx₂, hTarget₂.trans hTarget₁, fun e he => hHooks₁ e (hHooks₂ e he)⟩
  signals_size := Nat.le_trans h₁.signals_size h₂.signals_size
  drives s hs := (h₂.drives s (Nat.lt_of_lt_of_le hs h₁.signals_size)).trans (h₁.drives s hs)
  slight sink h := h₂.slight sink (h₁.slight sink h)
  closed h := h₂.closed (h₁.closed h)
  quiet hook h := h₂.quiet hook (h₁.quiet hook h)

theorem quietFor (h : Abides l l' m) (hQuiet : l.QuietFor K m)
    (hThere : ∀ o, K o → (l.core? o).isSome) : l'.QuietFor K m := by
  intro o ho x' hx' e he
  obtain ⟨x, hx⟩ := Option.isSome_iff_exists.mp (hThere o ho)
  obtain ⟨y, hy, -, hHooks⟩ := h.core o x hx
  rw [hx', Option.some.injEq] at hy
  subst hy
  exact h.quiet _ (hQuiet o ho x hx e (hHooks e he))

end Abides

namespace Still

theorem refl (l : Live κ σ) : Still l l m :=
  ⟨Abides.refl l, rfl, rfl, rfl, rfl, fun _ _ _ => rfl⟩

theorem trans (h₁ : Still l l₁ m) (h₂ : Still l₁ l' m) : Still l l' m where
  toAbides := h₁.toAbides.trans h₂.toAbides
  conditionals := h₂.conditionals.trans h₁.conditionals
  switches := h₂.switches.trans h₁.switches
  clock := h₂.clock.trans h₁.clock
  nodes_size := h₂.nodes_size.trans h₁.nodes_size
  value s hs hNot := (h₂.value s (Nat.lt_of_lt_of_le hs h₁.signals_size)
    (mt (h₁.drives s hs).mp hNot)).trans (h₁.value s hs hNot)

/-- Another tree of the same nodes, and changes of statuses. -/
theorem of_changed {d : Dom} {F : ObserverId → Observer.Core κ → Observer.Core κ}
    (hC : Changed l l' d F m) (hParts : Dom.SameParts l.dom d) (hSpared : m.spared f)
    (hTarget : ∀ o x, (F o x).target = x.target) (hHooks : ∀ o x, (F o x).hooks = x.hooks) :
    Still l l' m where
  config := hC.config
  document := hC.document
  tornDown := hC.tornDown
  known r hr := hC.tree.relabeled.known_iff.mpr (hParts.known_iff.mpr hr)
  destroyed r hKnown hr := (hC.passed hParts f.box).destroyed r hKnown hr
  core o x hx := ⟨F o x, by rw [hC.core, hx]; rfl, hTarget o x, fun e he => hHooks o x ▸ he⟩
  signals_size := Nat.le_of_eq hC.signals_size.symm
  drives s _ := hC.drives_iff s
  slight _ := hC.slight
  closed := hC.closed
  quiet _ := hC.hook_quiet
  conditionals := (hC.spares f hSpared).conditionals
  switches := (hC.spares f hSpared).switches
  clock := (hC.spares f hSpared).clock
  nodes_size := hC.tree.relabeled.nodes_size.trans hParts.nodes_size
  value s _ := hC.kept s

theorem of_destroyed (hD : Destroyed l l' r m) (hSpared : m.spared f) : Still l l' m where
  config := hD.config
  document := hD.document
  tornDown := hD.tornDown
  known _ hr := hD.tree.relabeled.known_iff.mpr hr
  destroyed x _ hx := by
    rw [stateOf_destroyed_iff] at hx ⊢
    rw [hD.tree.relabeled.key, hD.document, hD.tracked]
    refine ⟨hx.1, ?_⟩
    split
    · rfl
    · exact hx.2
  core o x hx := by
    refine ⟨_, by rw [hD.core, hx]; rfl, ?_, fun e he => ?_⟩
    · split
      · exact Observer.Core.ended_target x
      · rfl
    · split at he
      · exact Observer.Core.mem_of_mem_ended he
      · exact he
  signals_size := Nat.le_of_eq hD.signals_size.symm
  drives s _ := hD.drives_iff s
  slight _ := hD.slight
  closed := hD.closed
  quiet _ := hD.hook_quiet
  conditionals := (hD.spares f hSpared).conditionals
  switches := (hD.spares f hSpared).switches
  clock := (hD.spares f hSpared).clock
  nodes_size := hD.tree.relabeled.nodes_size
  value s _ := hD.kept s

end Still

namespace Placid

theorem refl (l : Live κ σ) : Placid l l m :=
  ⟨Still.refl l, .refl _, fun _ => rfl, fun _ => rfl⟩

theorem trans (h₁ : Placid l l₁ m) (h₂ : Placid l₁ l' m) : Placid l l' m :=
  ⟨h₁.toStill.trans h₂.toStill, h₁.tree.trans h₂.tree,
    fun n => (h₂.tracked n).trans (h₁.tracked n), fun o => (h₂.sameCore o).trans (h₁.sameCore o)⟩

theorem of_alike (hAlike : Alike l l' m) (hSpared : m.spared f) : Placid l l' m :=
  ⟨Still.of_changed hAlike (Dom.SameParts.refl _) hSpared (fun _ _ => rfl) fun _ _ => rfl,
    hAlike.tree.relabeled, hAlike.tracked, hAlike.core_eq⟩

theorem of_calm (hCalm : Calm l l' m) (hSpared : m.spared f) : Placid l l' m :=
  of_alike (Changed.alike_of_calm hCalm) hSpared

/-- A change of the watchers of a signal that is not driven, and of the registration of a
subscription. -/
theorem of_modify (l : Live κ σ) {t : SignalId} (hUndriven : ¬ m.driven t) (F : Signal κ → Signal κ)
    (hValue : ∀ g, (F g).value = g.value) (hSource : ∀ g, (F g).source = g.source)
    (s : SubscriptionId) (registered : Option Nat) : Placid l { l with
      signals := l.signals.modify t F
      subscriptions := l.subscriptions.modify s fun x => { x with registered } } m := by
  let l' : Live κ σ := { l with
    signals := l.signals.modify t F
    subscriptions := l.subscriptions.modify s fun x => { x with registered } }
  have hSignal : ∀ u, l'.signal? u = if t = u then (l.signal? u).map F else l.signal? u :=
    fun u => signal?_modify l t u F
  have hSourceOf : ∀ u, l'.sourceOf? u = l.sourceOf? u := fun u => by
    simp only [sourceOf?, hSignal]
    split
    · cases l.signal? u <;> simp [hSource]
    · rfl
  have hSturdy : Sturdy l l' :=
    ⟨fun u _ => hSourceOf u, fun p x hx => ⟨x, hx, rfl, rfl⟩, Nat.le_refl _, fun _ _ => rfl⟩
  have hFeed : ∀ u, l'.feed? u = l.feed? u := fun u => by
    rw [feed?, feed?, subscription?_modify { l with signals := l.signals.modify t F } s u]
    split
    · exact Option.map_map _ _ _
    · rfl
  have hClosed : l.Closed m → l'.Closed m := fun h u hu w hw => by
    have hNe : t ≠ u := fun he => hUndriven (he ▸ hu)
    refine hSturdy.slight (h u hu w ?_)
    rwa [watchersOf, hSignal, if_neg hNe] at hw
  refine ⟨⟨⟨rfl, rfl, rfl, fun _ hr => hr, fun _ _ hr => hr,
    fun _ x hx => ⟨x, hx, rfl, fun _ he => he⟩, Nat.le_of_eq Array.size_modify.symm,
    fun u _ => by rw [Leeway.Drives, Leeway.Drives, hSourceOf], fun _ => hSturdy.slight, hClosed,
    fun hook hQuiet => ⟨?_, hQuiet.apart⟩⟩, rfl, rfl, rfl, rfl, fun u _ _ => ?_⟩, .refl _,
    fun _ => rfl, fun _ => rfl⟩
  · have hSlight := hQuiet.slight
    cases hook with
    | switchOn b =>
      intro x hx feed hOn
      have hOld := hSlight x hx feed ((hFeed _).symm.trans hOn)
      cases feed with
      | signal u sink => exact ⟨hSturdy.slight hOld.1, hClosed hOld.2⟩
      | event => trivial
    | _ => exact hSlight
  · change l'.valueOf u = l.valueOf u
    simp only [valueOf, hSignal]
    split
    · cases l.signal? u <;> simp [hValue]
    · rfl

theorem isConnected (h : Placid l l' m) (r : NodeRef) : l'.isConnected r = l.isConnected r :=
  isConnected_relabeled h.tree h.document r

end Placid

/-! ## Values that are set -/

theorem sourceOf?_given (l : Live κ σ) (s t : SignalId) (value : Value) :
    (l.given s value).sourceOf? t = l.sourceOf? t := by
  rw [sourceOf?, sourceOf?, given, signal?_modify]
  split
  · cases l.signal? t <;> rfl
  · rfl

theorem sturdy_given (l : Live κ σ) (s : SignalId) (value : Value) : Sturdy l (l.given s value) :=
  ⟨fun t _ => sourceOf?_given l s t value, fun _ x hx => ⟨x, hx, rfl, rfl⟩, Nat.le_refl _,
    fun _ _ => rfl⟩

theorem closed_given (h : l.Closed m) (s : SignalId) (value : Value) : (l.given s value).Closed m :=
  fun t ht w hw => (sturdy_given l s value).slight (h t ht w (by rwa [watchersOf_given] at hw))

/-! ## The wire of a follower -/

/-- The wire of a follower that is left alone. Its signal is not driven, and has slight watchers but
for the one that belongs to the wire. -/
structure Circuit (l : Live κ σ) (f : Follower κ) (registered : Option Nat) (m : Leeway κ) : Prop
    extends Wire l f registered where
  undriven : ¬ m.driven f.signal
  others : ∀ w ∈ l.watchersOf f.signal, w.sink.Slight l m ∨ registered = some w.number

namespace Circuit

theorem drives (h : l.Circuit f registered m) : ¬ m.Drives l f.signal :=
  fun hDrives => h.undriven hDrives.2.1

theorem watchers_eq (h : l.Wire f registered) : ∃ g, l.signal? f.signal = some g ∧
    l.watchersOf f.signal = g.watchers ∧ g.Serves f.sink registered := by
  obtain ⟨g, hg, hServes, -⟩ := h.signal
  exact ⟨g, hg, by rw [watchersOf, hg]; rfl, hServes⟩

/-- Steps that leave wires alone leave the circuit alone. -/
theorem frame (h : l.Circuit f registered m) (hFrame : Frame l l' m) (hSpared : m.spared f) :
    l'.Circuit f registered m where
  toWire := (hFrame.spares f hSpared).wire _ h.toWire
  undriven := h.undriven
  others w hw := by
    rcases hFrame.newcomers f.signal w hw with hOld | hNew
    · exact (h.others w hOld).imp_left hFrame.slight
    · exact .inl hNew

theorem given (h : l.Circuit f registered m) (s : SignalId) (value : Value) :
    (l.given s value).Circuit f registered m where
  toWire := h.toWire.given s value
  undriven := h.undriven
  others w hw := by
    rw [watchersOf_given] at hw
    exact (h.others w hw).imp_left (sturdy_given l s value).slight

/-- What is recorded of conditionals, switches and the clock does not matter. -/
theorem aside (h : l.Circuit f registered m) (client : σ) (clock : Clock κ)
    (conditionals : Array (Conditional κ)) (switches : Array (Switch κ)) :
    ({ l with client, clock, conditionals, switches } : Live κ σ).Circuit f registered m where
  toWire := h.toWire.congr rfl rfl rfl
  undriven := h.undriven
  others := h.others

/-- Switching the binding on passes the value on, with the subscription registered already. -/
theorem wakes (h : l.Circuit f none m) {Q : Live κ σ → Prop}
    (hReceive : ∀ n l₁, Placid l l₁ m → l₁.Circuit f (some n) m →
      After (calls.receive f.sink (l.valueOf f.signal)) l₁ fun _ => Q) :
    After (switchOn calls f.binding) l fun _ => Q := by
  obtain ⟨held, hBinding⟩ := h.binding
  obtain ⟨g, hg, hServes, hOthers⟩ := h.signal
  let number := ((l.signal? f.signal).map (·.nextWatcher)).getD 0
  have hNumber : number = g.nextWatcher := by
    simp only [number, hg, Option.map_some, Option.getD_some]
  let F : Signal κ → Signal κ := fun g => { g with
    watchers := g.watchers ++ [(⟨number, f.sink⟩ : Signal.Watcher κ)]
    nextWatcher := number + 1 }
  let l₁ : Live κ σ := { l with
    signals := l.signals.modify f.signal F
    subscriptions := l.subscriptions.modify f.subscription fun x =>
      { x with registered := some number } }
  have hPlacid : Placid l l₁ m :=
    Placid.of_modify l h.undriven F (fun _ => rfl) (fun _ => rfl) _ _
  have hSignal : l₁.signal? f.signal = some (F g) := by
    refine (signal?_modify l f.signal f.signal F).trans ?_
    rw [if_pos rfl, hg]
    rfl
  have hCircuit : l₁.Circuit f (some number) m := by
    refine ⟨⟨h.binding, h.own, ?_, F g, hSignal, ?_, fun s sink n hs hSub => ?_⟩, h.undriven,
      fun w hw => ?_⟩
    · refine (subscription?_modify l f.subscription f.subscription _).trans ?_
      rw [if_pos rfl, h.subscription]
      rfl
    · change Signal.Serves { g with
        watchers := g.watchers ++ [(⟨number, f.sink⟩ : Signal.Watcher κ)]
        nextWatcher := number + 1 } f.sink (some number)
      rw [hNumber]
      exact hServes.add f.sink fun n hn => .inr ⟨(Option.some.inj hn).symm, rfl⟩
    · have hSub' := (subscription?_modify l f.subscription s fun x =>
        { x with registered := some number }).symm.trans hSub
      rw [if_neg (Ne.symm hs)] at hSub'
      have hLt := (hOthers s sink n hs hSub').2
      refine ⟨fun hEq => ?_, ?_⟩
      · rw [← Option.some.inj hEq, hNumber] at hLt
        exact Nat.lt_irrefl _ hLt
      · change n < number + 1
        rw [hNumber]
        exact Nat.lt_succ_of_lt hLt
    · rw [watchersOf, hSignal] at hw
      rcases List.mem_append.mp hw with hOld | hNew
      · refine .inl (hPlacid.slight _ ((h.others w ?_).resolve_right (by simp)))
        rw [watchersOf, hg]
        exact hOld
      · rw [List.mem_singleton.mp hNew]
        exact .inr rfl
  unfold switchOn
  rw [after_bind, after_get, hBinding]
  dsimp only
  unfold activate
  rw [after_bind, after_get, h.subscription]
  change After (calls.receive f.sink (l₁.valueOf f.signal)) l₁ fun _ => Q
  rw [hPlacid.value _ h.lt_size h.drives]
  exact hReceive number l₁ hPlacid hCircuit

theorem awake {n : Nat} (h : l.Circuit f (some n) m) :
    (switchOn calls f.binding).run l = (⟨⟩, l) := by
  obtain ⟨held, hBinding⟩ := h.binding
  have hDone : After (switchOn calls f.binding) l fun _ l' => l' = l := by
    unfold switchOn
    rw [after_bind, after_get, hBinding]
    dsimp only
    unfold activate
    rw [after_bind, after_get, h.subscription]
    rfl
  exact Prod.ext rfl hDone

/-- Switching the binding off takes its watcher away, if it has one. -/
theorem sleeps (h : l.Circuit f registered m) :
    After (switchOff f.binding) l fun _ l' => Placid l l' m ∧ l'.Circuit f none m := by
  obtain ⟨held, hBinding⟩ := h.binding
  obtain ⟨g, hg, hServes, hOthers⟩ := h.signal
  unfold switchOff
  rw [after_bind, after_get, hBinding]
  dsimp only
  unfold deactivate
  rw [after_bind, after_get, h.subscription]
  cases registered with
  | none => exact ⟨Placid.refl l, h⟩
  | some number =>
    let F : Signal κ → Signal κ := fun g =>
      { g with watchers := g.watchers.filter fun w => !(w.number == number) }
    let l₁ : Live κ σ := { l with
      signals := l.signals.modify f.signal F
      subscriptions := l.subscriptions.modify f.subscription fun x => { x with registered := none } }
    change Placid l l₁ m ∧ l₁.Circuit f none m
    have hPlacid : Placid l l₁ m :=
      Placid.of_modify l h.undriven F (fun _ => rfl) (fun _ => rfl) _ _
    have hSignal : l₁.signal? f.signal = some (F g) := by
      refine (signal?_modify l f.signal f.signal F).trans ?_
      rw [if_pos rfl, hg]
      rfl
    refine ⟨hPlacid, ⟨h.binding, h.own, ?_, F g, hSignal, ?_, fun s sink n hs hSub => ?_⟩,
      h.undriven, fun w hw => ?_⟩
    · refine (subscription?_modify l f.subscription f.subscription _).trans ?_
      rw [if_pos rfl, h.subscription]
      rfl
    · exact hServes.drop number fun n hn => by cases hn
    · have hSub' := (subscription?_modify l f.subscription s fun x =>
        { x with registered := none }).symm.trans hSub
      rw [if_neg (Ne.symm hs)] at hSub'
      exact ⟨fun hEq => (by cases hEq), (hOthers s sink n hs hSub').2⟩
    · rw [watchersOf, hSignal] at hw
      obtain ⟨hOld, hNe⟩ := List.mem_filter.mp hw
      refine .inl (hPlacid.slight _ ((h.others w ?_).resolve_right fun hEq => ?_))
      · rw [watchersOf, hg]
        exact hOld
      · rw [Option.some.inj hEq] at hNe
        simp at hNe

end Circuit

/-! ## The observer of a follower -/

/-- A hook that is quiet, or switches the binding of a follower on or off when its container is
connected or disconnected, or waits for the end. -/
def Observer.Entry.Tame (l : Live κ σ) (f : Follower κ) (m : Leeway κ) (e : Observer.Entry κ) :
    Prop :=
  e.kind = .destroy ∨ (e.kind = .connect ∧ e.hook = .switchOn f.binding) ∨
    (e.kind = .disconnect ∧ e.hook = .switchOff f.binding) ∨ e.hook.Quiet l m

/-- The observer of the container switches the binding of a follower. It is told that the container
is connected or not. -/
structure Hung (l : Live κ σ) (f : Follower κ) (on : Bool) (m : Leeway κ) : Prop where
  tracked : l.trackedOf (l.dom.key (.container f.box)) = { observer := some f.observer }
  core : ∃ x, l.core? f.observer = some x ∧
    x.status = (if on then .connected else .disconnected) ∧ (∀ e ∈ x.hooks, e.Tame l f m) ∧
    (∃ e ∈ x.hooks, e.kind = .connect ∧ e.hook = .switchOn f.binding) ∧
    ∃ e ∈ x.hooks, e.kind = .disconnect ∧ e.hook = .switchOff f.binding

theorem Observer.Entry.Tame.mono {e : Observer.Entry κ} (h : e.Tame l f m)
    (hQuiet : ∀ hook : Hook κ, hook.Quiet l m → hook.Quiet l' m) : e.Tame l' f m :=
  h.imp_right (Or.imp_right (Or.imp_right (hQuiet e.hook)))

/-- The observer is as it was if it was not told anything. -/
theorem Hung.of_same (h : l.Hung f on m)
    (hQuiet : ∀ hook : Hook κ, hook.Quiet l m → hook.Quiet l' m)
    (hTracked : l'.trackedOf (l'.dom.key (.container f.box)) =
      l.trackedOf (l.dom.key (.container f.box)))
    (hCore : ∀ x, l.core? f.observer = some x → l'.core? f.observer = some x) : l'.Hung f on m := by
  obtain ⟨x, hx, hStatus, hTame, hOn, hOff⟩ := h.core
  exact ⟨hTracked.trans h.tracked, x, hCore x hx, hStatus, fun e he => (hTame e he).mono hQuiet,
    hOn, hOff⟩

/-! ## What is shown and kept -/

/-- Nodes and containers that a follower keeps, and those that it shows in order. Nobody observes an
end marker. Quiet hooks leave this follower alone. -/
structure Staged (l : Live κ σ) (f : Follower κ) (rs order : List NodeRef) (m : Leeway κ) : Prop
    extends Unhindered l f.box rs order m where
  only : ∀ f', m.spared f' ↔ f' = f
  ne_document : l.dom.key (.container f.box) ≠ l.document
  ends : ∀ c, NodeRef.container c ∈ rs → (l.trackedOf (l.dom.part c .finish)).observer = none

namespace Staged

theorem spared (h : l.Staged f rs order m) : m.spared f :=
  (h.only f).mpr rfl

theorem mono (h : l.Staged f rs order m) {rs' : List NodeRef} (hLess : ∀ r ∈ rs', r ∈ rs)
    (hOrder : ∀ r ∈ order, r ∈ rs') : l.Staged f rs' order m :=
  ⟨h.toUnhindered.mono hLess hOrder, h.only, h.ne_document, fun c hc => h.ends c (hLess _ hc)⟩

theorem observer_not_mem (h : l.Staged f rs order m) (hHung : l.Hung f on m) (hr : r ∈ rs) :
    f.observer ∉ l.observersIn r := by
  intro hIn
  obtain ⟨x, hx, -, -, ⟨e, he, -, hHook⟩, -⟩ := hHung.core
  exact (h.quiet r hr _ hIn x hx e he).apart f h.spared (by rw [hHook]; rfl)

/-- Another tree in which the same is inside, and changes of statuses. -/
theorem changed {order' : List NodeRef} {d' : Dom}
    {F : ObserverId → Observer.Core κ → Observer.Core κ} (h : l.Staged f rs order m)
    (hC : Changed l l' d' F m) (hTarget : ∀ o x, (F o x).target = x.target)
    (hHooks : ∀ o x, (F o x).hooks = x.hooks) (hSound : d'.Sound)
    (hParts : Dom.SameParts l.dom d') (hShelf : d'.Shelf f.box rs order')
    (hInside : ∀ r ∈ rs, ∀ n, d'.Inside r n ↔ l.dom.Inside r n) : l'.Staged f rs order' m where
  toLineup := h.toLineup.changed hC hHooks hSound hParts hShelf hInside fun _ => h.up
  up := (h.passed_up (hC.passed hParts f.box)).1
  takes := (h.passed_up (hC.passed hParts f.box)).2
  posted := h.posted_of_changed hC hTarget hSound hParts hInside
  only := h.only
  ne_document := by
    rw [hC.tree.relabeled.key, hParts.key, hC.document]
    exact h.ne_document
  ends c hc := by
    rw [hC.tracked, hC.tree.relabeled.part, hParts.part]
    exact h.ends c hc

theorem abides (h : l.Staged f rs order m) (hA : Abides l l' m) (hTree : l.dom.Relabeled l'.dom)
    (hTracked : ∀ n, l'.trackedOf n = l.trackedOf n) : l'.Staged f rs order m := by
  have hObservers : ∀ r, l'.observersIn r = l.observersIn r :=
    observersIn_relabeled hTree fun n => by rw [hTracked]
  have hThere : ∀ r, ∀ o ∈ l.observersIn r, (l.core? o).isSome := by
    intro r o ho
    obtain ⟨n, -, hn⟩ := List.mem_filterMap.mp ho
    exact h.observers n o hn
  refine ⟨⟨⟨⟨⟨hTree.sound h.sound, fun n o ho => ?_, fun n hn => ?_⟩, hA.closed h.closed,
    fun hWrites s hs => h.ample hWrites s (Nat.le_trans hA.signals_size hs)⟩, ?_, ?_, fun r hr => ?_,
    fun r hr => ?_, fun r hr => ?_, fun _ => hA.tornDown.trans h.up⟩, hA.tornDown.trans h.up, ?_,
    fun r hr => ?_⟩, h.only, ?_, fun c hc => ?_⟩
  · rw [hTracked] at ho
    obtain ⟨x, hx⟩ := Option.isSome_iff_exists.mp (h.observers n o ho)
    obtain ⟨x', hx', -⟩ := hA.core o x hx
    rw [hx']
    rfl
  · rw [hTree.nodes_size] at hn
    rw [hTracked]
    exact h.untracked n hn
  · rw [hA.document, hTree.nodes_size]
    exact h.document
  · exact h.shelf.kept h.sound (hTree.sound h.sound) hTree.kept
  · rw [hTree.key, hA.document]
    exact h.other r hr
  · rw [hTree.key, hTracked]
    exact h.idle r hr
  · refine (hA.quietFor (h.quiet r hr) (hThere r)).mono fun o ho => ?_
    rwa [hObservers] at ho
  · rw [isEnding_stateOf, hTree.key, hA.document, hTracked, ← isEnding_stateOf]
    exact h.takes
  · intro n hn o x' ho hx'
    rw [hTracked] at ho
    rw [hTree.subtree] at hn
    -- the observer was there before
    obtain ⟨x, hx⟩ := Option.isSome_iff_exists.mp (h.observers n o ho)
    obtain ⟨y, hy, hTarget, -⟩ := hA.core o x hx
    rw [hx', Option.some.injEq] at hy
    rw [hy, hTarget, hTree.known_iff, hTree.key]
    exact h.posted r hr n hn o x ho hx
  · rw [hTree.key, hA.document]
    exact h.ne_document
  · rw [hTracked, hTree.part]
    exact h.ends c hc

end Staged

namespace Placid

variable (h : Placid l l' m)
include h

theorem staged (hStaged : l.Staged f rs order m) : l'.Staged f rs order m :=
  hStaged.abides h.toAbides h.tree h.tracked

theorem hung (hHung : l.Hung f on m) : l'.Hung f on m :=
  hHung.of_same h.quiet (by rw [h.tree.key, h.tracked]) fun x hx => (h.sameCore _).trans hx

end Placid

/-! ## Whether the container reaches the document -/

theorem isConnected_container_iff {box : ContainerId} (hd : l.dom.Sound) :
    l.isConnected (.container box) = true ↔ (l.dom.container box).live = true ∧
      l.dom.nodes.Up (l.dom.part box .start) l.document ∧ l.dom.parent? l.document = none := by
  cases hLive : (l.dom.container box).live with
  | false => simp [isConnected, Dom.first?, hLive]
  | true =>
    have hFirst : l.dom.first? (.container box) = some (l.dom.part box .start) := if_pos hLive
    rw [isConnected, hFirst, Option.any_some, beq_iff_eq, hd.linked.root_eq_iff]
    exact (and_iff_right rfl).symm

/-- A container reaches the document as before if its marker is not in what changed its place. -/
theorem isConnected_off {d' : Dom} {box : ContainerId}
    (hAgree : Forest.AgreeOff (· ∈ l.dom.runOf r) l.dom.nodes d'.nodes) (hd : l.dom.Sound)
    (hd' : d'.Sound) (hParts : Dom.SameParts l.dom d')
    (hLive : (d'.container box).live = (l.dom.container box).live)
    (hAway : ¬ l.dom.Inside r (l.dom.part box .start)) :
    (l.withDom d').isConnected (.container box) = l.isConnected (.container box) := by
  have hUp : ∀ x, d'.nodes.Up (l.dom.part box .start) x ↔ l.dom.nodes.Up (l.dom.part box .start) x :=
    fun x => hAgree.up_iff fun k hk hUp => hAway ⟨k, hk, hUp⟩
  rw [Bool.eq_iff_iff, isConnected_container_iff (l := l.withDom d') hd',
    isConnected_container_iff hd]
  change (d'.container box).live = true ∧ d'.nodes.Up (d'.part box .start) l.document ∧ _ ↔ _
  rw [hLive, hParts.part, hUp]
  refine and_congr_right fun _ => and_congr_right fun hTop => ?_
  change d'.nodes.parent? l.document = none ↔ l.dom.nodes.parent? l.document = none
  rw [hAgree _ fun hMem => hAway ⟨_, hMem, hTop⟩]

/-! ## Transitions of what is kept -/

/-- What a follower keeps changes its place, or what it keeps changes: all else is still. -/
structure Stirred (l l' : Live κ σ) (f : Follower κ) (m : Leeway κ) : Prop extends Still l l' m where
  circuit : ∀ registered, l.Circuit f registered m → l'.Circuit f registered m
  hung : ∀ on, l.Hung f on m → l'.Hung f on m
  connected : l'.isConnected (.container f.box) = l.isConnected (.container f.box)

theorem Stirred.of_alike (hAlike : Alike l l' m) (hSpared : m.spared f) : Stirred l l' f m :=
  have hPlacid := Placid.of_alike hAlike hSpared
  ⟨hPlacid.toStill, fun _ h => h.frame hAlike.toFrame hSpared, fun _ => hPlacid.hung,
    hPlacid.isConnected _⟩

namespace Staged

theorem alike (h : l.Staged f rs order m) (hAlike : Alike l l' m) : l'.Staged f rs order m :=
  h.changed hAlike (fun _ _ => rfl) (fun _ _ => rfl) h.sound (Dom.SameParts.refl _) h.shelf
    fun _ _ _ => Iff.rfl

section Transitions

variable (hClient : client.Quiet) (depth : Nat)
include hClient

/-- What is kept and not shown is shown last, unless hooks cancel that. -/
theorem attach (h : l.Staged f rs order m) (hr : r ∈ rs) (hOut : r ∉ order) :
    After (Live.attach (Calls.upTo client (depth + 2)) r (.container f.box) none).run l fun out l' =>
      out = .ok () ∧ Stirred l l' f m ∧
        ((¬ client.Grants { kind := .beforeAttach, target := r } ∧ l'.Staged f rs order m) ∨
          l'.Staged f rs (order ++ [r]) m) := by
  have hBefore : ∀ a : NodeRef, none = some a → a ∈ order ∧ a ≠ r := fun a ha => by cases ha
  refine (h.attaches_unless hClient depth hr hOut fun a ha => (hBefore a ha).1).mono ?_
  rintro _ l' ⟨rfl, ⟨hCancelled, hAlike⟩ | ⟨d', hPlace, hC⟩⟩
  · exact ⟨rfl, .of_alike hAlike h.spared, .inl ⟨hCancelled, h.alike hAlike⟩⟩
  obtain ⟨hParts, hSound, hShelf, hInside⟩ := h.put hr hOut hBefore hPlace
  have hOff : l.dom.isPlaced r = false := Bool.eq_false_iff.mpr (mt (h.shelf.placed r hr).mp hOut)
  obtain ⟨host, reference, hPoint, hHost, hHoused⟩ := h.sound.housed_of_place (h.shelf.known r hr)
    h.shelf.known_box (h.shelf.ne_box hr) (h.shelf.away r hr) hOff hPlace
  have hStill := Still.of_changed hC hParts h.spared (connecting_target _ r) (connecting_hooks _ r)
  refine ⟨rfl, ⟨hStill, fun _ hCircuit => hCircuit.frame hC.toFrame h.spared, fun on hHung => ?_,
    ?_⟩, .inr ?_⟩
  · refine hHung.of_same hStill.quiet (by rw [hC.tracked, hC.tree.relabeled.key, hParts.key])
      fun x hx => ?_
    have hNot : f.observer ∉ (l.withDom d').observersIn r := fun hMem =>
      h.observer_not_mem hHung hr ((h.mem_observersIn hr hSound hParts hInside).mp hMem)
    rw [hC.core, hx, Option.map_some, Option.some.injEq]
    unfold connecting
    split
    · exact turnAll_of_not_mem _ x hNot
    · rfl
  · rw [(hC.seen _).1]
    refine isConnected_off (r := r) ?_ h.sound hSound hParts ?_ (h.shelf.away r hr)
    · intro n hn
      exact (hHoused.parent n).trans (if_neg hn)
    · rw [Bool.eq_iff_iff, hHoused.live _ h.shelf.box_lt]
      exact or_iff_left fun he => h.shelf.ne_box hr he.symm
  · have hLast : Forest.splice none [r] order = order ++ [r] := rfl
    exact hLast ▸ h.changed hC (connecting_target _ r) (connecting_hooks _ r) hSound hParts hShelf
      hInside

/-- What is shown is taken out, unless hooks cancel that. -/
theorem detach (h : l.Staged f rs order m) (hIn : r ∈ order) :
    After (Live.detach (Calls.upTo client (depth + 2)) r).run l fun out l' =>
      out = .ok () ∧ Stirred l l' f m ∧
        ((¬ client.Grants { kind := .beforeDetach, target := r } ∧ l'.Staged f rs order m) ∨
          l'.Staged f rs (order.filter (· ≠ r)) m) := by
  have hr := h.shelf.subset r hIn
  obtain ⟨hUnhoused, hLinked⟩ :=
    h.sound.unhoused_takeOut (h.shelf.known r hr) ((h.shelf.placed r hr).mpr hIn)
  have hParts := hUnhoused.toSameParts
  obtain ⟨hSound, hShelf, hInside⟩ := h.shelf.unhoused h.sound hIn hUnhoused hLinked
  refine (h.detaches_unless hClient depth hIn).mono ?_
  rintro _ l' ⟨rfl, ⟨hCancelled, hAlike⟩ | hC⟩
  · exact ⟨rfl, .of_alike hAlike h.spared, .inl ⟨hCancelled, h.alike hAlike⟩⟩
  have hTarget : ∀ o x, ((if l.isConnected r then (l.withDom (l.dom.takeOut r)).disconnecting r
      else fun _ => id) o x).target = x.target := by
    intro o x
    split
    · exact turnAll_target _ _ o x
    · rfl
  have hHooks : ∀ o x, ((if l.isConnected r then (l.withDom (l.dom.takeOut r)).disconnecting r
      else fun _ => id) o x).hooks = x.hooks := by
    intro o x
    split
    · exact disconnecting_hooks _ r o x
    · rfl
  have hStill := Still.of_changed hC hParts h.spared hTarget hHooks
  refine ⟨rfl, ⟨hStill, fun _ hCircuit => hCircuit.frame hC.toFrame h.spared, fun on hHung => ?_,
    ?_⟩, .inr (h.changed hC hTarget hHooks hSound hParts hShelf hInside)⟩
  · refine hHung.of_same hStill.quiet (by rw [hC.tracked, hC.tree.relabeled.key, hParts.key])
      fun x hx => ?_
    have hNot : f.observer ∉ (l.withDom (l.dom.takeOut r)).observersIn r := fun hMem =>
      h.observer_not_mem hHung hr ((h.mem_observersIn hr hSound hParts hInside).mp hMem)
    rw [hC.core, hx, Option.map_some, Option.some.injEq]
    split
    · exact turnAll_of_not_mem _ x hNot
    · rfl
  · rw [(hC.seen _).1]
    refine isConnected_off (r := r) hUnhoused.agreeOff h.sound hSound hParts ?_ (h.shelf.away r hr)
    rw [Bool.eq_iff_iff, hUnhoused.live _ h.shelf.box_lt]
    exact and_iff_left fun he => h.shelf.ne_box hr he.symm

/-- What is kept and not shown is destroyed, and kept no longer. -/
theorem destroy (h : l.Staged f rs order m) (hr : r ∈ rs) (hOut : r ∉ order) :
    After (Live.destroy (Calls.upTo client (depth + 2)) r).run l fun out l' =>
      out = .ok () ∧ Stirred l l' f m ∧ l'.stateOf r = .destroyed ∧
        l'.Staged f (rs.filter (· ≠ r)) order m := by
  have hKnown := h.shelf.known r hr
  refine ((h.destroys hClient depth hr hOut).and
    (h.toUnhindered.destroy hClient depth hr hOut)).mono ?_
  rintro _ l' ⟨⟨rfl, hD⟩, -, -, -, hGone, hUnhindered⟩
  have hTree := hD.tree.relabeled
  have hStill := Still.of_destroyed hD h.spared
  have hKey : l.dom.key (.container f.box) ∉ l.dom.subtree r := fun hMem =>
    h.shelf.away r hr ((h.sound.mem_subtree hKnown).mp hMem).1
  refine ⟨rfl, ⟨hStill, fun _ hCircuit => hCircuit.frame hD.toFrame h.spared, fun on hHung => ?_,
    isConnected_relabeled hTree hD.document _⟩, hGone, hUnhindered, h.only, ?_, fun c hc => ?_⟩
  · refine hHung.of_same hStill.quiet (by rw [hTree.key, hD.tracked, if_neg hKey]) fun x hx => ?_
    rw [hD.core, hx, Option.map_some, if_neg (h.observer_not_mem hHung hr)]
  · rw [hTree.key, hD.document]
    exact h.ne_document
  · rw [hD.tracked]
    split
    · rfl
    · rw [hTree.part]
      exact h.ends c (List.mem_filter.mp hc).1

end Transitions

end Staged

end LiveMarkup.Live
