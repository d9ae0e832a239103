import LiveMarkup.Live.Switches
import LiveMarkup.Proofs.Live.Bodies
import LiveMarkup.Proofs.Live.Timing

/-!
# New followers

A container is made, observed and bound to a signal. What is known of its observer and of the binding
in the end makes it a follower that keeps nothing.

* `Bare.followed`: a bare container is observed and bound to a signal;
* `Prepared`: the states in which followers of a signal are made;
* `Client.drawing_builds`, `Client.clinging_builds`: factories that make elements, with hooks or
  without.
-/

namespace LiveMarkup.Live

variable {κ σ : Type} {calls : Calls κ σ} {l l₁ l' : Live κ σ} {m : Leeway κ} {f : Follower κ}
variable {α : Type}

/-- A container stands nowhere, holds nothing, and nothing is known about it. -/
structure Bare (l : Live κ σ) (box : ContainerId) (m : Leeway κ) : Prop extends Ready l m where
  up : l.tornDown = false
  document : l.document < l.dom.nodes.size
  box_lt : box < l.dom.containers.size
  live : (l.dom.container box).live = false
  span : l.dom.span box = []
  ne_document : l.dom.key (.container box) ≠ l.document
  tracked : l.trackedOf (l.dom.key (.container box)) = {}

theorem Bare.stateOf (h : l.Bare f.box m) : l.stateOf (.container f.box) = .detached := by
  rw [stateOf_of_none (by rw [h.tracked]) h.ne_document, shownState]
  exact if_neg (by rw [Dom.isPlaced, h.live]; exact Bool.false_ne_true)

theorem Bare.joining (h : l.Bare f.box m) : l.joining (.container f.box) = .disconnected := by
  rw [Live.joining, isConnected, Dom.first?, h.live]
  rfl

/-- A signal and subscriptions that a new follower gets along with. -/
structure Followable (l : Live κ σ) (f : Follower κ) (m : Leeway κ) : Prop where
  observer : f.observer = l.observers.size
  binding : f.binding = l.bindings.size
  subscription : f.subscription = l.subscriptions.size
  own : ∀ b x, l.binding? b = some x → x.subscription < l.subscriptions.size
  signal : ∃ g, l.signal? f.signal = some g ∧ g.Serves f.sink none ∧ ∀ s sink n,
    l.subscription? s = some { feed := .signal f.signal sink, registered := some n } →
      n < g.nextWatcher
  undriven : ¬ m.driven f.signal
  slight : ∀ w ∈ l.watchersOf f.signal, w.sink.Slight l m

/-- The wire of a new follower. -/
theorem Followable.wire (hF : l.Followable f m) {tracked : Table Tracked}
    {observers : Array (Observer κ)} {movers : List ObserverId}
    (hl' : l' = { l with
      tracked, observers, movers
      subscriptions := l.subscriptions.push { feed := .signal f.signal f.sink }
      bindings := l.bindings.push { subscription := f.subscription } }) : l'.Wire f none := by
  have hBindings : ∀ b, l'.binding? b =
      if b = f.binding then some { subscription := f.subscription } else l.binding? b := fun b => by
    rw [hl', hF.binding]
    exact Array.getElem?_push
  have hSubscriptions : ∀ s, l'.subscription? s = if s = f.subscription then
      some { feed := .signal f.signal f.sink } else l.subscription? s := fun s => by
    rw [hl', hF.subscription]
    exact Array.getElem?_push
  obtain ⟨g, hg, hServes, hOthers⟩ := hF.signal
  refine ⟨⟨false, (hBindings _).trans (if_pos rfl)⟩, fun b x hx hEq => ?_,
    (hSubscriptions _).trans (if_pos rfl), g, ?_, hServes, fun s sink n hNe hSub => ?_⟩
  · rw [hBindings] at hx
    split at hx
    · assumption
    · have hLt := hF.own b x hx
      rw [hEq, hF.subscription] at hLt
      exact absurd hLt (Nat.lt_irrefl _)
  · rw [hl']
    exact hg
  · rw [hSubscriptions, if_neg hNe] at hSub
    exact ⟨fun hEq => (by cases hEq), hOthers s sink n hSub⟩

/-- The observer of a new follower has the hooks of its binding and one that waits for the end. -/
def Follower.hooks (f : Follower κ) (hook : Hook κ) (n₀ n₁ n₂ n₃ : Nat) :
    List (Observer.Entry κ) :=
  [⟨n₀, .destroy, hook⟩, ⟨n₁, .connect, .switchOn f.binding⟩,
    ⟨n₂, .disconnect, .switchOff f.binding⟩, ⟨n₃, .destroy, .endBinding f.binding⟩]

/-- What is known of the observer and of the binding makes a bare container a follower. -/
theorem Bare.poised (h : l.Bare f.box m) (hF : l.Followable f m)
    (hOnly : ∀ f', m.spared f' ↔ f' = f) {tracked : Table Tracked} {observers : Array (Observer κ)}
    {movers : List ObserverId}
    (hl' : l' = { l with
      tracked, observers, movers
      subscriptions := l.subscriptions.push { feed := .signal f.signal f.sink }
      bindings := l.bindings.push { subscription := f.subscription } })
    (hTracked : ∀ n, l'.trackedOf n =
      if n = l.dom.key (.container f.box) then { observer := some f.observer } else l.trackedOf n)
    (hook : Hook κ) (n₀ n₁ n₂ n₃ : Nat)
    (hCore : ∀ p, l'.core? p = if p = f.observer then
      some ⟨.container f.box, .disconnected, f.hooks hook n₀ n₁ n₂ n₃⟩ else l.core? p) :
    l'.Poised f [] [] false m := by
  have hNone : ∀ {P : NodeRef → Prop}, ∀ r ∈ ([] : List NodeRef), P r :=
    fun r hr => absurd hr List.not_mem_nil
  have hDom : l'.dom = l.dom := by rw [hl']
  have hUp : l'.tornDown = false := by rw [hl']; exact h.up
  have hDocument : l'.document = l.document := by rw [hl']
  have hOwn := hTracked (l.dom.key (.container f.box))
  rw [if_pos rfl] at hOwn
  have hBox : l.dom.Known (.container f.box) := h.box_lt
  have hTabled : l'.Tabled := by
    refine ⟨hDom ▸ h.sound, fun n o ho => ?_, fun n hn => ?_⟩
    · rw [hTracked] at ho
      rw [hCore]
      split
      · rfl
      · rename_i hNe
        split at ho
        · exact absurd (Option.some.inj ho).symm hNe
        · exact h.observers n o ho
    · rw [hDom] at hn
      rw [hTracked, if_neg (Nat.ne_of_gt (Nat.lt_of_lt_of_le (h.sound.key_lt_size hBox) hn))]
      exact h.untracked n hn
  have hSturdy : Sturdy l l' :=
    .of_tree (by rw [hl']) (by rw [hl']) (hDom ▸ .refl _)
  have hWatchers : ∀ s, l'.watchersOf s = l.watchersOf s :=
    fun _ => watchersOf_of_signals (by rw [hl'])
  have hReady : l'.Ready m := by
    refine ⟨hTabled, fun s hs w hw => hSturdy.slight (h.closed s hs w (hWatchers s ▸ hw)), ?_⟩
    rw [hl']
    exact h.ample
  refine ⟨⟨⟨⟨hReady, ?_, ?_, hNone, hNone, hNone, fun _ => hUp⟩, hUp, ?_, hNone⟩, hOnly, ?_, ?_⟩,
    ⟨?_, ?_⟩, ⟨none, ⟨hF.wire hl', hF.undriven, fun w hw => ?_⟩, rfl⟩, ?_⟩
  · rw [hDocument, hDom]
    exact h.document
  · exact ⟨hDom ▸ h.box_lt, hNone, hNone, hNone, List.nodup_nil, hNone, hDom ▸ h.span⟩
  · rw [isEnding_stateOf, hDom, hOwn]
    exact Bool.and_false _
  · rw [hDom, hDocument]
    exact h.ne_document
  · exact fun c hc => absurd hc List.not_mem_nil
  · rw [hDom]
    exact hOwn
  · refine ⟨_, (hCore _).trans (if_pos rfl), rfl, fun e he => ?_,
      ⟨⟨n₁, .connect, .switchOn f.binding⟩, by simp [Follower.hooks], rfl, rfl⟩,
      ⟨⟨n₂, .disconnect, .switchOff f.binding⟩, by simp [Follower.hooks], rfl, rfl⟩⟩
    simp only [Follower.hooks, List.mem_cons, List.not_mem_nil, or_false] at he
    rcases he with rfl | rfl | rfl | rfl
    · exact .inl rfl
    · exact .inr (.inl ⟨rfl, rfl⟩)
    · exact .inr (.inr (.inl ⟨rfl, rfl⟩))
    · exact .inl rfl
  · exact .inl (hSturdy.slight (hF.slight w (hWatchers _ ▸ hw)))
  · rw [isConnected, hDom, Dom.first?, h.live]
    rfl

/-- A node or container is bound that is observed and does not reach the document. -/
theorem bind_observed {r : NodeRef} {o : ObserverId} (hUp : l.tornDown = false)
    (hState : l.stateOf r ≠ .destroyed) (ho : (l.trackedOf (l.dom.key r)).observer = some o)
    (hStatus : l.statusOf o = .disconnected) (feed : Feed κ) :
    After (bind calls r feed false).run l fun out l' => out = .ok l.bindings.size ∧
      (∃ tracked observers movers, l' = { l with
        tracked, observers, movers
        subscriptions := l.subscriptions.push { feed }
        bindings := l.bindings.push { subscription := l.subscriptions.size } }) ∧
      (∀ n, l'.trackedOf n = l.trackedOf n) ∧ ∃ n₁ n₂ n₃, ∀ p, l'.core? p = (l.core? p).map fun x =>
        if p = o then x.hooked (tieHooks l.bindings.size n₁ n₂ n₃) else x := by
  unfold bind
  refine After.act_bind ((observe_cases l r).and (observe_recast l r)) ?_ ?_
  rotate_left
  · rintro _ l₁ ⟨⟨hTorn, -⟩ | ⟨_, hEq, -⟩ | ⟨hEq, -⟩, -⟩
    · rw [hUp] at hTorn
      cases hTorn
    · cases hEq
    · cases hEq
  rintro _ l₁ ⟨⟨-, hEq, -⟩ | ⟨o', hEq, -, ho', hAlike, -⟩ | ⟨-, ⟨hGone, -⟩ | ⟨-, hNone, -⟩⟩, hRecast⟩
  · cases hEq
  rotate_left
  · exact absurd hGone hState
  · rw [ho] at hNone
    cases hNone
  obtain rfl := Except.ok.inj hEq
  obtain rfl := Option.some.inj (ho.symm.trans ho')
  have hStatus₁ : l₁.statusOf o = .disconnected := by
    rw [statusOf_core, hAlike.core_eq, ← statusOf_core, hStatus]
  obtain ⟨tracked, observers, movers, rfl⟩ := hRecast
  refine After.get_act ?_
  rw [if_neg (by rw [hStatus₁]; simp), after_sure]
  let l₁ : Live κ σ := { l with tracked, observers, movers }
  refine After.bind (m := fun s l₂ => s = l.subscriptions.size ∧
    l₂ = { l₁ with subscriptions := l.subscriptions.push { feed } }) ⟨rfl, rfl⟩ ?_
  rintro _ _ ⟨rfl, rfl⟩
  refine After.bind (m := fun _ l₃ => l₃ = l₁.withBinding feed false) rfl ?_
  rintro _ _ rfl
  refine (addHook_recast _ o .connect _).bind ?_
  rintro n l₃ ⟨hRecast₃, h₃⟩
  refine (addHook_recast _ o .disconnect _).bind ?_
  rintro n' l₄ ⟨hRecast₄, h₄⟩
  refine (addHook_recast _ o .destroy _).bind ?_
  rintro k l₅ ⟨hRecast₅, h₅⟩
  have hTurned : Turned (l₁.withBinding feed false) l₅ o
      (Observer.Core.hooked (tieHooks l.bindings.size n n' k)) :=
    (h₃.hooked_comp h₄).hooked_comp h₅
  have hStatus₅ : l₅.statusOf o = .disconnected := hTurned.statusOf_hooked.trans hStatus₁
  have hTracked : ∀ a, l₅.trackedOf a = l.trackedOf a := fun a => by
    rw [trackedOf, hTurned.tracked]
    exact hAlike.tracked a
  have hCore : ∀ p, l₅.core? p = (l.core? p).map fun x =>
      if p = o then x.hooked (tieHooks l.bindings.size n n' k) else x := fun p => by
    rw [hTurned.core, ← hAlike.core_eq]
    rfl
  have hSame : ∃ tracked observers movers, l₅ = { l with
      tracked, observers, movers
      subscriptions := l.subscriptions.push { feed }
      bindings := l.bindings.push { subscription := l.subscriptions.size } } := by
    obtain ⟨tracked', observers', movers', rfl⟩ := hRecast₃.trans (hRecast₄.trans hRecast₅)
    exact ⟨tracked', observers', movers', rfl⟩
  rw [after_bind, after_get, hStatus₅, if_neg (by simp)]
  exact ⟨rfl, hSame, hTracked, n, n', k, hCore⟩

/-- A bare container is observed and bound to a signal. -/
theorem Bare.followed (h : l.Bare f.box m) (hF : l.Followable f m)
    (hOnly : ∀ f', m.spared f' ↔ f' = f) (hook : Hook κ) (a : α) :
    After (do
        let o ← observe (.container f.box)
        let _ ← sure (addHook o .destroy hook)
        let _ ← bind calls (.container f.box) (.signal f.signal f.sink) false
        pure a : Act κ σ α).run l fun out l' => out = .ok a ∧ l'.Poised f [] [] false m ∧
          ∃ tracked observers movers subscriptions bindings,
            l' = { l with tracked, observers, movers, subscriptions, bindings } := by
  -- the container is observed
  refine After.act_bind ((observe_cases l (.container f.box)).and (observe_recast l _)) ?_ ?_
  rotate_left
  · rintro _ l₁ ⟨⟨hTorn, -⟩ | ⟨_, hEq, -⟩ | ⟨hEq, -⟩, -⟩
    · rw [h.up] at hTorn
      cases hTorn
    · cases hEq
    · cases hEq
  rintro o l₁ ⟨⟨-, hEq, -⟩ | ⟨_, -, -, hSome, -⟩ | ⟨hEq, hMade⟩, hRecast⟩
  · cases hEq
  · rw [h.tracked] at hSome
    cases hSome
  obtain rfl := (Except.ok.inj hEq).trans hF.observer.symm
  have hJoined : Joined l l₁ (.container f.box) .disconnected := by
    rcases hMade with ⟨hGone, -⟩ | ⟨-, -, hJoined⟩
    · rw [h.stateOf] at hGone
      cases hGone
    · exact h.joining ▸ hJoined
  refine After.sure_bind (addHook_recast l₁ f.observer .destroy hook) ?_
  rintro n₀ l₂ ⟨hRecast₂, hTurned₂⟩
  have hKey : l₂.dom.key (.container f.box) = l.dom.key (.container f.box) := by
    rw [hTurned₂.dom, hJoined.dom]
  have hTracked₂ : ∀ n, l₂.trackedOf n = if n = l.dom.key (.container f.box) then
      { observer := some f.observer } else l.trackedOf n := fun n => by
    rw [trackedOf, hTurned₂.tracked, ← trackedOf, hJoined.tracked, ← hF.observer]
    by_cases hn : n = l.dom.key (.container f.box)
    · rw [if_pos ⟨hn, by simp⟩, if_pos hn, hn, h.tracked]
    · rw [if_neg fun hAnd => hn hAnd.1, if_neg hn]
  have hCore₂ : ∀ p, l₂.core? p = if p = f.observer then
      some ⟨.container f.box, .disconnected, [⟨n₀, .destroy, hook⟩]⟩ else l.core? p := fun p => by
    rw [hTurned₂.core, hJoined.core, ← hF.observer]
    split
    · rfl
    · exact Option.map_id'
  have hState₂ : l₂.stateOf (.container f.box) ≠ .destroyed :=
    stateOf_ne_destroyed_of_none (by rw [hKey, hTracked₂, if_pos rfl])
  obtain ⟨tracked₂, observers₂, movers₂, hSame₂⟩ := hRecast.trans hRecast₂
  -- and bound
  refine After.act_bind (bind_observed (r := .container f.box) (o := f.observer)
    (by rw [hSame₂]; exact h.up) hState₂ (by rw [hKey, hTracked₂, if_pos rfl]) ?_
    (.signal f.signal f.sink)) ?_ ?_
  · rw [statusOf_core, hCore₂, if_pos rfl]
    rfl
  · rintro _ l₃ ⟨-, ⟨tracked₃, observers₃, movers₃, hSame₃⟩, hTracked₃, n₁, n₂, n₃, hCore₃⟩
    rw [hSame₂, ← hF.subscription] at hSame₃
    rw [after_act_pure]
    refine ⟨rfl, h.poised hF hOnly hSame₃ (fun n => (hTracked₃ n).trans (hTracked₂ n)) hook
      n₀ n₁ n₂ n₃ (fun p => ?_), _, _, _, _, _, hSame₃⟩
    rw [hCore₃, hCore₂]
    split
    · rw [hSame₂, ← hF.binding, Option.map_some]
      rfl
    · exact Option.map_id'
  · rintro _ _ ⟨hEq, -⟩
    cases hEq

/-- A document where a follower of a signal can be made: nothing but slight sinks listen to the signal
yet. -/
structure Prepared (l : Live κ σ) (signal : SignalId) (m : Leeway κ) : Prop extends Ready l m where
  up : l.tornDown = false
  document : l.document < l.dom.nodes.size
  own : ∀ b x, l.binding? b = some x → x.subscription < l.subscriptions.size
  undriven : ¬ m.driven signal
  slight : ∀ w ∈ l.watchersOf signal, w.sink.Slight l m
  signal : ∃ g, l.signal? signal = some g ∧ (∀ w ∈ g.watchers, w.number < g.nextWatcher) ∧
    (g.watchers.map (·.number)).Nodup ∧ ∀ s sink n,
      l.subscription? s = some { feed := .signal signal sink, registered := some n } →
        n < g.nextWatcher

/-- The next follower of a signal. -/
def nextFollower (l : Live κ σ) (signal : SignalId) (sink : Sink κ) : Follower κ where
  box := l.dom.containers.size
  observer := l.observers.size
  binding := l.bindings.size
  subscription := l.subscriptions.size
  signal
  sink

theorem Prepared.bare {signal : SignalId} (h : l.Prepared signal m) (sink : Sink κ)
    {conditionals : Array (Conditional κ)} {switches : Array (Switch κ)}
    (hl' : l' = { l with dom := l.dom.createContainer.1, conditionals, switches }) :
    l'.Bare l.dom.containers.size m ∧ l'.Followable (l.nextFollower signal sink) m := by
  have hGrown := Dom.grown_createContainer l.dom
  have hStart := Dom.part_createContainer l.dom .start
  have hKey : l'.dom.key (.container l.dom.containers.size) = l.dom.nodes.size := by
    rw [hl']
    exact hStart
  have hLive : (l'.dom.container l.dom.containers.size).live = false := by
    rw [hl', Dom.container_createContainer, if_pos rfl]
  obtain ⟨g, hg, hNumbers, hNodup, hOthers⟩ := h.signal
  have hSignal : l'.signal? signal = some g := by
    rw [hl']
    exact hg
  have hSturdy : Sturdy l l' := by
    rw [hl']
    exact ⟨fun _ _ => rfl, fun p x hx => ⟨x, hx, rfl, rfl⟩, hGrown.nodes_size, hGrown.tag⟩
  subst hl'
  refine ⟨⟨⟨⟨h.sound.createContainer, h.observers, fun n hn => h.untracked n ?_⟩,
    fun s hs w hw => hSturdy.slight (h.closed s hs w hw), h.ample⟩, h.up, ?_, ?_, hLive, ?_, ?_, ?_⟩,
    ⟨rfl, rfl, rfl, h.own, ⟨g, hSignal, ⟨hNumbers, hNodup, fun _ hSome => by cases hSome⟩, hOthers⟩,
      h.undriven, fun w hw => hSturdy.slight (h.slight w hw)⟩⟩
  · exact Nat.le_trans hGrown.nodes_size hn
  · exact Nat.lt_of_lt_of_le h.document hGrown.nodes_size
  · exact (Dom.size_createContainer l.dom).symm ▸ Nat.lt_succ_self _
  · exact Dom.span_createContainer l.dom
  · rw [hKey]
    exact Nat.ne_of_gt h.document
  · rw [hKey]
    exact h.untracked _ (Nat.le_refl _)

/-- Values may be written and signals from one on may be driven. One follower is left alone. -/
def Leeway.around (f : Follower κ) (first : SignalId) : Leeway κ :=
  ⟨true, (first ≤ ·), (· = f)⟩

/-- A new document with one signal that is not driven is prepared. -/
theorem create_prepared (config : Config) (c : σ) (value : Value)
    (hAmple : m.writes = true → ∀ s, 1 ≤ s → m.driven s) (hUndriven : ¬ m.driven 0) :
    ({ create config c with signals := #[{ value }] } : Live κ σ).Prepared 0 m where
  sound := (create_unobserved (κ := κ) config c).sound
  observers _ _ ho := nomatch ho
  untracked _ _ := rfl
  closed s hs w hw := by
    have hNone : watchersOf ({ create config c with signals := #[{ value }] } : Live κ σ) s = [] := by
      cases s <;> rfl
    rw [hNone] at hw
    cases hw
  ample := hAmple
  up := rfl
  document := (create_unobserved (κ := κ) config c).plain.1
  own b x hx := by cases (Array.getElem?_eq_some_iff.mp hx).1
  signal := by
    refine ⟨{ value }, rfl, fun _ hw => ?_, List.nodup_nil, fun s _ _ hs => ?_⟩
    · cases hw
    · cases (Array.getElem?_eq_some_iff.mp hs).1
  undriven := hUndriven
  slight _ hw := by cases hw

/-! ## Elements -/

/-- A client that makes elements, and does nothing else. -/
def Client.drawing : Client String σ :=
  { Client.still with
    build := fun _ tag => do
      let n ← sure (makeInDom fun d => d.createElement tag)
      pure (.node n) }

theorem Client.drawing_quiet : (Client.drawing : Client String σ).Quiet :=
  ⟨fun _ _ _ l => ⟨l.client, rfl⟩, fun _ _ _ l => ⟨l.client, rfl⟩⟩

theorem Client.drawing_consents : (Client.drawing : Client String σ).Consents :=
  fun _ _ _ _ => rfl

theorem Client.drawing_tame : (Client.drawing : Client String σ).Tame :=
  fun _ _ l => ⟨l.client, rfl⟩

theorem Client.drawing_builds (depth : Nat) (tag : String) {m : Leeway String} :
    Builds (Calls.upTo (Client.drawing : Client String σ) (depth + 1)) (.client tag) m := by
  intro l hReady _ _ _
  obtain ⟨hB, hn, hLt, hLoose⟩ := createElement_budded (K := fun _ => True) hReady tag
  exact ⟨_, rfl, hB.built hReady.sound (Nat.le_of_eq hn.symm) hLt hLoose⟩

/-! ## Elements with hooks -/

/-- A client that makes elements which it does not let go. -/
def Client.clinging : Client String σ :=
  { Client.still with
    hook := fun _ _ event => pure (event.kind == .beforeDetach)
    build := fun _ tag => do
      let n ← sure (makeInDom fun d => d.createElement tag)
      let o ← observe (.node n)
      let _ ← sure (addHook o .beforeDetach (.client tag))
      pure (.node n) }

theorem Client.clinging_quiet : (Client.clinging : Client String σ).Quiet :=
  ⟨fun _ _ _ l => ⟨l.client, rfl⟩, fun _ _ _ l => ⟨l.client, rfl⟩⟩

theorem Client.clinging_tame : (Client.clinging : Client String σ).Tame :=
  fun _ _ l => ⟨l.client, rfl⟩

theorem Client.clinging_builds (depth : Nat) (tag : String) {m : Leeway String} :
    Builds (Calls.upTo (Client.clinging : Client String σ) (depth + 1)) (.client tag) m := by
  intro l hReady hDocument hUp _
  exact (hookElement_grows (K := fun _ => True) hReady hDocument tag trivial tag).mono
    fun _ _ hGrows => hGrows.built hReady.sound hUp

end LiveMarkup.Live
