import LiveMarkup.Proofs.Live.Observed
import LiveMarkup.Proofs.Live.Wired

/-!
# New observers, hooks and bindings

A node or container that is observed gets an observer if it has none, and then hooks. A binding
puts its three hooks there and is switched on at once if the observer is connected.

A hook goes to the end of those of its observer. A binding puts three hooks there and is switched
on at once if the observer is connected; the client may switch it by hand later.

* `observe_cases`: what observing does;
* `Wired.joined`, `Wired.bound`: new observers and new bindings are wired;
* `Wired.hooked`, `Observed.hooked`: a hook of the client changes nothing else;
* `tie_tied`, `Wired.bound`: a new binding is wired;
* `Wired.switched`: a binding that is switched by hand.
-/

/-! ## New observers and new bindings -/

namespace LiveMarkup.Live

variable {κ σ : Type} {client : Client κ σ} {l l' : Live κ σ} {r : NodeRef}
variable {hosts : List NodeRef} {byHand : List BindingId}

/-! ### New observers -/

/-- A new observer is there, and the tables know it unless it has ended already. -/
structure Joined (l l' : Live κ σ) (r : NodeRef) (status : Connectivity) : Prop
    extends Frame l l' where
  dom : l'.dom = l.dom
  bindings : l'.bindings = l.bindings
  subscriptions : l'.subscriptions = l.subscriptions
  core : ∀ p, l'.core? p = if p = l.observers.size then some ⟨r, status, []⟩ else l.core? p
  tracked : ∀ n, l'.trackedOf n = if n = l.dom.key r ∧ status ≠ .destroyed then
    { l.trackedOf n with observer := some l.observers.size } else l.trackedOf n

theorem core?_size (l : Live κ σ) : l.core? l.observers.size = none := by
  simp [core?, observer?]

theorem core?_push (l : Live κ σ) (x : Observer κ) (p : ObserverId) :
    core? { l with observers := l.observers.push x } p =
      if p = l.observers.size then some x.core else l.core? p := by
  simp only [core?, observer?, Array.getElem?_push]
  split <;> rfl

theorem newObserver_joined (l : Live κ σ) (r : NodeRef) :
    After (newObserver r .destroyed) l fun o l' =>
      o = l.observers.size ∧ Joined l l' r .destroyed := by
  refine ⟨rfl, Frame.of_eq rfl rfl rfl rfl rfl rfl rfl, rfl, rfl, rfl, core?_push l _, fun n => ?_⟩
  simp only [ne_eq, not_true_eq_false, and_false, if_false]
  rfl

/-- The observer of a node or container that has none. -/
def joining (l : Live κ σ) (r : NodeRef) : Connectivity :=
  if l.isConnected r then .connected else .disconnected

theorem joining_ne (l : Live κ σ) (r : NodeRef) : l.joining r ≠ .destroyed := by
  unfold joining
  split <;> decide

theorem trackMoves_alike (l : Live κ σ) (o : ObserverId) :
    After (trackMoves o) l fun _ l' => Alike l l' ∧ l'.bindings = l.bindings ∧
      l'.subscriptions = l.subscriptions := by
  unfold trackMoves
  rw [after_bind, after_get]
  split
  · refine (notePlace_alike l o).bind ?_
    rintro _ l₁ ⟨h₁, hBindings, hSubscriptions⟩
    have hMovers : Alike l₁ { l₁ with movers := l₁.movers ++ [o] } := by
      refine ⟨Frame.of_eq rfl rfl rfl rfl rfl rfl rfl, rfl, fun _ => rfl, fun p => ?_⟩
      rw [Option.map_id, id]
      rfl
    exact ⟨h₁.trans hMovers, hBindings, hSubscriptions⟩
  · exact ⟨Changed.alike_of_calm (Calm.refl l), rfl, rfl⟩

theorem makeObserver_joined (l : Live κ σ) (r : NodeRef) :
    After (do
        let o ← newObserver r (if l.isConnected r then .connected else .disconnected)
        modifyTracked (l.dom.key r) fun t => { t with observer := some o }
        trackMoves o
        pure o) l fun o l' => o = l.observers.size ∧ Joined l l' r (l.joining r) := by
  let l₂ : Live κ σ := { l with
    observers := l.observers.push { target := r, status := l.joining r }
    tracked := l.tracked.set (l.dom.key r)
      (some { l.trackedOf (l.dom.key r) with observer := some l.observers.size }) }
  have hTracked : ∀ n, l₂.trackedOf n = if n = l.dom.key r then
      { l.trackedOf (l.dom.key r) with observer := some l.observers.size } else l.trackedOf n :=
    fun n => trackedOf_set l (l.dom.key r) n _
  refine After.bind (m := fun o l₁ => o = l.observers.size ∧
    l₁ = { l with observers := l.observers.push { target := r, status := l.joining r } }) ⟨rfl, rfl⟩ ?_
  rintro _ _ ⟨rfl, rfl⟩
  refine After.bind (m := fun _ l₁ => l₁ = l₂) rfl ?_
  rintro _ _ rfl
  refine (trackMoves_alike l₂ l.observers.size).bind ?_
  rintro _ l' ⟨hAlike, hBindings, hSubscriptions⟩
  rw [after_pure]
  have hFrame : Frame l l₂ := Frame.of_eq rfl rfl rfl rfl rfl rfl rfl
  refine ⟨rfl, hFrame.trans hAlike.toFrame,
    hAlike.dom, hBindings, hSubscriptions, fun p => ?_, fun n => ?_⟩
  · rw [hAlike.core_eq]
    exact core?_push l _ p
  · rw [hAlike.tracked, hTracked]
    by_cases hn : n = l.dom.key r
    · subst hn
      simp [joining_ne]
    · simp [hn]

/-- What observing does: it is refused, gives the observer that is there, or makes one. -/
theorem observe_cases (l : Live κ σ) (r : NodeRef) : After (observe r).run l fun out l' =>
    (l.tornDown = true ∧ out = .error .tornDown ∧ l' = l) ∨
    (∃ o, out = .ok o ∧ l.stateOf r ≠ .destroyed ∧
      (l.trackedOf (l.dom.key r)).observer = some o ∧ Alike l l' ∧
      l'.bindings = l.bindings ∧ l'.subscriptions = l.subscriptions) ∨
    out = .ok l.observers.size ∧ ((l.stateOf r = .destroyed ∧ Joined l l' r .destroyed) ∨
      l.stateOf r ≠ .destroyed ∧ (l.trackedOf (l.dom.key r)).observer = none ∧
        Joined l l' r (l.joining r)) := by
  unfold observe
  refine After.ensureLive (fun hTorn => .inl ⟨hTorn, rfl, rfl⟩) fun _ => ?_
  refine After.get_act ?_
  split
  · rename_i hState
    obtain ⟨hOut, hJoined⟩ := newObserver_joined l r
    exact .inr (.inr ⟨congrArg Except.ok hOut, .inl ⟨hState, hJoined⟩⟩)
  · rename_i hState
    dsimp only
    split
    · rename_i o ho
      refine .inr (.inl ⟨o, rfl, hState, ho, ⟨Frame.of_eq rfl rfl rfl rfl rfl rfl rfl, rfl,
        fun n => ?_, fun p => ?_⟩, rfl, rfl⟩)
      · refine (trackedOf_set l (l.dom.key r) n _).trans ?_
        split
        · rename_i hn
          rw [hn]
          rfl
        · rfl
      · rw [Option.map_id, id]
        rfl
    · rename_i ho
      obtain ⟨hOut, hJoined⟩ := makeObserver_joined l r
      exact .inr (.inr ⟨congrArg Except.ok hOut, .inr ⟨hState, ho, hJoined⟩⟩)

/-! ### What agrees with a new observer -/

theorem stateOf_eq_destroyed (hSettled : l.Settled) (h : l.stateOf r = .destroyed) :
    (l.trackedOf (l.dom.key r)).state = some .destroyed := by
  rcases hSettled (l.dom.key r) with hNone | hDestroyed
  · exact absurd h (stateOf_ne_destroyed_of_none hNone)
  · exact hDestroyed

/-- A node or container that gets a new observer had none, or had and gets an ended one. -/
def Alone (l : Live κ σ) (r : NodeRef) (status : Connectivity) : Prop :=
  ∀ o x, l.core? o = some x → x.target = r → x.status = .destroyed ∧ status = .destroyed

namespace Observed

variable (hO : l.Observed)
include hO

theorem ne_destroyed_state (h : l.stateOf r ≠ .destroyed) :
    (l.trackedOf (l.dom.key r)).state ≠ some .destroyed := by
  intro hDestroyed
  by_cases hKey : l.dom.key r = l.document
  · rw [hKey, hO.lasting] at hDestroyed
    cases hDestroyed
  · simp [stateOf, hKey, hDestroyed] at h

theorem alone_of_destroyed (h : l.stateOf r = .destroyed) : l.Alone r .destroyed := by
  intro o x hx hTarget
  refine ⟨?_, rfl⟩
  by_contra hLive
  have hKept := hO.kept o x hx hLive
  rw [hTarget, hO.buried _ (stateOf_eq_destroyed hO.settled h)] at hKept
  cases hKept

theorem alone_of_none (h : l.stateOf r ≠ .destroyed)
    (hNone : (l.trackedOf (l.dom.key r)).observer = none) (status : Connectivity) :
    l.Alone r status := by
  intro o x hx hTarget
  exfalso
  by_cases hEnded : x.status = .destroyed
  · have hState := hO.ended o x hx hEnded
    rw [hTarget] at hState
    exact hO.ne_destroyed_state h hState
  · have hKept := hO.kept o x hx hEnded
    rw [hTarget, hNone] at hKept
    cases hKept

/-- The observer that the tables know is that of the node or container. -/
theorem target_of_tracked (hr : l.dom.Known r) {o : ObserverId}
    (ho : (l.trackedOf (l.dom.key r)).observer = some o) :
    ∃ x, l.core? o = some x ∧ x.target = r ∧ x.status ≠ .destroyed := by
  obtain ⟨x, hx, hKey, hLive⟩ := hO.tracked _ o ho
  exact ⟨x, hx, hO.sound.key_inj (hO.known o x hx) hr hKey, hLive⟩

/-- A new observer that tells the truth agrees. -/
theorem joined {status : Connectivity} (hr : l.dom.Known r) (h : Joined l l' r status)
    (hAlone : l.Alone r status) (hEnded : status = .destroyed ↔ l.stateOf r = .destroyed)
    (hTrue : status ≠ .destroyed → (status = .connected ↔ l.isConnected r = true)) :
    l'.Observed := by
  have hOld : ∀ o x', l'.core? o = some x' →
      (o = l.observers.size ∧ x' = ⟨r, status, []⟩) ∨ l.core? o = some x' := by
    intro o x' hx'
    rw [h.core] at hx'
    split at hx'
    · rename_i ho
      exact .inl ⟨ho, (Option.some.inj hx').symm⟩
    · exact .inr hx'
  have hNe : ∀ {o x}, l.core? o = some x → o ≠ l.observers.size := by
    rintro o x hx rfl
    rw [core?_size] at hx
    cases hx
  have hState : ∀ n, (l'.trackedOf n).state = (l.trackedOf n).state := by
    intro n
    rw [h.tracked]
    split <;> rfl
  refine ⟨?_, ?_, ?_, fun n => ?_, ?_, fun n hn => ?_, fun o x' hx' => ?_,
    fun o x' hx' hLive => ?_, fun o x' hx' hEq => ?_, fun n o ho => ?_, fun o x' hx' hLive => ?_⟩
  · rw [h.dom]
    exact hO.sound
  · rw [h.dom, h.document]
    exact hO.plain
  · rw [h.dom, h.document]
    exact hO.top
  · rw [hState]
    exact hO.settled n
  · rw [hState, h.document]
    exact hO.lasting
  · rw [hState] at hn
    rw [h.tracked, if_neg]
    · exact hO.buried n hn
    · rintro ⟨rfl, hLive⟩
      exact hO.ne_destroyed_state (mt hEnded.mpr hLive) hn
  · rw [h.dom]
    rcases hOld o x' hx' with ⟨_, rfl⟩ | hx
    · exact hr
    · exact hO.known o x' hx
  · rw [h.tracked, h.dom]
    rcases hOld o x' hx' with ⟨rfl, rfl⟩ | hx
    · rw [if_pos ⟨rfl, hLive⟩]
    · rw [if_neg]
      · exact hO.kept o x' hx hLive
      · rintro ⟨hKey, _⟩
        exact hLive (hAlone o x' hx (hO.sound.key_inj (hO.known o x' hx) hr hKey)).1
  · rw [hState, h.dom]
    rcases hOld o x' hx' with ⟨rfl, rfl⟩ | hx
    · exact stateOf_eq_destroyed hO.settled (hEnded.mp hEq)
    · exact hO.ended o x' hx hEq
  · rw [h.tracked] at ho
    split at ho
    · rename_i hn
      obtain rfl := Option.some.inj ho
      exact ⟨_, by rw [h.core, if_pos rfl], by rw [h.dom, hn.1], hn.2⟩
    · obtain ⟨x, hx, hKey, hLive⟩ := hO.tracked n o ho
      exact ⟨x, by rw [h.core, if_neg (hNe hx), hx], by rw [h.dom, hKey], hLive⟩
  · rw [h.dom, h.document]
    rcases hOld o x' hx' with ⟨rfl, rfl⟩ | hx
    · rw [hTrue hLive]
      exact hO.isConnected_self hr
    · exact hO.reports o x' hx hLive

end Observed

/-- A new observer hosts nothing, unless it has ended. -/
theorem Wired.joined {status : Connectivity} (hW : Wired l hosts byHand)
    (h : Joined l l' r status) (hAlone : l.Alone r status) : Wired l' hosts byHand := by
  have hSwitches := SameSwitches.of_eq h.bindings h.subscriptions
  have hOld : ∀ o x', l'.core? o = some x' →
      (o = l.observers.size ∧ x' = ⟨r, status, []⟩) ∨ l.core? o = some x' := by
    intro o x' hx'
    rw [h.core] at hx'
    split at hx'
    · rename_i ho
      exact .inl ⟨ho, (Option.some.inj hx').symm⟩
    · exact .inr hx'
  have hStill : ∀ {o x}, l.core? o = some x → l'.core? o = some x := by
    intro o x hx
    rw [h.core, if_neg, hx]
    rintro rfl
    rw [core?_size] at hx
    cases hx
  -- whatever has bindings has an observer already
  have hBound : ∀ b : BindingId, hosts[b]? = some r → status = .destroyed := by
    intro b hb
    obtain ⟨o, x, hx, hTarget⟩ := hW.hosted b r hb
    exact (hAlone o x hx hTarget).2
  refine ⟨⟨hSwitches.own hW.own, fun s feed hFeed => hW.feeds s feed (hSwitches.feeds s ▸ hFeed),
    fun o x' hx' e he => ?_⟩, hSwitches.bindings_size.trans hW.bindings_size,
    hSwitches.subscriptions_size.trans hW.subscriptions_size, fun o o' x x' hx hx' hEq hLive => ?_,
    fun b t hb => ?_, fun b t hb o x' hx' hTarget hLive => ?_,
    fun b t hb o x' hx' hTarget hLive => ?_, fun b t hb o x' hx' hTarget hEnd => ?_,
    fun b t hb hHand => ?_⟩
  · rcases hOld o x' hx' with ⟨rfl, rfl⟩ | hx
    · cases he
    · exact hW.fits o x' hx e he
  · rcases hOld o x hx with ⟨rfl, rfl⟩ | hx
    · rcases hOld o' x' hx' with ⟨rfl, rfl⟩ | hx'
      · rfl
      · exact absurd (hAlone o' x' hx' hEq.symm).2 hLive
    · rcases hOld o' x' hx' with ⟨rfl, rfl⟩ | hx'
      · exact absurd (hAlone o x hx hEq).1 hLive
      · exact hW.unique o o' x x' hx hx' hEq hLive
  · obtain ⟨o, x, hx, hTarget⟩ := hW.hosted b t hb
    exact ⟨o, x, hStill hx, hTarget⟩
  · rcases hOld o x' hx' with ⟨rfl, rfl⟩ | hx
    · obtain rfl : r = t := hTarget
      exact absurd (hBound b hb) hLive
    · exact hW.serves b t hb o x' hx hTarget hLive
  · rw [hSwitches.state]
    rcases hOld o x' hx' with ⟨rfl, rfl⟩ | hx
    · obtain rfl : r = t := hTarget
      exact absurd (hBound b hb) hLive
    · exact hW.lasting b t hb o x' hx hTarget hLive
  · rw [hSwitches.state]
    rcases hOld o x' hx' with ⟨rfl, rfl⟩ | hx
    · obtain rfl : r = t := hTarget
      obtain ⟨p, y, hy, hTarget'⟩ := hW.hosted b r hb
      exact hW.ended b r hb p y hy hTarget' (hAlone p y hy hTarget').1
    · exact hW.ended b t hb o x' hx hTarget hEnd
  · rw [isBindingActive_eq, hSwitches.state, ← isBindingActive_eq, hW.agrees b t hb hHand]
    constructor
    · rintro ⟨o, x, hx, hTarget, hConnected⟩
      exact ⟨o, x, hStill hx, hTarget, hConnected⟩
    · rintro ⟨o, x', hx', hTarget, hConnected⟩
      rcases hOld o x' hx' with ⟨rfl, rfl⟩ | hx
      · obtain rfl : r = t := hTarget
        rw [hBound b hb] at hConnected
        cases hConnected
      · exact ⟨o, x', hx, hTarget, hConnected⟩

end LiveMarkup.Live

/-! ## New hooks and new bindings -/

namespace LiveMarkup.Live

variable {κ σ : Type} {client : Client κ σ} {l l₁ l' : Live κ σ} {r : NodeRef} {o : ObserverId}
variable {hosts : List NodeRef} {byHand : List BindingId}

/-! ### Hooks -/

/-- The observer has more hooks, unless it has ended. -/
def Observer.Core.hooked (es : List (Observer.Entry κ)) (x : Core κ) : Core κ :=
  if x.status = .destroyed then x else { x with hooks := x.hooks ++ es }

namespace Observer.Core

variable (es : List (Observer.Entry κ)) (x : Core κ)

@[simp]
theorem hooked_target : (x.hooked es).target = x.target := by
  unfold hooked
  split <;> rfl

@[simp]
theorem hooked_status : (x.hooked es).status = x.status := by
  unfold hooked
  split <;> rfl

theorem hooked_of_ne (h : x.status ≠ .destroyed) :
    x.hooked es = { x with hooks := x.hooks ++ es } := if_neg h

theorem hooked_hooked (es' : List (Observer.Entry κ)) :
    (x.hooked es).hooked es' = x.hooked (es ++ es') := by
  unfold hooked
  by_cases h : x.status = .destroyed <;> simp [h]

theorem mem_hooks_hooked {e : Observer.Entry κ} (he : e ∈ x.hooks) : e ∈ (x.hooked es).hooks := by
  unfold hooked
  split
  · exact he
  · exact List.mem_append_left _ he

theorem mem_of_mem_hooked {e : Observer.Entry κ} (he : e ∈ (x.hooked es).hooks) :
    e ∈ x.hooks ∨ e ∈ es := by
  unfold hooked at he
  split at he
  · exact .inl he
  · exact List.mem_append.mp he

variable {x} in
theorem Serves.hooked {b : BindingId} (h : x.Serves b) : (x.hooked es).Serves b := by
  intro kind hook hHook
  obtain ⟨e, he, hEq⟩ := h kind hook hHook
  exact ⟨e, x.mem_hooks_hooked es he, hEq⟩

end Observer.Core

theorem addHook_turned (l : Live κ σ) (o : ObserverId) (kind : EventKind) (hook : Hook κ) :
    After (addHook o kind hook) l fun n l' =>
      Turned l l' o (Observer.Core.hooked [⟨n, kind, hook⟩]) ∧ l'.bindings = l.bindings ∧
        l'.subscriptions = l.subscriptions := by
  refine ⟨Turned.of_withObserver l o fun x => ?_, rfl, rfl⟩
  unfold Observer.Core.hooked Observer.core
  dsimp only
  split <;> rfl

theorem Turned.hooked_comp {es es' : List (Observer.Entry κ)}
    (h₁ : Turned l l₁ o (Observer.Core.hooked es)) (h₂ : Turned l₁ l' o (Observer.Core.hooked es')) :
    Turned l l' o (Observer.Core.hooked (es ++ es')) where
  toFrame := h₁.toFrame.trans h₂.toFrame
  tree := h₁.tree.trans h₂.tree
  tracked := h₂.tracked.trans h₁.tracked
  core p := by
    rw [h₂.core, h₁.core, Option.map_map]
    congr 1
    funext x
    by_cases hp : p = o <;> simp [hp, Observer.Core.hooked_hooked]

/-- Hooks change nothing that has to agree with the tree. -/
theorem Observed.hooked {es : List (Observer.Entry κ)} (hO : l.Observed)
    (hDocument : l'.document = l.document) (hDom : l'.dom = l.dom)
    (hTracked : ∀ n, l'.trackedOf n = l.trackedOf n)
    (hCore : ∀ p, l'.core? p = (l.core? p).map fun x => if p = o then x.hooked es else x) :
    l'.Observed := by
  refine hO.transport hDocument hTracked hCore (hDom ▸ hO.sound) ?_ ?_ (fun p x => ?_)
    (fun p x => ?_) fun p x hx hLive => ?_
  · rw [hDom]
    exact Dom.SameParts.refl _
  · rw [hDom]
    exact hO.top
  · split <;> simp
  · split <;> simp
  · rw [hDom, ← hO.reports p x hx hLive]
    split <;> simp

/-- The observers are as before, but for more hooks of one. -/
def GivesHooks (l l' : Live κ σ) (o : ObserverId) (es : List (Observer.Entry κ)) : Prop :=
  ∀ p, l'.core? p = (l.core? p).map fun x => if p = o then x.hooked es else x

namespace GivesHooks

variable {es : List (Observer.Entry κ)} (h : GivesHooks l l' o es)
include h

/-- An observer that is found afterwards was there before, with the same target and status. -/
theorem before {p : ObserverId} {y : Observer.Core κ} (hy : l'.core? p = some y) :
    ∃ x, l.core? p = some x ∧ y.target = x.target ∧ y.status = x.status := by
  rw [h] at hy
  obtain ⟨x, hx, rfl⟩ := Option.map_eq_some_iff.mp hy
  refine ⟨x, hx, ?_, ?_⟩ <;> split <;> simp

theorem after {p : ObserverId} {x : Observer.Core κ} (hx : l.core? p = some x) :
    ∃ y, l'.core? p = some y ∧ y.target = x.target ∧ y.status = x.status := by
  refine ⟨_, by rw [h, hx]; rfl, ?_, ?_⟩ <;> dsimp only <;> split <;> simp

theorem reportsConnected_iff (t : NodeRef) : l'.ReportsConnected t ↔ l.ReportsConnected t := by
  constructor
  · rintro ⟨p, y, hy, hTarget, hConnected⟩
    obtain ⟨x, hx, hTarget', hStatus⟩ := h.before hy
    exact ⟨p, x, hx, hTarget' ▸ hTarget, hStatus ▸ hConnected⟩
  · rintro ⟨p, x, hx, hTarget, hConnected⟩
    obtain ⟨y, hy, hTarget', hStatus⟩ := h.after hx
    exact ⟨p, y, hy, hTarget'.trans hTarget, hStatus.trans hConnected⟩

end GivesHooks

/-- More hooks of one observer, and more bindings that are hosted by its target. -/
theorem Wired.extended {es : List (Observer.Entry κ)} (extra : List NodeRef)
    {x : Observer.Core κ} (hW : Wired l hosts byHand) (hx : l.core? o = some x)
    (hCore : GivesHooks l l' o es)
    (hSizes : l'.bindings.size = (hosts ++ extra).length ∧
      l'.subscriptions.size = (hosts ++ extra).length)
    (hOwn : l'.OwnSubscriptions) (hFeeds : ∀ s feed, l'.feed? s = some feed → feed.Quiet)
    (hFits : ∀ e ∈ es, e.Fits (hosts ++ extra) x.target)
    (hState : ∀ b : BindingId, b < hosts.length → l'.switchState? b = l.switchState? b)
    (hExtra : ∀ (b : BindingId) t, hosts.length ≤ b → (hosts ++ extra)[b]? = some t →
      t = x.target ∧ x.status ≠ .destroyed ∧ (x.hooked es).Serves b ∧
        l'.switchState? b = some (decide (x.status = .connected), false)) :
    Wired l' (hosts ++ extra) byHand := by
  -- a binding is an old one or hosted by the target of the observer
  have hCases : ∀ (b : BindingId) t, (hosts ++ extra)[b]? = some t →
      (b < hosts.length ∧ hosts[b]? = some t) ∨ hosts.length ≤ b := by
    intro b t hb
    rcases Nat.lt_or_ge b hosts.length with hLt | hGe
    · rw [List.getElem?_append_left hLt] at hb
      exact .inl ⟨hLt, hb⟩
    · exact .inr hGe
  refine ⟨⟨hOwn, hFeeds, fun p y hy e he => ?_⟩, hSizes.1, hSizes.2,
    fun p p' y y' hy hy' hEq hLive => ?_, fun b t hb => ?_,
    fun b t hb p y hy hTarget hLive => ?_, fun b t hb p y hy hTarget hLive => ?_,
    fun b t hb p y hy hTarget hEnd => ?_, fun b t hb hHand => ?_⟩
  · rcases core_cases hCore hx hy with ⟨rfl, rfl⟩ | ⟨_, hy⟩
    · rw [Observer.Core.hooked_target]
      rcases x.mem_of_mem_hooked es he with he | he
      · exact (hW.fits p x hx e he).append extra
      · exact hFits e he
    · exact (hW.fits p y hy e he).append extra
  · obtain ⟨z, hz, hTarget, hStatus⟩ := hCore.before hy
    obtain ⟨z', hz', hTarget', _⟩ := hCore.before hy'
    exact hW.unique p p' z z' hz hz' (by rw [← hTarget, ← hTarget', hEq]) (hStatus ▸ hLive)
  · rcases hCases b t hb with ⟨_, hb⟩ | hGe
    · obtain ⟨p, y, hy, hTarget⟩ := hW.hosted b t hb
      obtain ⟨y', hy', hTarget', _⟩ := hCore.after hy
      exact ⟨p, y', hy', hTarget'.trans hTarget⟩
    · obtain ⟨x', hx', hTarget', _⟩ := hCore.after hx
      exact ⟨o, x', hx', hTarget'.trans (hExtra b t hGe hb).1.symm⟩
  · rcases hCases b t hb with ⟨_, hb⟩ | hGe
    · rcases core_cases hCore hx hy with ⟨rfl, rfl⟩ | ⟨_, hy⟩
      · exact (hW.serves b t hb p x hx (by simpa using hTarget) (by simpa using hLive)).hooked es
      · exact hW.serves b t hb p y hy hTarget hLive
    · obtain ⟨rfl, _, hServes, _⟩ := hExtra b t hGe hb
      rcases core_cases hCore hx hy with ⟨rfl, rfl⟩ | ⟨hp, hy⟩
      · exact hServes
      · exact absurd (hW.unique p o y x hy hx hTarget hLive) hp
  · rcases hCases b t hb with ⟨hLt, hb⟩ | hGe
    · obtain ⟨z, hz, hTarget', hStatus⟩ := hCore.before hy
      rw [hState b hLt]
      exact hW.lasting b t hb p z hz (hTarget' ▸ hTarget) (hStatus ▸ hLive)
    · exact ⟨_, (hExtra b t hGe hb).2.2.2⟩
  · obtain ⟨z, hz, hTarget', hStatus⟩ := hCore.before hy
    rcases hCases b t hb with ⟨hLt, hb⟩ | hGe
    · rw [hState b hLt]
      exact hW.ended b t hb p z hz (hTarget' ▸ hTarget) (hStatus ▸ hEnd)
    · -- the target of an observer that has not ended has no ended one
      obtain ⟨rfl, hLive, _⟩ := hExtra b t hGe hb
      obtain rfl := hW.unique o p x z hx hz (hTarget'.symm.trans hTarget).symm hLive
      obtain rfl := Option.some.inj (hx.symm.trans hz)
      exact absurd (hStatus ▸ hEnd) hLive
  · rw [hCore.reportsConnected_iff, isBindingActive_eq]
    rcases hCases b t hb with ⟨hLt, hb⟩ | hGe
    · rw [hState b hLt, ← isBindingActive_eq]
      exact hW.agrees b t hb hHand
    · obtain ⟨rfl, _, _, hState⟩ := hExtra b t hGe hb
      rw [hState]
      simp only [Option.any_some, decide_eq_true_eq]
      constructor
      · exact fun hConnected => ⟨o, x, hx, rfl, hConnected⟩
      · rintro ⟨p, y, hy, hTarget, hConnected⟩
        obtain rfl := hW.unique p o y x hy hx hTarget (by simp [hConnected])
        obtain rfl := Option.some.inj (hx.symm.trans hy)
        exact hConnected

/-- A hook of the client does not touch the wiring. -/
theorem Wired.hooked {n : Nat} {kind : EventKind} {k : κ} (hW : Wired l hosts byHand)
    (h : Turned l l' o (Observer.Core.hooked [⟨n, kind, .client k⟩]))
    (hSwitches : SameSwitches l l') : Wired l' hosts byHand := by
  cases hx : l.core? o with
  | none =>
    refine hW.congr (fun p => ?_) hSwitches
    rw [h.core]
    by_cases hp : p = o
    · rw [hp, hx]
      rfl
    · simp [hp]
  | some x =>
    have hExtended := hW.extended [] hx h.core
      (by simp [hSwitches.bindings_size, hSwitches.subscriptions_size, hW.bindings_size,
        hW.subscriptions_size])
      (hSwitches.own hW.own) (fun s feed hFeed => hW.feeds s feed (hSwitches.feeds s ▸ hFeed))
      (fun e he => .inl ⟨k, by rw [List.mem_singleton.mp he]⟩) (fun b _ => hSwitches.state b)
      fun b t hGe hb => by
        rw [List.append_nil, List.getElem?_eq_none hGe] at hb
        cases hb
    rwa [List.append_nil] at hExtended

/-! ### Bindings -/

/-- The hooks of a binding, with their numbers. -/
def tieHooks (b : BindingId) (n m k : Nat) : List (Observer.Entry κ) :=
  [⟨n, .connect, .switchOn b⟩, ⟨m, .disconnect, .switchOff b⟩, ⟨k, .destroy, .endBinding b⟩]

theorem ofBinding_of_mem_tieHooks {b : BindingId} {n m k : Nat} {e : Observer.Entry κ}
    (he : e ∈ tieHooks b n m k) : Hook.ofBinding? b e.kind = some e.hook := by
  simp only [tieHooks, List.mem_cons, List.not_mem_nil, or_false] at he
  rcases he with rfl | rfl | rfl <;> rfl

theorem serves_tieHooks {b : BindingId} {n m k : Nat} {x : Observer.Core κ}
    (hLive : x.status ≠ .destroyed) : (x.hooked (tieHooks b n m k)).Serves b := by
  intro kind hook hHook
  rw [Observer.Core.hooked_of_ne _ _ hLive]
  cases kind <;> simp only [Hook.ofBinding?, Option.some.injEq, reduceCtorEq] at hHook
  case connect => exact ⟨⟨n, _, _⟩, by simp [tieHooks], rfl, hHook⟩
  case disconnect => exact ⟨⟨m, _, _⟩, by simp [tieHooks], rfl, hHook⟩
  case destroy => exact ⟨⟨k, _, _⟩, by simp [tieHooks], rfl, hHook⟩

/-- A new binding is there, with its hooks, and is on or off. -/
structure Tied (l l' : Live κ σ) (o : ObserverId) (feed : Feed κ) (active : Bool) : Prop where
  document : l'.document = l.document
  dom : l'.dom = l.dom
  tracked : ∀ n, l'.trackedOf n = l.trackedOf n
  core : ∃ n m k, ∀ p, l'.core? p = (l.core? p).map fun x =>
    if p = o then x.hooked (tieHooks l.bindings.size n m k) else x
  bindings_size : l'.bindings.size = l.bindings.size + 1
  subscriptions_size : l'.subscriptions.size = l.subscriptions.size + 1
  own : l.OwnSubscriptions → l'.OwnSubscriptions
  feeds : ∀ s, l'.feed? s = if s = l.subscriptions.size then some feed else l.feed? s
  state : l.OwnSubscriptions → ∀ b, l'.switchState? b =
    if b = l.bindings.size then some (active, false) else l.switchState? b

/-- The state with a new binding that has no hooks yet. -/
def withBinding (l : Live κ σ) (feed : Feed κ) (held : Bool) : Live κ σ :=
  { l with
    subscriptions := l.subscriptions.push { feed }
    bindings := l.bindings.push { subscription := l.subscriptions.size, held } }

section WithBinding

variable (l) (feed : Feed κ) (held : Bool)

theorem subscription?_withBinding (s : SubscriptionId) :
    (l.withBinding feed held).subscription? s =
      if s = l.subscriptions.size then some { feed } else l.subscription? s := by
  simp only [subscription?, withBinding, Array.getElem?_push]

theorem binding?_withBinding (b : BindingId) : (l.withBinding feed held).binding? b =
    if b = l.bindings.size then some { subscription := l.subscriptions.size, held }
      else l.binding? b := by
  simp only [binding?, withBinding, Array.getElem?_push]

theorem isActive_withBinding (s : SubscriptionId) :
    (l.withBinding feed held).isActive s = l.isActive s := by
  simp only [isActive, subscription?_withBinding]
  by_cases hs : s = l.subscriptions.size
  · subst hs
    simp [subscription?]
  · rw [if_neg hs]

theorem ownSubscriptions_withBinding (hSizes : l.subscriptions.size = l.bindings.size)
    (hOwn : l.OwnSubscriptions) : (l.withBinding feed held).OwnSubscriptions := by
  intro b x hx
  rw [binding?_withBinding] at hx
  rw [subscription?_withBinding]
  split at hx
  · rename_i hb
    subst hb
    obtain rfl := Option.some.inj hx
    exact ⟨hSizes, by rw [if_pos hSizes.symm]; rfl⟩
  · obtain ⟨hSub, hSome⟩ := hOwn b x hx
    refine ⟨hSub, ?_⟩
    split
    · rfl
    · exact hSome

theorem switchState?_withBinding (b : BindingId) : (l.withBinding feed held).switchState? b =
    if b = l.bindings.size then some (false, false) else l.switchState? b := by
  simp only [switchState?, binding?_withBinding, isActive_withBinding]
  split
  · have hOff : l.isActive l.subscriptions.size = false := by simp [isActive, subscription?]
    simp [hOff]
  · rfl

end WithBinding

theorem Turned.tied {feed : Feed κ} {held active : Bool} {n m k : Nat}
    (h : Turned (l.withBinding feed held) l' o
      (Observer.Core.hooked (tieHooks l.bindings.size n m k)))
    (hBindings : l'.bindings = (l.withBinding feed held).bindings)
    (hSizes : l.subscriptions.size = l.bindings.size)
    (hActive : ∀ t, l'.isActive t = if l.subscriptions.size = t then active else l.isActive t) :
    Tied l l' o feed active where
  document := h.document
  dom := h.dom
  tracked n := by
    simp only [trackedOf, h.tracked]
    rfl
  core := ⟨n, m, k, h.core⟩
  bindings_size := by simp [hBindings, withBinding]
  subscriptions_size := by simp [h.subscriptions_size, withBinding]
  own hOwn := h.ownSubscriptions (ownSubscriptions_withBinding l feed held hSizes hOwn)
  feeds s := by
    rw [h.feeds, feed?, subscription?_withBinding]
    split <;> rfl
  state hOwn b := by
    have hOwn' := ownSubscriptions_withBinding l feed held hSizes hOwn
    rw [switchState?_of_bindings hBindings hOwn', switchState?_withBinding, hActive, hSizes]
    by_cases hb : b = l.bindings.size
    · simp [hb]
    · have hb' : ¬ l.bindings.size = b := fun he => hb he.symm
      rw [if_neg hb, if_neg hb', if_neg hb]
      cases hx : l.binding? b with
      | none => simp [switchState?, hx]
      | some x => simp [switchState?, hx, (hOwn b x hx).1]

theorem statusOf_core (l : Live κ σ) (o : ObserverId) :
    l.statusOf o = ((l.core? o).map (·.status)).getD .destroyed := by
  simp only [statusOf, core?, Option.map_map]
  rfl

theorem Turned.statusOf_hooked {es : List (Observer.Entry κ)}
    (h : Turned l l' o (Observer.Core.hooked es)) : l'.statusOf o = l.statusOf o := by
  rw [statusOf_core, statusOf_core, h.core]
  cases l.core? o <;> simp

/-- Makes a binding with its hooks at an observer. -/
def tie (calls : Calls κ σ) (o : ObserverId) (feed : Feed κ) (held : Bool) (b : BindingId) :
    LiveM κ σ BindingId := do
  let subscription ← newSubscription feed
  modify fun l => { l with bindings := l.bindings.push { subscription, held } }
  let _ ← addHook o .connect (.switchOn b)
  let _ ← addHook o .disconnect (.switchOff b)
  let _ ← addHook o .destroy (.endBinding b)
  if (← get).statusOf o = .connected then activate calls subscription
  pure b

section Tying

variable {calls : Calls κ σ} {feed : Feed κ} {held : Bool}

/-- What holds with a new binding and stays with its hooks. -/
theorem After.tie {P : Live κ σ → Prop} {post : BindingId → Live κ σ → Prop}
    (hNew : P (l.withBinding feed held))
    (hHook : ∀ {l₁ kind hook}, Hook.ofBinding? l.bindings.size kind = some hook → P l₁ →
      After (addHook o kind hook) l₁ fun _ => P)
    (hOn : ∀ l₁, P l₁ → l₁.statusOf o = .connected →
      After (activate calls l.subscriptions.size) l₁ fun _ => post l.bindings.size)
    (hOff : ∀ l₁, P l₁ → l₁.statusOf o ≠ .connected → post l.bindings.size l₁) :
    After (Live.tie calls o feed held l.bindings.size) l post := by
  refine After.bind (m := fun s l₁ => s = l.subscriptions.size ∧
    l₁ = { l with subscriptions := l.subscriptions.push { feed } }) ⟨rfl, rfl⟩ ?_
  rintro _ _ ⟨rfl, rfl⟩
  refine After.bind (m := fun _ l₂ => P l₂) hNew fun _ l₂ h₂ => ?_
  refine (hHook (show Hook.ofBinding? _ .connect = _ from rfl) h₂).bind fun _ l₃ h₃ => ?_
  refine (hHook (show Hook.ofBinding? _ .disconnect = _ from rfl) h₃).bind fun _ l₄ h₄ => ?_
  refine (hHook (show Hook.ofBinding? _ .destroy = _ from rfl) h₄).bind fun _ l₅ h₅ => ?_
  rw [after_bind, after_get]
  split
  · rename_i hConnected
    exact (hOn l₅ h₅ hConnected).bind fun _ _ h => h
  · rename_i hConnected
    exact hOff l₅ h₅ hConnected

/-- A binding is made at the observer of what it is for. -/
theorem After.bind_tie {r : NodeRef} {M : Except Fault ObserverId → Live κ σ → Prop}
    {post : Except Fault BindingId → Live κ σ → Prop} (hObserve : After (observe r).run l M)
    (hError : ∀ e l₁, M (.error e) l₁ → post (.error e) l₁)
    (hEnded : ∀ o l₁, M (.ok o) l₁ → post (.error .subscriptionDestroyed) l₁)
    (hTie : ∀ o l₁, M (.ok o) l₁ → l₁.statusOf o ≠ .destroyed →
      After (Live.tie calls o feed held l₁.bindings.size) l₁ fun b => post (.ok b)) :
    After (Live.bind calls r feed held).run l post := by
  unfold Live.bind
  refine After.act_bind hObserve (fun o l₁ h₁ => ?_) hError
  refine After.get_act ?_
  dsimp only
  split
  · rw [after_act_throw_bind]
    exact hEnded o l₁ h₁
  · rename_i hStatus
    rw [after_sure]
    exact hTie o l₁ h₁ hStatus

end Tying

/-- What making a binding does. -/
theorem tie_tied (hClient : client.Quiet) (depth : Nat) {feed : Feed κ} (hFeed : feed.Quiet)
    (held : Bool) (hSizes : l.subscriptions.size = l.bindings.size) (o : ObserverId) :
    After (tie (Calls.upTo client (depth + 2)) o feed held l.bindings.size) l fun b l' =>
      b = l.bindings.size ∧
      Tied l l' o feed (decide (l.statusOf o = .connected)) := by
  refine After.bind (m := fun s l₁ => s = l.subscriptions.size ∧
    l₁ = { l with subscriptions := l.subscriptions.push { feed } }) ⟨rfl, rfl⟩ ?_
  rintro _ _ ⟨rfl, rfl⟩
  refine After.bind (m := fun _ l₂ => l₂ = l.withBinding feed held) rfl ?_
  rintro _ _ rfl
  refine (addHook_turned _ o .connect _).bind ?_
  rintro n l₃ ⟨h₃, hBindings₃, hSubscriptions₃⟩
  refine (addHook_turned _ o .disconnect _).bind ?_
  rintro m l₄ ⟨h₄, hBindings₄, hSubscriptions₄⟩
  refine (addHook_turned _ o .destroy _).bind ?_
  rintro k l₅ ⟨h₅, hBindings₅, hSubscriptions₅⟩
  have hTurned : Turned (l.withBinding feed held) l₅ o
      (Observer.Core.hooked (tieHooks l.bindings.size n m k)) :=
    (h₃.hooked_comp h₄).hooked_comp h₅
  have hBindings : l₅.bindings = (l.withBinding feed held).bindings :=
    hBindings₅.trans (hBindings₄.trans hBindings₃)
  have hActive : ∀ t, l₅.isActive t = l.isActive t := by
    intro t
    rw [← isActive_withBinding l feed held]
    simp only [isActive, subscription?, hSubscriptions₅, hSubscriptions₄, hSubscriptions₃]
  have hStatus : l₅.statusOf o = l.statusOf o := hTurned.statusOf_hooked
  rw [after_bind, after_get, hStatus]
  split
  · rename_i hConnected
    have hNew : l₅.feed? l.subscriptions.size = some feed := by
      rw [hTurned.feeds, feed?, subscription?_withBinding, if_pos rfl]
      rfl
    refine (activate_quiet (m := .strict) hClient (depth + 1) (s := l.subscriptions.size)
      (fun f hf => ?_) fun _ hf => hf.elim).bind ?_
    · rw [hNew] at hf
      exact Option.some.inj hf ▸ Feed.quiet_iff.mpr hFeed
    · rintro _ l₆ ⟨hCalm, hBindings₆, hActive₆⟩
      refine ⟨rfl, (hTurned.calm hCalm).tied (hBindings₆.trans hBindings) hSizes fun t => ?_⟩
      rw [hActive₆, hActive, hConnected]
      have hSome : (l₅.subscription? l.subscriptions.size).isSome = true := by
        have hIs := congrArg Option.isSome hNew
        simpa [feed?] using hIs
      rw [hSome]
      rfl
  · rename_i hConnected
    refine ⟨rfl, hTurned.tied hBindings hSizes fun t => ?_⟩
    rw [hActive]
    split
    · rename_i ht
      subst ht
      simp [hConnected, isActive, subscription?]
    · rfl

/-- A new binding is wired. -/
theorem Wired.bound {feed : Feed κ} (hW : Wired l hosts byHand) {x : Observer.Core κ}
    (hx : l.core? o = some x) (hLive : x.status ≠ .destroyed) (hFeed : feed.Quiet)
    (h : Tied l l' o feed (decide (x.status = .connected))) :
    Wired l' (hosts ++ [x.target]) byHand := by
  obtain ⟨n, m, k, hCore⟩ := h.core
  have hSize := hW.bindings_size
  refine hW.extended [x.target] hx hCore ?_ (h.own hW.own) (fun s f hf => ?_) (fun e he => ?_)
    (fun b hb => ?_) fun b t hGe hb => ?_
  · simp [h.bindings_size, h.subscriptions_size, hW.bindings_size, hW.subscriptions_size]
  · rw [h.feeds] at hf
    split at hf
    · exact Option.some.inj hf ▸ hFeed
    · exact hW.feeds s f hf
  · refine .inr ⟨l.bindings.size, ?_, ofBinding_of_mem_tieHooks he⟩
    simp [hSize]
  · rw [h.state hW.own, if_neg]
    exact fun he => absurd hb (by simp [he, hSize])
  · have hb' : b < (hosts ++ [x.target]).length := (List.getElem?_eq_some_iff.mp hb).1
    obtain rfl : b = hosts.length := by
      simp only [List.length_append, List.length_singleton] at hb'
      exact Nat.le_antisymm (Nat.lt_succ_iff.mp hb') hGe
    rw [List.getElem?_concat_length, Option.some.injEq] at hb
    refine ⟨hb.symm, hLive, hSize ▸ serves_tieHooks hLive, ?_⟩
    rw [h.state hW.own, if_pos hSize.symm]

/-! ### Switching by hand -/

/-- Bindings that are switched by hand are no longer bound to agree. -/
theorem Wired.switched {b : BindingId} {h : Hook κ} (hW : Wired l hosts byHand)
    (hCalm : Calm l l') (hAbout : h.binding? = some b)
    (hLeaves : ∀ active, ∃ active', h.leaves b (active, false) = (active', false))
    (hEnded : h.leaves b (false, true) = (false, true))
    (hState : ∀ c, l'.switchState? c = (l.switchState? c).map (h.leaves c)) :
    Wired l' hosts (b :: byHand) := by
  have hOther : ∀ c, c ≠ b → l'.switchState? c = l.switchState? c := by
    intro c hc
    rw [hState]
    cases l.switchState? c with
    | none => rfl
    | some state => rw [Option.map_some, leaves_of_other fun hSame =>
        hc (Option.some.inj (hSame.symm.trans hAbout))]
  have hFeeds := hCalm.sameFeeds
  refine ⟨⟨hFeeds.own hW.own, fun s feed hFeed => hW.feeds s feed (hFeeds.feeds s ▸ hFeed),
    fun o x hx => hW.fits o x (hCalm.core?_eq o ▸ hx)⟩, hFeeds.bindings_size.trans hW.bindings_size,
    hFeeds.subscriptions_size.trans hW.subscriptions_size, fun o o' x x' hx hx' =>
      hW.unique o o' x x' (hCalm.core?_eq o ▸ hx) (hCalm.core?_eq o' ▸ hx'), fun c r hc => ?_,
    fun c r hc o x hx => hW.serves c r hc o x (hCalm.core?_eq o ▸ hx),
    fun c r hc o x hx hTarget hLive => ?_, fun c r hc o x hx hTarget hEnd => ?_,
    fun c r hc hHand => ?_⟩
  · obtain ⟨o, x, hx, hTarget⟩ := hW.hosted c r hc
    exact ⟨o, x, (hCalm.core?_eq o).trans hx, hTarget⟩
  · obtain ⟨active, hOld⟩ := hW.lasting c r hc o x (hCalm.core?_eq o ▸ hx) hTarget hLive
    by_cases hEq : c = b
    · subst hEq
      obtain ⟨active', hNew⟩ := hLeaves active
      exact ⟨active', by rw [hState, hOld, Option.map_some, hNew]⟩
    · exact ⟨active, by rw [hOther c hEq, hOld]⟩
  · have hOld := hW.ended c r hc o x (hCalm.core?_eq o ▸ hx) hTarget hEnd
    by_cases hEq : c = b
    · subst hEq
      rw [hState, hOld, Option.map_some, hEnded]
    · rw [hOther c hEq, hOld]
  · simp only [List.mem_cons, not_or] at hHand
    rw [isBindingActive_eq, hOther c hHand.1, ← isBindingActive_eq,
      reportsConnected_congr hCalm.core?_eq]
    exact hW.agrees c r hc hHand.2

end LiveMarkup.Live
