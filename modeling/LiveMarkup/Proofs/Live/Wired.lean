import LiveMarkup.Proofs.Live.Telling
import LiveMarkup.Live.Bindings
import LiveMarkup.Proofs.Live.Transitions
import LiveMarkup.Proofs.Live.Bystander

/-!
# Bindings and the observers of their hosts

Every binding has a host. It is wired to the host's observer by three hooks, which switch it on
and off and end it. If nobody else switches it, it is active exactly while that observer reports
that it is connected.

Transitions keep the wiring of all bindings, whatever comes of them: if they are refused, cancelled
or carried through.

* `Plugged.tell`: what telling an observer does to the bindings;
* `Wired.tellConnected`, `Wired.tellDisconnected`, `Wired.tellDestroyed`: the wiring is kept;
* `Wired.stepwise`: so transitions keep it.
-/

namespace LiveMarkup.Live

variable {κ σ : Type} {client : Client κ σ} {l l' : Live κ σ}

/-- The hook that a binding has for a kind of event. -/
def Hook.ofBinding? (b : BindingId) : EventKind → Option (Hook κ)
  | .connect => some (.switchOn b)
  | .disconnect => some (.switchOff b)
  | .destroy => some (.endBinding b)
  | _ => none

/-- A hook of an observer is the client's or that of a binding hosted by the target. -/
def Observer.Entry.Fits (hosts : List NodeRef) (target : NodeRef) (e : Observer.Entry κ) : Prop :=
  (∃ k, e.hook = .client k) ∨
    ∃ b : BindingId, hosts[b]? = some target ∧ Hook.ofBinding? b e.kind = some e.hook

/-- An observer has all hooks of a binding. -/
def Observer.Core.Serves (x : Observer.Core κ) (b : BindingId) : Prop :=
  ∀ kind h, Hook.ofBinding? b kind = some h → ∃ e ∈ x.hooks, e.kind = kind ∧ e.hook = h

/-- An observer of a node or container reports that it is connected. -/
def ReportsConnected (l : Live κ σ) (r : NodeRef) : Prop :=
  ∃ o x, l.core? o = some x ∧ x.target = r ∧ x.status = .connected

/-- The hooks of all observers are the client's or those of bindings, which are listed by their
hosts and have quiet feeds. -/
structure Plugged (l : Live κ σ) (hosts : List NodeRef) : Prop where
  own : l.OwnSubscriptions
  feeds : ∀ s feed, l.feed? s = some feed → feed.Quiet
  fits : ∀ o x, l.core? o = some x → ∀ e ∈ x.hooks, e.Fits hosts x.target

/-- Bindings and the observers of their hosts go together. Some bindings were switched by hand. -/
structure Wired (l : Live κ σ) (hosts : List NodeRef) (byHand : List BindingId) : Prop
    extends Plugged l hosts where
  bindings_size : l.bindings.size = hosts.length
  subscriptions_size : l.subscriptions.size = hosts.length
  unique : ∀ o o' x x', l.core? o = some x → l.core? o' = some x' →
    x.target = x'.target → x.status ≠ .destroyed → o = o'
  hosted : ∀ (b : BindingId) r, hosts[b]? = some r → ∃ o x, l.core? o = some x ∧ x.target = r
  serves : ∀ (b : BindingId) r, hosts[b]? = some r → ∀ o x, l.core? o = some x →
    x.target = r → x.status ≠ .destroyed → x.Serves b
  lasting : ∀ (b : BindingId) r, hosts[b]? = some r → ∀ o x, l.core? o = some x →
    x.target = r → x.status ≠ .destroyed → ∃ active, l.switchState? b = some (active, false)
  ended : ∀ (b : BindingId) r, hosts[b]? = some r → ∀ o x, l.core? o = some x →
    x.target = r → x.status = .destroyed → l.switchState? b = some (false, true)
  agrees : ∀ (b : BindingId) r, hosts[b]? = some r → b ∉ byHand →
    (l.isBindingActive b = true ↔ l.ReportsConnected r)

/-! ## Hooks of bindings -/

theorem ofBinding_binding {b : BindingId} {kind : EventKind} {h : Hook κ}
    (hHook : Hook.ofBinding? b kind = some h) : h.binding? = some b := by
  cases kind <;> cases hHook <;> rfl

/-- The hooks of an observer that belong to a binding: one for each kind, if it is hosted there. -/
theorem Observer.Entry.Fits.hook {hosts : List NodeRef} {target : NodeRef} {e : Observer.Entry κ}
    (h : e.Fits hosts target) {b : BindingId} (hb : e.hook.binding? = some b) :
    hosts[b]? = some target ∧ Hook.ofBinding? b e.kind = some e.hook := by
  rcases h with ⟨k, hk⟩ | ⟨c, hHost, hHook⟩
  · rw [hk] at hb
    cases hb
  · rw [ofBinding_binding hHook] at hb
    obtain rfl := Option.some.inj hb
    exact ⟨hHost, hHook⟩

theorem Observer.Entry.Fits.quiet {hosts : List NodeRef} {target : NodeRef}
    {e : Observer.Entry κ} (h : e.Fits hosts target)
    (hFeeds : ∀ s feed, l.feed? s = some feed → feed.Quiet) : e.hook.Quiet l := by
  rcases h with ⟨k, hk⟩ | ⟨c, _, hHook⟩
  · rw [hk]
    exact .of_slight trivial
  · cases hKind : e.kind <;> rw [hKind] at hHook <;> simp only [Hook.ofBinding?] at hHook
    case connect =>
      rw [← Option.some.inj hHook]
      exact Hook.quiet_switchOn.mpr fun x _ feed hFeed => hFeeds _ feed hFeed
    case disconnect | destroy =>
      rw [← Option.some.inj hHook]
      exact .of_slight trivial
    all_goals cases hHook

theorem Observer.Entry.Fits.append {hosts : List NodeRef} {target : NodeRef}
    {e : Observer.Entry κ} (h : e.Fits hosts target) (extra : List NodeRef) :
    e.Fits (hosts ++ extra) target :=
  h.imp id fun ⟨b, hb, hHook⟩ =>
    ⟨b, by rw [List.getElem?_append_left (List.getElem?_eq_some_iff.mp hb).1, hb], hHook⟩

/-! ## Changes -/

theorem reportsConnected_congr (h : ∀ o, l'.core? o = l.core? o) {r : NodeRef} :
    l'.ReportsConnected r ↔ l.ReportsConnected r := by
  simp only [ReportsConnected, h]

/-- Bindings have the same subscriptions, and these the same feeds. -/
structure SameFeeds (l l' : Live κ σ) : Prop where
  bindings_size : l'.bindings.size = l.bindings.size
  subscriptions_size : l'.subscriptions.size = l.subscriptions.size
  own : l.OwnSubscriptions → l'.OwnSubscriptions
  feeds : ∀ s, l'.feed? s = l.feed? s

/-- Bindings and subscriptions are as they were. -/
structure SameSwitches (l l' : Live κ σ) : Prop extends SameFeeds l l' where
  state : ∀ b, l'.switchState? b = l.switchState? b

theorem SameSwitches.of_eq (hBindings : l'.bindings = l.bindings)
    (hSubscriptions : l'.subscriptions = l.subscriptions) : SameSwitches l l' := by
  have hSub : ∀ s, l'.subscription? s = l.subscription? s := fun s => by
    simp only [subscription?, hSubscriptions]
  have hBinding : ∀ b, l'.binding? b = l.binding? b := fun b => by
    simp only [binding?, hBindings]
  refine ⟨⟨by rw [hBindings], by rw [hSubscriptions], fun hOwn b x hx => ?_, fun s => ?_⟩,
    fun b => ?_⟩
  · rw [hSub]
    exact hOwn b x (hBinding b ▸ hx)
  · simp only [feed?, hSub]
  · simp only [switchState?, hBinding, isActive, hSub]

theorem Frame.subscriptions_size (h : Frame l l') : l'.subscriptions.size = l.subscriptions.size := by
  have hSome : ∀ s : Nat, s < l'.subscriptions.size ↔ s < l.subscriptions.size := by
    intro s
    have hEq := h.subscription_isSome s
    rw [Bool.eq_iff_iff] at hEq
    simpa [subscription?] using hEq
  have h₁ := hSome l.subscriptions.size
  have h₂ := hSome l'.subscriptions.size
  omega

theorem Frame.sameFeeds (h : Frame l l') : SameFeeds l l' :=
  ⟨h.bindings_size, h.subscriptions_size, h.ownSubscriptions, h.feeds⟩

theorem SameFeeds.trans {l₁ : Live κ σ} (h₁ : SameFeeds l l₁) (h₂ : SameFeeds l₁ l') :
    SameFeeds l l' where
  bindings_size := h₂.bindings_size.trans h₁.bindings_size
  subscriptions_size := h₂.subscriptions_size.trans h₁.subscriptions_size
  own hOwn := h₂.own (h₁.own hOwn)
  feeds s := (h₂.feeds s).trans (h₁.feeds s)

variable {hosts : List NodeRef} {byHand : List BindingId}

theorem Wired.congr (h : Wired l hosts byHand) (hCore : ∀ o, l'.core? o = l.core? o)
    (hSwitches : SameSwitches l l') : Wired l' hosts byHand where
  bindings_size := hSwitches.bindings_size.trans h.bindings_size
  subscriptions_size := hSwitches.subscriptions_size.trans h.subscriptions_size
  own := hSwitches.own h.own
  feeds s feed hFeed := h.feeds s feed (hSwitches.feeds s ▸ hFeed)
  unique o o' x x' hx hx' := h.unique o o' x x' (hCore o ▸ hx) (hCore o' ▸ hx')
  hosted b r hb := by
    obtain ⟨o, x, hx, hTarget⟩ := h.hosted b r hb
    exact ⟨o, x, (hCore o).trans hx, hTarget⟩
  fits o x hx := h.fits o x (hCore o ▸ hx)
  serves b r hb o x hx := h.serves b r hb o x (hCore o ▸ hx)
  lasting b r hb o x hx hTarget hStatus := by
    rw [hSwitches.state]
    exact h.lasting b r hb o x (hCore o ▸ hx) hTarget hStatus
  ended b r hb o x hx hTarget hStatus := by
    rw [hSwitches.state]
    exact h.ended b r hb o x (hCore o ▸ hx) hTarget hStatus
  agrees b r hb hHand := by
    rw [isBindingActive_eq, hSwitches.state, ← isBindingActive_eq, reportsConnected_congr hCore]
    exact h.agrees b r hb hHand

/-! ## Telling observers -/

namespace Plugged

variable (hP : Plugged l hosts)
include hP

theorem quiet_hooksFor {o : ObserverId} {kind : EventKind} : ∀ h ∈ l.hooksFor o kind,
    h.Quiet l := by
  intro h hh
  obtain ⟨x, hx, e, he, _, rfl⟩ := mem_hooksFor.mp hh
  exact (hP.fits o _ hx e he).quiet hP.feeds

/-- An event that no binding waits for reaches the hooks of the client alone. -/
theorem fire (hClient : client.Quiet) (depth : Nat) (o : ObserverId) (event : Event)
    (hKind : ∀ b, (Hook.ofBinding? b event.kind : Option (Hook κ)) = none) :
    After (fire (Calls.upTo client (depth + 2)) o event) l fun _ l' => Calm l l' ∧
      ∀ b, l'.switchState? b = l.switchState? b := by
  unfold Live.fire
  rw [after_bind, after_get]
  refine (runHooks_quiet hClient depth hP.quiet_hooksFor event).mono ?_
  rintro _ l' ⟨hCalm, hRan⟩
  obtain ⟨ran, hPrefix, _, hState⟩ := hRan hP.own
  refine ⟨hCalm, fun b => ?_⟩
  have hOthers : ∀ h ∈ ran, h.binding? ≠ some b := by
    intro h hh hb
    obtain ⟨x, hx, e, he, hEq, rfl⟩ := mem_hooksFor.mp (hPrefix.subset hh)
    have hOf := ((hP.fits o _ hx e he).hook hb).2
    rw [hEq, hKind] at hOf
    cases hOf
  rw [hState]
  simp [foldl_leaves_of_others hOthers]

/-- What telling an observer does: a binding that is hosted by its target follows its hook, all
others stay as they are. -/
theorem tell (hClient : client.Quiet) (depth : Nat) {o : ObserverId} {x : Observer.Core κ}
    (hx : l.core? o = some x) {kind : EventKind} (hKind : kind.isCancelable = false) :
    After (tell (Calls.upTo client (depth + 2)) o kind) l fun _ l' => Calm l l' ∧
      (∀ b : BindingId, hosts[b]? ≠ some x.target → l'.switchState? b = l.switchState? b) ∧
      ∀ b : BindingId, x.Serves b → ∀ h : Hook κ, Hook.ofBinding? b kind = some h →
        l'.switchState? b = (l.switchState? b).map (h.leaves b) := by
  obtain ⟨y, hy, rfl⟩ : ∃ y, l.observer? o = some y ∧ y.core = x := by
    simpa [core?] using hx
  unfold Live.tell Live.fire
  rw [after_bind, after_get, hy]
  dsimp only
  rw [after_bind, after_bind, after_get]
  refine (runHooks_quiet hClient depth hP.quiet_hooksFor _).mono ?_
  rintro _ l' ⟨hCalm, hRan⟩
  obtain ⟨ran, _, hAll, hState⟩ := hRan hP.own
  rw [hAll hKind] at hState
  rw [after_pure]
  refine ⟨hCalm, fun b hb => ?_, fun b hServes h hHook => ?_⟩
  · have hOthers : ∀ h ∈ l.hooksFor o kind, h.binding? ≠ some b := by
      intro h hh hAbout
      obtain ⟨z, hz, e, he, _, rfl⟩ := mem_hooksFor.mp hh
      rw [hx] at hz
      obtain rfl := Option.some.inj hz
      exact hb ((hP.fits o _ hx e he).hook hAbout).1
    rw [hState]
    simp [foldl_leaves_of_others hOthers]
  · have hOnly : ∀ hook ∈ l.hooksFor o kind, hook.binding? = some b → hook = h := by
      intro hook hh hAbout
      obtain ⟨z, hz, e, he, hEq, rfl⟩ := mem_hooksFor.mp hh
      rw [hx] at hz
      obtain rfl := Option.some.inj hz
      have hOf := ((hP.fits o _ hx e he).hook hAbout).2
      rw [hEq, hHook] at hOf
      exact (Option.some.inj hOf).symm
    have hMem : h ∈ l.hooksFor o kind := mem_hooksFor.mpr ⟨_, hx, hServes kind h hHook⟩
    rw [hState]
    congr 1
    funext state
    exact foldl_leaves_of_only hOnly state (.inl hMem)

end Plugged

namespace Turned

variable {o : ObserverId} {f : Observer.Core κ → Observer.Core κ} (h : Turned l l' o f)
include h

/-- Who observes other targets reports as before. -/
theorem reportsConnected_of_ne {x : Observer.Core κ} (hx : l.core? o = some x)
    (hTarget : (f x).target = x.target) {r : NodeRef} (hr : r ≠ x.target) :
    l'.ReportsConnected r ↔ l.ReportsConnected r := by
  constructor
  · rintro ⟨p, y, hy, rfl, hConnected⟩
    rcases core_cases h.core hx hy with ⟨rfl, rfl⟩ | ⟨_, hy⟩
    · exact absurd hTarget hr
    · exact ⟨p, y, hy, rfl, hConnected⟩
  · rintro ⟨p, y, hy, rfl, hConnected⟩
    have hp : p ≠ o := by
      rintro rfl
      exact hr (congrArg _ (Option.some.inj (hy.symm.trans hx)))
    exact ⟨p, y, (h.of_other hp).mpr hy, rfl, hConnected⟩

/-- The wiring is kept if the bindings that are hosted by the target of the observer follow its new
status and all others stay as they are. -/
theorem wired (hW : Wired l hosts byHand) (hFeeds : SameFeeds l l') {x : Observer.Core κ}
    (hx : l.core? o = some x) (hStatus : x.status ≠ .destroyed)
    (hTarget : (f x).target = x.target) (hHooks : ∀ e ∈ (f x).hooks, e ∈ x.hooks)
    (hKeeps : (f x).status ≠ .destroyed → (f x).hooks = x.hooks)
    (hOthers : ∀ b : BindingId, hosts[b]? ≠ some x.target → l'.switchState? b = l.switchState? b)
    (hHosted : ∀ b : BindingId, hosts[b]? = some x.target → l'.switchState? b =
      some (decide ((f x).status = .connected), decide ((f x).status = .destroyed))) :
    Wired l' hosts byHand where
  own := hFeeds.own hW.own
  feeds s feed hFeed := hW.feeds s feed (hFeeds.feeds s ▸ hFeed)
  bindings_size := hFeeds.bindings_size.trans hW.bindings_size
  subscriptions_size := hFeeds.subscriptions_size.trans hW.subscriptions_size
  fits p y hy e he := by
    rcases core_cases h.core hx hy with ⟨rfl, rfl⟩ | ⟨_, hy⟩
    · rw [hTarget]
      exact hW.fits p x hx e (hHooks e he)
    · exact hW.fits p y hy e he
  unique p p' y y' hy hy' hEq hNe := by
    -- targets are as before, and what is not destroyed was not destroyed before
    have hOld : ∀ q z, l'.core? q = some z → ∃ w, l.core? q = some w ∧
        w.target = z.target ∧ (z.status ≠ .destroyed → w.status ≠ .destroyed) := by
      intro q z hz
      rcases core_cases h.core hx hz with ⟨rfl, rfl⟩ | ⟨_, hz⟩
      · exact ⟨x, hx, hTarget.symm, fun _ => hStatus⟩
      · exact ⟨z, hz, rfl, id⟩
    obtain ⟨w, hw, hwTarget, hwStatus⟩ := hOld p y hy
    obtain ⟨w', hw', hwTarget', _⟩ := hOld p' y' hy'
    exact hW.unique p p' w w' hw hw' (by rw [hwTarget, hwTarget', hEq]) (hwStatus hNe)
  hosted b r hb := by
    obtain ⟨p, y, hy, hyTarget⟩ := hW.hosted b r hb
    by_cases hp : p = o
    · subst hp
      obtain rfl := Option.some.inj (hx.symm.trans hy)
      exact ⟨p, f x, h.of_self hx, hTarget.trans hyTarget⟩
    · exact ⟨p, y, (h.of_other hp).mpr hy, hyTarget⟩
  serves b r hb p y hy hyTarget hNe := by
    rcases core_cases h.core hx hy with ⟨rfl, rfl⟩ | ⟨_, hy⟩
    · intro kind hook hHook
      rw [hKeeps hNe]
      exact hW.serves b r hb p x hx (hTarget ▸ hyTarget) hStatus kind hook hHook
    · exact hW.serves b r hb p y hy hyTarget hNe
  lasting b r hb p y hy hyTarget hNe := by
    rcases core_cases h.core hx hy with ⟨rfl, rfl⟩ | ⟨hp, hy⟩
    · exact ⟨_, by rw [hHosted b (by rw [hb, ← hyTarget, hTarget]), decide_eq_false hNe]⟩
    · rw [hOthers b]
      · exact hW.lasting b r hb p y hy hyTarget hNe
      · intro hSame
        rw [hb] at hSame
        exact hp (hW.unique p o y x hy hx (hyTarget.trans (Option.some.inj hSame)) hNe)
  ended b r hb p y hy hyTarget hEnd := by
    rcases core_cases h.core hx hy with ⟨rfl, rfl⟩ | ⟨hp, hy⟩
    · rw [hHosted b (by rw [hb, ← hyTarget, hTarget]), hEnd]
      rfl
    · rw [hOthers b]
      · exact hW.ended b r hb p y hy hyTarget hEnd
      · intro hSame
        rw [hb] at hSame
        exact hp (hW.unique o p x y hx hy (hyTarget.trans (Option.some.inj hSame)).symm hStatus).symm
  agrees b r hb hHand := by
    by_cases hr : r = x.target
    · subst hr
      have hActive : l'.isBindingActive b = true ↔ (f x).status = .connected := by
        rw [isBindingActive_eq, hHosted b hb]
        simp
      rw [hActive]
      constructor
      · exact fun hConnected => ⟨o, f x, h.of_self hx, hTarget, hConnected⟩
      · rintro ⟨p, y, hy, hyTarget, hConnected⟩
        rcases core_cases h.core hx hy with ⟨rfl, rfl⟩ | ⟨hp, hy⟩
        · exact hConnected
        · exact absurd (hW.unique o p x y hx hy hyTarget.symm hStatus) (Ne.symm hp)
    · have hState := hOthers b (by rw [hb]; exact fun he => hr (Option.some.inj he))
      rw [isBindingActive_eq, hState, ← isBindingActive_eq, h.reportsConnected_of_ne hx hTarget hr]
      exact hW.agrees b r hb hHand

end Turned

/-! ## Notices -/

theorem Plugged.turned {o : ObserverId} {f : Observer.Core κ → Observer.Core κ}
    (hP : Plugged l hosts) (hTurned : Turned l l' o f) (hTarget : ∀ x, (f x).target = x.target)
    (hHooks : ∀ x, ∀ e ∈ (f x).hooks, e ∈ x.hooks) : Plugged l' hosts where
  own := hTurned.ownSubscriptions hP.own
  feeds s feed hFeed := hP.feeds s feed (hTurned.feeds s ▸ hFeed)
  fits p y hy e he := by
    obtain ⟨x, hx, rfl⟩ := Option.map_eq_some_iff.mp ((hTurned.core p).symm.trans hy)
    split at he
    · rw [if_pos ‹_›, hTarget]
      exact hP.fits p x hx e (hHooks x e he)
    · rw [if_neg ‹_›]
      exact hP.fits p x hx e he

namespace Wired

variable (hW : Wired l hosts byHand)
include hW

theorem quietFor : l.QuietFor fun _ => True :=
  fun o _ x hx e he => (hW.fits o x hx e he).quiet hW.feeds

/-- An observer whose status changes is told, and the bindings that it serves follow. -/
theorem turn (hClient : client.Quiet) (depth : Nat) {o : ObserverId} {x : Observer.Core κ}
    (hx : l.core? o = some x) (hStatus : x.status ≠ .destroyed) {kind : EventKind}
    {hook : BindingId → Hook κ} {c : Connectivity} (hLasts : c ≠ .destroyed)
    (hKind : kind.isCancelable = false)
    (hHook : ∀ b, Hook.ofBinding? b kind = some (hook b))
    (hLeaves : ∀ b active, (hook b).leaves b (active, false) =
      (decide (c = .connected), false)) :
    After (do
        setStatus o c
        tell (Calls.upTo client (depth + 2)) o kind) l fun _ l' => Wired l' hosts byHand := by
  have hSet : After (setStatus o c) l fun _ l₁ => Turned l l₁ o (Observer.Core.turn c) ∧
      SameSwitches l l₁ := ⟨setStatus_turned l o c, SameSwitches.of_eq rfl rfl⟩
  refine hSet.bind ?_
  rintro _ l₁ ⟨hTurned, hSwitches⟩
  have hPlugged := hW.toPlugged.turned hTurned (by simp) (by simp)
  have hx₁ := hTurned.of_self hx
  rw [Observer.Core.turn_of_ne c hStatus] at hx₁
  refine (hPlugged.tell hClient depth hx₁ hKind).mono ?_
  rintro _ l' ⟨hCalm, hOthers, hServed⟩
  have hFeeds := hSwitches.toSameFeeds.trans hCalm.sameFeeds
  refine (hTurned.calm hCalm).wired hW hFeeds hx hStatus (by simp) (by simp) (by simp)
    (fun b hb => ?_) fun b hb => ?_
  · rw [hOthers b hb, hSwitches.state]
  · obtain ⟨active, hState⟩ := hW.lasting b x.target hb o x hx rfl hStatus
    rw [Observer.Core.turn_of_ne c hStatus,
      hServed b (hW.serves b x.target hb o x hx rfl hStatus) _ (hHook b), hSwitches.state, hState,
      Option.map_some, hLeaves, decide_eq_false hLasts]

theorem tellConnected (hClient : client.Quiet) (depth : Nat) (o : ObserverId) :
    After (tellConnected (Calls.upTo client (depth + 2)) o) l fun _ l' =>
      Wired l' hosts byHand := by
  unfold Live.tellConnected
  rw [after_bind, after_get]
  split
  · rename_i hStatus
    obtain ⟨x, hx, hxStatus⟩ := exists_core (l := l) (o := o) (by simp [hStatus])
    rw [hStatus] at hxStatus
    exact hW.turn hClient depth hx (by simp [hxStatus]) (by decide) rfl (fun b => rfl)
      fun b active => by simp [Hook.leaves]
  · exact hW

theorem tellDisconnected (hClient : client.Quiet) (depth : Nat) (o : ObserverId) :
    After (tellDisconnected (Calls.upTo client (depth + 2)) o) l fun _ l' =>
      Wired l' hosts byHand := by
  unfold Live.tellDisconnected
  rw [after_bind, after_get]
  split
  · rename_i hStatus
    obtain ⟨x, hx, hxStatus⟩ := exists_core (l := l) (o := o) (by simp [hStatus])
    rw [hStatus] at hxStatus
    exact hW.turn hClient depth hx (by simp [hxStatus]) (by decide) rfl (fun b => rfl)
      fun b active => by simp [Hook.leaves]
  · exact hW

theorem tellDestroyed (hClient : client.Quiet) (depth : Nat) (o : ObserverId) :
    After (tellDestroyed (Calls.upTo client (depth + 2)) o) l fun _ l' =>
      Wired l' hosts byHand := by
  unfold Live.tellDestroyed
  rw [after_bind, after_get]
  split
  · rename_i hStatus
    obtain ⟨x, hx, hxStatus⟩ := exists_core hStatus
    rw [← hxStatus] at hStatus
    refine (hW.toPlugged.tell hClient depth hx
      (show EventKind.destroy.isCancelable = false from rfl)).bind ?_
    rintro _ l₁ ⟨hCalm, hOthers, hServed⟩
    have hStatus₁ : l₁.statusOf o ≠ .destroyed := by
      rwa [statusOf_eq ((hCalm.core?_eq o).trans hx)]
    have hEnd : After (endObserver o) l₁ fun _ l₂ => Turned l₁ l₂ o Observer.Core.ended ∧
        SameSwitches l₁ l₂ := ⟨endObserver_turned l₁ hStatus₁, SameSwitches.of_eq rfl rfl⟩
    refine hEnd.bind ?_
    rintro _ l₂ ⟨h₂, hSwitches₂⟩
    have hUntrack : After (untrackMoves o) l₂ fun _ l₃ => (∀ p, l₃.core? p = l₂.core? p) ∧
        SameSwitches l₂ l₃ := ⟨fun _ => rfl, SameSwitches.of_eq rfl rfl⟩
    refine hUntrack.mono ?_
    rintro _ l₃ ⟨hCore₃, hSwitches₃⟩
    refine Wired.congr ?_ hCore₃ hSwitches₃
    have hTurned : Turned l l₂ o Observer.Core.ended := by
      refine ⟨hCalm.toFrame.trans h₂.toFrame, h₂.dom.trans hCalm.dom,
        h₂.tracked.trans hCalm.tracked, fun p => ?_⟩
      rw [h₂.core, hCalm.core?_eq]
    have hFeeds := hCalm.sameFeeds.trans hSwitches₂.toSameFeeds
    refine hTurned.wired hW hFeeds hx hStatus (by simp) ?_ (by simp) (fun b hb => ?_)
      fun b hb => ?_
    · rw [Observer.Core.ended_of_ne hStatus]
      exact fun e he => by cases he
    · rw [hSwitches₂.state, hOthers b hb]
    · obtain ⟨active, hState⟩ := hW.lasting b x.target hb o x hx rfl hStatus
      rw [hSwitches₂.state, hServed b (hW.serves b x.target hb o x hx rfl hStatus) _ rfl, hState]
      simp [Hook.leaves]
  · exact hW

end Wired

end LiveMarkup.Live

/-! ## Transitions and bindings -/

namespace LiveMarkup.Live

variable {κ σ : Type} {client : Client κ σ} {hosts : List NodeRef} {byHand : List BindingId}

namespace Wired

/-! ### Steps without hooks -/

theorem keeps_of_eq {α : Type} {op : LiveM κ σ α} (hCore : ∀ l o, After op l fun _ l' =>
      l'.core? o = l.core? o)
    (hSwitches : ∀ l, After op l fun _ l' => l'.bindings = l.bindings ∧
      l'.subscriptions = l.subscriptions) : Keeps (Wired · hosts byHand) op := fun l hW =>
  hW.congr (hCore l) (SameSwitches.of_eq (hSwitches l).1 (hSwitches l).2)

theorem keeps_setState (r : NodeRef) (state : NodeState) :
    Keeps (Wired · hosts byHand) (setState r state : LiveM κ σ Unit) :=
  keeps_of_eq (fun _ _ => rfl) fun _ => ⟨rfl, rfl⟩

theorem keeps_modifyDom (f : Dom → Dom) :
    Keeps (Wired · hosts byHand) (modifyDom f : LiveM κ σ Unit) :=
  keeps_of_eq (fun _ _ => rfl) fun _ => ⟨rfl, rfl⟩

theorem keeps_bury (n : NodeId) : Keeps (Wired · hosts byHand) (bury n : LiveM κ σ Unit) :=
  keeps_of_eq (fun _ _ => rfl) fun _ => ⟨rfl, rfl⟩

theorem keeps_noteMoves (r : NodeRef) :
    Keeps (Wired · hosts byHand) (noteMoves r : LiveM κ σ Unit) :=
  keeps_of_eq (fun l o => (noteMoves_alike l r).1.core_eq o) fun l => (noteMoves_alike l r).2

/-! ### Notices -/

variable (hClient : client.Quiet) (depth : Nat)
include hClient

theorem keeps_fireAt (r : NodeRef) (kind : EventKind)
    (hKind : ∀ b, (Hook.ofBinding? b kind : Option (Hook κ)) = none) :
    Keeps (Wired · hosts byHand) (fireAt (Calls.upTo client (depth + 2)) r kind) := by
  intro l hW
  unfold fireAt
  rw [after_bind, after_get]
  split
  · exact hW
  · refine (hW.toPlugged.fire hClient depth _ _ hKind).mono ?_
    rintro _ l' ⟨hCalm, hState⟩
    exact hW.congr hCalm.core?_eq ⟨hCalm.sameFeeds, hState⟩

/-- Every step of a transition keeps the wiring. -/
theorem stepwise :
    Stepwise (Wired · hosts byHand) (fun _ => True) (Calls.upTo client (depth + 2)) where
  structural _ := trivial
  modifyDom := keeps_modifyDom
  setState := keeps_setState
  noteMoves := keeps_noteMoves
  bury := keeps_bury
  fireAt r kind hKind := keeps_fireAt hClient depth r kind fun b => by
    cases kind <;> first | rfl | simp at hKind
  tellConnected o _ hW := hW.tellConnected hClient depth o
  tellDisconnected o _ hW := hW.tellDisconnected hClient depth o
  tellDestroyed o _ hW := hW.tellDestroyed hClient depth o

end Wired

end LiveMarkup.Live
