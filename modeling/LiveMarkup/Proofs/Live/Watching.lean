import LiveMarkup.Proofs.Live.Session

/-!
# Keeping watch

A document that tracks moves notes where the targets of observers are. When it moves a node or
container it notes anew where everything in it is. So no target has another parent than when it was
seen last; its next sibling may be another one.

* `Dom.Apart`: what is not moved keeps its parent;
* `Steady`: what is seen of places while observers are told;
* `Noticed`: what noting places changes;
* `Watched`: the parents that are noted are those in the tree;
* `Orderly.watched`: a deed of a session keeps watch.
-/

namespace LiveMarkup

namespace Dom

variable {d d' : Dom} {r t : NodeRef} {host : NodeId} {reference : Option NodeId}

/-! ## Parents -/

theorem position_fst (d : Dom) (t : NodeRef) : (d.position t).1 = (d.first? t).bind d.parent? := by
  unfold position
  cases d.first? t <;> rfl

/-- What is on its own has no other parent if its key has none and it is as live as before. -/
theorem SameParts.position_fst (h : SameParts d d')
    (hParent : d'.parent? (d.key t) = d.parent? (d.key t))
    (hLive : ∀ c, t = .container c → (d'.container c).live = (d.container c).live) :
    (d'.position t).1 = (d.position t).1 := by
  rw [Dom.position_fst, Dom.position_fst]
  cases t with
  | node n => exact hParent
  | container c =>
    have hStart : (d'.container c).start = (d.container c).start := h.part c .start
    rw [first?, first?, hLive c rfl, hStart]
    split
    · exact hParent
    · rfl

theorem Housed.position_fst (h : Housed d d' r host reference) (ht : d.Known t)
    (hOut : ¬ d.Inside r (d.key t)) : (d'.position t).1 = (d.position t).1 := by
  refine h.toSameParts.position_fst ?_ ?_
  · rw [h.parent, if_neg fun hRun => hOut ⟨_, hRun, Forest.up_refl _⟩]
  · rintro c rfl
    have hIff := h.live c ht
    rw [or_iff_left (fun he : r = .container c => hOut (he ▸ inside_key _))] at hIff
    exact Bool.eq_iff_iff.mpr hIff

theorem Unhoused.position_fst (h : Unhoused d d' r) (ht : d.Known t)
    (hOut : ¬ d.Inside r (d.key t)) : (d'.position t).1 = (d.position t).1 := by
  refine h.toSameParts.position_fst ?_ ?_
  · rw [h.parent, if_neg fun hRun => hOut ⟨_, hRun, Forest.up_refl _⟩]
  · rintro c rfl
    have hIff := h.live c ht
    rw [and_iff_left (fun he : r = .container c => hOut (he ▸ inside_key _))] at hIff
    exact Bool.eq_iff_iff.mpr hIff

/-- Whatever is not in a node or container afterwards has the parent that it had before. -/
def Apart (d d' : Dom) (r : NodeRef) : Prop :=
  ∀ t, d.Known t → d'.key t ∉ d'.subtree r → (d'.position t).1 = (d.position t).1

theorem Housed.apart (h : Housed d d' r host reference) (hd : d.Sound) (hr : d.Known r)
    (hHost : d.Host r host) : Apart d d' r := by
  intro t ht hOut
  refine h.position_fst ht fun hIn => hOut ?_
  have hd' := h.sound hd hr hHost
  rw [hd'.key_mem_subtree (h.known_iff.mpr hr) (h.known_iff.mpr ht), h.key, h.inside_iff hd hr hHost]
  exact hIn

theorem Unhoused.apart (h : Unhoused d d' r) (hd' : d'.Sound) (hr : d.Known r) :
    Apart d d' r := by
  intro t ht hOut
  refine h.position_fst ht fun hIn => hOut ?_
  rw [hd'.key_mem_subtree (h.known_iff.mpr hr) (h.known_iff.mpr ht), h.key, h.inside_iff hr]
  exact hIn

end Dom

namespace Live

variable {κ σ : Type} {client : Client κ σ} {l l₁ l' : Live κ σ} {K : ObserverId → Prop}
variable {r parent : NodeRef} {before : Option NodeRef} {o : ObserverId}

/-! ## While observers are told -/

/-- Where the target of an observer was seen last. -/
def seen? (l : Live κ σ) (o : ObserverId) : Option (Option NodeId × Option NodeId) :=
  (l.observer? o).map (·.lastSeen)

/-- Targets were seen last where they were before, and nothing is tracked less but what has ended.
Clock and settings stand. -/
structure Steady (l l' : Live κ σ) : Prop where
  config : l'.config = l.config
  tornDown : l'.tornDown = l.tornDown
  clock : l'.clock = l.clock
  comparing : l'.comparing = l.comparing
  seen : ∀ o, l'.seen? o = l.seen? o
  ended : ∀ o, l.statusOf o = .destroyed → l'.statusOf o = .destroyed
  movers : ∀ o ∈ l.movers, l'.statusOf o ≠ .destroyed → o ∈ l'.movers

namespace Steady

theorem refl (l : Live κ σ) : Steady l l :=
  ⟨rfl, rfl, rfl, rfl, fun _ => rfl, fun _ ho => ho, fun _ ho _ => ho⟩

theorem trans (h₁ : Steady l l₁) (h₂ : Steady l₁ l') : Steady l l' where
  config := h₂.config.trans h₁.config
  tornDown := h₂.tornDown.trans h₁.tornDown
  clock := h₂.clock.trans h₁.clock
  comparing := h₂.comparing.trans h₁.comparing
  seen o := (h₂.seen o).trans (h₁.seen o)
  ended o ho := h₂.ended o (h₁.ended o ho)
  movers o ho hLives := h₂.movers o (h₁.movers o ho fun he => hLives (h₂.ended o he)) hLives

/-- A change of neither observers nor what is said of moves. -/
theorem of_eq (hConfig : l'.config = l.config) (hTornDown : l'.tornDown = l.tornDown)
    (hClock : l'.clock = l.clock) (hComparing : l'.comparing = l.comparing)
    (hMovers : l'.movers = l.movers) (hObservers : l'.observers = l.observers) : Steady l l' where
  config := hConfig
  tornDown := hTornDown
  clock := hClock
  comparing := hComparing
  seen o := by simp only [seen?, observer?, hObservers]
  ended o ho := by
    rw [statusOf_core, core?_of_observers hObservers, ← statusOf_core]
    exact ho
  movers _ ho _ := hMovers ▸ ho

theorem of_withObserver (l : Live κ σ) (o : ObserverId) {g : Observer κ → Observer κ}
    (hSeen : ∀ x, (g x).lastSeen = x.lastSeen)
    (hEnded : ∀ x, x.status = .destroyed → (g x).status = .destroyed) :
    Steady l (l.withObserver o g) where
  config := rfl
  tornDown := rfl
  clock := rfl
  comparing := rfl
  seen p := by
    simp only [seen?, observer?, withObserver, Array.getElem?_modify]
    split
    · cases l.observers[p]? <;> simp [hSeen]
    · rfl
  ended p hp := by
    simp only [statusOf, observer?, withObserver, Array.getElem?_modify] at hp ⊢
    split
    · cases hx : l.observers[p]? with
      | none => rfl
      | some x =>
        rw [hx] at hp
        exact hEnded x hp
    · exact hp
  movers _ ho _ := ho

end Steady

theorem Calm.steady (h : Calm l l') : Steady l l' :=
  .of_eq h.config h.tornDown h.clock h.comparing h.movers h.observers

theorem Struck.steady {A : σ → σ → Prop} {d : Dom} (h : Struck A l l' d) : Steady l l' :=
  .of_eq h.config h.tornDown h.clock h.comparing h.movers h.observers

theorem untrackMoves_steady (hEnded : l.statusOf o = .destroyed) :
    After (untrackMoves o) l fun _ l' => Steady l l' := by
  refine ⟨rfl, rfl, rfl, rfl, fun _ => rfl, fun _ hp => hp, fun p hp hLives => ?_⟩
  refine List.mem_filter.mpr ⟨hp, ?_⟩
  have hNe : p ≠ o := fun he => hLives (he ▸ hEnded)
  simpa using hNe

section Telling

variable (hClient : client.Quiet) (depth : Nat) (hQuiet : l.QuietFor K)
include hClient hQuiet

theorem turn_steady (ho : K o) (c : Connectivity) (kind : EventKind) :
    After (do
        setStatus o c
        tell (Calls.upTo client (depth + 2)) o kind) l fun _ l' => Steady l l' := by
  have hStatus : After (setStatus o c) l fun _ l' => Steady l l' :=
    Steady.of_withObserver l o (fun x => by split <;> rfl) fun x hx => by rw [if_pos hx, hx]
  refine ((setStatus_turned l o c).and hStatus).bind ?_
  rintro _ l₁ ⟨hTurned, hSteady⟩
  refine (tell_calm hClient depth (hQuiet.turned hTurned (by simp)) ho kind).mono ?_
  exact fun _ l' hCalm => hSteady.trans hCalm.steady

theorem tellConnected_steady (ho : K o) :
    After (tellConnected (Calls.upTo client (depth + 2)) o) l fun _ l' => Steady l l' := by
  unfold tellConnected
  rw [after_bind, after_get]
  split
  · exact turn_steady hClient depth hQuiet ho _ _
  · exact .refl l

theorem tellDisconnected_steady (ho : K o) :
    After (tellDisconnected (Calls.upTo client (depth + 2)) o) l fun _ l' => Steady l l' := by
  unfold tellDisconnected
  rw [after_bind, after_get]
  split
  · exact turn_steady hClient depth hQuiet ho _ _
  · exact .refl l

theorem tellDestroyed_steady (ho : K o) :
    After (tellDestroyed (Calls.upTo client (depth + 2)) o) l fun _ l' => Steady l l' := by
  unfold tellDestroyed
  rw [after_bind, after_get]
  split
  · refine (tell_calm hClient depth hQuiet ho _).bind fun _ l₁ hCalm => ?_
    refine After.bind (m := fun _ l₂ => Steady l₁ l₂ ∧ l₂.statusOf o = .destroyed) ⟨?_, ?_⟩ ?_
    · exact Steady.of_withObserver l₁ o (fun _ => rfl) fun _ _ => rfl
    · change statusOf (l₁.withObserver o _) o = .destroyed
      simp only [statusOf, observer?, withObserver, Array.getElem?_modify, if_pos]
      cases l₁.observers[o]? <;> rfl
    · rintro _ l₂ ⟨hSteady, hEnded⟩
      exact (hCalm.steady.trans hSteady).trans (untrackMoves_steady hEnded)
  · exact .refl l

omit hClient in
theorem steady_forM {tellOne : ObserverId → LiveM κ σ Unit} {f : Observer.Core κ → Observer.Core κ}
    (hHooks : ∀ x, ∀ e ∈ (f x).hooks, e ∈ x.hooks)
    (hOne : ∀ l : Live κ σ, l.QuietFor K → ∀ o, K o → After (tellOne o) l fun _ l' =>
      Turned l l' o f ∧ Steady l l')
    {os : List ObserverId} (hos : ∀ o ∈ os, K o) :
    After (os.forM tellOne) l fun _ l' => Steady l l' := by
  induction os generalizing l with
  | nil => exact .refl l
  | cons o os ih =>
    refine (hOne l hQuiet o (hos o List.mem_cons_self)).bind ?_
    rintro _ l₁ ⟨hTurned, hSteady⟩
    refine (ih (hQuiet.turned hTurned hHooks) fun p hp => hos p (List.mem_cons_of_mem _ hp)).mono ?_
    exact fun _ _ hRest => hSteady.trans hRest

variable (hr : ∀ o ∈ l.observersIn r, K o)
include hr

theorem notifyConnected_steady :
    After (notifyConnected (Calls.upTo client (depth + 2)) r) l fun _ l' => Steady l l' := by
  unfold notifyConnected
  rw [after_bind, after_get]
  exact steady_forM hQuiet (by simp) (fun _ hQuiet₁ _ ho =>
    (tellConnected_turned hClient depth hQuiet₁ ho).and
      (tellConnected_steady hClient depth hQuiet₁ ho)) hr

theorem notifyDisconnected_steady :
    After (notifyDisconnected (Calls.upTo client (depth + 2)) r) l fun _ l' => Steady l l' := by
  unfold notifyDisconnected
  rw [after_bind, after_get]
  exact steady_forM hQuiet (by simp) (fun _ hQuiet₁ _ ho =>
    (tellDisconnected_turned hClient depth hQuiet₁ ho).and
      (tellDisconnected_steady hClient depth hQuiet₁ ho)) fun o ho => hr o (List.mem_reverse.mp ho)

theorem tellAllDestroyed_steady :
    After ((l.observersIn r).reverse.forM (tellDestroyed (Calls.upTo client (depth + 2)))) l
      fun _ l' => Steady l l' :=
  steady_forM hQuiet (fun _ _ => Observer.Core.mem_of_mem_ended) (fun _ hQuiet₁ _ ho =>
    (tellDestroyed_turned hClient depth hQuiet₁ ho).and
      (tellDestroyed_steady hClient depth hQuiet₁ ho)) fun o ho => hr o (List.mem_reverse.mp ho)

end Telling

/-! ## Places that are noted -/

/-- Noting places: the targets of some observers are seen where they are, and nothing else is. -/
structure Noticed (l l' : Live κ σ) (os : List ObserverId) : Prop where
  alike : Alike l l'
  clock : l'.clock = l.clock
  comparing : l'.comparing = l.comparing
  movers : l'.movers = l.movers
  seen : ∀ o, l'.seen? o = if o ∈ os then (l.core? o).map fun x => l.dom.position x.target
    else l.seen? o

theorem notePlace_noticed (l : Live κ σ) (o : ObserverId) :
    After (notePlace o) l fun _ l' => Noticed l l' [o] := by
  refine ⟨(notePlace_alike l o).1, rfl, rfl, rfl, fun p => ?_⟩
  change ((l.observers.modify o _)[p]?).map _ = _
  rw [Array.getElem?_modify, core?, seen?, observer?]
  by_cases hp : o = p
  · subst hp
    rw [if_pos rfl, if_pos List.mem_cons_self]
    cases l.observers[o]? <;> rfl
  · rw [if_neg hp, if_neg fun hMem => hp (List.mem_singleton.mp hMem).symm]

theorem Noticed.then {os ps : List ObserverId} (h₁ : Noticed l l₁ os) (h₂ : Noticed l₁ l' ps) :
    Noticed l l' (os ++ ps) where
  alike := h₁.alike.trans h₂.alike
  clock := h₂.clock.trans h₁.clock
  comparing := h₂.comparing.trans h₁.comparing
  movers := h₂.movers.trans h₁.movers
  seen o := by
    rw [h₂.seen, h₁.seen, h₁.alike.core_eq, h₁.alike.dom]
    by_cases hPs : o ∈ ps <;> by_cases hOs : o ∈ os <;> simp [hPs, hOs]

theorem Noticed.seen_of_ne {q : ObserverId} (h : Noticed l l' [q]) (ho : o ≠ q) :
    l'.seen? o = l.seen? o := by
  rw [h.seen, if_neg (by simpa using ho)]

theorem Noticed.seen_self {x : Observer.Core κ} (h : Noticed l l' [o]) (hx : l.core? o = some x) :
    l'.seen? o = some (l.dom.position x.target) := by
  rw [h.seen, if_pos List.mem_cons_self, hx]
  rfl

theorem Noticed.calm {os : List ObserverId} (h : Noticed l l₁ os) (hCalm : Calm l₁ l') :
    Noticed l l' os where
  alike := h.alike.trans (Changed.alike_of_calm hCalm)
  clock := hCalm.clock.trans h.clock
  comparing := hCalm.comparing.trans h.comparing
  movers := hCalm.movers.trans h.movers
  seen o := (hCalm.steady.seen o).trans (h.seen o)

theorem noticed_nil (l : Live κ σ) : Noticed l l [] :=
  ⟨Changed.alike_of_calm (Calm.refl l), rfl, rfl, rfl, fun _ => rfl⟩

/-- The tracked observers of what is in a node or container. -/
def trackedIn (l : Live κ σ) (r : NodeRef) : List ObserverId :=
  l.movers.filter fun o =>
    (l.observer? o).any fun x => (l.dom.subtree r).contains (l.dom.key x.target)

theorem mem_trackedIn {x : Observer.Core κ} (hx : l.core? o = some x) :
    o ∈ l.trackedIn r ↔ o ∈ l.movers ∧ l.dom.key x.target ∈ l.dom.subtree r := by
  obtain ⟨y, hy, rfl⟩ := Option.map_eq_some_iff.mp hx
  rw [trackedIn, List.mem_filter, hy, Option.any_some, List.contains_iff_mem]
  rfl

theorem noteMoves_noticed (hTracks : l.config.trackMoves = true) :
    After (noteMoves r) l fun _ l' => Noticed l l' (l.trackedIn r) := by
  have hAll : ∀ os : List ObserverId, After (os.forM notePlace) l fun _ l' => Noticed l l' os := by
    intro os
    refine (After.forM (k := fun rest l' => ∃ done, done ++ rest = os ∧ Noticed l l' done) ?_ ?_).mono
      ?_
    · exact ⟨[], rfl, noticed_nil l⟩
    · rintro o rest l₁ ⟨done, rfl, h₁⟩
      refine (notePlace_noticed l₁ o).mono fun _ l₂ h₂ => ?_
      exact ⟨done ++ [o], by simp, h₁.then h₂⟩
    · rintro _ l' ⟨done, hDone, h⟩
      rw [List.append_nil] at hDone
      exact hDone ▸ h
  unfold noteMoves
  rw [after_bind, after_get, if_pos hTracks]
  exact hAll _

/-! ## Watched documents -/

/-- Moves are tracked, and nothing but comparing them is to be done. -/
structure Tracking (l : Live κ σ) : Prop where
  tracks : l.config.trackMoves = true
  live : l.tornDown = false
  tasks : ∀ t ∈ l.clock.microtasks, t = .compareMoves
  pending : l.comparing = true → l.clock.microtasks ≠ []

theorem Tracking.congr (h : l.Tracking) (hConfig : l'.config = l.config)
    (hTornDown : l'.tornDown = l.tornDown) (hClock : l'.clock = l.clock)
    (hComparing : l'.comparing = l.comparing) : l'.Tracking where
  tracks := hConfig ▸ h.tracks
  live := hTornDown.trans h.live
  tasks t ht := h.tasks t (hClock ▸ ht)
  pending hc := by
    rw [hClock]
    exact h.pending (hComparing ▸ hc)

theorem Steady.tracking (h : Steady l l') (hTracking : l.Tracking) : l'.Tracking :=
  hTracking.congr h.config h.tornDown h.clock h.comparing

theorem Noticed.tracking {os : List ObserverId} (h : Noticed l l' os) (hTracking : l.Tracking) :
    l'.Tracking :=
  hTracking.congr h.alike.config h.alike.tornDown h.clock h.comparing

/-- All observers that have not ended are tracked, and their targets were seen last where they have
their parents now. -/
structure Watched (l : Live κ σ) : Prop extends Tracking l where
  all : ∀ o x, l.core? o = some x → x.status ≠ .destroyed → o ∈ l.movers
  places : ∀ o x place, l.core? o = some x → l.seen? o = some place → x.status ≠ .destroyed →
    place.1 = (l.dom.position x.target).1

/-- Where nothing is observed nothing needs to be seen. -/
theorem Unobserved.watched (h : l.Unobserved) (hTracking : l.Tracking) : l.Watched := by
  refine ⟨hTracking, fun o x hx => ?_, fun o x place hx => ?_⟩ <;>
  · rw [h.core?_eq_none] at hx
    cases hx

theorem create_tracking {config : Config} (c : σ) (hTracks : config.trackMoves = true) :
    (create config c : Live κ σ).Tracking :=
  ⟨hTracks, rfl, (fun _ ht => nomatch ht), fun h => nomatch h⟩

/-- Some observers have ended, and no other one is found. -/
def Remains (l l' : Live κ σ) : Prop :=
  ∀ o x', l'.core? o = some x' → x'.status ≠ .destroyed →
    ∃ x, l.core? o = some x ∧ x.target = x'.target ∧ x.status ≠ .destroyed

theorem Changed.remains {d : Dom} {f : ObserverId → Observer.Core κ → Observer.Core κ}
    (h : Changed l l' d f) (hTarget : ∀ o x, (f o x).target = x.target)
    (hStatus : ∀ o x, x.status = .destroyed → (f o x).status = .destroyed) : Remains l l' := by
  intro o x' hx' hLives
  obtain ⟨x, hx, rfl⟩ := Option.map_eq_some_iff.mp ((h.core o).symm.trans hx')
  exact ⟨x, hx, (hTarget o x).symm, fun he => hLives (hStatus o x he)⟩

theorem Changed.remains_turnAll {d : Dom} {os : List ObserverId} {c : Connectivity}
    (h : Changed l l' d (turnAll os c)) : Remains l l' := by
  refine h.remains (fun o x => ?_) fun o x hx => ?_
  · unfold turnAll
    split <;> simp
  · unfold turnAll
    split
    · rw [Observer.Core.turn_of_eq c hx, hx]
    · exact hx

namespace Watched

variable (hW : l.Watched)
include hW

omit hW in
theorem all_of_steady (hSteady : Steady l l') (hRemains : Remains l l')
    (hAll : ∀ o x, l.core? o = some x → x.status ≠ .destroyed → o ∈ l.movers) :
    ∀ o x, l'.core? o = some x → x.status ≠ .destroyed → o ∈ l'.movers := by
  intro o x' hx' hLives
  obtain ⟨x, hx, -, hOld⟩ := hRemains o x' hx' hLives
  exact hSteady.movers o (hAll o x hx hOld) (statusOf_eq hx' ▸ hLives)

theorem steady (hSteady : Steady l l') (hDom : l'.dom = l.dom) (hRemains : Remains l l') :
    l'.Watched where
  toTracking := hSteady.tracking hW.toTracking
  all := all_of_steady hSteady hRemains hW.all
  places o x' place hx' hSeen hLives := by
    obtain ⟨x, hx, hTarget, hOld⟩ := hRemains o x' hx' hLives
    rw [hDom, ← hTarget]
    exact hW.places o x place hx (hSteady.seen o ▸ hSeen) hOld

theorem calm (hCalm : Calm l l') : l'.Watched :=
  hW.steady hCalm.steady hCalm.dom fun o x' hx' hLives =>
    ⟨x', hCalm.core?_eq o ▸ hx', rfl, hLives⟩

/-- If the tree has changed, noting the places of what was moved is enough. -/
theorem noted (hO : l.Observed) (hSteady : Steady l l₁) (hRemains : Remains l l₁)
    (hApart : Dom.Apart l.dom l₁.dom r) : After (noteMoves r) l₁ fun _ l' => l'.Watched := by
  have hTracking := hSteady.tracking hW.toTracking
  have hAll := all_of_steady hSteady hRemains hW.all
  refine (noteMoves_noticed hTracking.tracks).mono fun _ l' h => ?_
  refine ⟨h.tracking hTracking, fun o x hx hLives => ?_, fun o x' place hx' hSeen hLives => ?_⟩
  · rw [h.movers]
    exact hAll o x (h.alike.core_eq o ▸ hx) hLives
  · rw [h.alike.core_eq] at hx'
    rw [h.alike.dom]
    rw [h.seen] at hSeen
    split at hSeen
    · rw [hx'] at hSeen
      rw [← Option.some.inj hSeen]
    · rename_i hNot
      obtain ⟨x, hx, hTarget, hOld⟩ := hRemains o x' hx' hLives
      have hOut : l₁.dom.key x'.target ∉ l₁.dom.subtree r := fun hIn =>
        hNot ((mem_trackedIn hx').mpr ⟨hAll o x' hx' hLives, hIn⟩)
      rw [hApart x'.target (hTarget ▸ hO.known o x hx) hOut, ← hTarget]
      exact hW.places o x place hx (hSteady.seen o ▸ hSeen) hOld

end Watched

/-! ## Transitions -/

section Transitions

variable (hW : l.Watched) (hO : l.Observed) (hClient : client.Quiet) (depth : Nat)

theorem Struck.watched {A : σ → σ → Prop} (h : Struck A l l' l.dom) (hW : l.Watched) : l'.Watched :=
  hW.steady h.steady h.dom (h.toChanged.remains (fun _ _ => rfl) fun _ _ hx => hx)

section Strikes

variable {A : σ → σ → Prop} {d : Dom} (h : Struck A l l₁ d) (hApart : Dom.Apart l.dom d r)
include hW hO h hApart

theorem Struck.watched_unheard :
    After (sure (noteMoves r) : Act κ σ Unit).run l₁ fun _ l' => l'.Watched := by
  rw [after_sure]
  exact hW.noted hO h.steady (h.toChanged.remains (fun _ _ => rfl) fun _ _ hx => hx)
    (h.dom ▸ hApart)

theorem Struck.watched_heard {notify : LiveM κ σ Unit} {os : List ObserverId} {c : Connectivity}
    (hNotify : After notify l₁ fun _ l' => Changed l₁ l' l₁.dom (turnAll os c) ∧ Steady l₁ l') :
    After (do notify; sure (noteMoves r) : Act κ σ Unit).run l₁ fun _ l' => l'.Watched := by
  refine After.lift_bind hNotify fun _ l₂ _ ⟨hChanged, hSteady⟩ => ?_
  rw [after_sure]
  refine hW.noted hO (h.steady.trans hSteady) ?_
    (by rwa [hChanged.dom, h.dom])
  intro o x' hx' hLives
  obtain ⟨x, hx, hTarget, hOld⟩ := hChanged.remains_turnAll o x' hx' hLives
  exact ⟨x, core?_of_observers h.observers o ▸ hx, hTarget, hOld⟩

variable (hQuiet₁ : l₁.QuietFor fun _ => True)
include hClient hQuiet₁

theorem Struck.watched_comes : After (do
      notifyConnected (Calls.upTo client (depth + 2)) r
      sure (noteMoves r) : Act κ σ Unit).run l₁ fun _ l' => l'.Watched :=
  h.watched_heard hW hO hApart ((notifyConnected_changed hClient depth hQuiet₁ fun _ _ => trivial).and
    (notifyConnected_steady hClient depth hQuiet₁ fun _ _ => trivial))

theorem Struck.watched_ceases : After (do
      notifyDisconnected (Calls.upTo client (depth + 2)) r
      sure (noteMoves r) : Act κ σ Unit).run l₁ fun _ l' => l'.Watched :=
  h.watched_heard hW hO hApart
    ((notifyDisconnected_changed hClient depth hQuiet₁ fun _ _ => trivial).and
      (notifyDisconnected_steady hClient depth hQuiet₁ fun _ _ => trivial))

end Strikes

namespace Observed

variable (hQuiet : l.QuietFor fun _ => True) (hr : l.dom.Known r)
include hW hO hClient hQuiet hr

theorem attach_watched (hNe : r ≠ .node l.document) (hParent : l.dom.Known parent)
    (hOut : ¬ l.dom.Inside r (l.dom.key parent)) :
    After (Live.attach (Calls.upTo client (depth + 2)) r parent before).run l fun _ l' =>
      l'.Watched := by
  have hKey := hO.key_ne_document hr hNe
  have hPut : l.stateOf r = .detached → ∀ d', l.dom.place r parent before = .ok d' →
      Dom.SameParts l.dom d' ∧ Dom.Apart l.dom d' r := by
    intro hState d' hPlace
    obtain ⟨host, reference, -, hHost, hHoused⟩ := hO.sound.housed_of_place hr hParent
      (fun he => hOut (he ▸ Dom.inside_key _)) hOut ((isPlaced_of_state (hO.settled _) hKey).1 hState)
      hPlace
    exact ⟨hHoused.toSameParts, hHoused.apart hO.sound hr hHost⟩
  refine After.attach hClient depth (asks_any _) (hQuiet.pliant fun _ _ => trivial) (hO.settled _)
    (fun hState d' hPlace => (hPut hState d' hPlace).1.key r)
    (fun _ _ hStruck _ => hStruck.watched hW) ?_
  intro d' l₁ _ hState _ _ hPlace hStruck
  have hQuiet₁ : l₁.QuietFor fun _ => True := hStruck.quietFor hQuiet fun _ _ _ he => he
  have hApart := (hPut hState d' hPlace).2
  exact ⟨fun _ => hStruck.watched_comes hW hO hClient depth hApart hQuiet₁,
    fun _ => hStruck.watched_unheard hW hO hApart⟩

theorem detach_watched (hNe : r ≠ .node l.document) :
    After (Live.detach (Calls.upTo client (depth + 2)) r).run l fun _ l' => l'.Watched := by
  have hKey := hO.key_ne_document hr hNe
  have hTaken : l.stateOf r = .attached → Dom.SameParts l.dom (l.dom.takeOut r) ∧
      Dom.Apart l.dom (l.dom.takeOut r) r := by
    intro hState
    obtain ⟨hUnhoused, hLinked⟩ :=
      hO.sound.unhoused_takeOut hr ((isPlaced_of_state (hO.settled _) hKey).2 hState)
    exact ⟨hUnhoused.toSameParts,
      hUnhoused.apart (hUnhoused.sound hO.sound hr hLinked) hr⟩
  refine After.detach hClient depth (asks_any _) (hQuiet.pliant fun _ _ => trivial) (hO.settled _) hKey
    (fun hState => (hTaken hState).1.key r) (fun _ _ hStruck _ => hStruck.watched hW) ?_
  intro l₁ _ hState _ hStruck
  have hQuiet₁ : l₁.QuietFor fun _ => True := hStruck.quietFor hQuiet fun _ _ _ he => he
  have hApart := (hTaken hState).2
  exact ⟨fun _ => hStruck.watched_ceases hW hO hClient depth hApart hQuiet₁,
    fun _ => hStruck.watched_unheard hW hO hApart⟩

theorem moveTo_watched (hNe : r ≠ .node l.document) (hParent : l.dom.Known parent)
    (hOut : ¬ l.dom.Inside r (l.dom.key parent)) :
    After (Live.moveTo (Calls.upTo client (depth + 2)) r parent before).run l fun _ l' =>
      l'.Watched := by
  refine After.moveTo (m := .strict) (fun _ _ => hW) ?_
  intro d' _ hState hMove
  have hKey := hO.key_ne_document hr hNe
  have hStruck : Struck (fun _ _ => True) l (l.withDom d') d' :=
    (Struck.refl trivial).withDom (.move hMove)
  have hQuiet₁ : (l.withDom d').QuietFor fun _ => True :=
    hStruck.toChanged.quietFor hQuiet fun _ _ _ he => he
  have hApart : Dom.Apart l.dom d' r := by
    rcases hO.sound.housed_of_move hr hParent (fun he => hOut (he ▸ Dom.inside_key _)) hOut
      ((isPlaced_of_state (hO.settled _) hKey).2 hState) hMove with
      rfl | ⟨host, reference, -, hHost, hHoused⟩
    · exact fun _ _ _ => rfl
    · exact hHoused.apart hO.sound hr hHost
  exact ⟨fun _ _ => hStruck.watched_comes hW hO hClient depth hApart hQuiet₁,
    fun _ _ => hStruck.watched_ceases hW hO hClient depth hApart hQuiet₁,
    fun _ => hStruck.watched_unheard hW hO hApart⟩

omit hW hO hr in
theorem destroy_steady :
    After (Live.destroy (Calls.upTo client (depth + 2)) r).run l fun _ l' => Steady l l' := by
  unfold Live.destroy
  refine After.ensureLive (fun _ => .refl l) fun _ => After.needState (fun _ => .refl l) fun _ => ?_
  refine After.sure_bind (setState_noted l r .destroying) fun _ l₁ h₁ => ?_
  have hNoted : Steady l l₁ :=
    .of_eq h₁.config h₁.tornDown h₁.clock h₁.comparing h₁.movers h₁.observers
  refine After.get_act ?_
  refine After.act_ok (After.forM_sure (tellAllDestroyed_steady hClient depth (h₁.quietFor hQuiet)
    fun _ _ => trivial)) ?_
  rintro l₂ hTold
  refine After.get_act ?_
  have hBuried : After ((l₂.dom.subtree r).forM bury) l₂ fun _ l' => Steady l₂ l' := by
    refine After.forM (k := fun _ l' => Steady l₂ l') (.refl l₂) fun _ _ l₃ h₃ => ?_
    exact h₃.trans (.of_eq rfl rfl rfl rfl rfl rfl)
  exact (After.forM_sure hBuried).mono fun _ _ h => (hNoted.trans hTold).trans h.2

theorem destroy_watched :
    After (Live.destroy (Calls.upTo client (depth + 2)) r).run l fun _ l' => l'.Watched := by
  have hKeyIn : l.dom.key r ∈ l.dom.subtree r :=
    (hO.sound.key_mem_subtree hr hr).mpr (Dom.inside_key r)
  refine ((destroy_outcome hClient depth hQuiet hKeyIn fun _ _ => trivial).and
    (destroy_steady hClient depth hQuiet)).mono ?_
  rintro out l' ⟨hOut, hSteady⟩
  rcases hOut.changed with ⟨hAlike, -⟩ | ⟨-, -, hDestroyed⟩
  · exact hW.steady hSteady hAlike.dom
      (hAlike.remains (fun _ _ => rfl) fun _ _ hx => hx)
  · refine hW.steady hSteady hDestroyed.dom fun o x' hx' hLives => ?_
    obtain ⟨x, hx, rfl⟩ := Option.map_eq_some_iff.mp ((hDestroyed.core o).symm.trans hx')
    split at hLives
    · exact absurd x.ended_status hLives
    · rename_i hNot
      exact ⟨x, hx, by rw [if_neg hNot], hLives⟩

end Observed

end Transitions

/-! ## Observing and binding -/

theorem observe_watched (hW : l.Watched) (r : NodeRef) :
    After (observe r).run l fun _ l' => l'.Watched := by
  -- an observer that is found after one is made is that one or was there before
  have hPush : ∀ (y : Observer κ) {p : ObserverId} {x' : Observer.Core κ},
      ((l.observers.push y)[p]?).map Observer.core = some x' →
      p = l.observers.size ∧ x' = y.core ∨
        l.core? p = some x' ∧ ((l.observers.push y)[p]?).map (·.lastSeen) = l.seen? p := by
    intro y p x' hx'
    rw [Array.getElem?_push] at hx' ⊢
    split at hx'
    · exact .inl ⟨‹_›, (Option.some.inj hx').symm⟩
    · rename_i hp
      rw [if_neg hp]
      exact .inr ⟨hx', rfl⟩
  unfold observe
  refine After.ensureLive (fun _ => hW) fun _ => After.get_act ?_
  split
  · refine ⟨hW.toTracking.congr rfl rfl rfl rfl, fun p x' hx' hLives => ?_,
      fun p x' place hx' hSeen hLives => ?_⟩
    · rcases hPush { target := r, status := .destroyed } hx' with ⟨-, rfl⟩ | ⟨hx, -⟩
      · exact absurd rfl hLives
      · exact hW.all p x' hx hLives
    · rcases hPush { target := r, status := .destroyed } hx' with ⟨-, rfl⟩ | ⟨hx, hSame⟩
      · exact absurd rfl hLives
      · exact hW.places p x' place hx (hSame ▸ hSeen) hLives
  · dsimp only
    split
    · exact hW.steady (.of_eq rfl rfl rfl rfl rfl rfl) rfl fun p x' hx' hLives => ⟨x', hx', rfl, hLives⟩
    · let y : Observer κ :=
        { target := r, status := if l.isConnected r then .connected else .disconnected }
      rw [after_sure]
      refine After.bind (m := fun o l₁ => o = l.observers.size ∧
        l₁ = { l with observers := l.observers.push y }) ⟨rfl, rfl⟩ ?_
      rintro _ _ ⟨rfl, rfl⟩
      refine After.bind (m := fun _ l₂ => ∃ tracked,
        l₂ = { l with observers := l.observers.push y, tracked }) ⟨_, rfl⟩ ?_
      rintro _ _ ⟨tracked, rfl⟩
      unfold trackMoves
      rw [after_bind, after_bind, after_get, if_pos hW.tracks]
      refine (notePlace_noticed _ l.observers.size).bind fun _ l₃ h => ?_
      have hTracking : Tracking { l₃ with movers := l₃.movers ++ [l.observers.size] } :=
        hW.toTracking.congr h.alike.config h.alike.tornDown h.clock h.comparing
      refine ⟨hTracking, fun p x' hx' hLives => ?_, fun p x' place hx' hSeen hLives => ?_⟩
      · change l₃.core? p = some x' at hx'
        change p ∈ l₃.movers ++ [l.observers.size]
        rw [h.alike.core_eq] at hx'
        rw [h.movers]
        rcases hPush y hx' with ⟨rfl, -⟩ | ⟨hx, -⟩
        · exact List.mem_append_right _ List.mem_cons_self
        · exact List.mem_append_left _ (hW.all p x' hx hLives)
      · change l₃.core? p = some x' at hx'
        change l₃.seen? p = some place at hSeen
        change place.1 = (l₃.dom.position x'.target).1
        rw [h.alike.core_eq] at hx'
        rw [h.seen] at hSeen
        rw [h.alike.dom]
        split at hSeen
        · rw [hx'] at hSeen
          rw [← Option.some.inj hSeen]
        · rename_i hNe
          rcases hPush y hx' with ⟨rfl, -⟩ | ⟨hx, hSame⟩
          · exact absurd List.mem_cons_self hNe
          · exact hW.places p x' place hx (hSame ▸ hSeen) hLives

/-- Hooks are no matter. -/
theorem Watched.hooked {es : List (Observer.Entry κ)} (hW : l.Watched) (hSteady : Steady l l')
    (hDom : l'.dom = l.dom)
    (hCore : ∀ p, l'.core? p = (l.core? p).map fun x => if p = o then x.hooked es else x) :
    l'.Watched := by
  refine hW.steady hSteady hDom fun p x' hx' hLives => ?_
  rw [hCore] at hx'
  obtain ⟨x, hx, rfl⟩ := Option.map_eq_some_iff.mp hx'
  refine ⟨x, hx, ?_, ?_⟩
  · split <;> simp
  · split at hLives <;> simpa using hLives

theorem addHook_steady (l : Live κ σ) (o : ObserverId) (kind : EventKind) (hook : Hook κ) :
    After (addHook o kind hook) l fun _ l' => Steady l l' :=
  Steady.of_withObserver l o (fun _ => rfl) fun _ hx => hx

theorem tie_steady (hClient : client.Quiet) (depth : Nat) {feed : Feed κ} (hFeed : feed.Quiet)
    (held : Bool) (o : ObserverId) :
    After (tie (Calls.upTo client (depth + 2)) o feed held l.bindings.size) l fun _ l' =>
      Steady l l' := by
  refine After.tie (P := fun l₁ => Steady l l₁ ∧
    l₁.subscriptions = l.subscriptions.push { feed }) ⟨.of_eq rfl rfl rfl rfl rfl rfl, rfl⟩
    (fun {l₁ kind hook} _ h => ⟨h.1.trans (addHook_steady l₁ o kind hook), h.2⟩) (fun l₁ h₁ _ => ?_)
    fun _ h₁ _ => h₁.1
  refine (activate_quiet (m := .strict) hClient (depth + 1) (s := l.subscriptions.size)
    (fun f hf => ?_) fun _ hf => hf.elim).mono fun _ _ h => h₁.1.trans h.1.steady
  rw [feed?, subscription?, h₁.2, Array.getElem?_push_size] at hf
  exact Option.some.inj hf ▸ Feed.quiet_iff.mpr hFeed

section Sessions

variable {hosts : List NodeRef} {byHand : List BindingId}
variable (hO : l.Observed) (hB : Wired l hosts byHand) (hW : l.Watched)
variable (hClient : client.Quiet) (depth : Nat)
include hB hW hClient

theorem bind_watched (hO : l.Observed) {feed : Feed κ} (hFeed : feed.Quiet) (held : Bool)
    (hr : l.dom.Known r) :
    After (bind (Calls.upTo client (depth + 2)) r feed held).run l fun _ l' => l'.Watched := by
  refine After.bind_tie ((observe_orderly hO hB hr).and (observe_watched hW r)) (fun _ _ h => h.2)
    (fun _ _ h => h.2) ?_
  rintro o l₁ ⟨⟨-, hB₁, -⟩, hW₁⟩ -
  have hSizes := hB₁.subscriptions_size.trans hB₁.bindings_size.symm
  refine ((tie_tied hClient depth hFeed held hSizes o).and
    (tie_steady hClient depth hFeed held o)).mono ?_
  rintro _ l₂ ⟨⟨-, hTied⟩, hSteady⟩
  obtain ⟨n, m, k, hCore⟩ := hTied.core
  exact hW₁.hooked hSteady hTied.dom hCore

theorem switchOn_watched (b : BindingId) :
    After (activateBinding (Calls.upTo client (depth + 2)) b).run l fun _ l' => l'.Watched := by
  unfold activateBinding
  refine After.get_act ?_
  dsimp only
  split
  · rw [after_act_throw_bind]
    exact hW
  have hQuiet : (Hook.switchOn b : Hook κ).Quiet l :=
    Hook.quiet_switchOn.mpr fun x _ feed hFeed => hB.feeds _ feed hFeed
  rw [after_lift]
  exact (switchOn_quiet hClient (depth + 1) hQuiet).mono fun _ _ h => hW.calm h.1

namespace Observed

include hO

theorem detachIfAttached_watched (hr : l.Movable r) :
    After (Live.detachIfAttached (Calls.upTo client (depth + 2)) r).run l fun _ l' =>
      l'.Watched := by
  refine After.get_act ?_
  split
  · exact hO.detach_watched hW hClient depth hB.quietFor hr.1 hr.2
  · exact hW

theorem detached_watched (hr : l.Movable r) :
    After (Live.detach (Calls.upTo client (depth + 2)) r).run l fun _ l' =>
      (Carried l l' r ∧ Wired l' hosts byHand) ∧ l'.Watched :=
  ((hO.detach hClient depth hB.quietFor hr.1 hr.2).and (((Wired.stepwise hClient depth).detach r).keeps l hB)).and
    (hO.detach_watched hW hClient depth hB.quietFor hr.1 hr.2)

theorem attachAnywhere_watched (hr : l.MovableInto r parent) :
    After (Live.attachAnywhere (Calls.upTo client (depth + 2)) r parent before).run l fun _ l' =>
      l'.Watched := by
  refine After.get_act ?_
  split
  · exact hO.attach_watched hW hClient depth hB.quietFor hr.1.1 hr.1.2 hr.2.1 hr.2.2
  · split
    · refine After.act_bind (hO.detached_watched hB hW hClient depth hr.1) ?_ fun _ _ h => h.2
      rintro _ l₁ ⟨⟨hCarried, hB₁⟩, hW₁⟩
      have hr₁ := hCarried.movableInto hr
      refine After.get_act ?_
      split
      · exact hCarried.toObserved.attach_watched hW₁ hClient depth hB₁.quietFor hr₁.1.1 hr₁.1.2
          hr₁.2.1 hr₁.2.2
      · exact hW₁
    · exact hW
  · exact hW

theorem destroyFully_watched (hr : l.Movable r) :
    After (Live.destroyFully (Calls.upTo client (depth + 2)) r).run l fun _ l' =>
      l'.Watched := by
  refine After.get_act ?_
  split
  · exact hW
  · exact hW
  · refine After.act_bind (hO.detached_watched hB hW hClient depth hr) ?_ fun _ _ h => h.2
    rintro _ l₁ ⟨⟨hCarried, hB₁⟩, hW₁⟩
    have hr₁ := hCarried.movable hr
    refine After.get_act ?_
    split
    · exact hCarried.toObserved.destroy_watched hW₁ hClient depth hB₁.quietFor hr₁.1
    · exact hW₁
  · exact hO.destroy_watched hW hClient depth hB.quietFor hr.1

end Observed

end Sessions

/-- A proper deed keeps watch. -/
theorem Orderly.watched {s : Session κ σ} (hClient : client.Quiet) (depth : Nat) (hs : Orderly s)
    (hW : s.live.Watched) (d : Deed κ) (hProper : d.Proper s.live) :
    (s.step (Calls.upTo client (depth + 2)) d).live.Watched := by
  have hO := hs.observed
  obtain ⟨hosts, hB, -⟩ := hs.wired
  have hQuiet := hB.quietFor
  have hSame : ∀ {op : Act κ σ Unit}, (After op.run s.live fun _ l' => l' = s.live) →
      (s.after op).live.Watched := by
    intro op h
    change (op.run.run s.live).2.Watched
    rw [show (op.run.run s.live).2 = s.live from h]
    exact hW
  cases d with
  | observe r => exact observe_watched hW r
  | hook o kind k =>
    obtain ⟨hTurned, -, -⟩ := addHook_turned s.live o kind (.client k)
    exact hW.hooked (addHook_steady s.live o kind (.client k)) rfl hTurned.core
  | bind r feed held =>
    have hAfter := bind_watched hB hW hClient depth hO hProper.2 held hProper.1
    unfold After at hAfter
    simp only [Session.step]
    split <;> rename_i hRun <;> rwa [hRun] at hAfter
  | switchOn b => exact switchOn_watched hB hW hClient depth b
  | switchOff b => exact (switchOff_quiet (.of_slight trivial)).mono fun _ _ h => hW.calm h.1
  | attach r parent before =>
    rcases hProper with rfl | ⟨hr, hParent, hOut⟩
    · exact hSame (attach_document s.live _ parent before)
    · exact hO.attach_watched hW hClient depth hQuiet hr.1 hr.2 hParent hOut
  | detach r => exact hO.detach_watched hW hClient depth hQuiet hProper.1 hProper.2
  | destroy r =>
    rcases hProper with rfl | hr
    · exact hSame (destroy_document s.live _)
    · exact hO.destroy_watched hW hClient depth hQuiet hr.1
  | moveTo r parent before =>
    exact hO.moveTo_watched hW hClient depth hQuiet hProper.1.1 hProper.1.2 hProper.2.1 hProper.2.2
  | attachAnywhere r parent before => exact hO.attachAnywhere_watched hB hW hClient depth hProper
  | detachIfAttached r => exact hO.detachIfAttached_watched hB hW hClient depth hProper
  | destroyFully r => exact hO.destroyFully_watched hB hW hClient depth hProper

end Live

end LiveMarkup
