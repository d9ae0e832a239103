import LiveMarkup.Live.Moves
import LiveMarkup.Proofs.Live.Watching

/-!
# Moves that are no secret

A document that is told that the tree was changed compares where the targets of observers are with
where they were seen last. It never takes a move of its own for one behind its back: of a target
that only has another sibling nobody is told anything.

* `Glanced`: what comparing places changes in a session;
* `compareMoves_glanced`, `drain_glanced`: that is all it changes, whatever hooks would do;
* `Vigil`, `Vigil.glances`: so it is at any time in a session.
-/

namespace LiveMarkup.Live

variable {κ σ : Type} {client : Client κ σ} {l l₁ l' : Live κ σ} {o : ObserverId}

/-! ## Comparing places -/

theorem Watched.noticed {os : List ObserverId} (hW : l.Watched) (h : Noticed l l' os) :
    l'.Watched := by
  refine ⟨h.tracking hW.toTracking, fun o x hx hLives => ?_, fun o x place hx hSeen hLives => ?_⟩
  · rw [h.movers]
    exact hW.all o x (h.alike.core_eq o ▸ hx) hLives
  · rw [h.alike.core_eq] at hx
    rw [h.alike.dom]
    rw [h.seen] at hSeen
    split at hSeen
    · rw [hx] at hSeen
      rw [← Option.some.inj hSeen]
    · exact hW.places o x place hx hSeen hLives

/-- Places were compared. Where targets are is noted anew and who has ended is forgotten; nobody heard
of anything and nothing else has changed. -/
structure Glanced (l l' : Live κ σ) : Prop where
  rest : ∃ observers movers comparing microtasks, l' = { l with
    observers, movers, comparing, clock := { l.clock with microtasks } }
  core : ∀ o, l'.core? o = l.core? o

namespace Glanced

theorem refl (l : Live κ σ) : Glanced l l :=
  ⟨⟨_, _, _, _, rfl⟩, fun _ => rfl⟩

theorem trans (h₁ : Glanced l l₁) (h₂ : Glanced l₁ l') : Glanced l l' where
  rest := by
    obtain ⟨_, _, _, _, rfl⟩ := h₁.rest
    obtain ⟨_, _, _, _, rfl⟩ := h₂.rest
    exact ⟨_, _, _, _, rfl⟩
  core o := (h₂.core o).trans (h₁.core o)

theorem alike (h : Glanced l l') : Alike l l' := by
  obtain ⟨_, _, _, _, hRest⟩ := h.rest
  refine ⟨?_, ?_, ?_, fun o => ?_⟩
  · rw [hRest]
    exact Frame.of_eq rfl rfl rfl rfl rfl rfl rfl
  · rw [hRest]
    exact .refl _ _
  · rw [hRest]
    exact fun _ => rfl
  · rw [h.core, Option.map_id, id]

theorem orderly {s : Session κ σ} (hs : Orderly s) (h : Glanced s.live l') :
    Orderly { s with live := l' } := by
  obtain ⟨hosts, hB, hBound⟩ := hs.wired
  refine ⟨hs.observed.alike h.alike, hosts, hB.congr h.core ?_, hBound⟩
  obtain ⟨_, _, _, _, rfl⟩ := h.rest
  exact SameSwitches.of_eq rfl rfl

end Glanced

theorem untrackMoves_glanced (hW : l.Watched) (hEnded : l.statusOf o = .destroyed) :
    After (untrackMoves o) l fun _ l' => Glanced l l' ∧ l'.Watched :=
  ⟨⟨⟨_, _, _, _, rfl⟩, fun _ => rfl⟩,
    hW.steady (untrackMoves_steady hEnded) rfl fun _ x hx hLives => ⟨x, hx, rfl, hLives⟩⟩

/-- Nothing is inferred of an observer whose target has the parent it had, and reports the truth. -/
theorem inferMove_nothing (calls : Calls κ σ) (hO : l.Observed) {x : Observer.Core κ}
    (hx : l.core? o = some x) (hLives : x.status ≠ .destroyed) (parent : Option NodeId) :
    After (inferMove calls o x.target parent parent) l fun _ l' => l' = l := by
  have hReport := hO.reports o x hx hLives
  rw [← hO.isConnected_self (hO.known o x hx)] at hReport
  unfold inferMove
  rw [if_neg (fun h : parent ≠ parent => h rfl), after_bind, after_get, statusOf_eq hx]
  split
  · rename_i hStatus hConnected
    rw [hStatus, hConnected] at hReport
    simp at hReport
  · rename_i hStatus hConnected
    rw [hStatus, hConnected] at hReport
    simp at hReport
  · rfl

/-- Comparing the place of a target finds nothing to tell. -/
theorem compareMove_glanced (calls : Calls κ σ) (hW : l.Watched) (hO : l.Observed)
    (o : ObserverId) :
    After (compareMove calls o) l fun _ l' => Glanced l l' ∧ l'.Watched := by
  unfold compareMove
  rw [after_bind, after_get]
  split
  · rename_i hNone
    exact untrackMoves_glanced hW (by simp [statusOf, hNone])
  · rename_i x hx
    have hCore : l.core? o = some x.core := by rw [core?, hx]; rfl
    split
    · rename_i hEnded
      exact untrackMoves_glanced hW (statusOf_eq hCore ▸ hEnded)
    · rename_i hLives
      have hParent : x.lastSeen.1 = (l.dom.position x.target).1 :=
        hW.places o x.core x.lastSeen hCore (by rw [seen?, hx]; rfl) hLives
      dsimp only
      split
      · rw [hParent]
        refine (notePlace_noticed l o).run_eq.bind ?_
        rintro _ l₁ ⟨hRun, hNoticed⟩
        refine (inferMove_nothing calls (hO.alike hNoticed.alike)
          ((hNoticed.alike.core_eq o).trans hCore) hLives _).mono ?_
        rintro _ _ rfl
        refine ⟨⟨?_, hNoticed.alike.core_eq⟩, hW.noticed hNoticed⟩
        rw [← (Prod.mk.inj hRun).2]
        exact ⟨_, _, _, _, rfl⟩
      · exact ⟨.refl l, hW⟩

theorem compareMoves_glanced (calls : Calls κ σ) (hW : Watched { l with comparing := false })
    (hO : l.Observed) :
    After (compareMoves calls) l fun _ l' => Glanced l l' ∧ l'.Watched := by
  unfold compareMoves
  have hSaid : Glanced l { l with comparing := false } := ⟨⟨_, _, _, _, rfl⟩, fun _ => rfl⟩
  rw [after_bind, after_modify, after_bind, after_get]
  refine After.forM (k := fun _ l' => Glanced l l' ∧ l'.Watched) ⟨hSaid, hW⟩ ?_
  rintro o _ l₁ ⟨hGlanced, hW₁⟩
  refine (compareMove_glanced calls hW₁ (hO.alike hGlanced.alike) o).mono ?_
  rintro _ l₂ ⟨h₂, hW₂⟩
  exact ⟨hGlanced.trans h₂, hW₂⟩

theorem reportMoves_glanced (hW : l.Watched) :
    After reportMoves l fun _ l' => Glanced l l' ∧ l'.Watched := by
  have hTorn : (!l.tornDown) = true := by rw [hW.live]; rfl
  unfold reportMoves queueMicrotask
  rw [after_bind, after_get]
  split
  · rw [after_bind, after_modify, after_bind, after_get, if_pos hTorn]
    refine ⟨⟨⟨_, _, _, _, rfl⟩, fun _ => rfl⟩, ⟨hW.tracks, hW.live, fun t ht => ?_, fun _ => ?_⟩,
      hW.all, hW.places⟩
    · rcases List.mem_append.mp ht with ht | ht
      · exact hW.tasks t ht
      · exact List.mem_singleton.mp ht
    · exact List.append_ne_nil_of_right_ne_nil _ (List.cons_ne_nil _ _)
  · exact ⟨.refl l, hW⟩

theorem drainTo_glanced (client : Client κ σ) (depth : Nat) (n : Nat) (hW : l.Watched)
    (hO : l.Observed) :
    After (drainTo (Calls.upTo client (depth + 1)) n) l fun _ l' => Glanced l l' ∧ l'.Watched := by
  induction n generalizing l with
  | zero => exact ⟨.refl l, hW⟩
  | succ n ih =>
    unfold drainTo popMicrotask
    rw [after_bind, after_modifyGet]
    cases hTasks : l.clock.microtasks with
    | nil => exact ⟨.refl l, hW⟩
    | cons task rest =>
      obtain rfl := hW.tasks task (hTasks ▸ List.mem_cons_self)
      let l₁ : Live κ σ := { l with clock := { l.clock with microtasks := rest } }
      have h₁ : Glanced l l₁ := ⟨⟨_, _, _, _, rfl⟩, fun _ => rfl⟩
      have hW₁ : Watched { l₁ with comparing := false } :=
        ⟨⟨hW.tracks, hW.live, fun t ht => hW.tasks t (hTasks ▸ List.mem_cons_of_mem _ ht),
          fun h => nomatch h⟩, hW.all, hW.places⟩
      refine (compareMoves_glanced (Calls.upTo client depth) hW₁ (hO.alike h₁.alike)).bind ?_
      rintro _ l₂ ⟨h₂, hW₂⟩
      refine (ih hW₂ (hO.alike (h₁.trans h₂).alike)).bind ?_
      rintro _ l₃ ⟨h₃, hW₃⟩
      exact ⟨(h₁.trans h₂).trans h₃, hW₃⟩

theorem drain_glanced (client : Client κ σ) (depth : Nat) (hW : l.Watched) (hO : l.Observed) :
    After (drain (Calls.upTo client (depth + 1))) l fun _ l' => Glanced l l' ∧ l'.Watched :=
  drainTo_glanced client depth _ hW hO

/-! ## Vigils -/

/-- The sessions that come out of one by proper deeds, while at any time it is said that the tree was
changed, and microtasks are drained. -/
inductive Vigil (calls : Calls κ σ) (s₀ : Session κ σ) : Session κ σ → Prop where
  | start : Vigil calls s₀ s₀
  | deed {s : Session κ σ} (h : Vigil calls s₀ s) (d : Deed κ) (hProper : d.Proper s.live) :
      Vigil calls s₀ (s.step calls d)
  | report {s : Session κ σ} (h : Vigil calls s₀ s) :
      Vigil calls s₀ { s with live := (reportMoves.run s.live).2 }
  | drain {s : Session κ σ} (h : Vigil calls s₀ s) :
      Vigil calls s₀ { s with live := ((Live.drain calls).run s.live).2 }

theorem Vigil.watched {s₀ s : Session κ σ} (hClient : client.Quiet) (depth : Nat)
    (h : Vigil (Calls.upTo client (depth + 2)) s₀ s) (h₀ : Orderly s₀) (hW : s₀.live.Watched) :
    Orderly s ∧ s.live.Watched := by
  induction h with
  | start => exact ⟨h₀, hW⟩
  | deed _ d hProper ih =>
    exact ⟨ih.1.step hClient depth d hProper, ih.1.watched hClient depth ih.2 d hProper⟩
  | report _ ih =>
    obtain ⟨hGlanced, hWatched⟩ := reportMoves_glanced ih.2
    exact ⟨hGlanced.orderly ih.1, hWatched⟩
  | drain _ ih =>
    obtain ⟨hGlanced, hWatched⟩ := drain_glanced client (depth + 1) ih.2 ih.1.observed
    exact ⟨hGlanced.orderly ih.1, hWatched⟩

/-- In a session that begins with nothing observed, saying that the tree was changed and draining the
microtasks, at any time, tells nobody of anything, whatever hooks would do: the document knows of
all its own moves. Statuses, tree and bindings stay as they are. -/
theorem Vigil.glances {l : Live κ σ} {s : Session κ σ} (hClient : client.Quiet) (depth : Nat)
    (hFresh : l.Unobserved) (hTracking : l.Tracking)
    (h : Vigil (Calls.upTo client (depth + 2)) { live := l } s)
    (listener : Client κ σ) (deep : Nat) :
    After (do
        reportMoves
        Live.drain (Calls.upTo listener (deep + 1))) s.live fun _ l' => Glanced s.live l' := by
  obtain ⟨hs, hWatched⟩ := h.watched hClient depth hFresh.orderly (hFresh.watched hTracking)
  refine (reportMoves_glanced hWatched).bind ?_
  rintro _ l₁ ⟨h₁, hW₁⟩
  refine (drain_glanced listener deep hW₁ (hs.observed.alike h₁.alike)).mono ?_
  exact fun _ _ h₂ => h₁.trans h₂.1

/-- A fresh document that tracks moves, with a container that is nowhere yet. -/
def watchedDocument : Live Unit Unit :=
  let l := create { trackMoves := true } ()
  l.withDom l.dom.createContainer.1

theorem watchedDocument_unobserved : watchedDocument.Unobserved :=
  (create_unobserved { trackMoves := true } ()).makeContainer

theorem watchedDocument_tracking : watchedDocument.Tracking :=
  have h : (create { trackMoves := true } () : Live Unit Unit).Tracking := create_tracking () rfl
  h.congr rfl rfl rfl rfl

/-- A session on it, after some deeds. -/
def watchedSession (ds : List (Deed Unit)) : Session Unit Unit :=
  ds.foldl (Session.step (Calls.upTo Client.still 2)) { live := watchedDocument }

theorem watchedSession_vigil : Vigil (Calls.upTo Client.still 2) (watchedSession [])
    (watchedSession [.observe (.container 0), .attach (.container 0) (.node 2) none]) := by
  have h₁ : Vigil (Calls.upTo Client.still 2) (watchedSession [])
      (watchedSession [.observe (.container 0)]) :=
    Vigil.start.deed (.observe (.container 0)) (by change 0 < _; decide +kernel)
  have hBody : (watchedSession [.observe (.container 0)]).live.dom.Known (.node 2) := by
    decide +kernel
  refine h₁.deed (.attach (.container 0) (.node 2) none)
    (.inr ⟨⟨by change 0 < _; decide +kernel, by decide +kernel⟩, hBody, ?_⟩)
  exact watchedDocument_unobserved.sound.not_inside (by decide +kernel)

theorem watchedSession_glances : After (do
      reportMoves
      Live.drain (Calls.upTo Client.still 2))
    (watchedSession [.observe (.container 0), .attach (.container 0) (.node 2) none]).live
      fun _ l' => Glanced (watchedSession
        [.observe (.container 0), .attach (.container 0) (.node 2) none]).live l' :=
  Vigil.glances Client.still_quiet 0 watchedDocument_unobserved watchedDocument_tracking
    watchedSession_vigil Client.still 1

end LiveMarkup.Live
