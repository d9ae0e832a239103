import LiveMarkup.Proofs.Dom.Spots
import LiveMarkup.Proofs.Live.Rows

/-!
# What comes of attaching, detaching, moving and destroying

The operations on the life of nodes are refused for one reason at a time, in a fixed order. What is
refused, or cancelled by a hook, leaves no trace. What is done puts the run of the node or container
where it was to be, and nothing else out of order.

* `Attaching`, `Detaching`, `Moving`, `Destroying`: the answers, case by case;
* `Laid.attaching`, `Laid.detaching`, `Laid.moving`, `Laid.destroying`: that these are the answers;
* `Works.answers`: so they are between any two works.
-/

namespace LiveMarkup.Live

variable {κ σ : Type} {client : Client κ σ} {l l₀ l₁ l' : Live κ σ}

/-! ## Answers -/

/-- The tree, the states of nodes and containers and the statuses of observers are as before. -/
structure Unchanged (l l' : Live κ σ) : Prop where
  dom : l'.dom = l.dom
  stateOf : ∀ x, l'.stateOf x = l.stateOf x
  statusOf : ∀ o, l'.statusOf o = l.statusOf o

/-- How attaching answers. It is refused in the wrong state, else for a parent that is ending, else
it may be cancelled, else it is refused for a reference that is no child of the parent. -/
structure Attaching (l : Live κ σ) (calls : Calls κ σ) (r parent : NodeRef)
    (before : Option NodeRef) (out : Except Fault Unit) (l' : Live κ σ) : Prop where
  invalidState : l.stateOf r ≠ .detached →
    out = .error (.invalidState .attach (l.dom.describeRef r) (l.stateOf r)) ∧ Unchanged l l'
  parentUnavailable : l.stateOf r = .detached → (l.stateOf parent).isEnding = true →
    out = .error (.parentUnavailable (l.dom.describeRef parent) (l.stateOf parent)) ∧
      Unchanged l l'
  cancelled : l.stateOf r = .detached → (l.stateOf parent).isEnding = false →
    l.cancels calls r .attaching .beforeAttach = true → out = .ok () ∧ Unchanged l l'
  notAChild : l.stateOf r = .detached → (l.stateOf parent).isEnding = false →
    l.cancels calls r .attaching .beforeAttach = false → ¬ l.dom.Stands parent before →
      (∃ cause, out = .error (.notAChild cause)) ∧ Unchanged l l'
  done : l.stateOf r = .detached → (l.stateOf parent).isEnding = false →
    l.cancels calls r .attaching .beforeAttach = false → l.dom.Stands parent before →
      out = .ok () ∧ l.dom.Sits l'.dom r parent before

/-- How detaching answers. It is refused in the wrong state, else it may be cancelled. -/
structure Detaching (l : Live κ σ) (calls : Calls κ σ) (r : NodeRef) (out : Except Fault Unit)
    (l' : Live κ σ) : Prop where
  invalidState : l.stateOf r ≠ .attached →
    out = .error (.invalidState .detach (l.dom.describeRef r) (l.stateOf r)) ∧ Unchanged l l'
  cancelled : l.stateOf r = .attached → l.cancels calls r .detaching .beforeDetach = true →
    out = .ok () ∧ Unchanged l l'
  done : l.stateOf r = .attached → l.cancels calls r .detaching .beforeDetach = false →
    out = .ok () ∧ l.dom.Leaves l'.dom r

/-- How moving answers. It is refused in the wrong state, else for a reference that is no child of
the parent. -/
structure Moving (l : Live κ σ) (r parent : NodeRef) (before : Option NodeRef)
    (out : Except Fault Unit) (l' : Live κ σ) : Prop where
  invalidState : l.stateOf r ≠ .attached →
    out = .error (.invalidState .move (l.dom.describeRef r) (l.stateOf r)) ∧ Unchanged l l'
  notAChild : l.stateOf r = .attached → ¬ l.dom.Stands parent before →
    (∃ cause, out = .error (.notAChild cause)) ∧ Unchanged l l'
  done : l.stateOf r = .attached → l.dom.Stands parent before →
    out = .ok () ∧ l.dom.Sits l'.dom r parent before

/-- How destroying answers. It is refused in the wrong state, and leaves all nodes in place. -/
structure Destroying (l : Live κ σ) (r : NodeRef) (out : Except Fault Unit) (l' : Live κ σ) :
    Prop where
  invalidState : l.stateOf r ≠ .detached →
    out = .error (.invalidState .destroy (l.dom.describeRef r) (l.stateOf r)) ∧ Unchanged l l'
  done : l.stateOf r = .detached → out = .ok () ∧ l'.dom = l.dom

/-! ## No trace -/

theorem statusOf_congr (hCore : ∀ o, l'.core? o = l.core? o) (o : ObserverId) :
    l'.statusOf o = l.statusOf o := by
  rw [statusOf_core, statusOf_core, hCore]

/-- What is noted of the document does not show. -/
theorem Unchanged.of_tables (hDom : l'.dom = l.dom) (hDocument : l'.document = l.document)
    (hTracked : ∀ n ≠ l.document, l'.trackedOf n = l.trackedOf n)
    (hCore : ∀ o, l'.core? o = l.core? o) : Unchanged l l' where
  dom := hDom
  stateOf x := by
    unfold Live.stateOf shownState
    rw [hDom, hDocument]
    split
    · rfl
    · rename_i hKey
      rw [hTracked _ hKey]
  statusOf := statusOf_congr hCore

theorem Changed.unchanged (h : Alike l l') : Unchanged l l' :=
  .of_tables h.dom h.document (fun n _ => h.tracked n) fun o => by
    rw [h.core, Option.map_id, id]

theorem Unchanged.refl (l : Live κ σ) : Unchanged l l :=
  ⟨rfl, fun _ => rfl, fun _ => rfl⟩

/-! ## Between works -/

namespace Laid

variable (h : l.Laid) (hTorn : l.tornDown = false) (hClient : client.Quiet) (depth : Nat)
variable {r parent : NodeRef} {before : Option NodeRef}
include h hTorn hClient

theorem attaching (hFits : Fits l.dom r parent)
    (hBefore : ∀ b, before = some b → ¬ l.dom.Inside r (l.dom.key b)) :
    After (Live.attach (Calls.upTo client (depth + 2)) r parent before).run l fun out l' =>
      l.Attaching (Calls.upTo client (depth + 2)) r parent before out l' := by
  obtain ⟨hr, hParent, hOut⟩ := hFits
  have hApart : ∀ b, before = some b → l.dom.key b ∉ l.dom.runOf r := fun b hb hMem =>
    hBefore b hb ⟨_, hMem, Forest.up_refl _⟩
  by_cases hNe : r = .node l.document
  · -- the document is never detached
    subst hNe
    have hState := stateOf_document l
    refine After.ensureLive (fun h => absurd (h.symm.trans hTorn) (by decide)) fun _ => ?_
    refine After.needState (fun _ => ?_) fun hs => absurd (hState.symm.trans hs) (by decide)
    have hNot : ¬ l.stateOf (.node l.document) = .detached := by simp [hState]
    exact ⟨fun _ => ⟨rfl, .refl l⟩, fun hs => absurd hs hNot, fun hs => absurd hs hNot,
      fun hs => absurd hs hNot, fun hs => absurd hs hNot⟩
  have hKey := h.key_ne_document hr hNe
  have hOff := (isPlaced_of_state (h.settled _ hKey) hKey).1
  have hParentNe : parent ≠ r := by
    rintro rfl
    exact hOut (Dom.inside_key _)
  refine (attach_outcome hClient depth h.quiet (h.settled _ hKey) (fun _ _ => trivial)
    fun hState d' hPlace => ⟨?_, fun _ _ => trivial⟩).mono fun out l' hOutcome => ?_
  · obtain ⟨host, reference, _, _, hHoused⟩ :=
      h.sound.housed_of_place hr hParent hParentNe hOut (hOff hState) hPlace
    exact hHoused.key r
  have hIff := fun hs => h.sound.exists_place_iff hr hParent hOut hApart (hOff hs)
  cases hOutcome with
  | tornDown hTorn' => exact absurd (hTorn'.symm.trans hTorn) (by decide)
  | wrongState _ hState hSame =>
    exact ⟨fun _ => ⟨rfl, hSame.unchanged⟩, fun hs => absurd hs hState, fun hs => absurd hs hState,
      fun hs => absurd hs hState, fun hs => absurd hs hState⟩
  | noParent _ hState hEnding hSame =>
    refine ⟨fun hs => absurd hState hs, fun _ _ => ⟨rfl, hSame.unchanged⟩, fun _ hp => ?_,
      fun _ hp => ?_, fun _ hp => ?_⟩ <;> simp [hEnding] at hp
  | cancelled _ hState hp hCancel hSame =>
    refine ⟨fun hs => absurd hState hs, fun _ he => ?_, fun _ _ _ => ⟨rfl, hSame.unchanged⟩,
      fun _ _ hc => ?_, fun _ _ hc => ?_⟩
    · simp [hp] at he
    · simp [hCancel] at hc
    · simp [hCancel] at hc
  | @astray _ hState hp hCancel cause hPlace hSame =>
    refine ⟨fun hs => absurd hState hs, fun _ he => ?_, fun _ _ hc => ?_,
      fun _ _ _ _ => ⟨⟨cause, rfl⟩, hSame.unchanged⟩, fun _ _ _ hStands => ?_⟩
    · simp [hp] at he
    · simp [hCancel] at hc
    · obtain ⟨d', hd'⟩ := (hIff hState).mpr hStands
      simp [hPlace] at hd'
  | @attached _ hState hp hCancel d' hPlace hChanged =>
    have hStands := (hIff hState).mp ⟨d', hPlace⟩
    refine ⟨fun hs => absurd hState hs, fun _ he => ?_, fun _ _ hc => ?_,
      fun _ _ _ hNot => absurd hStands hNot, fun _ _ _ _ => ⟨rfl, ?_⟩⟩
    · simp [hp] at he
    · simp [hCancel] at hc
    · rw [hChanged.dom]
      exact h.sound.sits_of_place hr hParent hOut hApart (hOff hState) hPlace

theorem detaching (hr : l.dom.Known r) :
    After (Live.detach (Calls.upTo client (depth + 2)) r).run l fun out l' =>
      l.Detaching (Calls.upTo client (depth + 2)) r out l' := by
  by_cases hNe : r = .node l.document
  · subst hNe
    have hState := stateOf_document l
    refine (h.detach_document hClient depth).mono fun out l' ⟨_, hSame, hLeft⟩ => ?_
    cases hLeft with
    | tornDown hTorn' => exact absurd (hTorn'.symm.trans hTorn) (by decide)
    | cancelled _ hCancel hDom hCore hTracked =>
      refine ⟨fun hs => absurd hState hs, fun _ _ => ⟨rfl, .of_tables hDom hSame hTracked hCore⟩,
        fun _ hc => ?_⟩
      simp [hCancel] at hc
    | left _ hCancel hDom =>
      refine ⟨fun hs => absurd hState hs, fun _ hc => ?_, fun _ _ => ⟨rfl, ?_⟩⟩
      · simp [hCancel] at hc
      · obtain ⟨hUnhoused, hLinked⟩ := h.sound.unhoused_remove l.document
        rw [hDom]
        exact hUnhoused.leaves h.sound hr hLinked (.inr ⟨_, rfl⟩)
  have hKey := h.key_ne_document hr hNe
  have hOn := (isPlaced_of_state (h.settled _ hKey) hKey).2
  have hTaken := fun hState => h.sound.unhoused_takeOut hr (hOn hState)
  refine (detach_outcome hClient depth h.quiet (h.settled _ hKey) hKey (fun _ _ => trivial)
    fun hState => ⟨(hTaken hState).1.key r, fun _ _ => trivial⟩).mono fun out l' hOutcome => ?_
  cases hOutcome with
  | tornDown hTorn' => exact absurd (hTorn'.symm.trans hTorn) (by decide)
  | wrongState _ hState hSame =>
    exact ⟨fun _ => ⟨rfl, hSame.unchanged⟩, fun hs => absurd hs hState, fun hs => absurd hs hState⟩
  | cancelled _ hState hCancel hSame =>
    refine ⟨fun hs => absurd hState hs, fun _ _ => ⟨rfl, hSame.unchanged⟩, fun _ hc => ?_⟩
    simp [hCancel] at hc
  | detached _ hState hCancel hChanged =>
    refine ⟨fun hs => absurd hState hs, fun _ hc => ?_, fun _ _ => ⟨rfl, ?_⟩⟩
    · simp [hCancel] at hc
    · obtain ⟨hUnhoused, hLinked⟩ := hTaken hState
      rw [hChanged.dom]
      exact hUnhoused.leaves h.sound hr hLinked (.inl (hOn hState))

theorem moving (hFits : Fits l.dom r parent)
    (hBefore : ∀ b, before = some b → ¬ l.dom.Inside r (l.dom.key b)) :
    After (Live.moveTo (Calls.upTo client (depth + 2)) r parent before).run l fun out l' =>
      l.Moving r parent before out l' := by
  obtain ⟨hr, hParent, hOut⟩ := hFits
  have hApart : ∀ b, before = some b → l.dom.key b ∉ l.dom.runOf r := fun b hb hMem =>
    hBefore b hb ⟨_, hMem, Forest.up_refl _⟩
  refine (moveTo_outcome hClient depth h.quiet fun _ _ _ _ _ => trivial).mono
    fun out l' hOutcome => ?_
  have hMoves : l.stateOf r = .attached →
      ((∃ d', l.dom.move r parent before = .ok d') ↔ l.dom.Stands parent before) ∧
        ∀ d', l.dom.move r parent before = .ok d' → l.dom.Sits d' r parent before := by
    intro hState
    by_cases hOn : l.dom.isPlaced r = true
    · exact ⟨h.sound.exists_move_iff hr hParent hOut hApart hOn,
        fun d' hMove => h.sound.sits_of_move hr hParent hOut hApart hOn hMove⟩
    · -- only the document is attached without a parent, and moving a node is placing it
      obtain rfl : r = .node l.document := by
        by_contra hNe
        have hKey := h.key_ne_document hr hNe
        exact hOn ((isPlaced_of_state (h.settled _ hKey) hKey).2 hState)
      have hOff := Bool.eq_false_iff.mpr hOn
      exact ⟨h.sound.exists_place_iff hr hParent hOut hApart hOff,
        fun d' hMove => h.sound.sits_of_place hr hParent hOut hApart hOff hMove⟩
  cases hOutcome with
  | tornDown hTorn' => exact absurd (hTorn'.symm.trans hTorn) (by decide)
  | wrongState _ hState hSame =>
    exact ⟨fun _ => ⟨rfl, hSame.unchanged⟩, fun hs => absurd hs hState, fun hs => absurd hs hState⟩
  | @astray _ hState cause hMove hSame =>
    refine ⟨fun hs => absurd hState hs, fun _ _ => ⟨⟨cause, rfl⟩, hSame.unchanged⟩,
      fun _ hStands => ?_⟩
    obtain ⟨d', hd'⟩ := (hMoves hState).1.mpr hStands
    simp [hMove] at hd'
  | @moved _ hState d' hMove hChanged =>
    refine ⟨fun hs => absurd hState hs,
      fun _ hNot => absurd ((hMoves hState).1.mp ⟨d', hMove⟩) hNot, fun _ _ => ⟨rfl, ?_⟩⟩
    rw [hChanged.dom]
    exact (hMoves hState).2 d' hMove

theorem destroying (hr : l.dom.Known r) :
    After (Live.destroy (Calls.upTo client (depth + 2)) r).run l fun out l' =>
      l.Destroying r out l' := by
  refine (destroy_outcome hClient depth h.quiet
    ((h.sound.key_mem_subtree hr hr).mpr (Dom.inside_key r)) fun _ _ => trivial).mono
    fun out l' hOutcome => ?_
  cases hOutcome with
  | tornDown hTorn' => exact absurd (hTorn'.symm.trans hTorn) (by decide)
  | wrongState _ hState hSame =>
    exact ⟨fun _ => ⟨rfl, hSame.unchanged⟩, fun hs => absurd hs hState⟩
  | destroyed _ hState hDestroyed =>
    exact ⟨fun hs => absurd hState hs, fun _ => ⟨rfl, hDestroyed.dom⟩⟩

end Laid

/-- Between any two works, attaching, moving, detaching and destroying answer as they should, where
nothing is put into or before what is inside it. -/
theorem Works.answers (hClient : client.Quiet) (depth : Nat) (hLaid : l₀.Laid)
    (hRun : Works (Calls.upTo client (depth + 2)) l₀ l) (hTorn : l.tornDown = false) {r : NodeRef}
    (hr : l.dom.Known r) :
    let calls := Calls.upTo client (depth + 2)
    (∀ parent before, Fits l.dom r parent →
      (∀ b, before = some b → ¬ l.dom.Inside r (l.dom.key b)) →
        After (attach calls r parent before).run l (l.Attaching calls r parent before) ∧
        After (moveTo calls r parent before).run l (l.Moving r parent before)) ∧
    After (detach calls r).run l (l.Detaching calls r) ∧
    After (destroy calls r).run l (l.Destroying r) := by
  have h := hRun.laid hClient depth hLaid
  exact ⟨fun parent before hFits hBefore => ⟨h.attaching hTorn hClient depth hFits hBefore,
      h.moving hTorn hClient depth hFits hBefore⟩,
    h.detaching hTorn hClient depth hr, h.destroying hTorn hClient depth hr⟩

/-- The inner of two containers is moved before the outer one, out of it. -/
theorem nestedWorks_answers :
    let l := worked nestedWorks
    After (moveTo (Calls.upTo Client.still 2) (.container 1) (.node 2) (some (.container 0))).run l
      fun out l' => out = .ok () ∧
        l.dom.Sits l'.dom (.container 1) (.node 2) (some (.container 0)) := by
  have hLaid := nestedWorks_run.laid Client.still_quiet 0 (create_laid {} ())
  have hInner : (worked nestedWorks).dom.Known (.container 1) := by
    change 1 < _
    decide +kernel
  have hBody : (worked nestedWorks).dom.Known (.node 2) := by
    refine ⟨by decide +kernel, fun c hc p => ?_⟩
    cases p <;> revert c <;> decide +kernel
  refine ((Works.answers Client.still_quiet 0 (create_laid {} ()) nestedWorks_run
    (by decide +kernel) hInner).1 (.node 2) (some (.container 0))
      ⟨hInner, hBody, hLaid.not_inside (by decide +kernel)⟩ ?_).2.mono
    fun out l' hMoving => hMoving.done (by decide +kernel) ?_
  · intro b hb
    obtain rfl := Option.some.inj hb
    exact hLaid.not_inside (by decide +kernel)
  · intro b hb
    obtain rfl := Option.some.inj hb
    exact ⟨(worked nestedWorks).dom.key (.container 0), by decide +kernel, by decide +kernel⟩

/-! ## Stranded containers -/

/-- An element in the body whose text is set, though it holds a container. The markers of the
container are then in no parent. -/
def stranded : Live Unit Unit :=
  let l := worked [.create (.element "div" []), .attach (.node 3) (.node 2) none, .createContainer,
    .attach (.container 0) (.node 3) none, .create (.element "p" [])]
  l.withDom (l.dom.setText 3 "")

/-- Nothing can be put into a stranded container, although no reference is asked for. -/
theorem stranded_refuses :
    let l := stranded
    let calls : Calls Unit Unit := Calls.upTo Client.still 2
    l.tornDown = false ∧ l.stateOf (.node 7) = .detached ∧
      (l.stateOf (.container 0)).isEnding = false ∧
      l.cancels calls (.node 7) .attaching .beforeAttach = false ∧
      ¬ l.dom.Inside (.node 7) (l.dom.key (.container 0)) ∧
      ∃ cause, ((attach calls (.node 7) (.container 0) none).run l).1 =
        .error (.notAChild cause) := by
  refine ⟨by decide +kernel, by decide +kernel, by decide +kernel, by decide +kernel, ?_, ?_⟩
  · rw [Dom.inside_node]
    intro hUp
    exact absurd (hUp.eq_of_parent_none (by decide +kernel)) (by decide +kernel)
  · exact ⟨{ node := "#comment", parent := "<container>" }, by decide +kernel⟩

end LiveMarkup.Live
