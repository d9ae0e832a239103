import LiveMarkup.Proofs.Live.Releasing
import LiveMarkup.Proofs.Live.Session

/-!
# What destroying reaches

Destroying a node or container destroys all that is in it and all that is hidden in it, however
deep. It does not reach what was taken out of the tree without being detached.

* `Kept`: the nodes in a subtree and in all that is hidden there;
* `destroy_buries`: what destroying does in the midst of other walks, by induction on the depth of
  calls;
* `destroy_reaches`: destroying buries everything that is kept, ends all bindings on it and clears
  the graces of all conditionals in it;
* `overwritten_outlives`: a text that replaces other nodes leaves them behind.
-/

namespace LiveMarkup.Live

variable {κ σ : Type} {l m m₁ m' : Live κ σ} {rank : ObserverId → Nat}

theorem mem_observersIn_iff {x : NodeRef} {o : ObserverId} : o ∈ l.observersIn x ↔
    ∃ n ∈ l.dom.subtree x, (l.trackedOf n).observer = some o :=
  List.mem_filterMap

/-- A node or container whose end begins is not hidden any more; nothing else has changed. -/
theorem setDestroying_going {x : NodeRef} (hGoing : Going l m) (hDetached : m.stateOf x = .detached) :
    After (setState x .destroying) m fun _ m' => Fading m m' ∧ Going l m' ∧
      (∀ y, m.dom.key y ≠ m.dom.key x → m'.stateOf y = m.stateOf y) ∧
      ∀ hook, m'.held hook = m.held hook := by
  let m' : Live κ σ :=
    { m with
      tracked := m.tracked.set (m.dom.key x)
        (some { m.trackedOf (m.dom.key x) with state := some .destroying }) }
  have hTracked (n : NodeId) : m'.trackedOf n = if n = m.dom.key x then
      { m.trackedOf (m.dom.key x) with state := some .destroying } else m.trackedOf n :=
    trackedOf_set m _ n _
  have hKey : m.dom.key x ≠ m.document := by
    intro hEq
    rw [stateOf, if_pos hEq] at hDetached
    cases hDetached
  have hFading : Fading m m' := by
    refine ⟨rfl, rfl, rfl, fun n hn => ?_, fun _ h => h, List.Subset.refl _⟩
    rw [hTracked, if_neg, hn]
    rintro rfl
    rw [stateOf, if_neg hKey, hn] at hDetached
    cases hDetached
  have hObserver (n : NodeId) : (m'.trackedOf n).observer = (m.trackedOf n).observer := by
    rw [hTracked]
    split
    next hEq => rw [hEq]
    next => rfl
  have hState (y : NodeRef) (hy : m.dom.key y ≠ m.dom.key x) : m'.stateOf y = m.stateOf y := by
    have hSame : m'.trackedOf (m'.dom.key y) = m.trackedOf (m.dom.key y) :=
      (hTracked _).trans (if_neg hy)
    rw [stateOf, hSame]
    rfl
  change Fading m m' ∧ Going l m' ∧ (∀ y, m.dom.key y ≠ m.dom.key x →
    m'.stateOf y = m.stateOf y) ∧ ∀ hook, m'.held hook = m.held hook
  refine ⟨hFading, ⟨hGoing.toFading.trans hFading, fun n o ho => ?_, fun n o ho => ?_,
    fun o => ?_, fun y hy => ?_, hGoing.held, hGoing.grace⟩, hState, fun _ => rfl⟩
  · rw [hObserver]
    exact (hGoing.tracked n o ho).imp_right hFading.ended
  · rw [hObserver] at ho
    exact hGoing.newTracked n o ho
  · exact (hGoing.observer o).imp_right fun hEnded => ⟨hFading.ended hEnded.1, hEnded.2⟩
  · by_cases hEq : m.dom.key y = m.dom.key x
    · have hDestroying : m'.trackedOf (m'.dom.key y) =
          { m.trackedOf (m.dom.key x) with state := some .destroying } :=
        (hTracked _).trans (if_pos hEq)
      rw [stateOf, hDestroying, if_neg fun h => hKey (hEq.symm.trans h)] at hy
      cases hy
    · exact hGoing.state y ((hState y hEq).symm.trans hy)

theorem bury_all_tables (m : Live κ σ) (ns : List NodeId) :
    ∃ tracked extras, ((ns.forM bury : LiveM κ σ PUnit).run m).2 =
      { m with tracked := tracked, extras := extras } := by
  induction ns generalizing m with
  | nil => exact ⟨m.tracked, m.extras, rfl⟩
  | cons n ns ih => exact ih ((bury n).run m).2

/-- When all observers in a node or container have ended, everything in it is buried. -/
theorem bury_going {x : NodeRef} (hGoing : Going l m) (hEnded : ∀ o ∈ l.observersIn x, Ended l m o)
    (hApart : ∀ o h y, l.Hides o h y → l.dom.key y ∈ l.dom.subtree x → y = x) :
    After ((m.dom.subtree x).forM bury) m fun _ m' =>
      Fading m m' ∧ Going l m' ∧ Spares l m m' ∧ Buried l m' x := by
  obtain ⟨_, _, _, _, _, hTracked⟩ := bury_all m (m.dom.subtree x)
  obtain ⟨tracked, extras, hRun⟩ := bury_all_tables m (m.dom.subtree x)
  rw [After, hRun]
  rw [hRun, hGoing.dom] at hTracked
  let m' : Live κ σ := { m with tracked := tracked, extras := extras }
  change Fading m m' ∧ Going l m' ∧ Spares l m m' ∧ Buried l m' x
  change ∀ n, m'.trackedOf n = _ at hTracked
  have hFading : Fading m m' := by
    refine ⟨rfl, rfl, rfl, fun n hn => ?_, fun _ h => h, List.Subset.refl _⟩
    rw [hTracked]
    split
    · rfl
    · exact hn
  have hState (y : NodeRef) (hy : l.dom.key y ∉ l.dom.subtree x) : m'.stateOf y = m.stateOf y := by
    have hSame : m'.trackedOf (m'.dom.key y) = m.trackedOf (m.dom.key y) := by
      refine (hTracked _).trans (if_neg ?_)
      change m.dom.key y ∉ _
      rw [hGoing.dom]
      exact hy
    rw [stateOf, hSame]
    rfl
  have hBuried : Buried l m' x := fun n hn => by
    rw [hTracked, if_pos hn]
    rfl
  refine ⟨hFading, ⟨hGoing.toFading.trans hFading, fun n o ho => ?_, fun n o ho => ?_,
    fun o => ?_, fun y hy => ?_, hGoing.held, hGoing.grace⟩, fun o h y hHides => ?_, hBuried⟩
  · by_cases hn : n ∈ l.dom.subtree x
    · exact .inr (hFading.ended (hEnded o (mem_observersIn_iff.mpr ⟨n, hn, ho⟩)))
    · rw [hTracked, if_neg hn]
      exact (hGoing.tracked n o ho).imp_right hFading.ended
  · rw [hTracked] at ho
    split at ho
    · cases ho
    · exact hGoing.newTracked n o ho
  · exact (hGoing.observer o).imp_right fun h => ⟨hFading.ended h.1, h.2⟩
  · by_cases hKey : l.dom.key y ∈ l.dom.subtree x
    · have hTracked' := hBuried _ hKey
      rw [stateOf, hFading.dom, hGoing.dom, hTracked'] at hy
      split at hy
      · cases hy
      · cases hy
    · exact hGoing.state y ((hState y hKey).symm.trans hy)
  · by_cases hKey : l.dom.key y ∈ l.dom.subtree x
    · rw [hApart o h y hHides hKey]
      exact .inl hBuried
    · exact .inr ⟨hState y hKey, fun h => h⟩

/-- When all observers in a node or container are told, all end, provided that each ends when it is
told. -/
theorem tellAllDestroyed_ends {calls : Calls κ σ} {x : NodeRef} {level : Nat}
    (hTell : ∀ o ∈ l.observersIn x, ∀ m, Going l m → Waiting l rank level m →
      After (tellDestroyed calls o) m fun _ m' =>
        Fading m m' ∧ Going l m' ∧ Spares l m m' ∧ Ended l m' o)
    (hGoing : Going l m) (hWaiting : Waiting l rank level m) :
    After ((m.observersIn x).reverse.forM (tellDestroyed calls)) m fun _ m' =>
      Fading m m' ∧ Going l m' ∧ Spares l m m' ∧ ∀ o ∈ l.observersIn x, Ended l m' o := by
  -- whoever is not told any more has ended
  refine (After.forM (k := fun rest m' => rest ⊆ (m.observersIn x).reverse ∧ Fading m m' ∧
    Going l m' ∧ Spares l m m' ∧ ∀ o ∈ l.observersIn x, o ∉ rest → Ended l m' o) ?_ ?_).mono ?_
  · refine ⟨List.Subset.refl _, Fading.refl _, hGoing, Spares.refl _ _, fun o ho hNot => ?_⟩
    obtain ⟨n, hn, hTracked⟩ := mem_observersIn_iff.mp ho
    refine (hGoing.tracked n o hTracked).resolve_left fun hSame => hNot ?_
    rw [List.mem_reverse]
    exact mem_observersIn_iff.mpr ⟨n, hGoing.dom ▸ hn, hSame⟩
  · rintro o rest m₁ ⟨hSub, hFading₁, hGoing₁, hSpares₁, hEnded₁⟩
    have ho : o ∈ l.observersIn x := by
      obtain ⟨n, hn, hTracked⟩ := mem_observersIn_iff.mp (List.mem_reverse.mp (hSub List.mem_cons_self))
      exact mem_observersIn_iff.mpr ⟨n, hGoing.dom ▸ hn, hGoing.newTracked n o hTracked⟩
    refine (hTell o ho m₁ hGoing₁ (hWaiting.spares hSpares₁ hFading₁)).mono ?_
    rintro _ m₂ ⟨hFading₂, hGoing₂, hSpares₂, hEnded₂⟩
    refine ⟨fun p hp => hSub (List.mem_cons_of_mem _ hp), hFading₁.trans hFading₂, hGoing₂,
      hSpares₁.trans hSpares₂ hFading₂, fun p hp hNot => ?_⟩
    by_cases hEq : p = o
    · rw [hEq]
      exact hEnded₂
    · refine hFading₂.ended (hEnded₁ p hp ?_)
      rw [List.mem_cons, not_or]
      exact ⟨hEq, hNot⟩
  · rintro _ m₁ ⟨_, hFading₁, hGoing₁, hSpares₁, hEnded₁⟩
    exact ⟨hFading₁, hGoing₁, hSpares₁, fun o ho => hEnded₁ o ho List.not_mem_nil⟩

/-- Destroying buries a node or container with all that is in it, provided that the observers in it
end when they are told. -/
theorem destroy_of_telling {calls : Calls κ σ} {x : NodeRef} {level : Nat} (hS : Stowed l rank)
    (hTell : ∀ o ∈ l.observersIn x, ∀ m, Going l m → Waiting l rank level m →
      After (tellDestroyed calls o) m fun _ m' =>
        Fading m m' ∧ Going l m' ∧ Spares l m m' ∧ Ended l m' o)
    (hApart : ∀ o h y, l.Hides o h y → l.dom.key y ∈ l.dom.subtree x → y = x ∧ level ≤ rank o)
    (hDetached : m.stateOf x = .detached) (hGoing : Going l m)
    (hWaiting : Waiting l rank level m) : After (destroy calls x).run m fun out m' =>
      out = .ok () ∧ Fading m m' ∧ Going l m' ∧ Spares l m m' ∧ Buried l m' x := by
  unfold destroy
  refine After.ensureLive (fun hTorn => ?_) fun _ => ?_
  · rw [hGoing.tornDown, hS.live] at hTorn
    cases hTorn
  refine After.needState (fun hWrong => absurd hDetached hWrong) fun _ => ?_
  refine After.sure_bind (setDestroying_going hGoing hDetached) ?_
  rintro _ m₁ ⟨hFading₁, hGoing₁, hState₁, hHeld₁⟩
  have hKey (o : ObserverId) (h : Hook κ) (y : NodeRef) (hHides : l.Hides o h y)
      (hEq : m.dom.key y = m.dom.key x) : y = x ∧ level ≤ rank o := by
    refine hApart o h y hHides ?_
    rw [← hGoing.dom, hEq]
    exact key_mem_self _ x
  have hWaiting₁ : Waiting l rank level m₁ := by
    intro o h y hHides hLevel
    refine (hWaiting o h y hHides hLevel).imp (fun hIn => ?_) fun hBuried => hBuried.mono hFading₁
    have hNe : m.dom.key y ≠ m.dom.key x := fun hEq =>
      Nat.not_lt_of_le (hKey o h y hHides hEq).2 hLevel
    exact ⟨(hHeld₁ h).symm ▸ hIn.1, (hState₁ y hNe).trans hIn.2⟩
  refine After.get_act ?_
  refine After.act_ok (After.forM_sure (tellAllDestroyed_ends hTell hGoing₁ hWaiting₁)) ?_
  rintro m₂ ⟨hFading₂, hGoing₂, hSpares₂, hEnded₂⟩
  refine After.get_act ?_
  refine (After.forM_sure (bury_going hGoing₂ hEnded₂ fun o h y hHides hIn =>
    (hApart o h y hHides hIn).1)).mono ?_
  rintro out m₃ ⟨hOut, hFading₃, hGoing₃, hSpares₃, hBuried₃⟩
  have hFading := hFading₁.trans (hFading₂.trans hFading₃)
  refine ⟨hOut, hFading, hGoing₃, fun o h y hHides => ?_, hBuried₃⟩
  by_cases hEq : m.dom.key y = m.dom.key x
  · rw [(hKey o h y hHides hEq).1]
    exact .inl hBuried₃
  · refine (hSpares₂.trans hSpares₃ hFading₃ o h y hHides).imp_right fun hSame => ?_
    exact ⟨hSame.1.trans (hState₁ y hEq), fun hIn => hSame.2 ((hHeld₁ h).symm ▸ hIn)⟩

theorem destroy_buries {client : Client κ σ} (hClient : client.Quiet) (hS : Stowed l rank)
    (depth : Nat) : Buries l rank (Calls.upTo client depth) depth := by
  induction depth with
  | zero =>
    intro x level m hDepth hDetached hRank hApart hGoing hWaiting
    refine destroy_of_telling hS (fun o ho => ?_) hApart hDetached hGoing hWaiting
    exact absurd (Nat.lt_of_lt_of_le (hRank o ho) hDepth) (Nat.not_lt_zero _)
  | succ depth ih =>
    intro x level m hDepth hDetached hRank hApart hGoing hWaiting
    refine destroy_of_telling hS (fun o ho m' hGoing' hWaiting' => ?_) hApart hDetached hGoing
      hWaiting
    obtain ⟨n, _, hTracked⟩ := mem_observersIn_iff.mp ho
    have hLevel := hRank o ho
    exact tellDestroyed_ends hClient hS ih hTracked (by omega) hLevel hGoing' hWaiting'

/-- In the beginning everything that is hidden waits. -/
theorem Going.start (l : Live κ σ) : Going l l :=
  ⟨Fading.refl l, fun _ _ h => .inl h, fun _ _ h => h, fun _ => .inl rfl, fun _ h => h,
    fun _ => .inl rfl, fun _ => .inl rfl⟩

theorem Waiting.start (l : Live κ σ) (rank : ObserverId → Nat) (level : Nat) :
    Waiting l rank level l :=
  fun _ _ _ hHides _ => .inl ⟨hHides.held, hHides.detached⟩

/-- The nodes in a node or container and in all that is hidden in it. -/
inductive Kept (l : Live κ σ) : NodeRef → NodeId → Prop where
  | inside {r : NodeRef} {n : NodeId} (h : n ∈ l.dom.subtree r) : Kept l r n
  | hidden {r y : NodeRef} {n : NodeId} {o : ObserverId} {h : Hook κ} (ho : o ∈ l.observersIn r)
      (hHides : l.Hides o h y) (hKept : Kept l y n) : Kept l r n

/-- Once a node or container is buried, so is everything that was hidden in it. -/
theorem Kept.ended {r : NodeRef} {n : NodeId} (hKept : Kept l r n) (hGoing : Going l m)
    (hBuried : Buried l m r) : m.trackedOf n = .buried := by
  induction hKept with
  | inside h => exact hBuried _ h
  | hidden ho hHides _ ih =>
    obtain ⟨k, hk, hTracked⟩ := mem_observersIn_iff.mp ho
    have hEnded := (hGoing.tracked k _ hTracked).resolve_left fun hSame => by
      rw [hBuried k hk] at hSame
      cases hSame
    exact ih ((hEnded _ hHides.hook).2 _ hHides)

/-- Destroying a detached node or container destroys all nodes in it and in what is hidden in it,
at any depth. The bindings on all of them are off, and no grace of a conditional there goes on. -/
theorem destroy_reaches {client : Client κ σ} (hClient : client.Quiet) (hS : Stowed l rank)
    {r : NodeRef} (hDetached : l.stateOf r = .detached)
    (hOutside : ∀ o h y, l.Hides o h y → l.dom.key y ∉ l.dom.subtree r) {depth : Nat}
    (hDepth : ∀ o ∈ l.observersIn r, rank o < depth) :
    After (destroy (Calls.upTo client depth) r).run l fun out l' => out = .ok () ∧
      ∀ n, Kept l r n → (l'.trackedOf n).state = some .destroyed ∧
        ∀ o, (l.trackedOf n).observer = some o → ∀ h ∈ l.hooksFor o .destroy, l'.Parted h := by
  refine (destroy_buries hClient hS depth r depth l (Nat.le_refl depth) hDetached hDepth
    (fun o h y hHides hIn => absurd hIn (hOutside o h y hHides)) (Going.start l)
    (Waiting.start l rank depth)).mono ?_
  rintro out l' ⟨hOut, _, hGoing, _, hBuried⟩
  refine ⟨hOut, fun n hKept => ?_⟩
  have hEnded := hKept.ended hGoing hBuried
  refine ⟨by rw [hEnded]; rfl, fun o hTracked h hHook => ?_⟩
  refine (((hGoing.tracked n o hTracked).resolve_left fun hSame => ?_) h hHook).1
  rw [hEnded] at hSame
  cases hSame

/-! ## A conditional in an arm -/

/-- What the hooks of each observer hide. -/
def hidden (l : Live κ σ) : List (ObserverId × NodeRef) :=
  (List.range l.observers.size).flatMap fun o => (l.hooksFor o .destroy).flatMap fun h =>
    ((l.held h).filter fun y => l.stateOf y = .detached).map fun y => (o, y)

theorem lt_size_of_mem_hooksFor {o : ObserverId} {h : Hook κ} {kind : EventKind}
    (hHook : h ∈ l.hooksFor o kind) : o < l.observers.size := by
  by_contra hNot
  rw [hooksFor, observer?, Array.getElem?_eq_none (Nat.le_of_not_lt hNot)] at hHook
  cases hHook

theorem Hides.mem_hidden {o : ObserverId} {h : Hook κ} {y : NodeRef} (hHides : l.Hides o h y) :
    (o, y) ∈ l.hidden := by
  have ho := lt_size_of_mem_hooksFor hHides.hook
  refine List.mem_flatMap.mpr ⟨o, List.mem_range.mpr ho, List.mem_flatMap.mpr ⟨h, hHides.hook, ?_⟩⟩
  refine List.mem_map.mpr ⟨y, List.mem_filter.mpr ⟨hHides.held, ?_⟩, rfl⟩
  exact decide_eq_true hHides.detached

/-- Whether the conditional that a timer is for knows its number. -/
def knowsTimer (l : Live κ σ) (t : Timer κ) : Bool :=
  match t.task with
  | .endGrace c => (l.conditional? c).bind (·.timer) == some t.number
  | _ => true

/-- A conditional inside an arm of a switch. -/
def foldingProgram : Program where
  file := "t.html"
  instructions := [.switch (.reference "s")
    [(.bool true, .element "p" []
      [.conditional (.reference "b") (.element "b" [] [.dynamicText (.reference "b")])])] none]
  symbols := ["b", "s"]
  requiresHost := false

/-- Mounts it, hides first the child of the conditional and then the arm, and takes it out. -/
def fold (calls : Calls Unit Unit) : Act Unit Unit Unit := do
  let s ← sure (newSignal (.bool true))
  let b ← sure (newSignal (.bool true))
  let i ← renderProgram calls foldingProgram (.ofList [("s", s), ("b", b)]) false
  mountInstance calls i (.node 2) none
  sure (setSignal calls b (.bool false))
  sure (setSignal calls s (.bool false))
  detach calls (.container i.box)

def folded : Live Unit Unit :=
  ((fold (Calls.upTo Client.still 8)).run.run (create { grace := some 100 } ())).2

/-- All that there is in the state can be looked through. -/
theorem folded_checks : folded.tornDown = false ∧
    (∀ n < folded.tracked.slots.size, ∀ o ∈ (folded.trackedOf n).observer,
      folded.statusOf o ≠ .destroyed) ∧
    (∀ o < folded.observers.size, ∀ h ∈ folded.hooksFor o .destroy, h.parts = true) ∧
    (∀ p ∈ folded.hidden, ∀ q ∈ folded.hidden,
      folded.dom.key p.2 ∈ folded.dom.subtree q.2 → p.2 = q.2 ∧ p.1 = q.1) ∧
    (∀ p ∈ folded.hidden, ∀ o ∈ folded.observersIn p.2, 2 - o < 2 - p.1) ∧
    (∀ t ∈ folded.clock.timers, folded.knowsTimer t = true) ∧
    ∀ p ∈ folded.hidden, folded.dom.key p.2 ∉ folded.dom.subtree (.container 0) := by
  decide +kernel

theorem folded_stowed : Stowed folded fun o => 2 - o := by
  obtain ⟨hLive, hWatched, hParts, hApart, hBelow, hKnows, _⟩ := folded_checks
  refine ⟨hLive, fun n o hTracked => ?_, fun o h hHook => ?_, fun {o _ y o' _ y'} hHides hHides' => ?_,
    fun {o _ y} hHides => ?_, fun c t ht hTask => ?_⟩
  · refine hWatched n ?_ o hTracked
    by_contra hNot
    rw [trackedOf, Table.get?, Array.getElem?_eq_none (Nat.le_of_not_lt hNot)] at hTracked
    cases hTracked
  · exact hParts o (lt_size_of_mem_hooksFor hHook) h hHook
  · exact hApart (o, y) hHides.mem_hidden (o', y') hHides'.mem_hidden
  · exact hBelow (o, y) hHides.mem_hidden
  · have hKnown := hKnows t ht
    rw [knowsTimer, hTask] at hKnown
    exact beq_iff_eq.mp hKnown

/-- The arm is hidden, and in it the child of the conditional, which has a grace; destroying the
instance reaches all of it. -/
theorem folded_reached : (folded.hidden = [(0, .node 9), (1, .node 13)] ∧
      folded.clock.timers.length = 1 ∧ folded.stateOf (.container 0) = .detached ∧
      ∀ o ∈ folded.observersIn (.container 0), 2 - o < 3) ∧
    After (destroy (Calls.upTo Client.still 3) (.container 0)).run folded fun out l' =>
      out = .ok () ∧ ∀ n, Kept folded (.container 0) n →
        (l'.trackedOf n).state = some .destroyed ∧ ∀ o, (folded.trackedOf n).observer = some o →
          ∀ h ∈ folded.hooksFor o .destroy, l'.Parted h := by
  have hFolded : folded.hidden = [(0, .node 9), (1, .node 13)] ∧
      folded.clock.timers.length = 1 ∧ folded.stateOf (.container 0) = .detached ∧
      ∀ o ∈ folded.observersIn (.container 0), 2 - o < 3 := by decide +kernel
  obtain ⟨_, _, _, _, _, _, hOutside⟩ := folded_checks
  refine ⟨hFolded, ?_⟩
  exact destroy_reaches Client.still_quiet folded_stowed hFolded.2.2.1
    (fun o h y hHides => hOutside (o, y) hHides.mem_hidden) hFolded.2.2.2

/-! ## A text over other nodes -/

/-- An element with a child and a property that is its text. -/
def overwritingProgram : Program where
  file := "t.html"
  instructions := [.element "div" [.bind (.property "textcontent") (.reference "t")]
    [.element "p" [] [.dynamicText (.reference "x")]]]
  symbols := ["t", "x"]
  requiresHost := false

/-- Renders it. -/
def renderOverwriting (calls : Calls Unit Unit) : Act Unit Unit Instance := do
  let t ← sure (newSignal (.string "x"))
  let x ← sure (newSignal (.string "m"))
  renderProgram calls overwritingProgram (.ofList [("t", t), ("x", x)]) false

/-- Renders it, mounts it and destroys it. -/
def overwrite (calls : Calls Unit Unit) : Act Unit Unit Unit := do
  let i ← renderOverwriting calls
  mountInstance calls i (.node 2) none
  destroyFully calls (.container i.box)

def overwritten : Live Unit Unit :=
  ((overwrite (Calls.upTo Client.still 6)).run.run (create {} ())).2

/-- The child and its text are in the instance when it is rendered. Once it is mounted the text of
the property takes them out of the tree, so that destroying the instance leaves them as they are:
they are not destroyed, and the binding of the text is active. -/
theorem overwritten_outlives :
    (let rendered := ((renderOverwriting (Calls.upTo Client.still 6)).run.run (create {} ())).2
     7 ∈ rendered.dom.subtree (.container 0) ∧ 8 ∈ rendered.dom.subtree (.container 0)) ∧
    overwritten.overrun = false ∧ overwritten.stateOf (.container 0) = .destroyed ∧
    overwritten.stateOf (.node 7) = .detached ∧ overwritten.stateOf (.node 8) = .attached ∧
    (overwritten.projectors[1]?).map (·.node) = some 8 ∧ overwritten.isBindingActive 1 = true ∧
    overwritten.isConnected (.node 8) = false := by
  decide +kernel

end LiveMarkup.Live
