import LiveMarkup.Proofs.Live.Mounting
import LiveMarkup.Proofs.Live.Timing

/-!
# Conditionals that show their children

A conditional follows its condition. Its container holds the child while the condition is true; the
child is kept while it is hidden, and destroyed when the grace is over. Hooks may cancel what it does
to its child. Then the container may be empty though the condition is true, and if there is no grace
it may hold the child though the condition is false; but it holds nothing else.

* `Showing`, `Resting`, `Rested`: a conditional, with the value that it was given last;
* `Recorded`: the children that were made;
* `setVisible_true`, `setVisible_false`: the child is shown and hidden.
-/

namespace LiveMarkup.Live

variable {κ σ : Type} {client : Client κ σ} {calls : Calls κ σ} {l l₀ l₁ l' : Live κ σ}
variable {f : Follower κ} {c : ConditionalId} {x x' : Conditional κ} {factory : NodeFactory κ}
variable {w : Leeway κ} {last : Option (Nat × Value)} {on : Bool} {rs order : List NodeRef} {r : NodeRef}

/-- When the grace of a hidden child is over. -/
def Conditional.deadline? (x : Conditional κ) (grace : Option Nat) (last : Option (Nat × Value)) :
    Option Nat :=
  if x.child.isSome && !x.visible then grace.bind fun delay => last.map fun given => given.1 + delay
  else none

/-- A conditional has nothing in its container but the child that it keeps. If the last value that it
was given is true the child is shown, unless hooks cancel that; else it is hidden, unless they cancel
that and there is no grace. Just one timer waits for the end of the grace of a hidden child, and none
otherwise. -/
structure Showing (client : Client κ σ) (l : Live κ σ) (f : Follower κ) (c : ConditionalId)
    (x : Conditional κ) (order : List NodeRef) (last : Option (Nat × Value)) (on : Bool)
    (w : Leeway κ) : Prop extends Poised l f x.child.toList order on w where
  there : l.conditional? c = some x
  box : x.box = f.box
  visible : x.visible = last.any fun given => given.2.truthy
  kept : x.visible = true → x.child.isSome = true
  shown : x.visible = true → client.Consents → order = x.child.toList
  hidden : x.visible = false → l.config.grace ≠ none ∨ client.Consents → order = []
  clock : l.clock.Ordered c
  timer : ∃ timer : Option (Timer κ), l.clock.graces c = timer.toList ∧
    x.timer = timer.map (·.number) ∧ timer.map (·.due) = x.deadline? l.config.grace last

/-- At some time the grace is over of a child that was hidden when a value was given. -/
def Overdue (grace : Option Nat) (last : Option (Nat × Value)) (now : Nat) : Prop :=
  ∃ time value delay, last = some (time, value) ∧ value.truthy = false ∧ grace = some delay ∧
    time + delay ≤ now

/-- While nothing happens, no grace of a child is over. -/
structure Resting (client : Client κ σ) (l : Live κ σ) (f : Follower κ) (c : ConditionalId)
    (x : Conditional κ) (order : List NodeRef) (last : Option (Nat × Value)) (on : Bool)
    (w : Leeway κ) : Prop extends Showing client l f c x order last on w where
  past : ∀ given ∈ last, given.1 ≤ l.clock.now
  due : x.child.isSome = true → ¬ Overdue l.config.grace last l.clock.now

/-- Between steps the last value that was given is that of the condition, if the container reaches the
document. -/
structure Rested (client : Client κ σ) (l : Live κ σ) (f : Follower κ) (c : ConditionalId)
    (x : Conditional κ) (order : List NodeRef) (last : Option (Nat × Value)) (on : Bool)
    (w : Leeway κ) : Prop extends Resting client l f c x order last on w where
  current : on = true → last.map (·.2) = some (l.valueOf f.signal)

/-- The children of a conditional that were made since a state: each was destroyed before the next
one was asked for, and the last one is the child until it is destroyed. -/
structure Recorded (client : Client κ σ) (factory : NodeFactory κ) (l₀ l : Live κ σ)
    (x : Conditional κ) (makings : List (Making Unit κ σ)) : Prop where
  made : Made client (fun _ => some factory) l₀ makings l
  factory : x.factory = factory
  known : ∀ m ∈ makings, l.dom.Known m.node
  child : ∀ child, x.child = some child → makings.head?.map (·.node) = some child
  gone : ∀ m ∈ makings, x.child = some m.node ∨ l.stateOf m.node = .destroyed
  apart : makings.Pairwise fun later earlier => later.state.stateOf earlier.node = .destroyed

namespace Recorded

variable {makings : List (Making Unit κ σ)}

/-- Nothing is made, and a child that is kept no longer is destroyed. -/
theorem keep (h : Recorded client factory l₀ l x makings) (hA : Abides l l' w)
    (hSize : l'.dom.nodes.size = l.dom.nodes.size) (hFactory : x'.factory = x.factory)
    (hChild : ∀ child, x'.child = some child → x.child = some child)
    (hGone : ∀ child, x.child = some child → x'.child = some child ∨ l'.stateOf child = .destroyed) :
    Recorded client factory l₀ l' x' makings where
  made := h.made.later hSize
  factory := hFactory.trans h.factory
  known m hm := hA.known _ (h.known m hm)
  child child hx := h.child child (hChild child hx)
  gone m hm := by
    rcases h.gone m hm with hKept | hDestroyed
    · exact hGone _ hKept
    · exact .inr (hA.destroyed _ (h.known m hm) hDestroyed)
  apart := h.apart

/-- A child is made when none is left. -/
theorem add (h : Recorded client factory l₀ l x makings) (hNone : x.child = none) {depth : Nat}
    (hBuild : ((Calls.upTo client depth).build x.factory).run.run l = (.ok r, l'))
    (hA : Abides l l' w) (hr : l'.dom.Known r) (hFactory : x'.factory = x.factory)
    (hChild : x'.child = some r) : Recorded client factory l₀ l' x' (⟨(), r, l⟩ :: makings) where
  made := .call h.made rfl (h.factory ▸ hBuild) rfl
  factory := hFactory.trans h.factory
  known := List.forall_mem_cons.mpr ⟨hr, fun m hm => hA.known _ (h.known m hm)⟩
  child child hx := hChild.symm.trans hx
  gone := by
    refine List.forall_mem_cons.mpr ⟨.inl hChild, fun m hm => ?_⟩
    rcases h.gone m hm with hKept | hDestroyed
    · rw [hNone] at hKept
      cases hKept
    · exact .inr (hA.destroyed _ (h.known m hm) hDestroyed)
  apart := by
    refine List.pairwise_cons.mpr ⟨fun m hm => (h.gone m hm).resolve_left ?_, h.apart⟩
    rw [hNone]
    exact fun he => by cases he

end Recorded

/-! ## The grace of a child -/

/-- No grace of a conditional is running, which has changed, and so may have what is recorded of
others. -/
structure Eased (l l' : Live κ σ) (f : Follower κ) (c : ConditionalId) (x : Conditional κ)
    (w : Leeway κ) : Prop where
  abides : Abides l l' w
  poised : ∀ rs order on, l.Poised f rs order on w → l'.Poised f rs order on w
  nodes_size : l'.dom.nodes.size = l.dom.nodes.size
  value : l'.valueOf f.signal = l.valueOf f.signal
  now : l'.clock.now = l.clock.now
  there : l'.conditional? c = some x
  clock : l'.clock.Ordered c
  graces : l'.clock.graces c = []

/-- The grace of a conditional is stopped. -/
theorem stopGrace_eases (hPoised : l.Poised f rs order on w) (hThere : l.conditional? c = some x)
    (hClock : l.clock.Ordered c) {timer : Option (Timer κ)}
    (hGraces : l.clock.graces c = timer.toList) (hTimer : x.timer = timer.map (·.number)) :
    After (stopGrace c) l fun _ l' => Eased l l' f c { x with timer := none } w := by
  have hAside : ∀ (conditionals : Array (Conditional κ)) (timers : List (Timer κ)),
      Eased l { l with conditionals, clock := { l.clock with timers } } f c { x with timer := none } w ↔
        conditional? { l with conditionals } c = some { x with timer := none } ∧
          Clock.Ordered { l.clock with timers } c ∧ Clock.graces { l.clock with timers } c = [] :=
    fun conditionals timers => ⟨fun h => ⟨h.there, h.clock, h.graces⟩, fun h =>
      ⟨(hPoised.aside _ _ _ _).1, fun _ _ _ hPoised => (hPoised.aside _ _ _ _).2, rfl, rfl,
        rfl, h.1, h.2.1, h.2.2⟩⟩
  unfold stopGrace
  rw [after_bind, after_get, hThere, Option.bind_some, hTimer]
  cases timer with
  | none =>
    refine (hAside l.conditionals l.clock.timers).mpr ⟨?_, hClock, hGraces⟩
    obtain ⟨box, factory, child, timer, visible⟩ := x
    obtain rfl : timer = none := hTimer
    exact hThere
  | some timer =>
    refine (hAside _ _).mpr ⟨?_, hClock.cleared timer.number, Clock.graces_cleared hGraces⟩
    exact (conditional?_modify l c c _).trans (by rw [if_pos rfl, hThere]; rfl)

/-! ## Following the condition -/

/-- What a conditional has become: its child is the one that it was, if that is not lost because its
grace is over. -/
def Continues (client : Client κ σ) (factory : NodeFactory κ) (l₀ l' : Live κ σ) (f : Follower κ)
    (c : ConditionalId) (x : Conditional κ) (makings : List (Making Unit κ σ))
    (last : Option (Nat × Value)) (on : Bool) (w : Leeway κ) : Prop :=
  ∃ x' order' makings', Rested client l' f c x' order' last on w ∧
    Recorded client factory l₀ l' x' makings' ∧
    makings <:+ makings' ∧ ∀ child, x.child = some child →
      makings' = makings ∧ (x'.child = some child ∨ x'.child = none ∧
        Overdue l'.config.grace last l'.clock.now)

section Following

variable (hClient : client.Quiet) (depth : Nat)
variable {makings : List (Making Unit κ σ)} {value : Value}
include hClient

/-- The child is brought into the container, unless that is cancelled. -/
theorem present_child (hPoised : l.Poised f [r] order true w) (hThere : l.conditional? c = some x)
    (hBox : x.box = f.box) (hVisible : x.visible = true) (hChild : x.child = some r)
    (hTimer : x.timer = none) (hClock : l.clock.Ordered c) (hGraces : l.clock.graces c = [])
    (hTrue : (l.valueOf f.signal).truthy = true) :
    After (attachAnywhere (Calls.upTo client (depth + 2)) r (.container x.box) none).run l
      fun _ l' => Still l l' w ∧
        ∃ order', Rested client l' f c x order' (some (l.clock.now, l.valueOf f.signal)) true w := by
  rw [hBox]
  refine (hPoised.present_unless hClient depth (List.mem_singleton_self r) hPoised.alone).mono ?_
  rintro _ l' ⟨-, hStill, order', hPoised', hOrder⟩
  refine ⟨hStill, order', ⟨⟨⟨?_, ?_, hBox, ?_, fun _ => by rw [hChild]; rfl, fun _ hConsents => ?_,
    fun hFalse => ?_, ?_, none, ?_, hTimer, ?_⟩, ?_, ?_⟩, fun _ => ?_⟩⟩
  · rw [hChild]
    exact hPoised'
  · rw [conditional?, hStill.conditionals]
    exact hThere
  · rw [hVisible]
    exact hTrue.symm
  · rw [hChild]
    exact hOrder.resolve_right fun hCancelled => hCancelled.2 (hConsents.grants _)
  · rw [hVisible] at hFalse
    cases hFalse
  · rw [hStill.clock]
    exact hClock
  · rw [hStill.clock]
    exact hGraces
  · simp [Conditional.deadline?, hVisible]
  · rintro _ ⟨⟩
    exact Nat.le_of_eq (congrArg Clock.now hStill.clock).symm
  · rintro - ⟨_, _, _, hLast, hFalse, -⟩
    cases hLast
    rw [hTrue] at hFalse
    cases hFalse
  · rw [hPoised.signal_eq hStill]
    rfl

omit hClient in
/-- A child that is kept and not destroyed is shown again. -/
theorem childOf_kept (hChild : x.child = some r) (hLives : l.stateOf r ≠ .destroyed) :
    After (childOf calls c x).run l fun out l' => out = .ok r ∧ l' = l := by
  unfold childOf
  refine After.get_act ?_
  rw [hChild, Option.filter_some, if_pos (by simpa using hLives)]
  exact ⟨rfl, rfl⟩

omit hClient in
/-- Otherwise a new one is built. -/
theorem childOf_built (hChild : x.child = none)
    (hBuild : After (calls.build x.factory).run l fun out l₁ => ∃ r, out = .ok r ∧ Built l l₁ r w) :
    After (childOf calls c x).run l fun out l' => ∃ r l₁, out = .ok r ∧ Built l l₁ r w ∧
      (calls.build x.factory).run.run l = (.ok r, l₁) ∧
      l' = { l₁ with conditionals := l₁.conditionals.modify c fun x => { x with child := some r } } := by
  unfold childOf
  refine After.get_act ?_
  rw [hChild, Option.filter_none]
  refine After.act_bind hBuild.run_eq ?_ ?_
  · rintro r l₁ ⟨hRun, _, hEq, hB⟩
    obtain rfl := Except.ok.inj hEq
    exact ⟨r, l₁, rfl, hB, hRun, rfl⟩
  · rintro e _ ⟨-, _, hEq, -⟩
    cases hEq

/-- A child that is kept is shown. -/
theorem showing_kept (hPoised : l.Poised f [r] order true w) (hThere : l.conditional? c = some x)
    (hBox : x.box = f.box) (hVisible : x.visible = true) (hChild : x.child = some r)
    (hTimer : x.timer = none) (hClock : l.clock.Ordered c)
    (hGraces : l.clock.graces c = []) (hTrue : (l.valueOf f.signal).truthy = true)
    (hRecorded : Recorded client factory l₀ l x makings) :
    After (childOf (Calls.upTo client (depth + 2)) c x >>= fun child =>
        attachAnywhere (Calls.upTo client (depth + 2)) child (.container x.box) none).run l
      fun _ l' => Abides l l' w ∧ Continues client factory l₀ l' f c x makings
        (some (l.clock.now, l.valueOf f.signal)) true w := by
  have hLives := hPoised.stateOf_ne_destroyed (List.mem_singleton_self r)
  refine After.act_ok (childOf_kept hChild hLives) ?_
  rintro _ rfl
  refine (present_child hClient depth hPoised hThere hBox hVisible hChild hTimer hClock hGraces
    hTrue).mono ?_
  rintro _ l' ⟨hStill, order', hRested⟩
  exact ⟨hStill.toAbides, x, order', makings, hRested,
    hRecorded.keep hStill.toAbides hStill.nodes_size rfl
    (fun _ hx => hx) fun _ hx => .inl hx, List.suffix_refl _, fun _ hx => ⟨rfl, .inl hx⟩⟩

/-- If no child is kept, a new one is made and shown. -/
theorem showing_built (hPoised : l.Poised f [] [] true w) (hThere : l.conditional? c = some x)
    (hBox : x.box = f.box) (hVisible : x.visible = true) (hChild : x.child = none)
    (hTimer : x.timer = none) (hClock : l.clock.Ordered c) (hGraces : l.clock.graces c = [])
    (hTrue : (l.valueOf f.signal).truthy = true)
    (hRecorded : Recorded client factory l₀ l x makings)
    (hBuilds : Builds (Calls.upTo client (depth + 2)) factory w) :
    After (childOf (Calls.upTo client (depth + 2)) c x >>= fun child =>
        attachAnywhere (Calls.upTo client (depth + 2)) child (.container x.box) none).run l
      fun _ l' => Abides l l' w ∧ Continues client factory l₀ l' f c x makings
        (some (l.clock.now, l.valueOf f.signal)) true w := by
  refine After.act_bind (childOf_built hChild
    (hPoised.builds (hRecorded.factory ▸ hBuilds))) ?_ ?_
  rotate_left
  · rintro _ _ ⟨_, _, hEq, -⟩
    cases hEq
  rintro r _ ⟨_, l₁, hEq, hB, hRun, rfl⟩
  obtain rfl := Except.ok.inj hEq
  let x' : Conditional κ := { x with child := some r }
  have hAbides₁ := hB.abides hPoised.toStaged
  have hAdded : Recorded client factory l₀ l₁ x' (⟨(), r, l⟩ :: makings) :=
    hRecorded.add hChild hRun hAbides₁ hB.fresh.known rfl rfl
  have hLt : c < l.conditionals.size := (Array.getElem?_eq_some_iff.mp hThere).1
  have hThere₁ : l₁.conditional? c = some x := (hB.conditionals c hLt).trans hThere
  obtain ⟨hAbides₂, hPoised₂⟩ := (hB.poised hPoised).aside l₁.client l₁.clock
    (l₁.conditionals.modify c fun x => { x with child := some r }) l₁.switches
  have hThere₂ : conditional? { l₁ with
      conditionals := l₁.conditionals.modify c fun x => { x with child := some r } } c = some x' :=
    (conditional?_modify l₁ c c _).trans (by rw [if_pos rfl, hThere₁]; rfl)
  have hValue₁ : l₁.valueOf f.signal = l.valueOf f.signal := hB.signal_eq hPoised
  have hClock₁ : l₁.clock = l.clock := hB.clock
  rw [← hClock₁, ← hValue₁]
  rw [← hValue₁] at hTrue
  refine (present_child hClient depth hPoised₂ hThere₂ hBox hVisible rfl hTimer (hClock₁ ▸ hClock)
    (hClock₁ ▸ hGraces) hTrue).mono ?_
  rintro _ l' ⟨hStill, order', hRested⟩
  have hAbides' := hAbides₂.trans hStill.toAbides
  refine ⟨hAbides₁.trans hAbides', x', order', _, hRested, hAdded.keep hAbides' hStill.nodes_size rfl
    (fun _ hx => hx) fun _ hx => .inl hx, List.suffix_cons _ _, fun child hx => ?_⟩
  rw [hChild] at hx
  cases hx

/-- The condition is true: the child is shown, and made if there is none. -/
theorem setVisible_true (h : Showing client l f c x order last true w)
    (hRecorded : Recorded client factory l₀ l x makings)
    (hBuilds : Builds (Calls.upTo client (depth + 2)) factory w)
    (hTrue : (l.valueOf f.signal).truthy = true) :
    After (setVisible (Calls.upTo client (depth + 2)) c true).run l fun _ l' =>
      Abides l l' w ∧ Continues client factory l₀ l' f c x makings
        (some (l.clock.now, l.valueOf f.signal)) true w := by
  let x' : Conditional κ := { x with visible := true, timer := none }
  obtain ⟨timer, hGraces, hTimer, -⟩ := h.timer
  unfold setVisible
  refine After.sure_run (t := { l with conditionals := l.conditionals.modify c fun x => { x with
    visible := true } }) rfl ?_
  obtain ⟨hAbides₁, hPoised₁⟩ := h.aside l.client l.clock
    (l.conditionals.modify c fun x => { x with visible := true }) l.switches
  have hThere₁ : conditional? { l with
      conditionals := l.conditionals.modify c fun x => { x with visible := true } } c =
        some { x with visible := true } :=
    (conditional?_modify l c c _).trans (by rw [if_pos rfl, h.there]; rfl)
  rw [if_pos rfl]
  unfold showChild
  refine After.sure_bind (stopGrace_eases hPoised₁ hThere₁ h.clock hGraces hTimer) ?_
  intro _ l₂ hEased
  have hAbides := hAbides₁.trans hEased.abides
  have hPoised := hEased.poised _ _ _ hPoised₁
  have hNow : l₂.clock.now = l.clock.now := hEased.now
  have hValue : l₂.valueOf f.signal = l.valueOf f.signal := hEased.value
  have hKeeps : Recorded client factory l₀ l₂ x' makings :=
    hRecorded.keep hAbides hEased.nodes_size rfl (fun _ hx => hx) fun _ hx => .inl hx
  rw [← hNow, ← hValue]
  rw [← hValue] at hTrue
  refine After.get_act ?_
  rw [hEased.there]
  change After (childOf (Calls.upTo client (depth + 2)) c x' >>= fun child =>
    attachAnywhere (Calls.upTo client (depth + 2)) child (.container x'.box) none).run l₂ _
  have hDone : After (childOf (Calls.upTo client (depth + 2)) c x' >>= fun child =>
      attachAnywhere (Calls.upTo client (depth + 2)) child (.container x'.box) none).run l₂
        fun _ l' => Abides l₂ l' w ∧ Continues client factory l₀ l' f c x' makings
          (some (l₂.clock.now, l₂.valueOf f.signal)) true w := by
    cases hChild : x.child with
    | some child =>
      rw [hChild] at hPoised
      exact showing_kept hClient depth hPoised hEased.there h.box rfl hChild rfl hEased.clock
        hEased.graces hTrue hKeeps
    | none =>
      rw [hChild] at hPoised
      obtain rfl := hPoised.order_eq_nil
      exact showing_built hClient depth hPoised hEased.there h.box rfl hChild rfl hEased.clock
        hEased.graces hTrue hKeeps hBuilds
  exact hDone.mono fun _ _ hPost => ⟨hAbides.trans hPost.1, hPost.2⟩

end Following

/-! ## Hiding the child -/

/-- The child of a conditional is destroyed and forgotten. -/
structure Discarded (l l' : Live κ σ) (f : Follower κ) (c : ConditionalId) (x : Conditional κ)
    (r : NodeRef) (on : Bool) (w : Leeway κ) : Prop where
  abides : Abides l l' w
  poised : l'.Poised f [] [] on w
  nodes_size : l'.dom.nodes.size = l.dom.nodes.size
  value : l'.valueOf f.signal = l.valueOf f.signal
  clock : l'.clock = l.clock
  there : l'.conditional? c = some { x with child := none }
  destroyed : l'.stateOf r = .destroyed

section Hiding

variable (hClient : client.Quiet) (depth : Nat)
variable {makings : List (Making Unit κ σ)} {value : Value}
include hClient

/-- A hidden child is destroyed. -/
theorem discardChild_discards (hPoised : l.Poised f [r] [] on w) (hThere : l.conditional? c = some x)
    (hChild : x.child = some r) :
    After (discardChild (Calls.upTo client (depth + 2)) c).run l fun _ l' =>
      Discarded l l' f c x r on w := by
  let l₁ : Live κ σ := { l with
    conditionals := l.conditionals.modify c fun x => { x with child := none } }
  have hMem := List.mem_singleton_self r
  obtain ⟨hAbides₁, hPoised₁⟩ := hPoised.aside l.client l.clock l₁.conditionals l.switches
  have hThere₁ : l₁.conditional? c = some { x with child := none } :=
    (conditional?_modify l c c _).trans (by rw [if_pos rfl, hThere]; rfl)
  unfold discardChild
  refine After.get_act ?_
  rw [hThere, Option.bind_some, hChild]
  refine After.sure_run (t := l₁) rfl ?_
  refine After.get_act ?_
  rw [(hPoised₁.stateOf_detached_iff hMem).mpr List.not_mem_nil, if_pos rfl]
  refine (hPoised₁.destroy hClient depth hMem List.not_mem_nil).mono ?_
  rintro _ l' ⟨-, hStill, hGone, hPoised'⟩
  have hNone : [r].filter (· ≠ r) = [] := by simp
  rw [hNone] at hPoised'
  refine ⟨hAbides₁.trans hStill.toAbides, hPoised', hStill.nodes_size, hPoised₁.signal_eq hStill,
    hStill.clock, ?_, hGone⟩
  rw [conditional?, hStill.conditionals]
  exact hThere₁

omit hClient in
/-- A timer is set that ends the grace of a child. -/
theorem setGrace (hPoised : l.Poised f rs order on w) (hThere : l.conditional? c = some x)
    (hClock : l.clock.Ordered c) (hGraces : l.clock.graces c = []) (delay : Nat) :
    After (do
        let timer ← setTimer delay (.endGrace c)
        modifyConditional c fun x => { x with timer := some timer }) l fun _ l' =>
      ∃ timer : Timer κ, Abides l l' w ∧ l'.Poised f rs order on w ∧
        l'.dom.nodes.size = l.dom.nodes.size ∧ l'.valueOf f.signal = l.valueOf f.signal ∧
        l'.clock.now = l.clock.now ∧ l'.conditional? c = some { x with timer := some timer.number } ∧
        l'.clock.Ordered c ∧ l'.clock.graces c = [timer] ∧ timer.due = l.clock.now + delay := by
  let timer : Timer κ := ⟨l.clock.now + delay, l.clock.nextTimer, .endGrace c⟩
  let clock : Clock κ := { l.clock with
    nextTimer := timer.number + 1, timers := insertTimer timer l.clock.timers }
  let l' : Live κ σ := { l with
    clock
    conditionals := l.conditionals.modify c fun x => { x with timer := some timer.number } }
  have hRun : After (do
      let timer ← setTimer delay (.endGrace c)
      modifyConditional c fun x => { x with timer := some timer }) l fun _ l₁ => l₁ = l' := by
    unfold setTimer
    have hUp : (!l.tornDown) = true := by rw [hPoised.up]; rfl
    simp only [after_bind, after_get]
    rw [if_pos hUp]
    rfl
  refine hRun.mono ?_
  rintro _ _ rfl
  obtain ⟨hAbides, hPoised'⟩ := hPoised.aside l.client clock l'.conditionals l.switches
  refine ⟨timer, hAbides, hPoised', rfl, rfl, rfl, ?_, hClock.inserted rfl _,
    Clock.graces_inserted hGraces rfl _, rfl⟩
  exact (conditional?_modify l c c _).trans (by rw [if_pos rfl, hThere]; rfl)

omit hClient in
/-- A conditional whose condition is false, with a value that was given just now. -/
theorem rested_hidden {given : Nat × Value} (timer : Option (Timer κ))
    (hPoised : l.Poised f x.child.toList order true w) (hThere : l.conditional? c = some x)
    (hBox : x.box = f.box) (hVisible : x.visible = false)
    (hHidden : l.config.grace ≠ none ∨ client.Consents → order = [])
    (hGiven : given.2 = l.valueOf f.signal) (hFalse : given.2.truthy = false)
    (hClock : l.clock.Ordered c) (hGraces : l.clock.graces c = timer.toList)
    (hTimer : x.timer = timer.map (·.number))
    (hDue : timer.map (·.due) =
      if x.child.isSome then l.config.grace.map (given.1 + ·) else none)
    (hNow : given.1 = l.clock.now)
    (hKept : x.child.isSome = true → ¬ Overdue l.config.grace (some given) l.clock.now) :
    Rested client l f c x order (some given) true w where
  toPoised := hPoised
  there := hThere
  box := hBox
  visible := by
    rw [hVisible, Option.any_some, hFalse]
  kept hShown := by
    rw [hVisible] at hShown
    cases hShown
  shown hShown := by
    rw [hVisible] at hShown
    cases hShown
  hidden _ := hHidden
  current _ := congrArg some hGiven
  clock := hClock
  timer := by
    refine ⟨timer, hGraces, hTimer, hDue.trans ?_⟩
    rw [Conditional.deadline?, hVisible, Bool.not_false, Bool.and_true]
    cases l.config.grace <;> rfl
  past := by
    rintro _ ⟨⟩
    exact Nat.le_of_eq hNow
  due := hKept

/-- The child is hidden. Without a grace it is kept, and stays where it is if that is cancelled. With
none to wait for it is destroyed at once. If it is to go for good one day, nothing keeps it. -/
theorem hideChild_hides (hLets : l.config.grace = none ∨ client.LetsGo f.box)
    (hPoised : l.Poised f [r] order true w) (hThere : l.conditional? c = some x)
    (hBox : x.box = f.box) (hVisible : x.visible = false)
    (hChild : x.child = some r) (hClock : l.clock.Ordered c) {timer : Option (Timer κ)}
    (hGraces : l.clock.graces c = timer.toList) (hTimer : x.timer = timer.map (·.number))
    (hNone : l.config.grace = none ∨ l.config.grace = some 0 → timer = none)
    (hFalse : (l.valueOf f.signal).truthy = false) :
    After (hideChild (Calls.upTo client (depth + 2)) c).run l fun _ l' => ∃ x' order', Abides l l' w ∧
      l'.dom.nodes.size = l.dom.nodes.size ∧ x'.factory = x.factory ∧
      Rested client l' f c x' order' (some (l.clock.now, l.valueOf f.signal)) true w ∧
      (x'.child = some r ∨ x'.child = none ∧ l'.stateOf r = .destroyed ∧
        Overdue l'.config.grace (some (l.clock.now, l.valueOf f.signal)) l'.clock.now) := by
  have hMem := List.mem_singleton_self r
  have hNeBox : r ≠ .container f.box := (hPoised.shelf.ne_box hMem).symm
  unfold hideChild
  refine After.get_act ?_
  rw [hThere, Option.bind_some, hChild]
  refine After.act_ok (hPoised.withdraw_unless hClient depth hMem) ?_
  rintro l₁ ⟨hStill, order', hPoised₁, hOrder⟩
  have hThere₁ : l₁.conditional? c = some x := by
    rw [conditional?, hStill.conditionals]
    exact hThere
  have hNow : l₁.clock.now = l.clock.now := congrArg Clock.now hStill.clock
  have hConfig : l₁.config = l.config := hStill.config
  rw [← hStill.clock] at hClock hGraces
  have hGone : l.config.grace ≠ none ∨ client.Consents → order' = [] := by
    intro hLet
    rcases hOrder with rfl | ⟨-, hCancelled⟩
    · rcases hPoised.alone with rfl | rfl <;> simp
    · refine absurd ?_ hCancelled
      rcases hLet with hGrace | hConsents
      · exact hLets.resolve_left hGrace r hNeBox
      · exact hConsents.grants _
  refine After.get_act ?_
  rw [← hPoised.signal_eq hStill] at hFalse ⊢
  rw [← hNow]
  rw [hConfig]
  split
  · rename_i hGrace
    obtain rfl := hNone (.inl hGrace)
    rw [after_act_pure]
    refine ⟨x, order', hStill.toAbides, hStill.nodes_size, rfl, rested_hidden none ?_ hThere₁ hBox
      hVisible (hConfig ▸ hGone) rfl hFalse hClock hGraces hTimer ?_ rfl ?_, .inl hChild⟩
    · rw [hChild]
      exact hPoised₁
    · rw [hConfig, hGrace, hChild]
      rfl
    · rintro - ⟨_, _, _, -, -, hSome, -⟩
      rw [hConfig, hGrace] at hSome
      cases hSome
  · rename_i hGrace
    obtain rfl := hNone (.inr hGrace)
    obtain rfl := hGone (.inl (by simp [hGrace]))
    refine (discardChild_discards hClient depth hPoised₁ hThere₁ hChild).mono fun _ l₂ hD => ?_
    rw [← hD.clock, ← hD.value]
    refine ⟨{ x with child := none }, [], hStill.toAbides.trans hD.abides,
      hD.nodes_size.trans hStill.nodes_size, rfl,
      rested_hidden none hD.poised hD.there hBox hVisible (fun _ => rfl) rfl
      (hD.value.symm ▸ hFalse) (hD.clock ▸ hClock) (hD.clock ▸ hGraces) hTimer rfl rfl ?_,
      .inr ⟨rfl, hD.destroyed, _, _, 0, rfl, hD.value.symm ▸ hFalse, ?_, Nat.le_refl _⟩⟩
    · intro hSome
      cases hSome
    · rw [hD.abides.config, hConfig, hGrace]
  · rename_i delay hZero hGrace
    obtain rfl := hGone (.inl (by simp [hGrace]))
    rw [after_sure]
    refine (stopGrace_eases hPoised₁ hThere₁ hClock hGraces hTimer).bind fun _ l₂ hEased => ?_
    refine (setGrace (hEased.poised _ _ _ hPoised₁) hEased.there hEased.clock hEased.graces
      delay).mono ?_
    rintro _ l₃ ⟨timer', hAbides₃, hPoised₃, hSize₃, hValue₃, hNow₃, hThere₃, hClock₃, hGraces₃, hDue⟩
    have hAbides := hStill.toAbides.trans (hEased.abides.trans hAbides₃)
    have hValue' : l₃.valueOf f.signal = l₁.valueOf f.signal :=
      hValue₃.trans hEased.value
    refine ⟨{ x with timer := some timer'.number }, [], hAbides,
      hSize₃.trans (hEased.nodes_size.trans hStill.nodes_size), rfl,
      rested_hidden (some timer') ?_ hThere₃ hBox hVisible (fun _ => rfl) hValue'.symm hFalse hClock₃
      hGraces₃ rfl ?_ (hNow₃.trans hEased.now).symm ?_, .inl hChild⟩
    · change l₃.Poised f x.child.toList [] true w
      rw [hChild]
      exact hPoised₃
    · change some timer'.due = if x.child.isSome then _ else none
      rw [hAbides.config, hGrace, hChild, hDue, hEased.now]
      rfl
    · rintro - ⟨_, _, delay', hGiven, -, hGrace', hLe⟩
      rw [hAbides.config, hGrace, Option.some.injEq] at hGrace'
      subst hGrace'
      rw [Option.some.injEq, Prod.mk.injEq] at hGiven
      rw [← hGiven.1, hNow₃, hEased.now] at hLe
      exact hZero (by omega)

/-- The condition is false: the child is hidden, if there is one. -/
theorem setVisible_false (h : Resting client l f c x order last true w)
    (hLets : l.config.grace = none ∨ client.LetsGo f.box)
    (hRecorded : Recorded client factory l₀ l x makings)
    (hFalse : (l.valueOf f.signal).truthy = false) :
    After (setVisible (Calls.upTo client (depth + 2)) c false).run l fun _ l' =>
      Abides l l' w ∧ Continues client factory l₀ l' f c x makings
        (some (l.clock.now, l.valueOf f.signal)) true w := by
  let l₁ : Live κ σ := { l with
    conditionals := l.conditionals.modify c fun x => { x with visible := false } }
  obtain ⟨timer, hGraces, hTimer, hDue⟩ := h.timer
  obtain ⟨hAbides₁, hPoised₁⟩ := h.aside l.client l.clock l₁.conditionals l.switches
  have hThere₁ : l₁.conditional? c = some { x with visible := false } :=
    (conditional?_modify l c c _).trans (by rw [if_pos rfl, h.there]; rfl)
  unfold setVisible
  refine After.sure_run (t := l₁) rfl ?_
  rw [if_neg Bool.false_ne_true]
  cases hChild : x.child with
  | none =>
    have hNone : timer = none := by
      rw [Conditional.deadline?, hChild] at hDue
      exact Option.map_eq_none_iff.mp hDue
    subst hNone
    rw [hChild] at hPoised₁
    obtain rfl := hPoised₁.order_eq_nil
    unfold hideChild
    refine After.get_act ?_
    rw [hThere₁, Option.bind_some, hChild]
    have hRested : Rested client l₁ f c { x with visible := false } []
        (some (l.clock.now, l.valueOf f.signal)) true w :=
      rested_hidden none (by rw [hChild]; exact hPoised₁) hThere₁ h.box rfl (fun _ => rfl) rfl hFalse
        h.clock hGraces hTimer (by rw [hChild]; rfl) rfl fun hSome => by
          rw [hChild] at hSome
          cases hSome
    exact ⟨hAbides₁, _, [], makings, hRested, hRecorded.keep hAbides₁ rfl rfl (fun _ hx => hx)
      fun _ hx => .inl hx, List.suffix_refl _, fun child hx => by rw [hChild] at hx; cases hx⟩
  | some r =>
    rw [hChild] at hPoised₁
    -- with no time to wait a hidden child would not be there any more
    have hNone : l.config.grace = none ∨ l.config.grace = some 0 → timer = none := by
      intro hGrace
      refine Option.map_eq_none_iff.mp (hDue.trans ?_)
      rw [Conditional.deadline?]
      split
      · rename_i hHidden
        rw [Bool.and_eq_true, Bool.not_eq_true'] at hHidden
        rcases hGrace with hGrace | hGrace
        · rw [hGrace]
          rfl
        · cases hLast : last with
          | none => rw [hGrace]; rfl
          | some given =>
            refine absurd ⟨given.1, given.2, 0, hLast, ?_, hGrace, h.past given hLast⟩
              (h.due hHidden.1)
            have hVisible := h.visible
            rw [hLast, hHidden.2] at hVisible
            exact hVisible.symm
      · rfl
    have hLets₁ : l₁.config.grace = none ∨ client.LetsGo f.box := hLets
    refine (hideChild_hides hClient depth hLets₁ hPoised₁ hThere₁ h.box rfl hChild h.clock hGraces
      hTimer hNone hFalse).mono ?_
    rintro _ l' ⟨x', order', hAbides, hSize, hFactory, hRested, hChild'⟩
    have hAbides' := hAbides₁.trans hAbides
    refine ⟨hAbides', x', order', makings, hRested, hRecorded.keep hAbides' hSize hFactory
      (fun child hx => ?_)
      fun child hx => ?_, List.suffix_refl _, fun child hx => ⟨rfl, ?_⟩⟩
    · rcases hChild' with hSome | ⟨hNone, -⟩
      · exact hChild.trans (hSome.symm.trans hx)
      · rw [hNone] at hx
        cases hx
    · obtain rfl := Option.some.inj (hChild.symm.trans hx)
      exact hChild'.imp_right fun hGone => hGone.2.1
    · obtain rfl := Option.some.inj (hChild.symm.trans hx)
      exact hChild'.imp_right fun hGone => ⟨hGone.1, hGone.2.2⟩

end Hiding

end LiveMarkup.Live
