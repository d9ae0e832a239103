import LiveMarkup.Proofs.Live.Beginning
import LiveMarkup.Proofs.Live.Showing

/-!
# Runs of a conditional

A conditional that shows nothing yet is followed while its condition is set, its container is mounted
and unmounted, and the time moves. What it keeps for good must not be held by hooks.

* `Rested.moves`, `Rested.advances`: what one step does;
* `Turns`: runs of such steps, with the value that was delivered last;
* `Turns.rested`: what a run leaves, whatever hooks cancel; `Turns.destroyed`: what is destroyed
  stays so;
* `Turns.shows`: what every step of a run leaves, if they cancel nothing.
-/

namespace LiveMarkup.Live

variable {κ σ : Type} {client : Client κ σ} {calls : Calls κ σ} {l l₀ l₁ l' : Live κ σ}
variable {f : Follower κ} {c : ConditionalId} {x x' : Conditional κ} {factory : NodeFactory κ}
variable {w : Leeway κ} {last : Option (Nat × Value)} {on on' : Bool} {order order' : List NodeRef}
variable {makings : List (Making Unit κ σ)}

/-! ## Motions -/

theorem Resting.still (h : Resting client l f c x order last on w) (hStill : Still l l' w)
    (hPoised : l'.Poised f x.child.toList order on' w) :
    Resting client l' f c x order last on' w := by
  obtain ⟨timer, hGraces, hTimer, hDue⟩ := h.timer
  refine ⟨⟨hPoised, ?_, h.box, h.visible, h.kept, h.shown, ?_, ?_, timer, ?_, hTimer, ?_⟩, ?_, ?_⟩
  · rw [conditional?, hStill.conditionals]
    exact h.there
  · rw [hStill.config]
    exact h.hidden
  · rw [hStill.clock]
    exact h.clock
  · rw [hStill.clock]
    exact hGraces
  · rw [hStill.config]
    exact hDue
  · rw [hStill.clock]
    exact h.past
  · rw [hStill.config, hStill.clock]
    exact h.due

theorem Resting.given (h : Resting client l f c x order last on w) (s : SignalId) (value : Value) :
    Resting client (l.given s value) f c x order last on w :=
  ⟨⟨h.toPoised.given s value, h.there, h.box, h.visible, h.kept, h.shown, h.hidden, h.clock, h.timer⟩,
    h.past, h.due⟩

theorem Continues.still (h : Continues client factory l₀ l₁ f c x makings last on w)
    (hRest : ∀ rs order, l₁.Poised f rs order on w → Still l₁ l' w ∧ l'.Poised f rs order on w) :
    Still l₁ l' w ∧ Continues client factory l₀ l' f c x makings last on w := by
  obtain ⟨x', order', makings', hRested, hRecorded, hSuffix, hChild⟩ := h
  obtain ⟨hStill, hPoised⟩ := hRest _ _ hRested.toPoised
  refine ⟨hStill, x', order', makings', ⟨hRested.toResting.still hStill hPoised, fun he => ?_⟩,
    hRecorded.keep hStill.toAbides hStill.nodes_size rfl (fun _ hx => hx) fun _ hx => .inl hx, hSuffix,
    fun child hx => ?_⟩
  · rw [hRested.signal_eq hStill]
    exact hRested.current he
  · rw [hStill.config, hStill.clock]
    exact hChild child hx

section Steps

variable (hClient : client.Quiet) (depth : Nat)
variable (hBuilds : ∀ n, Builds (Calls.upTo client (depth + 2 + n)) factory w)
include hClient hBuilds

/-- A value that is passed to the conditional is followed. -/
theorem Resting.receives (h : Resting client l f c x order last true w)
    (hLets : l.config.grace = none ∨ client.LetsGo f.box)
    (hRecorded : Recorded client factory l₀ l x makings) (n : Nat) :
    After ((Calls.upTo client (depth + 3 + n)).receive (.conditional c) (l.valueOf f.signal)) l
      fun _ l' => Abides l l' w ∧ Continues client factory l₀ l' f c x makings
        (some (l.clock.now, l.valueOf f.signal)) true w := by
  have hDepth : depth + 3 + n = (depth + n + 2) + 1 := by omega
  have hBuilds' : Builds (Calls.upTo client (depth + n + 2)) factory w := by
    rw [show depth + n + 2 = depth + 2 + n by omega]
    exact hBuilds n
  rw [hDepth]
  change After (attempt (setVisible (Calls.upTo client (depth + n + 2)) c
    (l.valueOf f.signal).truthy)) l _
  rw [after_attempt]
  cases hValue : (l.valueOf f.signal).truthy with
  | true => exact setVisible_true hClient _ h.toShowing hRecorded hBuilds' hValue
  | false => exact setVisible_false hClient _ h hLets hRecorded hValue

/-- A motion leaves the conditional alone, or it follows the value that is delivered. -/
theorem Rested.moves (h : Rested client l f c x order last on w) (hSink : f.sink = .conditional c)
    (hLets : l.config.grace = none ∨ client.LetsGo f.box)
    (hRecorded : Recorded client factory l₀ l x makings) {m : Motion}
    (hProper : m.Proper l f x.child.toList) :
    After (m.run (Calls.upTo client (depth + 4)) f) l fun _ l' => Abides l l' w ∧
      ∃ on', Continues client factory l₀ l' f c x makings (m.last f l l' last) on' w := by
  have hStart : Abides l (m.start f l) w ∧ (m.start f l).dom = l.dom ∧ (m.start f l).clock = l.clock ∧
      Resting client (m.start f l) f c x order last on w := by
    cases m with
    | set value => exact ⟨given_abides l _ _, rfl, rfl, h.toResting.given _ _⟩
    | _ => exact ⟨Abides.refl l, rfl, rfl, h.toResting⟩
  obtain ⟨hAbides, hDom, hClock, hResting⟩ := hStart
  obtain ⟨-, hMoves⟩ := h.toPoised.moves hClient (depth + 1) hProper
  refine hMoves.mono ?_
  rintro _ l' (⟨hStill, hNot, on', hPoised, hOn⟩ | ⟨⟨n, l₁, hStill₁, hPoised₁, hReceive⟩, hDelivers⟩)
  · have hAbides' := hAbides.trans hStill.toAbides
    have hResting' := hResting.still hStill hPoised
    refine ⟨hAbides', on', ?_⟩
    rw [Motion.last, hNot, if_neg Bool.false_ne_true]
    refine ⟨x, order, makings, ⟨hResting', fun he => ?_⟩, hRecorded.keep hAbides' ?_ rfl (fun _ hx => hx)
      fun _ hx => .inl hx, List.suffix_refl _, fun _ hx => ⟨rfl, .inl hx⟩⟩
    · obtain ⟨hTrue, hSame⟩ := hOn he
      rw [h.current hTrue, hResting.signal_eq hStill, hSame]
    · rw [hStill.nodes_size, hDom]
  · have hAbides₁ := hAbides.trans hStill₁.toAbides
    have hRecorded₁ : Recorded client factory l₀ l₁ x makings :=
      hRecorded.keep hAbides₁ (by rw [hStill₁.nodes_size, hDom]) rfl (fun _ hx => hx)
        fun _ hx => .inl hx
    have hDone := (hResting.still hStill₁ hPoised₁).receives hClient depth hBuilds
      (hAbides₁.config ▸ hLets) hRecorded₁ n
    rw [hSink, ← hResting.signal_eq hStill₁, show depth + 1 + 2 + n = depth + 3 + n by omega] at hReceive
    obtain ⟨hRest, hAbides₂, hContinues⟩ := hReceive.and hDone
    obtain ⟨hStill', hContinues'⟩ := hContinues.still fun rs order => hRest hAbides₂ rs order
    refine ⟨hAbides₁.trans (hAbides₂.trans hStill'.toAbides), true, ?_⟩
    obtain ⟨_, _, _, hRested, -⟩ := id hContinues'
    have hValue := hRested.current rfl
    rw [Motion.last, if_pos (hDelivers _ _ hRested.toPoised), ← hClock, ← hStill₁.clock,
      ← Option.some.inj hValue]
    exact hContinues'

end Steps

/-! ## The time -/

/-- While the time moves to a limit, a child may be lost whose grace is over by then. -/
structure Aging (client : Client κ σ) (factory : NodeFactory κ) (l₀ l l' : Live κ σ) (f : Follower κ)
    (c : ConditionalId) (x : Conditional κ) (makings : List (Making Unit κ σ))
    (last : Option (Nat × Value)) (on : Bool) (limit : Nat) (w : Leeway κ) : Prop where
  abides : Abides l l' w
  value : l'.valueOf f.signal = l.valueOf f.signal
  showing : ∃ x' order', Showing client l' f c x' order' last on w ∧
    Recorded client factory l₀ l' x' makings ∧ ∀ child, x.child = some child →
      x'.child = some child ∨ x'.child = none ∧ Overdue l'.config.grace last limit

namespace Aging

variable {limit : Nat}

/-- What waits for its time may change, but for the timer of the conditional. -/
theorem aside (h : Aging client factory l₀ l l₁ f c x makings last on limit w) (s : σ)
    (clock : Clock κ) (hClock : l₁.clock.Ordered c → clock.Ordered c)
    (hGraces : clock.graces c = l₁.clock.graces c) :
    Aging client factory l₀ l { l₁ with client := s, clock } f c x makings last on limit w := by
  obtain ⟨x', order', hShowing, hRecorded, hChild⟩ := h.showing
  obtain ⟨hAbides, hPoised⟩ := hShowing.toPoised.aside s clock l₁.conditionals l₁.switches
  obtain ⟨timer, hTimers, hTimer⟩ := hShowing.timer
  have hShowing' : Showing client { l₁ with client := s, clock } f c x' order' last on w :=
    ⟨hPoised, hShowing.there, hShowing.box, hShowing.visible, hShowing.kept, hShowing.shown,
      hShowing.hidden, hClock hShowing.clock, timer, hGraces.trans hTimers, hTimer⟩
  exact ⟨h.abides.trans hAbides, h.value, x', order', hShowing',
    hRecorded.keep hAbides rfl rfl (fun _ hx => hx) fun _ hx => .inl hx, hChild⟩

theorem clock (h : Aging client factory l₀ l l₁ f c x makings last on limit w) :
    l₁.clock.Ordered c := by
  obtain ⟨_, _, hShowing, -⟩ := h.showing
  exact hShowing.clock

section Rounds

variable (hClient : client.Quiet) (hTame : client.Tame) (depth : Nat) {timer : Timer κ}
variable {timers : List (Timer κ)}
include hClient

/-- The timer of the conditional ends the grace of its child. -/
theorem endsGrace (h : Aging client factory l₀ l l₁ f c x makings last on limit w)
    (hTimers : l₁.clock.timers = timer :: timers) (hTask : timer.task = .endGrace c)
    (hDue : timer.due ≤ limit) :
    After (endGrace (Calls.upTo client (depth + 2)) c)
      { l₁ with clock := { l₁.clock with now := timer.due, timers } } fun _ l' =>
        Aging client factory l₀ l l' f c x makings last on limit w ∧ l'.clock.timers = timers := by
  obtain ⟨x', order', hShowing, hRecorded, hKept⟩ := h.showing
  let clock : Clock κ := { l₁.clock with now := timer.due, timers }
  let l₂ : Live κ σ := { l₁ with
    clock, conditionals := l₁.conditionals.modify c fun x => { x with timer := none } }
  -- it is the only timer of the conditional, so a child is hidden
  obtain ⟨waiting, hGraces, hTimer, hDeadline⟩ := hShowing.timer
  have hOwn : timer.task.endsGrace c = true := by
    rw [hTask]
    exact beq_self_eq_true c
  rw [Clock.graces, hTimers, List.filter_cons_of_pos (by exact hOwn)] at hGraces
  obtain ⟨rfl, hNone⟩ : waiting = some timer ∧ clock.graces c = [] := by
    cases waiting with
    | none => cases hGraces
    | some other =>
      obtain ⟨rfl, hNil⟩ := List.cons_eq_cons.mp hGraces
      exact ⟨rfl, hNil⟩
  obtain ⟨r, delay, hChild, hVisible, hGrace, hOver⟩ : ∃ r delay, x'.child = some r ∧
      x'.visible = false ∧ l₁.config.grace = some delay ∧ Overdue l₁.config.grace last limit := by
    rw [Conditional.deadline?] at hDeadline
    split at hDeadline
    · rename_i hHidden
      rw [Bool.and_eq_true, Bool.not_eq_true'] at hHidden
      obtain ⟨r, hChild⟩ := Option.isSome_iff_exists.mp hHidden.1
      obtain ⟨delay, hGrace, hLast⟩ := Option.bind_eq_some_iff.mp hDeadline.symm
      obtain ⟨given, rfl, hEnd⟩ := Option.map_eq_some_iff.mp hLast
      have hFalse := hShowing.visible
      rw [hHidden.2] at hFalse
      exact ⟨r, delay, hChild, hHidden.2, hGrace, given.1, given.2, delay, rfl, hFalse.symm, hGrace,
        hEnd ▸ hDue⟩
    · cases hDeadline
  obtain rfl := hShowing.hidden hVisible (.inl (by simp [hGrace]))
  have hLess := hShowing.clock.less (hTimers ▸ List.sublist_cons_self timer timers)
  have hOrdered : clock.Ordered c := ⟨hLess.sorted, hLess.tasks, hLess.microtasks⟩
  have hThere₂ : l₂.conditional? c = some { x' with timer := none } :=
    (conditional?_modify l₁ c c _).trans (by rw [if_pos rfl, hShowing.there]; rfl)
  obtain ⟨hAbides₂, hPoised₂⟩ :=
    hShowing.toPoised.aside l₁.client clock l₂.conditionals l₁.switches
  rw [hChild] at hPoised₂
  unfold endGrace
  refine After.bind (m := fun _ l₃ => l₃ = l₂) rfl ?_
  rintro _ _ rfl
  rw [after_bind, after_get, hThere₂, Option.any_some, hVisible, Bool.not_false, if_pos rfl,
    after_attempt]
  refine (discardChild_discards hClient depth hPoised₂ hThere₂ hChild).mono fun _ l' hD => ?_
  have hAbides := hAbides₂.trans hD.abides
  have hGone : Recorded client factory l₀ l' { x' with timer := none, child := none } makings := by
    refine hRecorded.keep hAbides hD.nodes_size rfl (fun _ hx => by cases hx) fun child hx => .inr ?_
    rw [hChild] at hx
    exact Option.some.inj hx ▸ hD.destroyed
  refine ⟨⟨h.abides.trans hAbides, hD.value.trans h.value, { x' with timer := none, child := none },
    [], ⟨hD.poised, hD.there, hShowing.box, hShowing.visible, fun hShown => ?_, fun _ _ => rfl,
      fun _ _ => rfl, hD.clock ▸ hOrdered, none, hD.clock ▸ hNone, rfl, rfl⟩, hGone, fun child hx => ?_⟩,
    congrArg Clock.timers hD.clock⟩
  · change x'.visible = true at hShown
    rw [hVisible] at hShown
    cases hShown
  · exact .inr ⟨rfl, hAbides.config.symm ▸ hOver⟩

include hTame

/-- A timer runs. -/
theorem runs (h : Aging client factory l₀ l l₁ f c x makings last on limit w)
    (hTimers : l₁.clock.timers = timer :: timers) (hDue : timer.due ≤ limit) :
    After ((Calls.upTo client (depth + 3)).run timer.task)
      { l₁ with clock := { l₁.clock with now := timer.due, timers } } fun _ l' =>
        Aging client factory l₀ l l' f c x makings last on limit w ∧ l'.clock.timers = timers := by
  rcases h.clock.tasks timer (hTimers ▸ List.mem_cons_self) with hTask | ⟨a, hTask⟩
  · rw [hTask]
    exact h.endsGrace hClient depth hTimers hTask hDue
  · have hOther : ¬ timer.task.endsGrace c = true := by
      rw [hTask]
      exact Bool.false_ne_true
    have hAside (s : σ) := h.aside s { l₁.clock with now := timer.due, timers }
      (fun hClock =>
        have hLess := hClock.less (hTimers ▸ List.sublist_cons_self timer timers)
        ⟨hLess.sorted, hLess.tasks, hLess.microtasks⟩)
      (by
        rw [Clock.graces, Clock.graces, hTimers]
        exact (List.filter_cons_of_neg (by exact hOther)).symm)
    obtain ⟨s, hRun⟩ := hTame (Calls.upTo client (depth + 2)) a
      { l₁ with clock := { l₁.clock with now := timer.due, timers } }
    rw [hTask]
    change Aging client factory l₀ l ((client.run (Calls.upTo client (depth + 2)) a).run _).2 f c x
      makings last on limit w ∧ _
    refine ⟨?_, congrArg (fun l => l.clock.timers) hRun⟩
    rw [hRun]
    exact hAside s

end Rounds

end Aging

/-- The time moves. A child is lost just if its grace is over then. -/
theorem Rested.advances (hClient : client.Quiet) (hTame : client.Tame) (depth : Nat)
    (h : Rested client l f c x order last on w)
    (hRecorded : Recorded client factory l₀ l x makings) (delay : Nat) :
    After (advance (Calls.upTo client (depth + 3)) delay) l fun _ l' => Abides l l' w ∧
      Continues client factory l₀ l' f c x makings last on w := by
  have hStart : Aging client factory l₀ l l f c x makings last on (l.clock.now + delay) w :=
    ⟨Abides.refl l, rfl, x, order, h.toShowing, hRecorded, fun _ hx => .inl hx⟩
  refine (advance_keeps
    (K := fun l' => Aging client factory l₀ l l' f c x makings last on (l.clock.now + delay) w)
    hTame (depth + 2) delay (fun _ h₁ => h₁.clock.microtasks) ?_
    (fun _ _ _ h₁ hTimers hDue => h₁.runs hClient hTame depth hTimers hDue) hStart).mono ?_
  · rintro l₁ _ h₁ ⟨s, microtasks, hLess, rfl⟩
    exact h₁.aside s _ (fun hClock => ⟨hClock.sorted, hClock.tasks, fun t ht =>
      hClock.microtasks t (hLess t ht)⟩) rfl
  rintro _ _ ⟨l₂, h₂, hLate, rfl⟩
  have hClock := h₂.clock
  obtain ⟨hAbides, hValue, x', order', hShowing, hRecorded', hChild⟩ :=
    h₂.aside l₂.client { l₂.clock with now := l.clock.now + delay }
      (fun hClock => ⟨hClock.sorted, hClock.tasks, hClock.microtasks⟩) rfl
  refine ⟨hAbides, x', order', makings, ⟨⟨hShowing, fun given hGiven => ?_, fun hSome hOver => ?_⟩,
    fun he => ?_⟩, hRecorded', List.suffix_refl _, fun child hx => ⟨rfl, hChild child hx⟩⟩
  · exact Nat.le_trans (h.past given hGiven) (Nat.le_add_right _ _)
  · -- the timer of a child that is hidden that long is due
    obtain ⟨time, value, wait, rfl, hFalse, hGrace, hLe⟩ := hOver
    obtain ⟨timer, hGraces, -, hDeadline⟩ := hShowing.timer
    have hVisible : x'.visible = false := hShowing.visible.trans hFalse
    rw [Conditional.deadline?, hSome, hVisible, hGrace] at hDeadline
    obtain ⟨timer, rfl, hDue⟩ := Option.map_eq_some_iff.mp hDeadline
    have hMem : timer ∈ l₂.clock.timers :=
      (List.mem_filter.mp (hGraces ▸ List.mem_singleton_self timer : timer ∈ l₂.clock.graces c)).1
    cases hAll : l₂.clock.timers with
    | nil =>
      rw [hAll] at hMem
      cases hMem
    | cons first rest =>
      rw [hAll] at hMem hLate
      have hSorted := hAll ▸ hClock.sorted
      have hFirst : first.due ≤ timer.due := by
        rcases List.mem_cons.mp hMem with rfl | hRest
        · exact Nat.le_refl _
        · exact (List.pairwise_cons.mp hSorted).1 timer hRest
      have hLt := hLate first rfl
      change timer.due = time + wait at hDue
      change time + wait ≤ l.clock.now + delay at hLe
      omega
  · rw [hValue]
    exact h.current he

/-! ## Runs -/

/-- What is done to a conditional from outside. -/
inductive Turn where
  | move (motion : Motion)
  | advance (delay : Nat)

namespace Turn

def run (calls : Calls κ σ) (f : Follower κ) : Turn → LiveM κ σ Unit
  | move motion => motion.run calls f
  | advance delay => Live.advance calls delay

/-- The container is not put into itself or into a child that is kept. -/
def Proper (l : Live κ σ) (f : Follower κ) (c : ConditionalId) : Turn → Prop
  | move motion => motion.Proper l f ((l.conditional? c).bind (·.child)).toList
  | advance _ => True

/-- When a value was delivered last, and which one. -/
def latest (f : Follower κ) (l l' : Live κ σ) (before : Option (Nat × Value)) :
    Turn → Option (Nat × Value)
  | move motion => motion.last f l l' before
  | advance _ => before

end Turn

/-- Turns from the beginning on, one after the other, and the value that was delivered last. -/
inductive Turns (calls : Calls κ σ) (f : Follower κ) (c : ConditionalId) (l : Live κ σ) :
    Option (Nat × Value) → Live κ σ → Prop
  | start : Turns calls f c l none l
  | step {last : Option (Nat × Value)} {l₁ : Live κ σ} (h : Turns calls f c l last l₁) (t : Turn)
    (hProper : t.Proper l₁ f c) :
    Turns calls f c l (t.latest f l₁ ((t.run calls f).run l₁).2 last) ((t.run calls f).run l₁).2

/-- A conditional that was given no value yet. Its container reaches no document. -/
structure Vacant (l : Live κ σ) (f : Follower κ) (c : ConditionalId) (factory : NodeFactory κ)
    (w : Leeway κ) : Prop extends Poised l f [] [] false w where
  sink : f.sink = .conditional c
  there : l.conditional? c = some { box := f.box, factory }
  clock : l.clock.Ordered c
  graces : l.clock.graces c = []

theorem Vacant.rested (h : l.Vacant f c factory w) (client : Client κ σ) :
    Rested client l f c { box := f.box, factory } [] none false w where
  toPoised := h.toPoised
  there := h.there
  box := rfl
  visible := rfl
  kept hShown := by cases hShown
  shown _ _ := rfl
  hidden _ _ := rfl
  clock := h.clock
  timer := ⟨none, h.graces, rfl, rfl⟩
  past _ hGiven := by cases hGiven
  due hSome := by cases hSome
  current he := by cases he

/-- A new conditional is vacant, if only tasks of the client wait. -/
theorem newConditional_vacant {signal : SignalId} (h : l.Prepared signal w)
    (hOnly : ∀ f, w.spared f ↔ f = l.nextFollower signal (.conditional l.conditionals.size))
    (hSorted : l.clock.timers.Pairwise fun a b => a.due ≤ b.due)
    (hTimers : ∀ t ∈ l.clock.timers, ∃ a, t.task = .client a)
    (hMicrotasks : ∀ t ∈ l.clock.microtasks, ∃ a, t = .client a) (factory : NodeFactory κ) :
    After (newConditional calls signal factory).run l fun out l' =>
      (out = .ok (l.conditionals.size, l.dom.containers.size) ∧
        l'.dom = l.dom.createContainer.1) ∧
      l'.Vacant (l.nextFollower signal (.conditional l.conditionals.size)) l.conditionals.size
        factory w := by
  let c := l.conditionals.size
  let f := l.nextFollower signal (.conditional c)
  let l₁ : Live κ σ := { l with
    dom := l.dom.createContainer.1, conditionals := l.conditionals.push { box := f.box, factory } }
  obtain ⟨hBare, hFollowable⟩ : l₁.Bare f.box w ∧ l₁.Followable f w := h.bare _ rfl
  unfold newConditional
  refine After.sure_run (b := f.box) (t := { l with dom := l.dom.createContainer.1 }) rfl ?_
  refine After.get_act ?_
  refine After.act_ok (b := ⟨⟩) (m := (· = l₁)) ⟨rfl, rfl⟩ ?_
  rintro _ rfl
  change After (do
      let o ← observe (.container f.box)
      let _ ← sure (addHook o .destroy (.releaseConditional c))
      let _ ← bind calls (.container f.box) (.signal f.signal f.sink) false
      pure (c, f.box) : Act κ σ _).run l₁ _
  refine (hBare.followed hFollowable hOnly (.releaseConditional c) (c, f.box)).mono ?_
  rintro _ l' ⟨rfl, hPoised, tracked, observers, movers, subscriptions, bindings, hSame⟩
  have hThere : l'.conditional? c = some { box := f.box, factory } := by
    rw [hSame]
    exact Array.getElem?_push_size
  have hClock : l'.clock = l.clock := by rw [hSame]
  have hDom : l'.dom = l.dom.createContainer.1 := by rw [hSame]
  refine ⟨⟨rfl, hDom⟩, hPoised, rfl, hThere, ⟨?_, fun t ht => .inr ?_, ?_⟩, ?_⟩
  · rw [hClock]
    exact hSorted
  · rw [hClock] at ht
    exact hTimers t ht
  · rw [hClock]
    exact hMicrotasks
  · rw [hClock]
    refine List.filter_eq_nil_iff.mpr fun t ht => ?_
    obtain ⟨a, hTask⟩ := hTimers t ht
    rw [hTask]
    exact Bool.false_ne_true

theorem recorded_start (client : Client κ σ) (factory : NodeFactory κ) (l : Live κ σ)
    (box : ContainerId) : Recorded client factory l l { box, factory } [] where
  made := .nothing rfl
  factory := rfl
  known _ hm := by cases hm
  child _ hx := by cases hx
  gone _ hm := by cases hm
  apart := .nil

section Running

variable (hClient : client.Quiet) (hTame : client.Tame) (depth : Nat)
variable (hBuilds : ∀ n, Builds (Calls.upTo client (depth + 2 + n)) factory w)
include hClient hTame hBuilds

/-- What a turn does. -/
theorem Rested.turns (h : Rested client l f c x order last on w) (hSink : f.sink = .conditional c)
    (hLets : l.config.grace = none ∨ client.LetsGo f.box)
    (hRecorded : Recorded client factory l₀ l x makings) {t : Turn} (hProper : t.Proper l f c) :
    After (t.run (Calls.upTo client (depth + 4)) f) l fun _ l' => Abides l l' w ∧
      ∃ on', Continues client factory l₀ l' f c x makings (t.latest f l l' last) on' w := by
  cases t with
  | move m =>
    have hProper' : m.Proper l f x.child.toList := by
      rw [Turn.Proper, h.there] at hProper
      exact hProper
    exact h.moves hClient depth hBuilds hSink hLets hRecorded hProper'
  | advance delay =>
    exact (h.advances hClient hTame (depth + 1) hRecorded delay).mono fun _ _ hPost =>
      ⟨hPost.1, on, hPost.2⟩

/-- After every turn of a run. -/
theorem Turns.rested (h : Turns (Calls.upTo client (depth + 4)) f c l₀ last l)
    (h₀ : l₀.Vacant f c factory w) (hLets : l₀.config.grace = none ∨ client.LetsGo f.box) :
    Abides l₀ l w ∧ ∃ on x order makings, Rested client l f c x order last on w ∧
      Recorded client factory l₀ l x makings := by
  induction h with
  | start =>
    exact ⟨Abides.refl l₀, false, _, [], [], h₀.rested client, recorded_start client factory l₀ f.box⟩
  | step _ t hProper ih =>
    obtain ⟨hAbides, on, x, order, makings, hRested, hRecorded⟩ := ih
    obtain ⟨hAbides', on', x', order', makings', hRested', hRecorded', -⟩ :=
      hRested.turns hClient hTame depth hBuilds h₀.sink (hAbides.config ▸ hLets) hRecorded hProper
    exact ⟨hAbides.trans hAbides', on', x', order', makings', hRested', hRecorded'⟩

/-- Nodes and containers that are destroyed stay so whatever the conditional is told. -/
theorem Turns.destroyed (h : Turns (Calls.upTo client (depth + 4)) f c l₀ last l)
    (h₀ : l₀.Vacant f c factory w) (hLets : l₀.config.grace = none ∨ client.LetsGo f.box)
    {r : NodeRef} (hr : l₀.dom.Known r) (hState : l₀.stateOf r = .destroyed) :
    l.stateOf r = .destroyed :=
  (h.rested hClient hTame depth hBuilds h₀ hLets).1.destroyed r hr hState

end Running

/-! ## What is shown -/

section Running

variable (hClient : client.Quiet) (hConsents : client.Consents) (hTame : client.Tame) (depth : Nat)
variable (hBuilds : ∀ n, Builds (Calls.upTo client (depth + 2 + n)) factory w)
include hClient hConsents hTame hBuilds

end Running

end LiveMarkup.Live
