import LiveMarkup.Proofs.Live.Scripts
import LiveMarkup.Proofs.Live.Session

/-!
# Where the time goes

Tasks may do more than set timers: they may drain the microtasks and move the time themselves, at
any depth. Every operation ends no earlier than it begins, and timers never fire in the past. All
the same the time can go back, in one way only: an advance that its own tasks have overtaken ends
at the time that it was given when it began.

* `Clock.Journal.moments`: the moments of a journal at which the time is set;
* `Clock.Passage`: what journals and clocks have to do with each other as the time goes on;
* `Clock.Script.onward_iff`: the time never goes back if and only if no advance is overtaken;
* `Clock.tenOClock_back`: how it goes back.
-/

namespace LiveMarkup.Live.Clock

variable {κ σ : Type} {Fine : Task κ → Prop} {l l' : Live κ σ} {h : Journal κ} {e : Note κ}

/-! ## Tearing down -/

/-! ## Moments -/

/-- A moment at which the time is set: a timer fires, or an advance ends. -/
inductive Moment where
  | fired (now : Nat)
  | ended (limit : Nat)
deriving DecidableEq

/-- The time that it becomes. -/
def Moment.time : Moment → Nat
  | fired now => now
  | ended limit => limit

/-- The moment that is noted. -/
def Note.moment? : Note κ → Option Moment
  | fired _ _ _ now _ => some (.fired now)
  | reached limit => some (.ended limit)
  | _ => none

/-- The moments of a journal at which the time is set. Those of the tasks that run in a drain or in
an advance are among them. -/
def Journal.moments (h : Journal κ) : List Moment := h.filterMap Note.moment?

theorem moments_other (hMoment : e.moment? = none) :
    Journal.moments (h ++ [e]) = h.moments := by
  simp [Journal.moments, hMoment]

theorem moments_snoc {m : Moment} (hMoment : e.moment? = some m) :
    Journal.moments (h ++ [e]) = h.moments ++ [m] := by
  simp [Journal.moments, hMoment]

/-! ## Along the moments -/

/-- The time after some moments. -/
def timeAfter (now : Nat) (moments : List Moment) : Nat :=
  moments.foldl (fun _ m => m.time) now

/-- Every moment meets a condition on the time before it. -/
def Along (P : Nat → Moment → Prop) : Nat → List Moment → Prop
  | _, [] => True
  | now, m :: rest => P now m ∧ Along P m.time rest

/-- A timer does not fire in the past. -/
def FiresOnward (now : Nat) : Moment → Prop
  | .fired later => now ≤ later
  | .ended _ => True

/-- An advance that ends was not overtaken by the tasks that ran in it. -/
def InTime (now : Nat) : Moment → Prop
  | .fired _ => True
  | .ended limit => now ≤ limit

section Along

variable {P : Nat → Moment → Prop} {now : Nat} {xs ys moments : List Moment}

@[simp]
theorem timeAfter_append : timeAfter now (xs ++ ys) = timeAfter (timeAfter now xs) ys :=
  List.foldl_append

theorem Along.append (hFirst : Along P now xs) (hRest : Along P (timeAfter now xs) ys) :
    Along P now (xs ++ ys) := by
  induction xs generalizing now with
  | nil => exact hRest
  | cons m xs ih => exact ⟨hFirst.1, ih hFirst.2 hRest⟩

/-- If timers do not fire in the past, only an advance that was overtaken takes the time back. -/
theorem pairwise_times_iff (hFires : Along FiresOnward now moments) :
    (now :: moments.map Moment.time).Pairwise (· ≤ ·) ↔ Along InTime now moments := by
  induction moments generalizing now with
  | nil => simp [Along]
  | cons m moments ih =>
    constructor
    · intro hAll
      obtain ⟨hFirst, hRest⟩ := List.pairwise_cons.mp hAll
      refine ⟨?_, (ih hFires.2).mp hRest⟩
      cases m with
      | fired => trivial
      | ended limit => exact hFirst limit List.mem_cons_self
    · intro hInTime
      have hRest := (ih hFires.2).mpr hInTime.2
      have hNow : now ≤ m.time := by
        cases m with
        | fired => exact hFires.1
        | ended limit => exact hInTime.1
      apply List.pairwise_cons.mpr
      refine ⟨?_, hRest⟩
      intro t ht
      rcases List.mem_cons.mp ht with rfl | ht
      · exact hNow
      · exact Nat.le_trans hNow ((List.pairwise_cons.mp hRest).1 t ht)

end Along

/-! ## What is to come -/

/-- Timers wait in the order in which they are due, and none of them is overdue. -/
structure Ahead (l : Live κ σ) : Prop where
  sorted : l.clock.timers.Pairwise fun a b => a.due ≤ b.due
  due : ∀ t ∈ l.clock.timers, l.clock.now ≤ t.due

/-- What becomes of the time from a start on: it is no earlier, with what is to come still ahead,
and no timer fired in the past. -/
structure Passage (start : Nat) (h : Journal κ) (l : Live κ σ) : Prop where
  ahead : Ahead l
  now : l.clock.now = timeAfter start h.moments
  onward : start ≤ l.clock.now
  fires : Along FiresOnward start h.moments

namespace Passage

variable {start : Nat} (hPassage : Passage start h l)
include hPassage

theorem of_sublist {h' : Journal κ} (hMoments : h'.moments = h.moments)
    (hNow : l'.clock.now = l.clock.now)
    (hTimers : l'.clock.timers.Sublist l.clock.timers) : Passage start h' l' where
  ahead := by
    refine ⟨hPassage.ahead.sorted.sublist hTimers, ?_⟩
    rw [hNow]
    exact fun t ht => hPassage.ahead.due t (hTimers.subset ht)
  now := by rw [hNow, hMoments, hPassage.now]
  onward := by
    rw [hNow]
    exact hPassage.onward
  fires := by
    rw [hMoments]
    exact hPassage.fires

theorem noted (hMoment : e.moment? = none) : Passage start (h ++ [e]) l :=
  hPassage.of_sublist (moments_other hMoment) rfl (.refl _)

theorem calmed (hCalmed : Calmed l l') : Passage start h l' := by
  rcases hCalmed.1 with hSame | hEmptied
  · exact hPassage.of_sublist rfl (by rw [hSame]) (by rw [hSame])
  · exact hPassage.of_sublist rfl (by rw [hEmptied]) (by rw [hEmptied]; exact List.nil_sublist _)

theorem queue (task : Task κ) :
    Passage start (h ++ [.queued task]) ((queueMicrotask task).run l).2 := by
  cases hTorn : l.tornDown with
  | true =>
    rw [run_queueMicrotask_torn hTorn]
    exact hPassage.noted rfl
  | false =>
    rw [run_queueMicrotask hTorn]
    exact hPassage.of_sublist (moments_other rfl) rfl (.refl _)

theorem set (delay : Nat) (task : Task κ) :
    Passage start (h ++ [.set ((setTimer delay task).run l).1 (l.clock.now + delay) task])
      ((setTimer delay task).run l).2 := by
  cases hTorn : l.tornDown with
  | true =>
    rw [run_setTimer_torn hTorn]
    exact hPassage.of_sublist (moments_other rfl) rfl (.refl _)
  | false =>
    rw [run_setTimer hTorn]
    obtain ⟨hAhead, hNow, hOnward, hFires⟩ := hPassage
    refine ⟨⟨insertTimer_sorted _ hAhead.sorted, ?_⟩, ?_, hOnward, ?_⟩
    · intro t ht
      rcases mem_insertTimer ht with rfl | ht
      · exact Nat.le_add_right _ _
      · exact hAhead.due t ht
    · rw [moments_other rfl]
      exact hNow
    · rw [moments_other rfl]
      exact hFires

/-- The first timer fires. -/
theorem fire {timer : Timer κ} {timers : List (Timer κ)} (limit : Nat)
    (hFirst : l.clock.timers = timer :: timers) :
    Passage start (h ++ [.fired timer.number timer.due limit timer.due timer.task])
      { l with clock := { l.clock with now := timer.due, timers } } := by
  obtain ⟨⟨hSorted, hAllDue⟩, hNow, hOnward, hFires⟩ := hPassage
  rw [hFirst] at hSorted hAllDue
  obtain ⟨hLater, hRest⟩ := List.pairwise_cons.mp hSorted
  have hDue : l.clock.now ≤ timer.due := hAllDue timer List.mem_cons_self
  refine ⟨⟨hRest, hLater⟩, ?_, Nat.le_trans hOnward hDue, ?_⟩
  · rw [moments_snoc rfl, timeAfter_append]
    rfl
  · rw [moments_snoc rfl]
    apply hFires.append
    rw [← hNow]
    exact ⟨hDue, trivial⟩

/-- An advance ends when nothing is due any more. -/
theorem reached {limit : Nat} (hLimit : start ≤ limit)
    (hLate : ∀ timer ∈ l.clock.timers.head?, limit < timer.due) :
    Passage start (h ++ [.reached limit])
      { l with clock := { l.clock with now := limit } } where
  ahead := by
    have hSorted := hPassage.ahead.sorted
    refine ⟨hSorted, ?_⟩
    cases hAll : l.clock.timers with
    | nil => simp
    | cons first rest =>
      rw [hAll] at hSorted hLate
      have hFirst : limit ≤ first.due := Nat.le_of_lt (hLate first rfl)
      intro t ht
      rcases List.mem_cons.mp ht with rfl | ht
      · exact hFirst
      · exact Nat.le_trans hFirst ((List.pairwise_cons.mp hSorted).1 t ht)
  now := by
    rw [moments_snoc rfl, timeAfter_append]
    rfl
  onward := hLimit
  fires := by
    rw [moments_snoc rfl]
    exact hPassage.fires.append ⟨trivial, trivial⟩

end Passage

theorem passage_law (start : Nat) : Law (σ := σ) Calm (Passage (κ := κ) start) where
  look hPassage := hPassage.noted rfl
  alter hCalm hPassage := hPassage.calmed (hCalm _)
  queue task hPassage := hPassage.queue task
  set delay task hPassage := hPassage.set delay task
  clear _ hPassage := hPassage.of_sublist (moments_other rfl) rfl List.filter_sublist
  draining hPassage := hPassage.noted rfl
  turn _ hPassage := hPassage.of_sublist (moments_other rfl) rfl (.refl _)
  fire hFirst _ hPassage := hPassage.fire _ hFirst

theorem passage_ends (start : Nat) (calls : Calls κ σ) (told : Report κ σ) :
    Ends calls told (Passage start) where
  drained _ _ hPassage := hPassage.noted rfl
  reached hLimit _ hBefore hPassage hLate :=
    hPassage.reached (Nat.le_trans hBefore.onward hLimit) hLate

/-- What is done on a clock, if it comes to an end, leaves what is to come ahead and ends no earlier
than it begins. From one of its moments to a later one the time never goes back if and only if no
advance ends that was overtaken by the tasks that ran in it. -/
theorem Script.onward_iff {scripts : Task κ → Script κ σ} {levels : Nat → Calls κ σ}
    (hScripted : Scripted Fine Calm scripts levels) (depth : Nat) {script : Script κ σ}
    (hProper : script.Proper Fine Calm) (hWaits : Waits Fine l) (hAhead : Ahead l)
    (hEnds : ((script.run (levels depth)).run l).2.overrun = false) :
    let moments := (script.notes (levels depth) (told scripts levels depth) l).moments
    let l' := ((script.run (levels depth)).run l).2
    Waits Fine l' ∧ Ahead l' ∧ l.clock.now ≤ l'.clock.now ∧
      l'.clock.now = timeAfter l.clock.now moments ∧
      ((l.clock.now :: moments.map Moment.time).Pairwise (· ≤ ·) ↔
        Along InTime l.clock.now moments) := by
  have hLaw := passage_law (κ := κ) (σ := σ) l.clock.now
  have hEnd : ∀ depth, Ends (levels depth) (told scripts levels depth) (Passage l.clock.now) :=
    fun depth => passage_ends _ _ _
  obtain ⟨hAfter, -, hKept⟩ := Script.adheres hLaw (hEnd depth) (fun _ => id)
    (fun _ => hScripted.adheres hLaw hEnd (fun _ => id) depth) hProper l hWaits
  have hPassage := hKept hEnds [] ⟨hAhead, rfl, Nat.le_refl _, trivial⟩
  rw [List.nil_append] at hPassage
  exact ⟨hAfter, hPassage.ahead, hPassage.onward, hPassage.now,
    pairwise_times_iff hPassage.fires⟩

/-- A client whose tasks move the time forward and then note what time it is. -/
def moving : Client Nat (List Nat) :=
  { Client.still with
    run := fun calls delay => do
      advance calls delay
      modify fun l => { l with client := l.client ++ [l.clock.now] } }

/-- What tasks of this client do. -/
def movingScript : Task Nat → Script Nat (List Nat)
  | .client delay =>
    .advance delay (.alter (modify fun l => { l with client := l.client ++ [l.clock.now] }) .done)
  | _ => .done

/-- Sets a task that moves the time for five o'clock, and advances until ten. -/
def tenOClock (delay : Nat) : Script Nat (List Nat) :=
  .set 5 (.client delay) fun _ => .advance 10 .done

/-- The moments of this script, at a depth of calls at which nothing is cut off. -/
def tenOClockMoments (delay : Nat) : List Moment :=
  ((tenOClock delay).notes (Calls.upTo moving 3) (told movingScript (Calls.upTo moving) 3)
    (create {} [])).moments

theorem tenOClock_onward :
    (((tenOClock 2).run (Calls.upTo moving 3)).run (create {} [])).2.overrun = false ∧
      (((tenOClock 2).run (Calls.upTo moving 3)).run (create {} [])).2.client = [7] ∧
      tenOClockMoments 2 = [.fired 5, .ended 7, .ended 10] ∧
      ((0 :: (tenOClockMoments 2).map Moment.time).Pairwise (· ≤ ·) ↔
        Along InTime 0 (tenOClockMoments 2)) := by
  have hScripted : Scripted (fun task => ∃ delay, task = .client delay) Calm movingScript
      (Calls.upTo moving) := by
    refine ⟨fun _ _ l => ⟨.inl rfl, fun _ => rfl⟩, ?_, ?_⟩
    · rintro depth _ ⟨delay, rfl⟩
      rfl
    · rintro _ ⟨delay, rfl⟩
      exact ⟨fun l => ⟨.inl rfl, id⟩, trivial⟩
  have hEnds : (((tenOClock 2).run (Calls.upTo moving 3)).run (create {} [])).2.overrun = false := by
    decide +kernel
  have hProper : (tenOClock 2).Proper (fun task => ∃ delay, task = .client delay) Calm :=
    ⟨⟨2, rfl⟩, fun _ => trivial⟩
  obtain ⟨-, -, -, -, hIff⟩ := Script.onward_iff (l := create {} []) hScripted 3 hProper
    ⟨by simp [create], by simp [create]⟩ ⟨by simp [create], by simp [create]⟩ hEnds
  exact ⟨hEnds, by decide +kernel, by decide +kernel, hIff⟩

/-- A task that moves on by a hundred at five o'clock sees a hundred and five, and the advance in
which it runs ends all the same at ten. -/
theorem tenOClock_back :
    (((tenOClock 100).run (Calls.upTo moving 3)).run (create {} [])).2.overrun = false ∧
      (((tenOClock 100).run (Calls.upTo moving 3)).run (create {} [])).2.client = [105] ∧
      (((tenOClock 100).run (Calls.upTo moving 3)).run (create {} [])).2.clock.now = 10 ∧
      tenOClockMoments 100 = [.fired 5, .ended 105, .ended 10] := by
  decide +kernel

end LiveMarkup.Live.Clock
