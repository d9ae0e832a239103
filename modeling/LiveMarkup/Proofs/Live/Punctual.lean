import LiveMarkup.Proofs.Live.Scripts
import LiveMarkup.Proofs.Live.Session

/-!
# Punctual clocks

The journal of a clock tells what the clock holds, and every note in it is right. Each step of a
clock keeps this, so it holds after everything that is done on a clock by a client whose tasks
queue microtasks, set timers and clear them, and the journal is punctual.

* `Clock.Tally`: a journal and a clock agree, and the journal is right so far;
* `Clock.Script.Plain`: scripts that neither drain the microtasks nor move the time;
* `Clock.tally_law`, `Clock.tally_ends`: every step, every drain and every advance keeps the tally;
* `Clock.Script.run_punctual`: what happens on a clock is punctual.
-/

namespace LiveMarkup.Live.Clock

open Journal

variable {κ σ : Type} {Fine : Task κ → Prop} {calls : Calls κ σ} {l l' : Live κ σ}
variable {bound : Nat} {h notes : Journal κ} {e : Note κ} {x y z : TimerId × Nat}

/-- A timer as a journal lists it. -/
def stamp (t : Timer κ) : TimerId × Nat := (t.number, t.due)

theorem Sooner.trans (hFirst : Sooner x y) (hSecond : Sooner y z) : Sooner x z := by
  rcases hFirst with hFirst | ⟨hFirst, hNumber⟩
  · rcases hSecond with hSecond | ⟨hSecond, -⟩
    · exact .inl (Nat.lt_trans hFirst hSecond)
    · exact .inl (hSecond ▸ hFirst)
  · rcases hSecond with hSecond | ⟨hSecond, hLater⟩
    · exact .inl (hFirst ▸ hSecond)
    · exact .inr ⟨hFirst.trans hSecond, Nat.lt_trans hNumber hLater⟩

theorem Sooner.le (hSooner : Sooner x y) : x.2 ≤ y.2 := by
  rcases hSooner with hLess | ⟨hEq, -⟩
  · exact Nat.le_of_lt hLess
  · exact Nat.le_of_eq hEq

theorem sooner_of_le (hDue : x.2 ≤ y.2) (hNumber : x.1 < y.1) : Sooner x y := by
  rcases Nat.lt_or_eq_of_le hDue with hLess | hEq
  · exact .inl hLess
  · exact .inr ⟨hEq, hNumber⟩

/-- A timer goes after those that are due no later, all of which were set before. -/
theorem insertTimer_sooner {timer : Timer κ} {timers : List (Timer κ)}
    (hSorted : (timers.map stamp).Pairwise Sooner) (hNew : ∀ t ∈ timers, t.number < timer.number) :
    ((insertTimer timer timers).map stamp).Pairwise Sooner := by
  induction timers with
  | nil => exact List.pairwise_singleton _ _
  | cons other rest ih =>
    obtain ⟨hFirst, hRest⟩ := List.pairwise_cons.mp hSorted
    unfold insertTimer
    split
    · rename_i hLe
      apply List.pairwise_cons.mpr
      refine ⟨?_, ih hRest fun t ht => hNew t (List.mem_cons_of_mem _ ht)⟩
      intro y hy
      obtain ⟨t, ht, rfl⟩ := List.mem_map.mp hy
      rcases mem_insertTimer ht with rfl | ht
      · exact sooner_of_le hLe (hNew other List.mem_cons_self)
      · exact hFirst _ (List.mem_map_of_mem ht)
    · rename_i hLater
      have hOther : Sooner (stamp timer) (stamp other) := .inl (Nat.lt_of_not_le hLater)
      apply List.pairwise_cons.mpr
      refine ⟨?_, hSorted⟩
      intro y hy
      rcases List.mem_cons.mp hy with rfl | hy
      · exact hOther
      · exact hOther.trans (hFirst y hy)

/-! ## Journals and clocks -/

/-- A journal and a clock agree. The journal is right so far; the clock shows its time and holds
the microtasks that have not run and the timers that should be waiting, in their order. All of them
are yet to come: they come after every timer that fired. -/
structure Tally (bound : Nat) (h : Journal κ) (l : Live κ σ) : Prop where
  alive : l.tornDown = false
  bounded : max 1 l.config.maxMicrotasks = bound
  right : Accords bound [] h
  now : l.clock.now = h.time
  microtasks : h.queued = h.ran ++ l.clock.microtasks
  timers : (l.clock.timers.map stamp).Perm h.pending
  stated : ∀ t ∈ l.clock.timers, .set t.number t.due t.task ∈ h
  sorted : (l.clock.timers.map stamp).Pairwise Sooner
  numbered : ∀ x ∈ h.sets, x.1 < l.clock.nextTimer
  ahead : ∀ x ∈ h.pending, h.time ≤ x.2
  past : ∀ x ∈ h.fired, x.2 ≤ h.time
  behind : ∀ x ∈ h.fired, ∀ y ∈ h.pending, Sooner x y

/-- Whether a note changes nothing about what one can tell from a journal. -/
def Note.isRemark : Note κ → Bool
  | cleared _ found => !found
  | looked _ _ => true
  | draining => true
  | drained _ => true
  | _ => false

namespace Tally

theorem right_snoc (hTally : Tally bound h l) (hRight : Right bound h e) :
    Accords bound [] (h ++ [e]) :=
  hTally.right.append (accords_singleton hRight)

theorem start (hClock : l.clock = {}) (hAlive : l.tornDown = false) :
    Tally (max 1 l.config.maxMicrotasks) [] l where
  alive := hAlive
  bounded := rfl
  right := accords_nil _ _
  now := by rw [hClock]; rfl
  microtasks := by rw [hClock]; rfl
  timers := by rw [hClock]; exact .refl _
  stated := by rw [hClock]; simp
  sorted := by rw [hClock]; exact .nil
  numbered := by simp [sets]
  ahead := by simp [pending, sets]
  past := by simp [fired]
  behind := by simp [fired]

/-- A note about microtasks alone, or about nothing, leaves the timers and the time as they are. -/
theorem unmoved (hTally : Tally bound h l) (hRight : Right bound h e) (hSet : e.set? = none)
    (hEnded : e.ended? = none) (hFired : e.fired? = none) (hTime : e.time? = none)
    {microtasks : List (Task κ)} (hQueue : queued (h ++ [e]) = ran (h ++ [e]) ++ microtasks) :
    Tally bound (h ++ [e]) { l with clock := { l.clock with microtasks } } where
  alive := hTally.alive
  bounded := hTally.bounded
  right := hTally.right_snoc hRight
  now := by rw [time_other hTime]; exact hTally.now
  microtasks := hQueue
  timers := by rw [pending_other hSet hEnded]; exact hTally.timers
  stated t ht := List.mem_append_left _ (hTally.stated t ht)
  sorted := hTally.sorted
  numbered := by rw [sets_other hSet]; exact hTally.numbered
  ahead := by rw [pending_other hSet hEnded, time_other hTime]; exact hTally.ahead
  past := by rw [fired_other hFired, time_other hTime]; exact hTally.past
  behind := by rw [fired_other hFired, pending_other hSet hEnded]; exact hTally.behind

theorem remark (hTally : Tally bound h l) (hRight : Right bound h e)
    (hRemark : e.isRemark = true) : Tally bound (h ++ [e]) l := by
  have hQueue : e.queued? = none → e.ran? = none →
      queued (h ++ [e]) = ran (h ++ [e]) ++ l.clock.microtasks := by
    intro hQueued hRan
    rw [queued_other hQueued, ran_other hRan]
    exact hTally.microtasks
  cases e with
  | cleared number found =>
    cases found with
    | true => cases hRemark
    | false => exact hTally.unmoved hRight rfl rfl rfl rfl (hQueue rfl rfl)
  | looked | draining | drained =>
    exact hTally.unmoved hRight rfl rfl rfl rfl (hQueue rfl rfl)
  | _ => cases hRemark

/-- Nothing but the clock, the bound and whether the document stands matters. -/
theorem of_same (hTally : Tally bound h l) (hClock : l'.clock = l.clock)
    (hConfig : l'.config = l.config) (hTorn : l'.tornDown = l.tornDown) : Tally bound h l' where
  alive := hTorn.trans hTally.alive
  bounded := by rw [hConfig]; exact hTally.bounded
  right := hTally.right
  now := by rw [hClock]; exact hTally.now
  microtasks := by rw [hClock]; exact hTally.microtasks
  timers := by rw [hClock]; exact hTally.timers
  stated := by rw [hClock]; exact hTally.stated
  sorted := by rw [hClock]; exact hTally.sorted
  numbered := by rw [hClock]; exact hTally.numbered
  ahead := hTally.ahead
  past := hTally.past
  behind := hTally.behind

theorem waiting (hTally : Tally bound h l) : l.clock.timers.length = h.pending.length := by
  rw [← hTally.timers.length_eq, List.length_map]

theorem queue (hTally : Tally bound h l) (task : Task κ) :
    Tally bound (h ++ [.queued task]) ((queueMicrotask task).run l).2 := by
  rw [run_queueMicrotask hTally.alive]
  apply hTally.unmoved (e := .queued task) trivial rfl rfl rfl rfl
  simp [Note.queued?, Note.ran?, hTally.microtasks]

theorem turn (hTally : Tally bound h l) {task : Task κ} {microtasks : List (Task κ)}
    (hFirst : l.clock.microtasks = task :: microtasks) :
    Tally bound (h ++ [.ran task]) { l with clock := { l.clock with microtasks } } := by
  have hQueue := hTally.microtasks
  rw [hFirst] at hQueue
  have hNext : Right bound h (.ran task) := by
    unfold Right
    rw [hQueue]
    simp
  apply hTally.unmoved hNext rfl rfl rfl rfl
  simp [Note.queued?, Note.ran?, hQueue]

theorem mem_timers (hTally : Tally bound h l) :
    x ∈ h.pending ↔ ∃ t ∈ l.clock.timers, stamp t = x := by
  rw [← hTally.timers.mem_iff, List.mem_map]

theorem distinct (hTally : Tally bound h l) : (l.clock.timers.map (·.number)).Nodup := by
  have hSets : (h.sets.map (·.1)).Nodup := hTally.right.created.imp Nat.ne_of_lt
  have hPending : (h.pending.map (·.1)).Nodup := hSets.sublist (List.filter_sublist.map _)
  have hSame : l.clock.timers.map (·.number) = (l.clock.timers.map stamp).map (·.1) := by
    rw [List.map_map]
    rfl
  rw [hSame]
  exact (hTally.timers.map _).nodup_iff.mpr hPending

theorem set (hTally : Tally bound h l) (delay : Nat) (task : Task κ) :
    Tally bound (h ++ [.set ((setTimer delay task).run l).1 (l.clock.now + delay) task])
      ((setTimer delay task).run l).2 := by
  rw [run_setTimer hTally.alive]
  have hDue : h.time ≤ l.clock.now + delay := by
    rw [hTally.now]
    exact Nat.le_add_right _ _
  have hNew : l.clock.nextTimer ∉ h.ended := by
    intro hEnded
    obtain ⟨x, hx, hNumber⟩ := List.mem_map.mp (hTally.right.ended_subset _ hEnded)
    exact Nat.ne_of_lt (hTally.numbered x hx) hNumber
  have hOlder : ∀ t ∈ l.clock.timers, t.number < l.clock.nextTimer := by
    intro t ht
    exact hTally.numbered _ (mem_pending.mp (hTally.mem_timers.mpr ⟨t, ht, rfl⟩)).1
  have hPending : pending (h ++ [.set l.clock.nextTimer (l.clock.now + delay) task]) =
      h.pending ++ [(l.clock.nextTimer, l.clock.now + delay)] := pending_set task hNew
  constructor
  case alive => exact hTally.alive
  case bounded => exact hTally.bounded
  case right => exact hTally.right_snoc ⟨hTally.numbered, hDue⟩
  case now => rw [time_other rfl]; exact hTally.now
  case microtasks => rw [queued_other rfl, ran_other rfl]; exact hTally.microtasks
  case timers =>
    rw [hPending]
    apply ((insertTimer_perm _ _).map stamp).trans
    apply (List.Perm.cons _ hTally.timers).trans
    exact (List.perm_append_singleton _ _).symm
  case stated =>
    intro t ht
    rcases mem_insertTimer ht with rfl | ht
    · exact List.mem_append_right _ List.mem_cons_self
    · exact List.mem_append_left _ (hTally.stated t ht)
  case sorted => exact insertTimer_sooner hTally.sorted hOlder
  case numbered =>
    intro x hx
    rw [sets_append] at hx
    rcases List.mem_append.mp hx with hx | hx
    · exact Nat.lt_succ_of_lt (hTally.numbered x hx)
    · obtain rfl := List.mem_singleton.mp hx
      exact Nat.lt_succ_self _
  case ahead =>
    rw [hPending, time_other rfl]
    intro x hx
    rcases List.mem_append.mp hx with hx | hx
    · exact hTally.ahead x hx
    · obtain rfl := List.mem_singleton.mp hx
      exact hDue
  case past => rw [fired_other rfl, time_other rfl]; exact hTally.past
  case behind =>
    rw [hPending]
    intro x hx y hy
    rw [fired_other rfl] at hx
    rcases List.mem_append.mp hy with hy | hy
    · exact hTally.behind x hx y hy
    · obtain rfl := List.mem_singleton.mp hy
      apply sooner_of_le
      · exact Nat.le_trans (hTally.past x hx) hDue
      · exact hTally.numbered x (hTally.right.fired_subset x hx)

theorem filter_stamps (timers : List (Timer κ)) (number : TimerId) :
    (timers.filter fun t => !(t.number == number)).map stamp =
      (timers.map stamp).filter fun x => !(x.1 == number) := by
  rw [List.filter_map]
  rfl

theorem clear (hTally : Tally bound h l) (number : TimerId) :
    Tally bound (h ++ [.cleared number ((clearTimer number).run l).1])
      ((clearTimer number).run l).2 := by
  rw [run_clearTimer]
  have hFound : l.clock.timers.any (·.number == number) = true ↔
      number ∈ h.pending.map (·.1) := by
    rw [← (hTally.timers.map _).mem_iff]
    simp [stamp]
  cases hAny : l.clock.timers.any (·.number == number) with
  | false =>
    have hSame : (l.clock.timers.filter fun t => !(t.number == number)) = l.clock.timers := by
      apply List.filter_eq_self.mpr
      intro t ht
      have hOther := List.any_eq_false.mp hAny t ht
      simpa using hOther
    rw [hSame]
    rw [hAny] at hFound
    exact hTally.remark hFound rfl
  | true =>
    rw [hAny] at hFound
    have hPending := pending_ended (h := h) (e := .cleared number true) rfl rfl
    have hLess : ∀ x ∈ pending (h ++ [.cleared number true]), x ∈ h.pending := by
      intro x hx
      rw [hPending] at hx
      exact (List.mem_filter.mp hx).1
    constructor
    case alive => exact hTally.alive
    case bounded => exact hTally.bounded
    case right => exact hTally.right_snoc hFound
    case now => rw [time_other rfl]; exact hTally.now
    case microtasks => rw [queued_other rfl, ran_other rfl]; exact hTally.microtasks
    case timers =>
      rw [hPending, filter_stamps]
      exact hTally.timers.filter _
    case stated =>
      intro t ht
      exact List.mem_append_left _ (hTally.stated t (List.mem_filter.mp ht).1)
    case sorted =>
      rw [filter_stamps]
      exact hTally.sorted.sublist List.filter_sublist
    case numbered => rw [sets_other rfl]; exact hTally.numbered
    case ahead =>
      rw [time_other rfl]
      intro x hx
      exact hTally.ahead x (hLess x hx)
    case past => rw [fired_other rfl, time_other rfl]; exact hTally.past
    case behind =>
      intro x hx y hy
      rw [fired_other rfl] at hx
      exact hTally.behind x hx y (hLess y hy)

/-- The timers that wait after the first one are those that should be waiting when it has fired. -/
theorem pending_fired (hTally : Tally bound h l) {limit : Nat} {timer : Timer κ}
    {timers : List (Timer κ)} (hFirst : l.clock.timers = timer :: timers) :
    (timers.map stamp).Perm
      (pending (h ++ [.fired timer.number timer.due limit timer.due timer.task])) := by
  have hDistinct := hTally.distinct
  have hTimers := hTally.timers
  rw [hFirst, List.map_cons] at hDistinct hTimers
  -- Numbers are different, so taking out this number takes out nothing but the first timer.
  have hOthers : (timers.map stamp).filter (fun x => !(x.1 == timer.number)) =
      timers.map stamp := by
    apply List.filter_eq_self.mpr
    intro x hx
    obtain ⟨t, ht, rfl⟩ := List.mem_map.mp hx
    have hOther : t.number ≠ timer.number := by
      intro hEq
      apply (List.nodup_cons.mp hDistinct).1
      rw [← hEq]
      exact List.mem_map_of_mem ht
    simpa [stamp] using hOther
  rw [pending_ended rfl rfl, ← hOthers]
  have hPerm := hTimers.filter fun x => !(x.1 == timer.number)
  rwa [List.filter_cons_of_neg (by simp [stamp])] at hPerm

/-- The first timer fires at the time at which it is due. -/
theorem fire (hTally : Tally bound h l) {limit : Nat} {timer : Timer κ}
    {timers : List (Timer κ)} (hFirst : l.clock.timers = timer :: timers)
    (hDue : timer.due ≤ limit) :
    Tally bound (h ++ [.fired timer.number timer.due limit timer.due timer.task])
      { l with clock := { l.clock with now := timer.due, timers } } := by
  have hWaits : stamp timer ∈ h.pending := by
    apply hTally.mem_timers.mpr
    rw [hFirst]
    exact ⟨timer, List.mem_cons_self, rfl⟩
  have hSorted := hTally.sorted
  rw [hFirst, List.map_cons] at hSorted
  obtain ⟨hSooner, hRest⟩ := List.pairwise_cons.mp hSorted
  have hPending : (timers.map stamp).Perm
      (pending (h ++ [.fired timer.number timer.due limit timer.due timer.task])) :=
    hTally.pending_fired hFirst
  have hLess : ∀ x ∈ pending (h ++ [.fired timer.number timer.due limit timer.due timer.task]),
      Sooner (stamp timer) x ∧ x ∈ h.pending := by
    intro x hx
    have hMem := hPending.mem_iff.mpr hx
    refine ⟨hSooner x hMem, ?_⟩
    apply hTally.timers.mem_iff.mp
    rw [hFirst]
    exact List.mem_cons_of_mem _ hMem
  constructor
  case alive => exact hTally.alive
  case bounded => exact hTally.bounded
  case right =>
    apply hTally.right_snoc
    refine ⟨hWaits, hTally.stated timer ?_, rfl, hDue, fun x hx => hTally.behind x hx _ hWaits⟩
    rw [hFirst]
    exact List.mem_cons_self
  case now => rw [time_snoc]; rfl
  case microtasks => rw [queued_other rfl, ran_other rfl]; exact hTally.microtasks
  case timers => exact hPending
  case stated =>
    intro t ht
    apply List.mem_append_left
    apply hTally.stated
    rw [hFirst]
    exact List.mem_cons_of_mem _ ht
  case sorted => exact hRest
  case numbered => rw [sets_other rfl]; exact hTally.numbered
  case ahead =>
    rw [time_snoc]
    intro x hx
    exact (hLess x hx).1.le
  case past =>
    rw [time_snoc, fired_append]
    intro x hx
    rcases List.mem_append.mp hx with hx | hx
    · exact Nat.le_trans (hTally.past x hx) (hTally.ahead _ hWaits)
    · obtain rfl := List.mem_singleton.mp hx
      exact Nat.le_refl _
  case behind =>
    rw [fired_append]
    intro x hx y hy
    rcases List.mem_append.mp hx with hx | hx
    · exact hTally.behind x hx y (hLess y hy).2
    · obtain rfl := List.mem_singleton.mp hx
      exact (hLess y hy).1

/-- When no timer is due any more, the time goes on to the limit. -/
theorem reach (hTally : Tally bound h l) {limit : Nat} (hLimit : l.clock.now ≤ limit)
    (hLate : ∀ timer ∈ l.clock.timers.head?, limit < timer.due) :
    Tally bound (h ++ [.reached limit]) { l with clock := { l.clock with now := limit } } := by
  have hPending := pending_other (h := h) (e := .reached limit) rfl rfl
  -- The first timer is due later than the limit, and all others come after it.
  have hAll : ∀ x ∈ h.pending, limit < x.2 := by
    intro x hx
    obtain ⟨t, ht, rfl⟩ := hTally.mem_timers.mp hx
    have hSorted := hTally.sorted
    cases hTimers : l.clock.timers with
    | nil =>
      rw [hTimers] at ht
      cases ht
    | cons first rest =>
      rw [hTimers] at ht hLate hSorted
      have hFirst : limit < first.due := hLate first rfl
      rcases List.mem_cons.mp ht with rfl | ht
      · exact hFirst
      · have hLe := ((List.pairwise_cons.mp hSorted).1 _ (List.mem_map_of_mem ht)).le
        exact Nat.lt_of_lt_of_le hFirst hLe
  constructor
  case alive => exact hTally.alive
  case bounded => exact hTally.bounded
  case right => exact hTally.right_snoc hAll
  case now => rw [time_snoc]; rfl
  case microtasks => rw [queued_other rfl, ran_other rfl]; exact hTally.microtasks
  case timers => rw [hPending]; exact hTally.timers
  case stated => exact fun t ht => List.mem_append_left _ (hTally.stated t ht)
  case sorted => exact hTally.sorted
  case numbered => rw [sets_other rfl]; exact hTally.numbered
  case ahead =>
    rw [hPending, time_snoc]
    intro x hx
    exact Nat.le_of_lt (hAll x hx)
  case past =>
    rw [fired_other rfl, time_snoc]
    intro x hx
    apply Nat.le_trans (hTally.past x hx)
    rwa [← hTally.now]
  case behind => rw [fired_other rfl, hPending]; exact hTally.behind

end Tally

/-! ## Plain tasks -/

/-- A script that neither drains the microtasks nor moves the time. -/
def Script.Plain : Script κ σ → Prop
  | .done => True
  | .look rest => ∀ l, (rest l).Plain
  | .alter _ rest => rest.Plain
  | .queue _ rest => rest.Plain
  | .set _ _ rest => ∀ number, (rest number).Plain
  | .clear _ rest => ∀ found, (rest found).Plain
  | .drain _ => False
  | .advance _ _ => False

/-- An operation that leaves the clock alone. -/
def Timeless (op : LiveM κ σ Unit) : Prop :=
  ∀ l, After op l fun _ l' => l'.clock = l.clock ∧ l'.config = l.config ∧
    l'.tornDown = l.tornDown ∧ (l.overrun = true → l'.overrun = true)

theorem Timeless.calm {op : LiveM κ σ Unit} (hTimeless : Timeless op) : Calm op := fun l =>
  ⟨.inl (hTimeless l).1, (hTimeless l).2.2.2⟩

/-- A note of nothing but work on the clock. -/
def Note.Inner (e : Note κ) : Prop :=
  e.begins = false ∧ e.ran? = none ∧ e.time? = none

theorem Script.Plain.inner {script : Script κ σ} (hPlain : script.Plain) (calls : Calls κ σ)
    (told : Report κ σ) (l : Live κ σ) : ∀ e ∈ script.notes calls told l, e.Inner := by
  induction script generalizing l with
  | done =>
    intro e he
    cases he
  | alter op rest ih => exact ih hPlain _
  | drain | advance => exact hPlain.elim
  | queue task rest ih =>
    exact List.forall_mem_cons.mpr ⟨⟨rfl, rfl, rfl⟩, ih hPlain _⟩
  | look rest ih | set delay task rest ih | clear number rest ih =>
    exact List.forall_mem_cons.mpr ⟨⟨rfl, rfl, rfl⟩, ih _ (hPlain _) _⟩

/-- What tasks note is nothing but their own work. -/
def Report.Inner (told : Report κ σ) : Prop :=
  ∀ task l, ∀ e ∈ told task l, e.Inner

theorem told_inner {scripts : Task κ → Script κ σ} (hPlain : ∀ task, (scripts task).Plain)
    (levels : Nat → Calls κ σ) (depth : Nat) : (told scripts levels depth).Inner := by
  intro task l
  cases depth with
  | zero =>
    intro e he
    cases he
  | succ depth => exact (hPlain task).inner _ _ l

namespace Report.Inner

variable {told : Report κ σ} (hTold : told.Inner)
include hTold

theorem ran_eq (task : Task κ) (l : Live κ σ) : ran (told task l) = [] :=
  List.filterMap_eq_nil_iff.mpr fun e he => (hTold task l e he).2.1

theorem turns (calls : Calls κ σ) (n : Nat) (l : Live κ σ) :
    ∀ e ∈ turnNotes calls told n l, e.begins = false ∧ e.time? = none := by
  induction n generalizing l with
  | zero =>
    intro e he
    cases he
  | succ n ih =>
    cases hAll : l.clock.microtasks with
    | nil =>
      rw [turnNotes_nil n hAll]
      intro e he
      cases he
    | cons task microtasks =>
      rw [turnNotes_cons n hAll]
      refine List.forall_mem_cons.mpr ⟨⟨rfl, rfl⟩, ?_⟩
      refine List.forall_mem_append.mpr ⟨?_, ih _⟩
      intro e he
      exact ⟨(hTold task _ e he).1, (hTold task _ e he).2.2⟩

/-- A drain counts what it runs; if it could have run more microtasks, it leaves none. -/
theorem count (calls : Calls κ σ) (n : Nat) (l : Live κ σ) :
    After (drainTo calls n) l fun count l' =>
      count = (ran (turnNotes calls told n l)).length ∧ count ≤ n ∧
        (count < n → l'.clock.microtasks = []) := by
  induction n generalizing l with
  | zero => exact ⟨rfl, Nat.le_refl 0, fun hLess => absurd hLess (Nat.lt_irrefl 0)⟩
  | succ n ih =>
    unfold After
    cases hAll : l.clock.microtasks with
    | nil =>
      rw [run_drainTo_nil n hAll, turnNotes_nil n hAll]
      exact ⟨rfl, Nat.zero_le _, fun _ => hAll⟩
    | cons task microtasks =>
      obtain ⟨hCount, hLe, hNone⟩ :=
        ih ((calls.run task).run { l with clock := { l.clock with microtasks } }).2
      rw [run_drainTo_cons n hAll, turnNotes_cons n hAll]
      refine ⟨?_, Nat.succ_le_succ hLe, fun hLess => hNone (Nat.lt_of_succ_lt_succ hLess)⟩
      have hRan : ∀ more : Journal κ, ran (.ran task :: more) = task :: ran more := fun _ => rfl
      rw [hRan, ran_append, hTold.ran_eq]
      exact congrArg Nat.succ hCount

theorem drain (calls : Calls κ σ) (l : Live κ σ) :
    ∀ e ∈ drainNotes calls told l, e.time? = none := by
  unfold drainNotes
  refine List.forall_mem_append.mpr ⟨List.forall_mem_cons.mpr ⟨rfl, ?_⟩, ?_⟩
  · exact fun e he => (hTold.turns calls _ l e he).2
  · exact List.forall_mem_singleton.mpr rfl

theorem fires (calls : Calls κ σ) (limit n : Nat) (l : Live κ σ) :
    ∀ e ∈ fireNotes calls told limit n l, ∀ now ∈ e.time?, now ≤ limit := by
  have hQuiet : ∀ {notes : Journal κ}, (∀ e ∈ notes, e.time? = none) →
      ∀ e ∈ notes, ∀ now ∈ e.time?, now ≤ limit := by
    intro notes hNotes e he now hNow
    rw [hNotes e he] at hNow
    cases hNow
  induction n generalizing l with
  | zero =>
    intro e he
    cases he
  | succ n ih =>
    have hCases := @runDue_cases κ σ calls limit n l
    rcases hCases with
      ⟨hLate, -⟩ | ⟨timer, timers, hFirst, hDue, -⟩
    · rw [fireNotes_late n hLate]
      intro e he
      cases he
    · rw [fireNotes_due n hFirst hDue]
      refine List.forall_mem_cons.mpr ⟨?_, List.forall_mem_append.mpr ⟨?_, ih _⟩⟩
      · intro now hNow
        obtain rfl := Option.some.inj hNow
        exact hDue
      · refine List.forall_mem_append.mpr ⟨?_, hQuiet (hTold.drain calls _)⟩
        exact hQuiet fun e he => (hTold timer.task _ e he).2.2

end Report.Inner

theorem time_append_le {limit : Nat} (hTime : h.time ≤ limit)
    (hNotes : ∀ e ∈ notes, ∀ now ∈ e.time?, now ≤ limit) : time (h ++ notes) ≤ limit := by
  induction notes generalizing h with
  | nil => rwa [List.append_nil]
  | cons e notes ih =>
    obtain ⟨hFirst, hRest⟩ := List.forall_mem_cons.mp hNotes
    rw [List.append_cons]
    apply ih _ hRest
    rw [time_snoc]
    cases hNow : e.time? with
    | none => exact hTime
    | some now => exact hFirst now hNow

/-! ## Whole runs -/

/-- Every step keeps a journal right. -/
theorem tally_law (bound : Nat) : Law (σ := σ) Timeless (Tally (κ := κ) bound) where
  look hTally := hTally.remark ⟨hTally.now, hTally.waiting⟩ rfl
  alter hTimeless hTally := hTally.of_same (hTimeless _).1 (hTimeless _).2.1 (hTimeless _).2.2.1
  queue task hTally := hTally.queue task
  set delay task hTally := hTally.set delay task
  clear number hTally := hTally.clear number
  draining hTally := hTally.remark trivial rfl
  turn hFirst hTally := hTally.turn hFirst
  fire hFirst hDue hTally := hTally.fire hFirst hDue

/-- Drains keep a journal right with the number of microtasks at their end, and advances with their
limit. -/
theorem tally_ends {told : Report κ σ} (hTold : told.Inner) (calls : Calls κ σ) (bound : Nat) :
    Ends calls told (Tally bound) where
  drained := by
    intro h l n hMost hBefore hTally
    obtain ⟨hCount, hLe, hNone⟩ := hTold.count calls n l
    have hBound : n = bound := hMost.trans hBefore.bounded
    apply hTally.remark ?_ rfl
    refine ⟨?_, ?_, ?_⟩
    · rw [List.append_assoc, List.singleton_append,
        lastDrain_append fun e he => (hTold.turns calls n l e he).1]
      exact hCount
    · exact Nat.le_trans hLe (Nat.le_of_eq hBound)
    · intro hLess
      rw [hTally.microtasks, hNone (Nat.lt_of_lt_of_eq hLess hBound.symm), List.append_nil]
  reached := by
    intro h l l₁ n limit hLimit _ hBefore hTally hLate
    apply hTally.reach ?_ hLate
    rw [hTally.now, List.append_assoc]
    apply time_append_le
    · rwa [← hBefore.now]
    · refine List.forall_mem_append.mpr ⟨?_, hTold.fires calls limit n l₁⟩
      intro e he now hNow
      rw [hTold.drain calls l e he] at hNow
      cases hNow

/-- What happens on a clock is punctual, if tasks queue microtasks, set timers and clear them but
neither drain the microtasks nor move the time. The journal of the whole run tells what the clock
holds in the end: the time, the microtasks that have not run and the timers that were set and
neither fired nor were cleared. -/
theorem Script.run_punctual {scripts : Task κ → Script κ σ} {levels : Nat → Calls κ σ}
    (hScripted : Scripted Fine Timeless scripts levels) (hPlain : ∀ task, (scripts task).Plain)
    (depth : Nat) {script : Script κ σ} (hProper : script.Proper Fine Timeless)
    (hClock : l.clock = {}) (hAlive : l.tornDown = false)
    (hEnds : ((script.run (levels depth)).run l).2.overrun = false) :
    let notes := script.notes (levels depth) (told scripts levels depth) l
    let l' := ((script.run (levels depth)).run l).2
    Punctual (max 1 l.config.maxMicrotasks) notes ∧ l'.clock.now = notes.time ∧
      notes.queued = notes.ran ++ l'.clock.microtasks ∧
      (l'.clock.timers.map stamp).Perm notes.pending := by
  have hWaits : Waits Fine l := by
    constructor
    · rw [hClock]
      simp
    · rw [hClock]
      simp
  have hLaw := tally_law (κ := κ) (σ := σ) (max 1 l.config.maxMicrotasks)
  have hEnd : ∀ depth, Ends (levels depth) (told scripts levels depth)
      (Tally (max 1 l.config.maxMicrotasks)) :=
    fun depth => tally_ends (told_inner hPlain levels depth) _ _
  have hCalm : ∀ op : LiveM κ σ Unit, Timeless op → Calm op := fun _ h => h.calm
  obtain ⟨-, -, hKept⟩ := Script.adheres hLaw (hEnd depth) hCalm
    (fun _ => hScripted.adheres hLaw hEnd hCalm depth) hProper l hWaits
  have hTally := hKept hEnds [] (Tally.start hClock hAlive)
  rw [List.nil_append] at hTally
  exact ⟨hTally.right.punctual, hTally.now, hTally.microtasks, hTally.timers⟩

/-- A client whose first task queues the second one, and sets it for later. -/
def echoing : Client Bool Unit :=
  { Client.still with
    run := fun _ first => do
      if first then
        queueMicrotask (.client false)
        let _ ← setTimer 7 (.client false) }

/-- What tasks of this client do. -/
def echoingScript : Task Bool → Script Bool Unit
  | .client true => .queue (.client false) (.set 7 (.client false) fun _ => .done)
  | _ => .done

/-- The first task is queued and set, and set once more and cleared; what waits is drained, and then
it becomes ten. -/
def echoes : Script Bool Unit :=
  .queue (.client true) (.set 5 (.client true) fun _ => .set 5 (.client true) fun number =>
    .clear number fun _ => .drain fun _ => .advance 10 .done)

/-- The notes of all this. -/
def echoNotes : Journal Bool :=
  echoes.notes (Calls.upTo echoing 2) (told echoingScript (Calls.upTo echoing) 2) (create {} ())

/-- The first task runs at once and when its timer fires. Each time it queues the second one, which
runs, and sets it for later, once in time. -/
theorem echoes_punctual : Punctual 1000 echoNotes ∧ echoNotes.time = 10 ∧
    echoNotes.fired = [(0, 5), (2, 7)] ∧ echoNotes.pending = [(3, 12)] ∧
    echoNotes.queued.length = 3 ∧ echoNotes.queued = echoNotes.ran := by
  have hScripted : Scripted (fun task => ∃ first, task = .client first) Timeless echoingScript
      (Calls.upTo echoing) := by
    refine ⟨fun _ _ l => ⟨rfl, rfl, rfl, fun _ => rfl⟩, ?_, ?_⟩
    · rintro depth _ ⟨first, rfl⟩
      cases first
      all_goals rfl
    · rintro _ ⟨first, rfl⟩
      cases first
      · trivial
      · exact ⟨⟨false, rfl⟩, ⟨false, rfl⟩, fun _ => trivial⟩
  have hPlain : ∀ task, (echoingScript task).Plain := by
    intro task
    unfold echoingScript
    split
    · exact fun _ => trivial
    · trivial
  have hProper : echoes.Proper (fun task => ∃ first, task = .client first) Timeless :=
    ⟨⟨true, rfl⟩, ⟨true, rfl⟩, fun _ => ⟨⟨true, rfl⟩, fun _ _ _ => trivial⟩⟩
  have hEnds : ((echoes.run (Calls.upTo echoing 2)).run (create {} ())).2.overrun = false := by
    decide +kernel
  have hNone : ((echoes.run (Calls.upTo echoing 2)).run (create {} ())).2.clock.microtasks = [] :=
    List.isEmpty_iff.mp (by decide +kernel)
  obtain ⟨hPunctual, -, hQueue, -⟩ := Script.run_punctual (l := create {} ()) hScripted hPlain 2
    hProper rfl rfl hEnds
  rw [hNone, List.append_nil] at hQueue
  exact ⟨hPunctual, by decide +kernel, by decide +kernel, by decide +kernel, by decide +kernel,
    hQueue⟩

end LiveMarkup.Live.Clock
