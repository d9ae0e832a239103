import LiveMarkup.Live.Clock
import Mathlib.Data.List.Induction
import Mathlib.Data.List.Nodup

/-!
# Journals of a clock

A journal lists what happened on a clock: what was queued and what ran, which timers were set,
cleared and fired, and which times were reached. From a journal one can tell which timers should be
waiting and what time it is. A note is right if it agrees with what one can tell from the journal
before it; a journal of right notes is punctual, which says what a whole run of the clock is like.

* `Journal.pending`, `Journal.time`: the timers that should be waiting, and the time;
* `Journal.Right`: whether a note agrees with the journal before it;
* `Journal.Accords.punctual`: what follows for the whole journal.
-/

namespace LiveMarkup.Live.Clock

variable {κ : Type}

/-- What is noted of a clock. A timer fires on the way to a limit and at a time, and an advance
reaches its limit; a drain ends with the number of microtasks that it ran. A look at the clock
shows the time and the number of timers that wait. -/
inductive Note (κ : Type) where
  | queued (task : Task κ)
  | ran (task : Task κ)
  | set (number : TimerId) (due : Nat) (task : Task κ)
  | cleared (number : TimerId) (found : Bool)
  | fired (number : TimerId) (due limit now : Nat) (task : Task κ)
  | looked (now waiting : Nat)
  | draining
  | drained (count : Nat)
  | reached (limit : Nat)

namespace Note

def queued? : Note κ → Option (Task κ)
  | queued task => some task
  | _ => none

def ran? : Note κ → Option (Task κ)
  | ran task => some task
  | _ => none

def set? : Note κ → Option (TimerId × Nat)
  | set number due _ => some (number, due)
  | _ => none

def fired? : Note κ → Option (TimerId × Nat)
  | fired number due _ _ _ => some (number, due)
  | _ => none

/-- The number of the timer that waits no longer. -/
def ended? : Note κ → Option TimerId
  | cleared number true => some number
  | fired number _ _ _ _ => some number
  | _ => none

/-- The time that it becomes. -/
def time? : Note κ → Option Nat
  | fired _ _ _ now _ => some now
  | reached limit => some limit
  | _ => none

def begins : Note κ → Bool
  | draining => true
  | _ => false

end Note

/-- The notes of a clock in the order of time. -/
abbrev Journal (κ : Type) := List (Note κ)

/-- A timer comes before another: it is due earlier, or together with it and was set earlier. -/
def Sooner (x y : TimerId × Nat) : Prop :=
  x.2 < y.2 ∨ x.2 = y.2 ∧ x.1 < y.1

namespace Journal

def queued (h : Journal κ) : List (Task κ) := h.filterMap Note.queued?

def ran (h : Journal κ) : List (Task κ) := h.filterMap Note.ran?

def sets (h : Journal κ) : List (TimerId × Nat) := h.filterMap Note.set?

def fired (h : Journal κ) : List (TimerId × Nat) := h.filterMap Note.fired?

/-- The numbers of the timers that fired or were cleared. -/
def ended (h : Journal κ) : List TimerId := h.filterMap Note.ended?

/-- The timers that were set and neither fired nor were cleared. -/
def pending (h : Journal κ) : List (TimerId × Nat) :=
  h.sets.filter fun x => !h.ended.contains x.1

def time (h : Journal κ) : Nat := (h.filterMap Note.time?).getLast?.getD 0

/-- The notes since the last drain began. -/
def lastDrain (h : Journal κ) : Journal κ := (h.reverse.takeWhile fun e => !e.begins).reverse

section Append

variable (h : Journal κ) (e : Note κ)

@[simp]
theorem queued_append (h' : Journal κ) : queued (h ++ h') = h.queued ++ queued h' :=
  List.filterMap_append

@[simp]
theorem ran_append (h' : Journal κ) : ran (h ++ h') = h.ran ++ ran h' :=
  List.filterMap_append

@[simp]
theorem sets_append (h' : Journal κ) : sets (h ++ h') = h.sets ++ sets h' :=
  List.filterMap_append

@[simp]
theorem fired_append (h' : Journal κ) : fired (h ++ h') = h.fired ++ fired h' :=
  List.filterMap_append

@[simp]
theorem ended_append (h' : Journal κ) : ended (h ++ h') = h.ended ++ ended h' :=
  List.filterMap_append

@[simp]
theorem queued_singleton : queued [e] = e.queued?.toList := by
  cases e <;> rfl

@[simp]
theorem ran_singleton : ran [e] = e.ran?.toList := by
  cases e <;> rfl

@[simp]
theorem sets_singleton : sets [e] = e.set?.toList := by
  cases e <;> rfl

@[simp]
theorem fired_singleton : fired [e] = e.fired?.toList := by
  cases e <;> rfl

@[simp]
theorem ended_singleton : ended [e] = e.ended?.toList := by
  rw [ended, List.filterMap_cons]
  cases e.ended? <;> rfl

theorem time_snoc : time (h ++ [e]) = e.time?.getD h.time := by
  rw [time, List.filterMap_append, List.filterMap_cons]
  cases e.time? <;> simp [time]

end Append

variable {h : Journal κ} {e : Note κ} {number : TimerId} {due : Nat} {x : TimerId × Nat}

theorem mem_pending : x ∈ h.pending ↔ x ∈ h.sets ∧ x.1 ∉ h.ended := by
  simp [pending]

theorem pending_set (task : Task κ) (hNew : number ∉ h.ended) :
    pending (h ++ [.set number due task]) = h.pending ++ [(number, due)] := by
  simp [pending, Note.set?, Note.ended?, hNew]

theorem pending_ended (hSet : e.set? = none) (hEnded : e.ended? = some number) :
    pending (h ++ [e]) = h.pending.filter fun x => !(x.1 == number) := by
  simp only [pending, sets_append, sets_singleton, hSet, Option.toList_none, List.append_nil,
    ended_append, ended_singleton, hEnded, Option.toList_some, List.filter_filter]
  apply List.filter_congr
  intro x _
  rw [Bool.and_comm, beq_eq_decide]
  simp

theorem queued_other (hQueued : e.queued? = none) : queued (h ++ [e]) = h.queued := by
  simp [hQueued]

theorem ran_other (hRan : e.ran? = none) : ran (h ++ [e]) = h.ran := by
  simp [hRan]

theorem sets_other (hSet : e.set? = none) : sets (h ++ [e]) = h.sets := by
  simp [hSet]

theorem fired_other (hFired : e.fired? = none) : fired (h ++ [e]) = h.fired := by
  simp [hFired]

theorem time_other (hTime : e.time? = none) : time (h ++ [e]) = h.time := by
  rw [time_snoc, hTime]
  rfl

theorem pending_other (hSet : e.set? = none) (hEnded : e.ended? = none) :
    pending (h ++ [e]) = h.pending := by
  simp [pending, hSet, hEnded]

theorem mem_pending_of_append {h' : Journal κ} (hMem : x ∈ pending (h ++ h')) (hSet : x ∈ h.sets) :
    x ∈ h.pending := by
  rw [mem_pending] at hMem ⊢
  refine ⟨hSet, ?_⟩
  intro hEnded
  apply hMem.2
  rw [ended_append]
  exact List.mem_append_left _ hEnded

theorem lastDrain_append {h' : Journal κ} (hInside : ∀ e ∈ h', e.begins = false) :
    lastDrain (h ++ .draining :: h') = h' := by
  have hAll : ∀ e ∈ h'.reverse, (!e.begins) = true := by
    intro e he
    rw [hInside e (List.mem_reverse.mp he)]
    rfl
  rw [lastDrain, List.reverse_append, List.reverse_cons, List.append_assoc,
    List.takeWhile_append_of_pos hAll]
  simp [Note.begins]

/-! ## Right notes -/

/-- A note agrees with the journal before it; `bound` microtasks may run in one drain. -/
def Right (bound : Nat) (h : Journal κ) : Note κ → Prop
  | .queued _ => True
  | .ran task => h.queued[h.ran.length]? = some task
  | .set number due _ => (∀ x ∈ h.sets, x.1 < number) ∧ h.time ≤ due
  | .cleared number found => found = true ↔ number ∈ h.pending.map (·.1)
  | .fired number due limit now task => (number, due) ∈ h.pending ∧ .set number due task ∈ h ∧
      now = due ∧ due ≤ limit ∧ ∀ x ∈ h.fired, Sooner x (number, due)
  | .looked now waiting => now = h.time ∧ waiting = h.pending.length
  | .draining => True
  | .drained count => count = h.lastDrain.ran.length ∧ count ≤ bound ∧
      (count < bound → h.ran = h.queued)
  | .reached limit => ∀ x ∈ h.pending, limit < x.2

/-- All notes after a journal are right. -/
def Accords (bound : Nat) (h notes : Journal κ) : Prop :=
  ∀ before e after, notes = before ++ e :: after → Right bound (h ++ before) e

theorem accords_nil (bound : Nat) (h : Journal κ) : Accords bound h [] := by
  intro before e after hEq
  simp at hEq

theorem accords_singleton {bound : Nat} (hRight : Right bound h e) : Accords bound h [e] := by
  intro before e' after hEq
  cases before with
  | nil =>
    obtain ⟨rfl, -⟩ := List.cons.inj hEq
    rwa [List.append_nil]
  | cons y before => simp at hEq

theorem Accords.append {bound : Nat} {notes more : Journal κ} (hNotes : Accords bound h notes)
    (hMore : Accords bound (h ++ notes) more) : Accords bound h (notes ++ more) := by
  intro before e after hEq
  rcases List.append_eq_append_iff.mp hEq with ⟨mid, rfl, hMid⟩ | ⟨mid, rfl, hMid⟩
  · rw [← List.append_assoc]
    exact hMore mid e after hMid
  · cases mid with
    | nil => simpa using hMore [] e after hMid.symm
    | cons y mid =>
      obtain ⟨rfl, -⟩ := List.cons.inj hMid
      exact hNotes before _ mid rfl

/-! ## Whole journals -/

/-- What a journal of right notes is like as a whole: timers fire once and in order, each in the
first advance that goes as far as it is due, at the time at which it is due and with its own task; a
timer that is cleared while it waits never fires; and microtasks run in the order in which they
were queued, each of them once, a bounded number of them in each drain. -/
structure Punctual (bound : Nat) (h : Journal κ) : Prop where
  created : (h.sets.map (·.1)).Pairwise (· < ·)
  once : (h.fired.map (·.1)).Nodup
  ordered : h.fired.Pairwise Sooner
  onTime : ∀ before number due limit now task after,
    h = before ++ .fired number due limit now task :: after →
    .set number due task ∈ before ∧ now = due ∧ due ≤ limit ∧
      ∀ earlier passed later, before = earlier ++ .reached passed :: later →
        (number, due) ∈ sets earlier → passed < due
  fires : ∀ before limit after, h = before ++ .reached limit :: after →
    ∀ x ∈ sets before, x.2 ≤ limit → x ∈ fired before ∨ .cleared x.1 true ∈ before
  clears : ∀ before number found after, h = before ++ .cleared number found :: after →
    (found = true ↔ number ∈ (pending before).map (·.1)) ∧
      (found = true → number ∉ h.fired.map (·.1))
  counts : ∀ before now waiting after, h = before ++ .looked now waiting :: after →
    now = time before ∧ waiting = (pending before).length
  queue : ∀ before after, h = before ++ after → ran before <+: queued before
  drains : ∀ before inside count after,
    h = before ++ .draining :: inside ++ .drained count :: after →
    (∀ e ∈ inside, e.begins = false) →
    count = (ran inside).length ∧ count ≤ bound ∧
      (count < bound → ran (before ++ inside) = queued (before ++ inside))

namespace Accords

variable {bound : Nat}

theorem snoc (hAll : Accords bound [] (h ++ [e])) : Accords bound [] h ∧ Right bound h e := by
  constructor
  · intro before e' after hEq
    apply hAll before e' (after ++ [e])
    rw [hEq, List.append_assoc]
    rfl
  · exact hAll h e [] rfl

theorem before_of_append {h' : Journal κ} (hAll : Accords bound [] (h ++ h')) :
    Accords bound [] h := by
  intro before e' after hEq
  apply hAll before e' (after ++ h')
  rw [hEq, List.append_assoc]
  rfl

theorem fired_subset (hAll : Accords bound [] h) : ∀ x ∈ h.fired, x ∈ h.sets := by
  induction h using List.reverseRecOn with
  | nil =>
    intro x hx
    cases hx
  | append_singleton h e ih =>
    obtain ⟨hBefore, hRight⟩ := hAll.snoc
    intro x hx
    rw [fired_append, fired_singleton] at hx
    rw [sets_append]
    apply List.mem_append_left
    rcases List.mem_append.mp hx with hx | hx
    · exact ih hBefore x hx
    · cases e with
      | fired number due limit now task =>
        obtain rfl := List.mem_singleton.mp hx
        exact (mem_pending.mp hRight.1).1
      | _ => cases hx

theorem created (hAll : Accords bound [] h) : (h.sets.map (·.1)).Pairwise (· < ·) := by
  induction h using List.reverseRecOn with
  | nil => exact List.Pairwise.nil
  | append_singleton h e ih =>
    obtain ⟨hBefore, hRight⟩ := hAll.snoc
    rw [sets_append, sets_singleton, List.map_append]
    apply List.pairwise_append.mpr
    refine ⟨ih hBefore, ?_, ?_⟩
    · cases e <;> simp [Note.set?]
    · intro a ha b hb
      obtain ⟨x, hx, rfl⟩ := List.mem_map.mp ha
      cases e with
      | set number due task =>
        obtain rfl := List.mem_singleton.mp hb
        exact hRight.1 x hx
      | _ => cases hb

theorem ended_of_fired (hx : x ∈ h.fired) : x.1 ∈ h.ended := by
  obtain ⟨e, he, hFired⟩ := List.mem_filterMap.mp hx
  apply List.mem_filterMap.mpr
  refine ⟨e, he, ?_⟩
  cases e with
  | fired number due limit now task =>
    obtain rfl := Option.some.inj hFired
    rfl
  | _ => cases hFired

theorem ended_of_cleared (hMem : .cleared number true ∈ h) : number ∈ h.ended :=
  List.mem_filterMap.mpr ⟨_, hMem, rfl⟩

theorem cases_of_ended (hMem : number ∈ h.ended) :
    .cleared number true ∈ h ∨ ∃ due, (number, due) ∈ h.fired := by
  obtain ⟨e, he, hEnded⟩ := List.mem_filterMap.mp hMem
  cases e with
  | cleared n found =>
    cases found with
    | true =>
      obtain rfl := Option.some.inj hEnded
      exact .inl he
    | false => cases hEnded
  | fired n due limit now task =>
    obtain rfl := Option.some.inj hEnded
    exact .inr ⟨due, List.mem_filterMap.mpr ⟨_, he, rfl⟩⟩
  | _ => cases hEnded

theorem ended_subset (hAll : Accords bound [] h) : ∀ n ∈ h.ended, n ∈ h.sets.map (·.1) := by
  induction h using List.reverseRecOn with
  | nil =>
    intro n hn
    cases hn
  | append_singleton h e ih =>
    obtain ⟨hBefore, hRight⟩ := hAll.snoc
    intro n hn
    rw [ended_append, ended_singleton] at hn
    rw [sets_append, List.map_append]
    apply List.mem_append_left
    have hPending : ∀ x ∈ pending h, x.1 ∈ (sets h).map (·.1) := by
      intro x hx
      exact List.mem_map_of_mem (mem_pending.mp hx).1
    rcases List.mem_append.mp hn with hn | hn
    · exact ih hBefore n hn
    · cases e with
      | fired number due limit now task =>
        obtain rfl := List.mem_singleton.mp hn
        exact hPending _ hRight.1
      | cleared number found =>
        cases found with
        | true =>
          obtain rfl := List.mem_singleton.mp hn
          obtain ⟨x, hx, rfl⟩ := List.mem_map.mp (hRight.mp rfl)
          exact hPending x hx
        | false => cases hn
      | _ => cases hn

theorem once (hAll : Accords bound [] h) : (h.fired.map (·.1)).Nodup := by
  induction h using List.reverseRecOn with
  | nil => exact List.nodup_nil
  | append_singleton h e ih =>
    obtain ⟨hBefore, hRight⟩ := hAll.snoc
    rw [fired_append, fired_singleton, List.map_append]
    apply List.nodup_append.mpr
    refine ⟨ih hBefore, ?_, ?_⟩
    · cases e <;> simp [Note.fired?]
    · intro a ha b hb hEq
      obtain ⟨x, hx, rfl⟩ := List.mem_map.mp ha
      cases e with
      | fired number due limit now task =>
        obtain rfl := List.mem_singleton.mp hb
        have hEnded := ended_of_fired hx
        rw [hEq] at hEnded
        exact (mem_pending.mp hRight.1).2 hEnded
      | _ => cases hb

theorem ordered (hAll : Accords bound [] h) : h.fired.Pairwise Sooner := by
  induction h using List.reverseRecOn with
  | nil => exact List.Pairwise.nil
  | append_singleton h e ih =>
    obtain ⟨hBefore, hRight⟩ := hAll.snoc
    rw [fired_append, fired_singleton]
    apply List.pairwise_append.mpr
    refine ⟨ih hBefore, ?_, ?_⟩
    · cases e <;> simp [Note.fired?]
    · intro x hx y hy
      cases e with
      | fired number due limit now task =>
        obtain rfl := List.mem_singleton.mp hy
        exact hRight.2.2.2.2 x hx
      | _ => cases hy

/-- What was cleared while it waited never fires, neither before nor after. -/
theorem not_fired_of_cleared (hAll : Accords bound [] h) (hMem : .cleared number true ∈ h) :
    number ∉ h.fired.map (·.1) := by
  induction h using List.reverseRecOn with
  | nil => cases hMem
  | append_singleton h e ih =>
    obtain ⟨hBefore, hRight⟩ := hAll.snoc
    rw [fired_append, fired_singleton, List.map_append]
    intro hFired
    rcases List.mem_append.mp hMem with hEarly | hLast
    · have hEnded := ended_of_cleared hEarly
      rcases List.mem_append.mp hFired with hFired | hFired
      · exact ih hBefore hEarly hFired
      · cases e with
        | fired n due limit now task =>
          obtain rfl := List.mem_singleton.mp hFired
          exact (mem_pending.mp hRight.1).2 hEnded
        | _ => cases hFired
    · obtain rfl := List.mem_singleton.mp hLast
      rcases List.mem_append.mp hFired with hFired | hFired
      · obtain ⟨x, hx, hNumber⟩ := List.mem_map.mp (hRight.mp rfl)
        obtain ⟨y, hy, hEq⟩ := List.mem_map.mp hFired
        apply (mem_pending.mp hx).2
        rw [hNumber, ← hEq]
        exact ended_of_fired hy
      · cases hFired

theorem ran_prefix (hAll : Accords bound [] h) : h.ran <+: h.queued := by
  induction h using List.reverseRecOn with
  | nil => exact List.prefix_rfl
  | append_singleton h e ih =>
    obtain ⟨hBefore, hRight⟩ := hAll.snoc
    have hPrefix := ih hBefore
    cases e with
    | ran task =>
      have hNext : (queued h)[(ran h).length]? = some task := hRight
      obtain ⟨rest, hRest⟩ := hPrefix
      simp only [ran_append, queued_append, ran_singleton, queued_singleton]
      rw [← hRest, List.getElem?_append_right (Nat.le_refl _), Nat.sub_self] at hNext
      cases rest with
      | nil => cases hNext
      | cons t rest =>
        obtain rfl := Option.some.inj hNext
        refine ⟨rest, ?_⟩
        rw [← hRest]
        simp [Note.ran?, Note.queued?]
    | queued task =>
      simp only [ran_append, queued_append, ran_singleton, Note.ran?, Option.toList_none,
        List.append_nil]
      exact hPrefix.trans (List.prefix_append _ _)
    | _ => simpa [Note.ran?, Note.queued?] using hPrefix

section Notes

variable {before after : Journal κ} {limit : Nat}

/-- A timer fires after it was set, with the task that it was set for, when it is due, on the way to
a limit that is no earlier. No advance since it was set went as far as that. -/
theorem on_time {now : Nat} {task : Task κ} (hAll : Accords bound [] h)
    (hEq : h = before ++ .fired number due limit now task :: after) :
    .set number due task ∈ before ∧ now = due ∧ due ≤ limit ∧
      ∀ earlier passed later, before = earlier ++ .reached passed :: later →
        (number, due) ∈ sets earlier → passed < due := by
  obtain ⟨hPending, hSet, hNow, hLimit, -⟩ := hAll before _ after hEq
  rw [List.nil_append] at hPending hSet
  refine ⟨hSet, hNow, hLimit, ?_⟩
  intro earlier passed later hBefore hSet
  have hPassed : Right bound earlier (.reached passed) := by
    apply hAll earlier _ (later ++ .fired number due limit now task :: after)
    rw [hEq, hBefore, List.append_assoc]
    rfl
  apply hPassed (number, due)
  rw [hBefore] at hPending
  exact mem_pending_of_append hPending hSet

/-- When an advance ends, what is due by then has fired or was cleared. -/
theorem fired_or_cleared (hAll : Accords bound [] h) (hEq : h = before ++ .reached limit :: after)
    (hSet : x ∈ sets before) (hDue : x.2 ≤ limit) :
    x ∈ fired before ∨ .cleared x.1 true ∈ before := by
  have hReached : Right bound before (.reached limit) := hAll before _ after hEq
  rw [hEq] at hAll
  have hBefore := hAll.before_of_append
  have hEnded : x.1 ∈ ended before := by
    by_contra hNot
    have hLate := hReached x (mem_pending.mpr ⟨hSet, hNot⟩)
    omega
  rcases cases_of_ended hEnded with hCleared | ⟨due, hFired⟩
  · exact .inr hCleared
  · -- numbers are given once, so what fired with this number is this timer
    have hSame : (x.1, due) = x :=
      List.inj_on_of_nodup_map (hBefore.created.imp Nat.ne_of_lt)
        (hBefore.fired_subset _ hFired) hSet rfl
    rw [hSame] at hFired
    exact .inl hFired

/-- A drain counts what it runs. If it ran less than it might, nothing is left. -/
theorem drained {inside : Journal κ} {count : Nat} (hAll : Accords bound [] h)
    (hEq : h = before ++ .draining :: inside ++ .drained count :: after)
    (hInside : ∀ e ∈ inside, e.begins = false) :
    count = (ran inside).length ∧ count ≤ bound ∧
      (count < bound → ran (before ++ inside) = queued (before ++ inside)) := by
  obtain ⟨hCount, hBound, hRest⟩ := hAll (before ++ .draining :: inside) _ after hEq
  rw [List.nil_append] at hCount hRest
  rw [lastDrain_append hInside] at hCount
  refine ⟨hCount, hBound, ?_⟩
  intro hLess
  simpa [ran, queued, Note.ran?, Note.queued?, List.filterMap_cons] using hRest hLess

end Notes

/-- A journal of right notes is punctual. -/
theorem punctual (hAll : Accords bound [] h) : Punctual bound h where
  created := hAll.created
  once := hAll.once
  ordered := hAll.ordered
  onTime := by
    intro before number due limit now task after hEq
    exact hAll.on_time hEq
  fires := by
    intro before limit after hEq x hSet hDue
    exact hAll.fired_or_cleared hEq hSet hDue
  clears := by
    intro before number found after hEq
    refine ⟨hAll before _ after hEq, ?_⟩
    rintro rfl
    apply hAll.not_fired_of_cleared
    rw [hEq]
    simp
  counts := by
    intro before now waiting after hEq
    exact hAll before _ after hEq
  queue := by
    intro before after hEq
    rw [hEq] at hAll
    exact hAll.before_of_append.ran_prefix
  drains := by
    intro before inside count after hEq hInside
    exact hAll.drained hEq hInside

end Accords

end Journal

end LiveMarkup.Live.Clock
