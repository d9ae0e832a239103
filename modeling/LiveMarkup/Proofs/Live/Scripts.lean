import LiveMarkup.Proofs.Live.Journal
import LiveMarkup.Proofs.Live.Running
import LiveMarkup.Proofs.Live.Timing

/-!
# What is done on a clock

The client works on a clock: it queues microtasks, sets timers and clears them, drains the
microtasks and moves the time, in any order and depending on what it sees. The tasks that run do
the same. A script says what is done step after step, and every step leaves its note, so a journal
can be read off a run.

* `Clock.Script`: what is done on a clock;
* `Clock.Script.notes`, `Clock.told`: the notes of a script, and of tasks at each depth of calls;
* `Clock.Law`: what every step keeps;
* `Clock.Scripted.adheres`: what every step keeps, whole scripts keep.
-/

namespace LiveMarkup.Live.Clock

variable {κ σ α β : Type} {Fine : Task κ → Prop} {calls : Calls κ σ} {l l' : Live κ σ}

/-! ## Scripts -/

/-- What is done on a clock, step after step; what one sees or gets decides how it goes on. To look
is to see the document with its clock, and to alter is to do something else with the document. -/
inductive Script (κ σ : Type) where
  | done
  | look (rest : Live κ σ → Script κ σ)
  | alter (op : LiveM κ σ Unit) (rest : Script κ σ)
  | queue (task : Task κ) (rest : Script κ σ)
  | set (delay : Nat) (task : Task κ) (rest : TimerId → Script κ σ)
  | clear (number : TimerId) (rest : Bool → Script κ σ)
  | drain (rest : Nat → Script κ σ)
  | advance (delay : Nat) (rest : Script κ σ)

/-- Does what a script says. -/
def Script.run (calls : Calls κ σ) : Script κ σ → LiveM κ σ Unit
  | done => pure ()
  | look rest => do
    let l ← get
    (rest l).run calls
  | alter op rest => do
    op
    rest.run calls
  | queue task rest => do
    queueMicrotask task
    rest.run calls
  | set delay task rest => do
    let number ← setTimer delay task
    (rest number).run calls
  | clear number rest => do
    let found ← clearTimer number
    (rest found).run calls
  | drain rest => do
    let count ← Live.drain calls
    (rest count).run calls
  | advance delay rest => do
    Live.advance calls delay
    rest.run calls

/-- What a script queues and sets are fine tasks, and what else it does is no work on the clock. -/
def Script.Proper (Fine : Task κ → Prop) (Other : LiveM κ σ Unit → Prop) : Script κ σ → Prop
  | done => True
  | look rest => ∀ l, (rest l).Proper Fine Other
  | alter op rest => Other op ∧ rest.Proper Fine Other
  | queue task rest => Fine task ∧ rest.Proper Fine Other
  | set _ task rest => Fine task ∧ ∀ number, (rest number).Proper Fine Other
  | clear _ rest => ∀ found, (rest found).Proper Fine Other
  | drain rest => ∀ count, (rest count).Proper Fine Other
  | advance _ rest => rest.Proper Fine Other

/-! ## Notes -/

/-- What tasks note, each from the state in which it runs. -/
abbrev Report (κ σ : Type) := Task κ → Live κ σ → Journal κ

section Notes

variable (calls : Calls κ σ) (told : Report κ σ)

/-- The notes of running at most `n` microtasks. -/
def turnNotes : Nat → Live κ σ → Journal κ
  | 0, _ => []
  | n + 1, l =>
    match popMicrotask.run l with
    | (none, _) => []
    | (some task, l₀) => .ran task :: (told task l₀ ++ turnNotes n ((calls.run task).run l₀).2)

/-- The notes of a drain. -/
def drainNotes (l : Live κ σ) : Journal κ :=
  .draining :: turnNotes calls told (max 1 l.config.maxMicrotasks) l ++
    [.drained ((drain calls).run l).1]

/-- The notes of running at most `n` timers that are due by a limit. -/
def fireNotes (limit : Nat) : Nat → Live κ σ → Journal κ
  | 0, _ => []
  | n + 1, l =>
    match (popTimer limit).run l with
    | (none, _) => []
    | (some timer, l₁) =>
      let l₀ := ((modifyClock fun c => { c with now := timer.due }).run l₁).2
      let l₂ := ((calls.run timer.task).run l₀).2
      .fired timer.number timer.due limit l₀.clock.now timer.task ::
        (told timer.task l₀ ++ drainNotes calls told l₂ ++ fireNotes limit n ((drain calls).run l₂).2)

/-- The notes of an advance. -/
def advanceNotes (delay : Nat) (l : Live κ σ) : Journal κ :=
  let limit := l.clock.now + delay
  let l₁ := ((drain calls).run l).2
  drainNotes calls told l ++
    fireNotes calls told limit (l₁.clock.timers.length + calls.fuel) l₁ ++ [.reached limit]

/-- The notes of a script from a state. -/
def Script.notes : Script κ σ → Live κ σ → Journal κ
  | done, _ => []
  | look rest, l => .looked l.clock.now l.clock.timers.length :: (rest l).notes l
  | alter op rest, l => rest.notes (op.run l).2
  | queue task rest, l => .queued task :: rest.notes ((queueMicrotask task).run l).2
  | set delay task rest, l =>
    let out := (setTimer delay task).run l
    .set out.1 (l.clock.now + delay) task :: (rest out.1).notes out.2
  | clear number rest, l =>
    let out := (clearTimer number).run l
    .cleared number out.1 :: (rest out.1).notes out.2
  | drain rest, l =>
    let out := (Live.drain calls).run l
    drainNotes calls told l ++ (rest out.1).notes out.2
  | advance delay rest, l =>
    advanceNotes calls told delay l ++ rest.notes ((Live.advance calls delay).run l).2

end Notes

/-- What tasks note that follow scripts, at each depth of calls. -/
def told (scripts : Task κ → Script κ σ) (levels : Nat → Calls κ σ) : Nat → Report κ σ
  | 0, _, _ => []
  | depth + 1, task, l => (scripts task).notes (levels depth) (told scripts levels depth) l

/-- Fine tasks follow scripts, each with the calls of one depth less; at the bound they do nothing
on the clock. -/
structure Scripted (Fine : Task κ → Prop) (Other : LiveM κ σ Unit → Prop)
    (scripts : Task κ → Script κ σ) (levels : Nat → Calls κ σ) : Prop where
  bound : ∀ task, Fine task → Other ((levels 0).run task)
  run : ∀ depth task, Fine task → (levels (depth + 1)).run task = (scripts task).run (levels depth)
  proper : ∀ task, Fine task → (scripts task).Proper Fine Other

/-! ## Steps -/

variable {told : Report κ σ}

theorem run_queueMicrotask (hAlive : l.tornDown = false) (task : Task κ) :
    (queueMicrotask task).run l =
      ((), { l with clock := { l.clock with microtasks := l.clock.microtasks ++ [task] } }) := by
  obtain ⟨⟩ := l
  subst hAlive
  rfl

theorem run_setTimer (hAlive : l.tornDown = false) (delay : Nat) (task : Task κ) :
    (setTimer delay task).run l =
      (l.clock.nextTimer, { l with clock :=
        { l.clock with
          nextTimer := l.clock.nextTimer + 1
          timers := insertTimer ⟨l.clock.now + delay, l.clock.nextTimer, task⟩ l.clock.timers } }) := by
  obtain ⟨⟩ := l
  subst hAlive
  rfl

theorem run_queueMicrotask_torn (hTorn : l.tornDown = true) (task : Task κ) :
    (queueMicrotask task).run l = ((), l) := by
  obtain ⟨⟩ := l
  subst hTorn
  rfl

theorem run_setTimer_torn (hTorn : l.tornDown = true) (delay : Nat) (task : Task κ) :
    (setTimer delay task).run l =
      (l.clock.nextTimer,
        { l with clock := { l.clock with nextTimer := l.clock.nextTimer + 1 } }) := by
  obtain ⟨⟩ := l
  subst hTorn
  rfl

theorem run_clearTimer (number : TimerId) (l : Live κ σ) :
    (clearTimer number).run l =
      (l.clock.timers.any (·.number == number), { l with clock :=
        { l.clock with timers := l.clock.timers.filter fun t => !(t.number == number) } }) := rfl

theorem run_drainTo_nil (n : Nat) (h : l.clock.microtasks = []) :
    (drainTo calls (n + 1)).run l = (0, l) := by
  obtain ⟨⟩ := l
  rename_i clock _ _ _ _ _
  obtain ⟨⟩ := clock
  subst h
  rfl

theorem run_drainTo_cons (n : Nat) {task : Task κ} {microtasks : List (Task κ)}
    (h : l.clock.microtasks = task :: microtasks) :
    (drainTo calls (n + 1)).run l = (do
      calls.run task
      let ran ← drainTo calls n
      pure (ran + 1) : LiveM κ σ Nat).run { l with clock := { l.clock with microtasks } } := by
  obtain ⟨⟩ := l
  rename_i clock _ _ _ _ _
  obtain ⟨⟩ := clock
  subst h
  rfl

theorem run_popTimer_due {limit : Nat} {timer : Timer κ} {timers : List (Timer κ)}
    (hAll : l.clock.timers = timer :: timers) (hDue : timer.due ≤ limit) :
    (popTimer limit).run l = (some timer, { l with clock := { l.clock with timers } }) := by
  obtain ⟨⟩ := l
  rename_i clock _ _ _ _ _
  obtain ⟨⟩ := clock
  subst hAll
  exact if_pos hDue

theorem run_popTimer_late {limit : Nat}
    (hLate : ∀ timer ∈ l.clock.timers.head?, limit < timer.due) :
    (popTimer limit).run l = (none, l) := by
  obtain ⟨⟩ := l
  rename_i clock _ _ _ _ _
  obtain ⟨⟩ := clock
  rename_i timers _
  cases timers with
  | nil => rfl
  | cons timer timers => exact if_neg (Nat.not_le_of_lt (hLate timer rfl))

/-- Either no timer is due, or the first one runs, the microtasks are drained, and it goes on. -/
theorem runDue_cases (limit n : Nat) (l : Live κ σ) :
    ((∀ timer ∈ l.clock.timers.head?, limit < timer.due) ∧
      (runDue calls limit (n + 1)).run l = ((), l)) ∨
    ∃ timer timers, l.clock.timers = timer :: timers ∧ timer.due ≤ limit ∧
      (runDue calls limit (n + 1)).run l = (do
        calls.run timer.task
        let _ ← drain calls
        runDue calls limit n : LiveM κ σ Unit).run
          { l with clock := { l.clock with now := timer.due, timers } } := by
  by_cases hLate : ∀ timer ∈ l.clock.timers.head?, limit < timer.due
  · left
    refine ⟨hLate, ?_⟩
    rw [runDue, StateT.run_bind, run_popTimer_late hLate]
    rfl
  · right
    cases hAll : l.clock.timers with
    | nil => exact absurd (by simp [hAll]) hLate
    | cons timer timers =>
      have hDue : timer.due ≤ limit := by
        rw [hAll] at hLate
        simpa using hLate
      refine ⟨timer, timers, rfl, hDue, ?_⟩
      rw [runDue, StateT.run_bind, run_popTimer_due hAll hDue]
      rfl

theorem turnNotes_nil (n : Nat) (h : l.clock.microtasks = []) :
    turnNotes calls told (n + 1) l = [] := by
  obtain ⟨⟩ := l
  rename_i clock _ _ _ _ _
  obtain ⟨⟩ := clock
  subst h
  rfl

theorem turnNotes_cons (n : Nat) {task : Task κ} {microtasks : List (Task κ)}
    (h : l.clock.microtasks = task :: microtasks) :
    let l₀ : Live κ σ := { l with clock := { l.clock with microtasks } }
    turnNotes calls told (n + 1) l =
      .ran task :: (told task l₀ ++ turnNotes calls told n ((calls.run task).run l₀).2) := by
  obtain ⟨⟩ := l
  rename_i clock _ _ _ _ _
  obtain ⟨⟩ := clock
  subst h
  rfl

theorem fireNotes_late {limit : Nat} (n : Nat)
    (hLate : ∀ timer ∈ l.clock.timers.head?, limit < timer.due) :
    fireNotes calls told limit (n + 1) l = [] := by
  rw [fireNotes, run_popTimer_late hLate]

theorem fireNotes_due {limit : Nat} (n : Nat) {timer : Timer κ} {timers : List (Timer κ)}
    (hAll : l.clock.timers = timer :: timers) (hDue : timer.due ≤ limit) :
    let l₀ : Live κ σ := { l with clock := { l.clock with now := timer.due, timers } }
    let l₁ := ((calls.run timer.task).run l₀).2
    fireNotes calls told limit (n + 1) l =
      .fired timer.number timer.due limit timer.due timer.task ::
        (told timer.task l₀ ++ drainNotes calls told l₁ ++
          fireNotes calls told limit n ((drain calls).run l₁).2) := by
  rw [fireNotes, run_popTimer_due hAll hDue]
  rfl

theorem mem_insertTimer {t timer : Timer κ} {timers : List (Timer κ)}
    (h : t ∈ insertTimer timer timers) : t = timer ∨ t ∈ timers :=
  List.mem_cons.mp ((insertTimer_perm timer timers).mem_iff.mp h)

/-- The clock is what it was or was emptied. -/
def Calmed (l l' : Live κ σ) : Prop :=
  (l'.clock = l.clock ∨ l'.clock = { l.clock with timers := [], microtasks := [] }) ∧
    (l.overrun = true → l'.overrun = true)

/-- An operation that leaves the clock alone or empties it. It does not hide that an advance went
on beyond the rounds that it had. -/
def Calm (op : LiveM κ σ α) : Prop :=
  ∀ l, After op l fun _ l' => Calmed l l'

/-- Only fine tasks wait. -/
structure Waits (Fine : Task κ → Prop) (l : Live κ σ) : Prop where
  timers : ∀ t ∈ l.clock.timers, Fine t.task
  microtasks : ∀ t ∈ l.clock.microtasks, Fine t

namespace Waits

variable (hWaits : Waits Fine l)
include hWaits

theorem calmed (hCalmed : Calmed l l') : Waits Fine l' := by
  rcases hCalmed.1 with hSame | hEmptied
  · constructor
    · rw [hSame]
      exact hWaits.timers
    · rw [hSame]
      exact hWaits.microtasks
  · constructor
    · rw [hEmptied]
      simp
    · rw [hEmptied]
      simp

theorem queue {task : Task κ} (hTask : Fine task) :
    Waits Fine ((queueMicrotask task).run l).2 := by
  cases hTorn : l.tornDown with
  | true => rwa [run_queueMicrotask_torn hTorn]
  | false =>
    rw [run_queueMicrotask hTorn]
    refine ⟨hWaits.timers, ?_⟩
    intro t ht
    rcases List.mem_append.mp ht with ht | ht
    · exact hWaits.microtasks t ht
    · obtain rfl := List.mem_singleton.mp ht
      exact hTask

theorem set (delay : Nat) {task : Task κ} (hTask : Fine task) :
    Waits Fine ((setTimer delay task).run l).2 := by
  cases hTorn : l.tornDown with
  | true =>
    rw [run_setTimer_torn hTorn]
    exact ⟨hWaits.timers, hWaits.microtasks⟩
  | false =>
    rw [run_setTimer hTorn]
    refine ⟨?_, hWaits.microtasks⟩
    intro t ht
    rcases mem_insertTimer ht with rfl | ht
    · exact hTask
    · exact hWaits.timers t ht

theorem clear (number : TimerId) : Waits Fine ((clearTimer number).run l).2 :=
  ⟨fun t ht => hWaits.timers t (List.mem_filter.mp ht).1, hWaits.microtasks⟩

theorem turn {task : Task κ} {microtasks : List (Task κ)}
    (hFirst : l.clock.microtasks = task :: microtasks) :
    Fine task ∧ Waits Fine { l with clock := { l.clock with microtasks } } := by
  have hMicrotasks := hWaits.microtasks
  rw [hFirst] at hMicrotasks
  exact ⟨hMicrotasks task List.mem_cons_self,
    hWaits.timers, fun t ht => hMicrotasks t (List.mem_cons_of_mem _ ht)⟩

theorem fire {timer : Timer κ} {timers : List (Timer κ)}
    (hFirst : l.clock.timers = timer :: timers) :
    Fine timer.task ∧
      Waits Fine { l with clock := { l.clock with now := timer.due, timers } } := by
  have hTimers := hWaits.timers
  rw [hFirst] at hTimers
  exact ⟨hTimers timer List.mem_cons_self,
    fun t ht => hTimers t (List.mem_cons_of_mem _ ht), hWaits.microtasks⟩

end Waits

theorem overrun_queueMicrotask (task : Task κ) (l : Live κ σ) :
    ((queueMicrotask task).run l).2.overrun = l.overrun := by
  cases hTorn : l.tornDown with
  | true => rw [run_queueMicrotask_torn hTorn]
  | false => rw [run_queueMicrotask hTorn]

theorem overrun_setTimer (delay : Nat) (task : Task κ) (l : Live κ σ) :
    ((setTimer delay task).run l).2.overrun = l.overrun := by
  cases hTorn : l.tornDown with
  | true => rw [run_setTimer_torn hTorn]
  | false => rw [run_setTimer hTorn]

/-! ## Laws -/

/-- What journals and clocks have to do with each other, kept by every step. -/
structure Law (Other : LiveM κ σ Unit → Prop) (K : Journal κ → Live κ σ → Prop) : Prop where
  look : ∀ {h l}, K h l → K (h ++ [.looked l.clock.now l.clock.timers.length]) l
  alter : ∀ {h l op}, Other op → K h l → K h (op.run l).2
  queue : ∀ {h l} task, K h l → K (h ++ [.queued task]) ((queueMicrotask task).run l).2
  set : ∀ {h l} delay task, K h l →
    K (h ++ [.set ((setTimer delay task).run l).1 (l.clock.now + delay) task])
      ((setTimer delay task).run l).2
  clear : ∀ {h l} number, K h l →
    K (h ++ [.cleared number ((clearTimer number).run l).1]) ((clearTimer number).run l).2
  draining : ∀ {h l}, K h l → K (h ++ [.draining]) l
  turn : ∀ {h l task microtasks}, l.clock.microtasks = task :: microtasks → K h l →
    K (h ++ [.ran task]) { l with clock := { l.clock with microtasks } }
  fire : ∀ {h l timer timers limit}, l.clock.timers = timer :: timers → timer.due ≤ limit →
    K h l → K (h ++ [.fired timer.number timer.due limit timer.due timer.task])
      { l with clock := { l.clock with now := timer.due, timers } }

/-- What is kept at the end of drains and of advances. -/
structure Ends (calls : Calls κ σ) (told : Report κ σ) (K : Journal κ → Live κ σ → Prop) :
    Prop where
  drained : ∀ {h l n}, n = max 1 l.config.maxMicrotasks → K h l →
    K (h ++ [.draining] ++ turnNotes calls told n l) ((drainTo calls n).run l).2 →
    K (h ++ [.draining] ++ turnNotes calls told n l ++ [.drained ((drainTo calls n).run l).1])
      ((drainTo calls n).run l).2
  reached : ∀ {h l l₁ n limit}, l.clock.now ≤ limit → l₁ = ((drain calls).run l).2 → K h l →
    K (h ++ drainNotes calls told l ++ fireNotes calls told limit n l₁)
      ((runDue calls limit n).run l₁).2 →
    (∀ timer ∈ ((runDue calls limit n).run l₁).2.clock.timers.head?, limit < timer.due) →
    K (h ++ drainNotes calls told l ++ fireNotes calls told limit n l₁ ++ [.reached limit])
      { ((runDue calls limit n).run l₁).2 with
        clock := { ((runDue calls limit n).run l₁).2.clock with now := limit } }

/-- An operation leaves fine tasks to wait, and if it comes to an end its notes and the state that
it leaves go together. -/
def Follows (Fine : Task κ → Prop) (K : Journal κ → Live κ σ → Prop) (op : LiveM κ σ α)
    (notes : Live κ σ → Journal κ) : Prop :=
  ∀ l, Waits Fine l → After op l fun _ l' =>
    Waits Fine l' ∧ (l.overrun = true → l'.overrun = true) ∧
      (l'.overrun = false → ∀ h, K h l → K (h ++ notes l) l')

theorem overrun_before (hSticky : l.overrun = true → l'.overrun = true)
    (hEnds : l'.overrun = false) : l.overrun = false := by
  cases hOverrun : l.overrun with
  | false => rfl
  | true =>
    rw [hSticky hOverrun] at hEnds
    cases hEnds

variable {Other : LiveM κ σ Unit → Prop} {K : Journal κ → Live κ σ → Prop}

namespace Follows

theorem bind {op : LiveM κ σ α} {f : α → LiveM κ σ β} {notes : Live κ σ → Journal κ}
    {more : α → Live κ σ → Journal κ} (hOp : Follows Fine K op notes)
    (hRest : ∀ a, Follows Fine K (f a) (more a)) :
    Follows Fine K (op >>= f) fun l => notes l ++ more (op.run l).1 (op.run l).2 := by
  intro l hWaits
  obtain ⟨hBetween, hSticky, hKept⟩ := hOp l hWaits
  obtain ⟨hAfter, hStickyRest, hKeptRest⟩ := hRest (op.run l).1 (op.run l).2 hBetween
  refine ⟨hAfter, fun hOverrun => hStickyRest (hSticky hOverrun), ?_⟩
  intro hEnds h hK
  rw [← List.append_assoc]
  exact hKeptRest hEnds _ (hKept (overrun_before hStickyRest hEnds) h hK)

theorem other {op : LiveM κ σ Unit} (hCalm : Calm op) (hK : ∀ {h l}, K h l → K h (op.run l).2) :
    Follows Fine K op fun _ => [] := by
  intro l hWaits
  refine ⟨hWaits.calmed (hCalm l), (hCalm l).2, ?_⟩
  intro _ h hBefore
  rw [List.append_nil]
  exact hK hBefore

theorem queue (hLaw : Law Other K) {task : Task κ} (hTask : Fine task) :
    Follows Fine K (queueMicrotask task) fun _ => [.queued task] := by
  intro l hWaits
  refine ⟨hWaits.queue hTask, ?_, fun _ _ hK => hLaw.queue task hK⟩
  rw [overrun_queueMicrotask]
  exact id

theorem set (hLaw : Law Other K) (delay : Nat) {task : Task κ} (hTask : Fine task) :
    Follows Fine K (setTimer delay task) fun l =>
      [.set ((setTimer delay task).run l).1 (l.clock.now + delay) task] := by
  intro l hWaits
  refine ⟨hWaits.set delay hTask, ?_, fun _ _ hK => hLaw.set delay task hK⟩
  rw [overrun_setTimer]
  exact id

theorem clear (hLaw : Law Other K) (number : TimerId) :
    Follows Fine K (clearTimer number) fun l => [.cleared number ((clearTimer number).run l).1] :=
  fun _ hWaits => ⟨hWaits.clear number, id, fun _ _ hK => hLaw.clear number hK⟩

section Calls

variable (hLaw : Law Other K) (hEnd : Ends calls told K)
variable (hTasks : ∀ task, Fine task → Follows Fine K (calls.run task) (told task))
include hLaw hTasks

theorem drainTo (n : Nat) :
    Follows Fine K (drainTo calls n) (turnNotes calls told n) := by
  induction n with
  | zero => exact fun l hWaits => ⟨hWaits, id, fun _ h hK => by rwa [turnNotes, List.append_nil]⟩
  | succ n ih =>
    intro l hWaits
    unfold After
    cases hAll : l.clock.microtasks with
    | nil =>
      rw [run_drainTo_nil n hAll, turnNotes_nil n hAll]
      exact ⟨hWaits, id, fun _ h hK => by rwa [List.append_nil]⟩
    | cons task microtasks =>
      obtain ⟨hTask, hStart⟩ := hWaits.turn hAll
      have hOne := (hTasks task hTask).bind (fun _ => ih) _ hStart
      rw [run_drainTo_cons n hAll, turnNotes_cons n hAll]
      refine ⟨hOne.1, hOne.2.1, ?_⟩
      intro hOver h hK
      rw [List.append_cons]
      exact hOne.2.2 hOver _ (hLaw.turn hAll hK)

include hEnd

theorem drain : Follows Fine K (drain calls) (drainNotes calls told) := by
  intro l hWaits
  obtain ⟨hAfter, hSticky, hKept⟩ := drainTo hLaw hTasks (max 1 l.config.maxMicrotasks) l hWaits
  refine ⟨hAfter, hSticky, ?_⟩
  intro hOver h hK
  have hNotes : h ++ drainNotes calls told l = h ++ [.draining] ++
      turnNotes calls told (max 1 l.config.maxMicrotasks) l ++
        [.drained ((Live.drain calls).run l).1] := by
    simp [drainNotes]
  rw [hNotes]
  exact hEnd.drained rfl hK (hKept hOver _ (hLaw.draining hK))

/-- Timers run until nothing is due any more, if there are enough rounds. -/
theorem runDue (limit n : Nat) :
    ∀ l, Waits Fine l → After (runDue calls limit n) l fun _ l' =>
      Waits Fine l' ∧ (l.overrun = true → l'.overrun = true) ∧ (l'.overrun = false →
        (∀ h, K h l → K (h ++ fireNotes calls told limit n l) l') ∧
          ∀ timer ∈ l'.clock.timers.head?, limit < timer.due) := by
  induction n with
  | zero =>
    intro l hWaits
    refine ⟨⟨hWaits.timers, hWaits.microtasks⟩, fun _ => rfl, ?_⟩
    intro hOver
    cases hOver
  | succ n ih =>
    intro l hWaits
    unfold After
    rcases runDue_cases limit n l with ⟨hLate, hRun⟩ | ⟨timer, timers, hFirst, hDue, hRun⟩
    · rw [hRun, fireNotes_late n hLate]
      exact ⟨hWaits, id, fun _ => ⟨fun h hK => by rwa [List.append_nil], hLate⟩⟩
    · obtain ⟨hTask, hStart⟩ := hWaits.fire hFirst
      obtain ⟨hRan, hSticky, hKept⟩ := hTasks timer.task hTask _ hStart
      obtain ⟨hDrained, hStickyDrain, hKeptDrain⟩ := drain hLaw hEnd hTasks _ hRan
      obtain ⟨hAfter, hStickyRest, hRest⟩ := ih _ hDrained
      rw [hRun, fireNotes_due n hFirst hDue]
      refine ⟨hAfter, fun hOverrun => hStickyRest (hStickyDrain (hSticky hOverrun)), ?_⟩
      intro hOver
      obtain ⟨hKeptRest, hLate⟩ := hRest hOver
      have hOverDrain := overrun_before hStickyRest hOver
      have hOverTask := overrun_before hStickyDrain hOverDrain
      refine ⟨?_, hLate⟩
      intro h hK
      have hFired := hKept hOverTask _ (hLaw.fire hFirst hDue hK)
      rw [List.append_cons, ← List.append_assoc, ← List.append_assoc]
      exact hKeptRest _ (hKeptDrain hOverDrain _ hFired)

theorem advance (delay : Nat) :
    Follows Fine K (advance calls delay) (advanceNotes calls told delay) := by
  intro l hWaits
  obtain ⟨hDrained, hSticky, hKept⟩ := drain hLaw hEnd hTasks l hWaits
  obtain ⟨hAfter, hStickyDue, hDue⟩ := runDue hLaw hEnd hTasks (l.clock.now + delay)
    (((Live.drain calls).run l).2.clock.timers.length + calls.fuel) _ hDrained
  refine ⟨⟨hAfter.timers, hAfter.microtasks⟩,
    fun hOverrun => hStickyDue (hSticky hOverrun), ?_⟩
  intro hOver h hK
  obtain ⟨hKeptDue, hLate⟩ := hDue hOver
  have hBefore := hKept (overrun_before hStickyDue hOver) h hK
  have hReached := hEnd.reached (Nat.le_add_right _ _) rfl hK (hKeptDue _ hBefore) hLate
  rw [advanceNotes, ← List.append_assoc, ← List.append_assoc]
  exact hReached

end Calls

end Follows

/-- What the steps of a script keep, the script keeps. -/
theorem Script.adheres (hLaw : Law Other K) (hEnd : Ends calls told K)
    (hOther : ∀ op, Other op → Calm op)
    (hTasks : ∀ task, Fine task → Follows Fine K (calls.run task) (told task))
    {script : Script κ σ} (hProper : script.Proper Fine Other) :
    Follows Fine K (script.run calls) (script.notes calls told) := by
  induction script with
  | done => exact fun l hWaits => ⟨hWaits, id, fun _ h hK => by rwa [notes, List.append_nil]⟩
  | look rest ih =>
    have hLook : Follows Fine K (get : LiveM κ σ (Live κ σ)) fun l =>
        [.looked l.clock.now l.clock.timers.length] :=
      fun _ hWaits => ⟨hWaits, id, fun _ _ hK => hLaw.look hK⟩
    exact hLook.bind fun l => ih l (hProper l)
  | alter op rest ih =>
    exact (Follows.other (hOther op hProper.1) (hLaw.alter hProper.1)).bind fun _ => ih hProper.2
  | queue task rest ih => exact (Follows.queue hLaw hProper.1).bind fun _ => ih hProper.2
  | set delay task rest ih =>
    exact (Follows.set hLaw delay hProper.1).bind fun number => ih number (hProper.2 number)
  | clear number rest ih => exact (Follows.clear hLaw number).bind fun found => ih found (hProper found)
  | drain rest ih =>
    exact (Follows.drain hLaw hEnd hTasks).bind fun count => ih count (hProper count)
  | advance delay rest ih =>
    exact (Follows.advance hLaw hEnd hTasks delay).bind fun _ => ih hProper

/-- What every step keeps, tasks keep, at each depth of calls. -/
theorem Scripted.adheres {scripts : Task κ → Script κ σ} {levels : Nat → Calls κ σ}
    (hScripted : Scripted Fine Other scripts levels) (hLaw : Law Other K)
    (hEnd : ∀ depth, Ends (levels depth) (Clock.told scripts levels depth) K)
    (hOther : ∀ op, Other op → Calm op) (depth : Nat) {task : Task κ} (hTask : Fine task) :
    Follows Fine K ((levels depth).run task) (Clock.told scripts levels depth task) := by
  induction depth generalizing task with
  | zero =>
    have hBound := hScripted.bound task hTask
    exact .other (hOther _ hBound) (hLaw.alter hBound)
  | succ depth ih =>
    rw [hScripted.run depth task hTask]
    exact Script.adheres hLaw (hEnd depth) hOther (fun _ => ih) (hScripted.proper task hTask)

end LiveMarkup.Live.Clock
