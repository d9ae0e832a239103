import LiveMarkup.Live.Conditionals
import LiveMarkup.Proofs.Live.Quiet
import Mathlib.Data.List.Perm.Basic

/-!
# Waiting for the end of a grace

Timers are in the order in which they are due, and what waits belongs to the client but for the
timers of one conditional. When the time moves, those run that are due by then.

* `Clock.Ordered`, `Clock.graces`: what waits, and what of it ends the grace of a conditional;
* `Clock.Ordered.cleared`, `Clock.Ordered.inserted`: timers come and go;
* `drain_clients`, `After.runDue`: microtasks of the client, and the loop over timers;
* `advance_keeps`: what the tasks of timers keep is kept while the time moves.
-/

namespace LiveMarkup.Live

variable {κ σ : Type} {client : Client κ σ} {calls : Calls κ σ} {l l' : Live κ σ}
variable {c : ConditionalId} {timer : Timer κ} {timers : List (Timer κ)}

/-- Whether a task ends the grace of a conditional. -/
def Task.endsGrace (c : ConditionalId) : Task κ → Bool
  | .endGrace d => d == c
  | _ => false

namespace Clock

variable {k : Clock κ}

/-- The timers that end the grace of a conditional. -/
def graces (k : Clock κ) (c : ConditionalId) : List (Timer κ) :=
  k.timers.filter (·.task.endsGrace c)

/-- Timers are in order, and all that waits is the client's or ends the grace of a conditional. -/
structure Ordered (k : Clock κ) (c : ConditionalId) : Prop where
  sorted : k.timers.Pairwise fun a b => a.due ≤ b.due
  tasks : ∀ t ∈ k.timers, t.task = .endGrace c ∨ ∃ a, t.task = .client a
  microtasks : ∀ t ∈ k.microtasks, ∃ a, t = .client a

namespace Ordered

variable (h : k.Ordered c)
include h

theorem less (hLess : timers.Sublist k.timers) : Ordered { k with timers } c :=
  ⟨h.sorted.sublist hLess, fun t ht => h.tasks t (hLess.subset ht), h.microtasks⟩

theorem cleared (number : TimerId) :
    Ordered { k with timers := k.timers.filter fun t => !(t.number == number) } c :=
  h.less List.filter_sublist

end Ordered

/-- Nothing is left of a grace when its only timer is cleared. -/
theorem graces_cleared (h : k.graces c = [timer]) :
    graces { k with timers := k.timers.filter fun t => !(t.number == timer.number) } c = [] := by
  unfold graces at h ⊢
  rw [List.filter_comm, h]
  simp

end Clock

/-! ## Setting timers -/

theorem insertTimer_perm (timer : Timer κ) (timers : List (Timer κ)) :
    (insertTimer timer timers).Perm (timer :: timers) := by
  induction timers with
  | nil => exact .refl _
  | cons other rest ih =>
    unfold insertTimer
    split
    · exact (ih.cons other).trans (.swap timer other rest)
    · exact .refl _

theorem insertTimer_sorted (timer : Timer κ) (h : timers.Pairwise fun a b => a.due ≤ b.due) :
    (insertTimer timer timers).Pairwise fun a b => a.due ≤ b.due := by
  induction timers with
  | nil => exact List.pairwise_singleton _ _
  | cons other rest ih =>
    obtain ⟨hFirst, hRest⟩ := List.pairwise_cons.mp h
    unfold insertTimer
    split
    · rename_i hLe
      refine List.pairwise_cons.mpr ⟨fun t ht => ?_, ih hRest⟩
      rcases List.mem_cons.mp ((insertTimer_perm timer rest).mem_iff.mp ht) with rfl | ht
      · exact hLe
      · exact hFirst t ht
    · rename_i hLt
      have hLe := Nat.le_of_not_le hLt
      refine List.pairwise_cons.mpr ⟨fun t ht => ?_, h⟩
      rcases List.mem_cons.mp ht with rfl | ht
      · exact hLe
      · exact Nat.le_trans hLe (hFirst t ht)

namespace Clock

variable {k : Clock κ}

theorem Ordered.inserted (h : k.Ordered c) (hTask : timer.task = .endGrace c) (next : TimerId) :
    Ordered { k with nextTimer := next, timers := insertTimer timer k.timers } c where
  sorted := insertTimer_sorted timer h.sorted
  tasks t ht := by
    rcases List.mem_cons.mp ((insertTimer_perm timer k.timers).mem_iff.mp ht) with rfl | ht
    · exact .inl hTask
    · exact h.tasks t ht
  microtasks := h.microtasks

theorem graces_inserted (h : k.graces c = []) (hTask : timer.task = .endGrace c) (next : TimerId) :
    graces { k with nextTimer := next, timers := insertTimer timer k.timers } c = [timer] := by
  have hPerm := (insertTimer_perm timer k.timers).filter (·.task.endsGrace c)
  have hOwn : timer.task.endsGrace c = true := by
    rw [hTask]
    exact beq_self_eq_true c
  have hOnly : (timer :: k.timers).filter (·.task.endsGrace c) = [timer] := by
    rw [List.filter_cons_of_pos (by exact hOwn)]
    exact congrArg _ h
  exact List.perm_singleton.mp (hOnly ▸ hPerm)

end Clock

/-! ## Moving the time -/

/-- Tasks of the client change what is the client's. -/
def Client.Tame (client : Client κ σ) : Prop :=
  ∀ calls k l, ∃ c, ((client.run calls k).run l).2 = { l with client := c }

/-- What the client's state and microtasks do not matter to. -/
def Idle (l l' : Live κ σ) : Prop :=
  ∃ (c : σ) (microtasks : List (Task κ)), (∀ t ∈ microtasks, t ∈ l.clock.microtasks) ∧
    l' = { l with client := c, clock := { l.clock with microtasks } }

theorem Idle.trans {l₁ : Live κ σ} (h₁ : Idle l l₁) (h₂ : Idle l₁ l') : Idle l l' := by
  obtain ⟨c₁, microtasks₁, hLess₁, rfl⟩ := h₁
  obtain ⟨c₂, microtasks₂, hLess₂, rfl⟩ := h₂
  exact ⟨c₂, microtasks₂, fun t ht => hLess₁ t (hLess₂ t ht), rfl⟩

/-- Draining runs microtasks of the client. -/
theorem drain_clients (hTame : client.Tame) (depth : Nat)
    (hTasks : ∀ t ∈ l.clock.microtasks, ∃ a, t = Task.client a) :
    After (drain (Calls.upTo client (depth + 1))) l fun _ l' => Idle l l' := by
  have hRefl : ∀ l : Live κ σ, Idle l l := fun l => ⟨l.client, l.clock.microtasks, fun _ h => h, rfl⟩
  unfold drain
  rw [after_bind, after_get]
  generalize max 1 l.config.maxMicrotasks = n
  induction n generalizing l with
  | zero => exact hRefl l
  | succ n ih =>
    unfold drainTo popMicrotask
    rw [after_bind, after_modifyGet]
    cases hAll : l.clock.microtasks with
    | nil => exact hRefl l
    | cons task rest =>
      rw [hAll] at hTasks
      obtain ⟨⟨a, rfl⟩, hRest⟩ := List.forall_mem_cons.mp hTasks
      let l₁ : Live κ σ := { l with clock := { l.clock with microtasks := rest } }
      have h₁ : Idle l l₁ := ⟨l.client, rest, fun t ht => hAll ▸ List.mem_cons_of_mem _ ht, rfl⟩
      refine After.bind (m := fun _ l₂ => ∃ s, l₂ = { l₁ with client := s }) ?_ ?_
      · exact hTame _ a l₁
      rintro _ _ ⟨s, rfl⟩
      have h₂ : Idle l { l₁ with client := s } := h₁.trans ⟨s, rest, fun _ h => h, rfl⟩
      refine (ih (l := { l₁ with client := s }) hRest).bind fun _ l' h' => ?_
      exact h₂.trans h'

theorem popTimer_cases (limit : Nat) (l : Live κ σ) : After (popTimer limit) l fun out l' =>
    (out = none ∧ l' = l ∧ ∀ timer ∈ l.clock.timers.head?, limit < timer.due) ∨
      ∃ timer timers, l.clock.timers = timer :: timers ∧ timer.due ≤ limit ∧ out = some timer ∧
        l' = { l with clock := { l.clock with timers } } := by
  unfold popTimer
  rw [after_modifyGet]
  cases hAll : l.clock.timers with
  | nil => exact .inl ⟨rfl, rfl, fun _ h => by cases h⟩
  | cons timer timers =>
    by_cases hDue : timer.due ≤ limit
    · refine .inr ⟨timer, timers, rfl, hDue, ?_⟩
      dsimp only
      rw [if_pos hDue]
      exact ⟨rfl, rfl⟩
    · refine .inl ?_
      dsimp only
      rw [if_neg hDue]
      refine ⟨rfl, rfl, fun other hOther => ?_⟩
      rw [List.head?_cons, Option.mem_some_iff] at hOther
      exact hOther ▸ Nat.lt_of_not_le hDue

/-- The loop over timers that are due keeps a condition if every round keeps it. In the end no timer
is due any more, as there is a round for each. -/
theorem After.runDue {K : Live κ σ → Prop} {limit : Nat}
    (hRound : ∀ l timer timers, K l → l.clock.timers = timer :: timers → timer.due ≤ limit →
      After (do
          calls.run timer.task
          drain calls) { l with clock := { l.clock with now := timer.due, timers } } fun _ l' =>
        K l' ∧ l'.clock.timers.length ≤ timers.length)
    {n : Nat} (hK : K l) (hLength : l.clock.timers.length < n) :
    After (Live.runDue calls limit n) l fun _ l' =>
      K l' ∧ ∀ timer ∈ l'.clock.timers.head?, limit < timer.due := by
  induction n generalizing l with
  | zero => exact absurd hLength (Nat.not_lt_zero _)
  | succ n ih =>
    unfold Live.runDue
    refine (popTimer_cases limit l).bind ?_
    rintro _ _ (⟨rfl, rfl, hLate⟩ | ⟨timer, timers, hAll, hDue, rfl, rfl⟩)
    · exact ⟨hK, hLate⟩
    · rw [hAll] at hLength
      refine After.bind (m := fun _ l₁ =>
        l₁ = { l with clock := { l.clock with now := timer.due, timers } }) rfl ?_
      rintro _ _ rfl
      have hOne := hRound l timer timers hK hAll hDue
      rw [after_bind] at hOne ⊢
      refine hOne.mono fun _ l₁ h₁ => ?_
      refine h₁.bind fun _ l₂ h₂ => ih h₂.1 ?_
      exact Nat.lt_of_le_of_lt h₂.2 (Nat.lt_of_succ_lt_succ hLength)

/-- Only the client's microtasks wait. The time moves, and a condition that the tasks of timers keep
holds until then. -/
theorem advance_keeps {K : Live κ σ → Prop} (hTame : client.Tame) (depth delay : Nat)
    (hMicrotasks : ∀ l, K l → ∀ t ∈ l.clock.microtasks, ∃ a, t = Task.client a)
    (hIdle : ∀ l l', K l → Idle l l' → K l')
    (hTimer : ∀ l₁ timer timers, K l₁ → l₁.clock.timers = timer :: timers →
      timer.due ≤ l.clock.now + delay →
        After ((Calls.upTo client (depth + 1)).run timer.task)
          { l₁ with clock := { l₁.clock with now := timer.due, timers } } fun _ l' =>
            K l' ∧ l'.clock.timers = timers)
    (hK : K l) :
    After (advance (Calls.upTo client (depth + 1)) delay) l fun _ l' => ∃ l₁, K l₁ ∧
      (∀ timer ∈ l₁.clock.timers.head?, l.clock.now + delay < timer.due) ∧
      l' = { l₁ with clock := { l₁.clock with now := l.clock.now + delay } } := by
  unfold advance
  rw [after_bind, after_get]
  refine (drain_clients hTame depth (hMicrotasks l hK)).bind fun _ l₁ h₁ => ?_
  rw [after_bind, after_get]
  refine After.bind (After.runDue (K := K) (fun l₂ timer timers h₂ hTimers hDue => ?_) (hIdle l l₁ hK h₁)
    (Nat.lt_add_of_pos_right (Nat.succ_pos _))) ?_
  · refine (hTimer l₂ timer timers h₂ hTimers hDue).bind ?_
    rintro _ l₃ ⟨h₃, rfl⟩
    refine (drain_clients hTame depth (hMicrotasks l₃ h₃)).mono fun _ l' h' => ?_
    refine ⟨hIdle l₃ l' h₃ h', ?_⟩
    obtain ⟨_, _, -, rfl⟩ := h'
    exact Nat.le_refl _
  · rintro _ l₂ ⟨h₂, hLate⟩
    exact ⟨l₂, h₂, hLate, rfl⟩

end LiveMarkup.Live
