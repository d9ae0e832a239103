import LiveMarkup.Proofs.Live.Selected
import LiveMarkup.Proofs.Live.Shown

/-!
# What stands alone

A conditional has nothing in its container but the child that it keeps, if hooks let go of it or there
is no grace; a switch has nothing but the node of the arm that it says is active, if hooks let go of
nodes. If they do not, the next arm is put beside the one that should be gone, and a conditional with a
grace makes another child.

* `Clock.Clients`, `advance_clients`: only the client waits, and time passes;
* `TimedChoices.chosen`: a run of a switch during which time passes;
* `OnlyChild`, `OnlyArm`, `nothing_beside`: what stands in a conditional or switch;
* `held_doubled`: what happens beside a node that hooks hold.
-/

namespace LiveMarkup.Live

variable {κ σ : Type} {client : Client κ σ} {calls : Calls κ σ} {l l₀ l₁ l' : Live κ σ}
variable {f : Follower κ} {s : SwitchId} {x x₀ : Switch κ} {on : Bool} {w : Leeway κ}
variable {order : List NodeRef} {makings : List (Making Nat κ σ)}

/-! ## The client's time -/

/-- All that waits is the client's. -/
structure Clock.Clients (k : Clock κ) : Prop where
  tasks : ∀ t ∈ k.timers, ∃ a, t.task = .client a
  microtasks : ∀ t ∈ k.microtasks, ∃ a, t = .client a

/-- What the client keeps is another, and so is the clock, where all is still the client's. -/
def Ticks (l l' : Live κ σ) : Prop :=
  ∃ c clock, clock.Clients ∧ l' = { l with client := c, clock }

/-- The time moves while only the client waits. -/
theorem advance_clients (hTame : client.Tame) (depth : Nat) (h : l.clock.Clients) (delay : Nat) :
    After (advance (Calls.upTo client (depth + 1)) delay) l fun _ l' => Ticks l l' := by
  refine (advance_keeps (K := Ticks l) hTame depth delay ?_ ?_ ?_ ⟨l.client, l.clock, h, rfl⟩).mono ?_
  · rintro _ ⟨_, _, hClock, rfl⟩
    exact hClock.microtasks
  · rintro _ _ ⟨_, clock, hClock, rfl⟩ ⟨c, microtasks, hLess, rfl⟩
    exact ⟨c, { clock with microtasks }, ⟨hClock.tasks, fun t ht => hClock.microtasks t (hLess t ht)⟩,
      rfl⟩
  · rintro _ timer timers ⟨c, clock, hClock, rfl⟩ hTimers -
    obtain ⟨⟨a, hTask⟩, hTasks⟩ := List.forall_mem_cons.mp (hTimers ▸ hClock.tasks)
    let clock' : Clock κ := { clock with now := timer.due, timers }
    rw [hTask]
    obtain ⟨c', hRun⟩ :=
      hTame (Calls.upTo client depth) a { l with client := c, clock := clock' }
    change Ticks l ((client.run (Calls.upTo client depth) a).run _).2 ∧ _
    refine ⟨⟨c', clock', ⟨hTasks, hClock.microtasks⟩, ?_⟩, congrArg (fun l => l.clock.timers) hRun⟩
    rw [hRun]
  · rintro _ _ ⟨_, ⟨c, clock, hClock, rfl⟩, -, rfl⟩
    exact ⟨c, { clock with now := l.clock.now + delay }, ⟨hClock.tasks, hClock.microtasks⟩, rfl⟩

theorem Chosen.ticks (h : Chosen client l f s x order on w)
    (hCollected : Collected client l₀ l x₀ x makings)
    (hTicks : Ticks l l') : Chosen client l' f s x order on w ∧ Collected client l₀ l' x₀ x makings := by
  obtain ⟨c, clock, -, rfl⟩ := hTicks
  obtain ⟨-, hPoised⟩ := h.toPoised.aside c clock l.conditionals l.switches
  exact ⟨⟨⟨hPoised, h.there, h.box, h.nodes, h.tags, h.active, h.alone, h.shown⟩, h.current⟩,
    hCollected.made.later rfl, hCollected.origin, hCollected.built⟩

/-! ### Runs -/

/-- Motions and times that pass, one after the other. The container is not put into itself or into an
arm that was built. -/
inductive TimedChoices (calls : Calls κ σ) (f : Follower κ) (s : SwitchId) (l : Live κ σ) :
    Live κ σ → Prop
  | start : TimedChoices calls f s l l
  | move {l₁ : Live κ σ} (h : TimedChoices calls f s l l₁) (m : Motion)
    (hProper : m.Proper l₁ f (l₁.armsOf s)) :
    TimedChoices calls f s l ((m.run calls f).run l₁).2
  | advance {l₁ : Live κ σ} (h : TimedChoices calls f s l l₁) (delay : Nat) :
    TimedChoices calls f s l ((Live.advance calls delay).run l₁).2

/-- After every step of a run of a switch. -/
theorem TimedChoices.chosen (hClient : client.Quiet) (hTame : client.Tame)
    (hLets : client.LetsGo f.box) (depth : Nat)
    (hBuilds : ∀ n arm factory, x₀.factory? arm = some factory →
      Builds (Calls.upTo client (depth + 2 + n)) factory w)
    (h₀ : l₀.Unset f s x₀ w) (hClock : l₀.clock.Clients)
    (h : TimedChoices (Calls.upTo client (depth + 4)) f s l₀ l) :
    l.clock.Clients ∧ ∃ on x order makings, Chosen client l f s x order on w ∧
      Collected client l₀ l x₀ x makings := by
  induction h with
  | start => exact ⟨hClock, false, x₀, [], [], h₀.chosen client, h₀.collected client⟩
  | move _ m hProper ih =>
    obtain ⟨hClients, on, x, order, makings, hChosen, hCollected⟩ := ih
    rw [armsOf, hChosen.there] at hProper
    obtain ⟨-, hSame, on', x', order', makings', hChosen', hCollected', -⟩ :=
      hChosen.moves hClient hLets depth hBuilds h₀.sink hCollected hProper
    exact ⟨hSame ▸ hClients, on', x', order', makings', hChosen', hCollected'⟩
  | advance _ delay ih =>
    obtain ⟨hClients, on, x, order, makings, hChosen, hCollected⟩ := ih
    have hTicks := advance_clients hTame (depth + 3) hClients delay
    refine ⟨?_, on, x, order, makings, hChosen.ticks hCollected hTicks⟩
    obtain ⟨_, _, hClients', hEq⟩ := hTicks
    exact hEq ▸ hClients'

/-! ## In new documents -/

/-- A new document with a signal. -/
def newDocument (grace : Option Nat) (value : Value) : Live String Unit :=
  { create { grace } () with signals := #[{ value }] }

/-- What follows that signal. -/
def firstFollower (sink : Sink String) : Follower String where
  box := 0
  observer := 0
  binding := 0
  subscription := 0
  signal := 0
  sink

/-- What hooks may do that leave it alone. -/
def firstLeeway (sink : Sink String) : Leeway String :=
  .around (firstFollower sink) 1

theorem newDocument_prepared (grace : Option Nat) (value : Value) (sink : Sink String) :
    (newDocument grace value).Prepared 0 (firstLeeway sink) :=
  create_prepared _ _ _ (fun _ _ hs => hs) (Nat.not_succ_le_zero 0)

/-- A conditional with a child that hooks do not let go. -/
def clingingConditional (grace : Option Nat) : Live String Unit :=
  ((newConditional (Calls.upTo Client.clinging 4) 0 (.client "p")).run.run
    (newDocument grace (.bool true))).2

theorem clingingConditional_made (grace : Option Nat) :
    (clingingConditional grace).dom = (newDocument grace (.bool true)).dom.createContainer.1 ∧
      (clingingConditional grace).Vacant (firstFollower (.conditional 0)) 0 (.client "p")
        (firstLeeway (.conditional 0)) := by
  have hMade : After (newConditional (Calls.upTo Client.clinging 4) 0 (.client "p")).run
      (newDocument grace (.bool true)) _ :=
    newConditional_vacant (newDocument_prepared _ _ (.conditional 0)) (fun _ => Iff.rfl) .nil
      (fun _ ht => nomatch ht) (fun _ ht => nomatch ht) _
  unfold clingingConditional
  exact ⟨hMade.1.2, hMade.2⟩

/-- A switch with two arms. -/
def pairArms : Switch String where
  box := 0
  cases := [(.string "a", .client "p"), (.string "b", .client "q")]
  default := none

/-- It stands in a new document. -/
def pairSwitch (client : Client String Unit) : Live String Unit :=
  ((newSwitch (Calls.upTo client 4) 0 pairArms.cases none).run.run
    (newDocument none (.string "a"))).2

theorem pairSwitch_made (client : Client String Unit) :
    (pairSwitch client).dom = (newDocument none (.string "a")).dom.createContainer.1 ∧
      (pairSwitch client).clock = {} ∧
      (pairSwitch client).Unset (firstFollower (.switch 0)) 0 pairArms
        (firstLeeway (.switch 0)) := by
  have hMade : After (newSwitch (Calls.upTo client 4) 0 pairArms.cases none).run
      (newDocument none (.string "a")) _ :=
      newSwitch_unset (newDocument_prepared _ _ (.switch 0)) (fun _ => Iff.rfl) _ _
  unfold pairSwitch
  exact ⟨hMade.1.2.1, hMade.1.2.2, hMade.2⟩

/-- A container in a new document can be put into the body. -/
theorem mountBody_proper {l : Live String Unit} {grace : Option Nat} {value : Value}
    {sink : Sink String} {w : Leeway String} (h : l.Poised (firstFollower sink) [] [] false w)
    (hDom : l.dom = (newDocument grace value).dom.createContainer.1) :
    (Motion.mount (.node 2) none).Proper l (firstFollower sink) [] := by
  have hNew : l.dom = (create {} () : Live String Unit).dom.createContainer.1 := hDom
  have hBody : l.dom.Known (.node 2) := by
    rw [hNew]
    decide +kernel
  refine ⟨hBody, h.sound.not_inside ?_, fun r hr => nomatch hr⟩
  rw [hNew]
  change ∀ k ∈ (Dom.createContainer (create {} () : Live String Unit).dom).1.runOf (.container 0), _
  decide +kernel

/-- The conditional is put into the body, and so its child is shown. -/
def mountedConditional (grace : Option Nat) : Live String Unit :=
  (((Turn.move (.mount (.node 2) none)).run (Calls.upTo Client.clinging 4)
    (firstFollower (.conditional 0))).run (clingingConditional grace)).2

theorem mountedConditional_turns (grace : Option Nat) : ∃ last,
    Turns (Calls.upTo Client.clinging 4) (firstFollower (.conditional 0)) 0
      (clingingConditional grace) last (mountedConditional grace) := by
  obtain ⟨hDom, hVacant⟩ := clingingConditional_made grace
  refine ⟨_, Turns.start.step (.move (.mount (.node 2) none)) ?_⟩
  rw [Turn.Proper, hVacant.there]
  exact mountBody_proper hVacant.toPoised hDom

/-- The switch is put into the body, and so its first arm is shown. -/
def mountedSwitch (client : Client String Unit) : Live String Unit :=
  (((Motion.mount (.node 2) none).run (Calls.upTo client 4) (firstFollower (.switch 0))).run
    (pairSwitch client)).2

theorem mountedSwitch_choices (client : Client String Unit) :
    TimedChoices (Calls.upTo client 4) (firstFollower (.switch 0)) 0 (pairSwitch client)
      (mountedSwitch client) := by
  obtain ⟨hDom, -, hUnset⟩ := pairSwitch_made client
  refine TimedChoices.start.move (.mount (.node 2) none) ?_
  rw [armsOf, hUnset.there]
  exact mountBody_proper hUnset.toPoised hDom

theorem pairArms_drawn (n arm : Nat) {factory : NodeFactory String} {w : Leeway String}
    (h : pairArms.factory? arm = some factory) :
    Builds (σ := Unit) (Calls.upTo Client.drawing (0 + 2 + n)) factory w := by
  have hTag : ∃ tag, factory = .client tag := by
    rcases pairArms.mem_of_factory? h with hCase | hDefault
    · simp only [pairArms, List.map_cons, List.map_nil, List.mem_cons, List.not_mem_nil,
        or_false] at hCase
      rcases hCase with rfl | rfl
      · exact ⟨"p", rfl⟩
      · exact ⟨"q", rfl⟩
    · cases hDefault
  obtain ⟨tag, rfl⟩ := hTag
  rw [Nat.add_comm]
  exact Client.drawing_builds (n + 1) tag

/-! ## What stands in a container -/

/-- A conditional has nothing in its container but the child that it keeps. -/
def OnlyChild (l : Live κ σ) (c : ConditionalId) : Prop :=
  ∃ x, l.conditional? c = some x ∧ (l.dom.span x.box = [] ∨
    ∃ r, x.child = some r ∧ l.dom.span x.box = l.dom.runOf r)

/-- A switch has nothing in its container but the node of its active arm. -/
def OnlyArm (l : Live κ σ) (s : SwitchId) : Prop :=
  ∃ x, l.switch? s = some x ∧ (l.dom.span x.box = [] ∨
    ∃ arm node, x.active = some arm ∧ x.built? arm = some node ∧
      l.dom.span x.box = l.dom.runOf node)

instance (l : Live κ σ) (c : ConditionalId) : Decidable (l.OnlyChild c) :=
  decidable_of_iff
    ((l.conditional? c).any fun x => l.dom.span x.box == [] ||
      x.child.any fun r => l.dom.span x.box == l.dom.runOf r)
    (by simp [OnlyChild, Option.any_eq_true])

instance (l : Live κ σ) (s : SwitchId) : Decidable (l.OnlyArm s) :=
  decidable_of_iff
    ((l.switch? s).any fun x => l.dom.span x.box == [] ||
      x.active.any fun arm => (x.built? arm).any fun node => l.dom.span x.box == l.dom.runOf node)
    (by simp [OnlyArm, Option.any_eq_true])

theorem Showing.onlyChild {c : ConditionalId} {x : Conditional κ} {last : Option (Nat × Value)}
    (h : Showing client l f c x order last on w) : l.OnlyChild c := by
  have hPoised := h.toPoised
  refine ⟨x, h.there, ?_⟩
  rw [h.box]
  cases hChild : x.child with
  | none =>
    rw [hChild] at hPoised
    obtain rfl := hPoised.order_eq_nil
    exact .inl hPoised.shelf.row
  | some r =>
    rw [hChild] at hPoised
    rcases hPoised.alone with rfl | rfl
    · exact .inl hPoised.shelf.row
    · exact .inr ⟨r, rfl, hPoised.shelf.row.trans (List.flatMap_singleton _ _)⟩

theorem Choosing.onlyArm (h : Choosing client l f s x order on w) : l.OnlyArm s := by
  have hRow := h.shelf.row
  refine ⟨x, h.there, ?_⟩
  rw [h.box]
  rcases h.alone with rfl | rfl
  · exact .inl hRow
  · cases hShown : x.shown? with
    | none =>
      rw [hShown] at hRow
      exact .inl hRow
    | some node =>
      obtain ⟨arm, hActive, hBuilt⟩ := Option.bind_eq_some_iff.mp hShown
      rw [hShown] at hRow
      exact .inr ⟨arm, node, hActive, hBuilt, hRow.trans (List.flatMap_singleton _ _)⟩

/-- Hooks may cancel what they like. A conditional that has no grace has nothing in its container but
the child that it keeps, in every run. If they cancel no detaching but that of its container, so it is
with every grace, and a switch has nothing but the node of its active arm. -/
theorem nothing_beside (hClient : client.Quiet) (hTame : client.Tame) (depth : Nat) :
    (∀ {w : Leeway κ} {l₀ l : Live κ σ} {f : Follower κ} {c : ConditionalId}
      {factory : NodeFactory κ} {last : Option (Nat × Value)},
      (∀ n, Builds (Calls.upTo client (depth + 2 + n)) factory w) → l₀.Vacant f c factory w →
      (l₀.config.grace = none ∨ client.LetsGo f.box) →
      Turns (Calls.upTo client (depth + 4)) f c l₀ last l → l.OnlyChild c) ∧
    ∀ {w : Leeway κ} {l₀ l : Live κ σ} {f : Follower κ} {s : SwitchId} {x₀ : Switch κ},
      (∀ n arm factory, x₀.factory? arm = some factory →
        Builds (Calls.upTo client (depth + 2 + n)) factory w) → l₀.Unset f s x₀ w →
      l₀.clock.Clients → client.LetsGo f.box →
      TimedChoices (Calls.upTo client (depth + 4)) f s l₀ l → l.OnlyArm s := by
  refine ⟨fun hBuilds h₀ hLets h => ?_, fun hBuilds h₀ hClock hLets h => ?_⟩
  · obtain ⟨-, _, _, _, _, hRested, -⟩ := h.rested hClient hTame depth hBuilds h₀ hLets
    exact hRested.onlyChild
  · obtain ⟨-, _, _, _, _, hChosen, -⟩ := h.chosen hClient hTame hLets depth hBuilds h₀ hClock
    exact hChosen.onlyArm

/-- A conditional without a grace keeps a child that hooks do not let go. A switch whose arms are let
go shows the next one alone. -/
theorem mounted_alone :
    let calls := Calls.upTo Client.clinging 4
    let calls' := Calls.upTo Client.drawing 4
    let l := (((Turn.move (.set (.bool false))).run calls (firstFollower (.conditional 0))).run
      (mountedConditional none)).2
    let l' := (((Motion.set (.string "b")).run calls' (firstFollower (.switch 0))).run
      (mountedSwitch Client.drawing)).2
    l.OnlyChild 0 ∧ l'.OnlyArm 0 := by
  intro calls calls' l l'
  constructor
  · have hBuilds : ∀ n,
        Builds (σ := Unit) (Calls.upTo Client.clinging (0 + 2 + n)) (.client "p")
          (firstLeeway (.conditional 0)) := by
      intro n
      rw [Nat.add_comm]
      exact Client.clinging_builds (n + 1) "p"
    obtain ⟨_, h⟩ := mountedConditional_turns none
    exact (nothing_beside Client.clinging_quiet Client.clinging_tame 0).1 hBuilds
      (clingingConditional_made none).2 (.inl rfl) (h.step (.move (.set (.bool false))) trivial)
  · obtain ⟨-, hClock, hUnset⟩ := pairSwitch_made Client.drawing
    have hClients : (pairSwitch Client.drawing).clock.Clients := by
      rw [hClock]
      exact ⟨fun _ ht => (nomatch ht), fun _ ht => (nomatch ht)⟩
    have hLets : (Client.drawing : Client String Unit).LetsGo 0 := fun _ _ =>
      Client.drawing_consents.grants _
    exact (nothing_beside Client.drawing_quiet Client.drawing_tame 0).2
      (fun n arm _ hFactory => pairArms_drawn n arm hFactory) hUnset hClients hLets
      ((mountedSwitch_choices Client.drawing).move (.set (.string "b")) trivial)

/-- A conditional without a delay forgets the child that hooks hold, and then shows another beside it;
a switch shows the next arm beside the one that they hold. -/
theorem held_doubled :
    let calls := Calls.upTo Client.clinging 4
    let f := firstFollower (.conditional 0)
    let f' := firstFollower (.switch 0)
    let l₁ := (((Turn.move (.set (.bool false))).run calls f).run (mountedConditional (some 0))).2
    let l₂ := (((Turn.move (.set (.bool true))).run calls f).run l₁).2
    let l₃ := (((Motion.set (.string "b")).run calls f').run (mountedSwitch Client.clinging)).2
    ((∃ last, Turns calls f 0 (clingingConditional (some 0)) last l₁) ∧ ¬ l₁.OnlyChild 0) ∧
      ((∃ last, Turns calls f 0 (clingingConditional (some 0)) last l₂) ∧ ¬ l₂.OnlyChild 0 ∧
        l₂.dom.span 0 = [6, 7]) ∧
      TimedChoices calls f' 0 (pairSwitch Client.clinging) l₃ ∧ ¬ l₃.OnlyArm 0 ∧
        l₃.dom.span 0 = [6, 7] := by
  intro calls f f' l₁ l₂ l₃
  obtain ⟨_, h⟩ := mountedConditional_turns (some 0)
  have h₁ := h.step (.move (.set (.bool false))) trivial
  have h₂ := h₁.step (.move (.set (.bool true))) trivial
  have h₃ := (mountedSwitch_choices Client.clinging).move (.set (.string "b")) trivial
  exact ⟨⟨⟨_, h₁⟩, by decide +kernel⟩, ⟨⟨_, h₂⟩, by decide +kernel⟩, h₃, by decide +kernel⟩

end LiveMarkup.Live
