import LiveMarkup.Proofs.Live.Gentle
import LiveMarkup.Proofs.Live.Lifetimes
import LiveMarkup.Proofs.Live.Selfward
import LiveMarkup.Proofs.Live.Alone
import LiveMarkup.Proofs.Dom.Sparing

/-!
# Containers that are carried about

A container that is attached and then moved any number of times has the same children all the way,
in one piece between its markers, and once it is detached nothing in the tree tells that it ever was
away. Hooks have to be gentle for that. It is not enough that they cancel nothing: a conditional has
hooks of its own, which fill its container as soon as it reaches the document.

A node or container that is attached elsewhere is detached first and then attached where it is to
be. If it sits there already, nothing is done and nobody is told. The second step may be refused
after the first one is done: then what was attached is attached no more, and is left nowhere.

* `Roamed`: any number of moves to places outside the container;
* `Away`: what holds on the way, kept by every move, `Roamed.away`: and so by all of them;
* `Away.comes_home`: what comes of detaching at the end;
* `container_round_trip`: attaching, moving and detaching;
* `Resettled`: what comes of it, and when;
* `Tended.attach_cases`: what comes of the second step;
* `attachAnywhere_resettles`: nothing else comes of both, with gentle hooks;
* `not_attachAnywhere_atomic`: a refusal does not leave everything as it was.
-/

namespace LiveMarkup.Live

variable {κ σ : Type} {client : Client κ σ} {calls : Calls κ σ} {A : Hook κ → Prop}
variable {l l₀ l₁ l' : Live κ σ} {c : ContainerId} {parent : NodeRef} {before : Option NodeRef}

theorem Client.Quiet.gentle (hClient : client.Quiet) (hConsents : client.Consents) (depth : Nat) :
    Gentle (Calls.upTo client (depth + 1)) fun hook => ∃ k, hook = .client k := by
  rintro _ ⟨k, rfl⟩ event l hTended
  have hCancels : ((client.hook (Calls.upTo client depth) k event).run l).1 = false :=
    hConsents _ k event l
  obtain ⟨own, hOwn⟩ := hClient.hook (Calls.upTo client depth) k event l
  have hRest : Rest (fun hook => ∃ k, hook = .client k) l
      ((client.hook (Calls.upTo client depth) k event).run l).2 := by
    rw [hOwn]
    exact hTended.rest.aside rfl rfl rfl (fun _ => rfl) fun _ _ => rfl
  exact ⟨fun _ => hCancels, hRest.unstirred, hRest.tended⟩

theorem Laid.tended (h : l.Laid) (hDocument : (l.trackedOf l.document).state = none)
    (hHooks : ∀ o kind, ∀ hook ∈ l.hooksFor o kind, A hook) : l.Tended A where
  sound := h.sound
  plain := h.plain
  transient n s hs := by
    by_cases hn : n = l.document
    · rw [hn] at hs
      exact nomatch hDocument.symm.trans hs
    · rcases h.settled n hn with hNone | hSome
      · exact nomatch hNone.symm.trans hs
      · obtain rfl := Option.some.inj (hSome.symm.trans hs)
        rfl
  hooks := hHooks

/-! ## On the way -/

/-- A container was moved to places outside of it, any number of times. A move may be refused. -/
inductive Roamed (calls : Calls κ σ) (c : ContainerId) (l : Live κ σ) : Live κ σ → Prop
  | stay : Roamed calls c l l
  | move {l₁ : Live κ σ} (h : Roamed calls c l l₁) {parent : NodeRef} (before : Option NodeRef)
    (hFits : Fits l₁.dom (.container c) parent) :
    Roamed calls c l ((moveTo calls (.container c) parent before).run l₁).2

/-- A container is attached somewhere. Since some state it was carried about, and all else is where
it was. -/
structure Away (A : Hook κ → Prop) (l₀ : Live κ σ) (c : ContainerId) (l : Live κ σ) : Prop
    extends Displaced A l₀ (.container c) l where
  working : l₀.tornDown = false
  known : l₀.dom.Known (.container c)
  attached : l.stateOf (.container c) = .attached

theorem Tended.key_ne_document (h : l.Tended A) (hc : l.dom.Known (.container c)) :
    l.dom.key (.container c) ≠ l.document :=
  fun hKey => h.plain.ne_part c hc .start hKey.symm

theorem Came.away (h : Came A l (.container c) parent before l') (hTorn : l.tornDown = false)
    (hc : l.dom.Known (.container c)) : Away A l c l' :=
  ⟨h.displaced, hTorn, hc, h.attached⟩

namespace Away

variable (hG : Gentle calls A) (h : Away A l₀ c l)
include h

theorem known_now : l.dom.Known (.container c) :=
  h.carried.toExtends.known h.known

theorem still_working : l.tornDown = false :=
  h.tornDown.trans h.working

theorem span_eq : l.dom.span c = l₀.dom.span c :=
  h.carried.span rfl h.known

include hG

theorem move (hFits : Fits l.dom (.container c) parent) :
    After (moveTo calls (.container c) parent before).run l fun _ l' => Away A l₀ c l' := by
  obtain ⟨-, hp, hOut⟩ := hFits
  have hc := h.known_now
  obtain ⟨-, hOn⟩ := (h.tended.placed_of_state (h.tended.key_ne_document hc)).2 h.attached
  have hMoved := fun d' (hMove : l.dom.move (.container c) parent before = .ok d') =>
    h.tended.sound.carried_of_move hc hp hOut rfl hOn hMove
  refine (h.tended.moveTo_cases hG h.still_working h.attached
    fun d' hMove => ⟨(hMoved d' hMove).1, (hMoved d' hMove).2.1⟩).mono ?_
  rintro _ l' (⟨_, -, -, rfl⟩ | ⟨d', hMove, -, hRest⟩)
  · exact h
  · obtain ⟨-, hParts, hCarried, hOn'⟩ := hMoved d' hMove
    have hc' : d'.Known (.container c) := hParts.extends.known hc
    have hConstant : Constant l (l.withDom d') := ⟨rfl, rfl, fun _ => rfl⟩
    have hAttached := hConstant.stateOf (hParts.key _) (hOn'.trans hOn.symm)
    have hDone : Displaced A l (.container c) l' :=
      ⟨hConstant.trans hRest.unstirred.toConstant, hRest.tended,
        hCarried.trans (hRest.unstirred.dom.carried hc')⟩
    exact ⟨h.toDisplaced.trans hDone, h.working, h.known,
      (hRest.unstirred.stateOf_eq hc').trans (hAttached.trans h.attached)⟩

/-- A proper move puts the container where it is to be. -/
theorem moves (hFits : Fits l.dom (.container c) parent) (hStands : l.dom.Stands parent before)
    (hBefore : ∀ b, before = some b → l.dom.key b ∉ l.dom.runOf (.container c)) :
    After (moveTo calls (.container c) parent before).run l fun out l' =>
      out = .ok () ∧ Away A l₀ c l' ∧ l.dom.Sits l'.dom (.container c) parent before := by
  have hKey := h.tended.key_ne_document h.known_now
  refine ((h.tended.moveTo hG h.still_working hFits hKey h.attached hStands hBefore).and
    (h.move hG hFits)).mono ?_
  rintro _ l' ⟨⟨rfl, hCame⟩, hAway⟩
  exact ⟨rfl, hAway, hCame.sits⟩

/-- If the container was nowhere at first, detaching it leaves the tree as it was then. -/
theorem comes_home (hSound : l₀.dom.Sound) (hOff : l₀.dom.isPlaced (.container c) = false) :
    After (Live.detach calls (.container c)).run l fun out l' =>
      out = .ok () ∧ l₀.dom.Spared l'.dom := by
  have hc := h.known_now
  refine (h.tended.detach hG h.still_working hc (h.tended.key_ne_document hc) h.attached).mono ?_
  rintro _ l' ⟨rfl, hWent⟩
  have hCarried := (h.toDisplaced.trans hWent.displaced).carried
  exact ⟨rfl, hCarried.restored hSound hWent.tended.sound h.known hOff hWent.leaves.off⟩

end Away

/-- The container stays away over any number of moves. -/
theorem Roamed.away (hG : Gentle calls A) (hRoamed : Roamed calls c l₁ l')
    (h : Away A l₀ c l₁) : Away A l₀ c l' := by
  induction hRoamed with
  | stay => exact h
  | move _ _ hFits ih => exact ih.move hG hFits

/-! ## There and back -/

/-- A detached container is attached to a parent outside of it. It has its children then, in one
piece at the place that was asked for, and so it does after any number of moves to places outside of
it; and when it is detached after that, each node has the children that it had in the beginning, and
so has each container. -/
theorem container_round_trip (hG : Gentle calls A) (h : l.Tended A) (hTorn : l.tornDown = false)
    (hFits : Fits l.dom (.container c) parent) (hState : l.stateOf (.container c) = .detached)
    (hParent : (l.stateOf parent).isEnding = false) (hStands : l.dom.Stands parent before) :
    After (attach calls (.container c) parent before).run l fun out l₁ =>
      out = .ok () ∧ l.dom.Sits l₁.dom (.container c) parent before ∧
      ∀ l₂, Roamed calls c l₁ l₂ →
        l₂.dom.span c = l.dom.span c ∧
        (∀ parent' before', Fits l₂.dom (.container c) parent' → l₂.dom.Stands parent' before' →
          (∀ b, before' = some b → l₂.dom.key b ∉ l₂.dom.runOf (.container c)) →
          After (moveTo calls (.container c) parent' before').run l₂ fun out l₃ =>
            out = .ok () ∧ l₃.dom.span c = l.dom.span c ∧
              l₂.dom.Sits l₃.dom (.container c) parent' before') ∧
        After (detach calls (.container c)).run l₂ fun out l₃ =>
          out = .ok () ∧ (∀ q, l₃.dom.children q = l.dom.children q) ∧
            ∀ c' < l.dom.containers.size, l₃.dom.span c' = l.dom.span c' := by
  have hKey := h.key_ne_document hFits.1
  obtain ⟨-, hOff⟩ := (h.placed_of_state hKey).1 hState
  refine (h.attach hG hTorn hFits hState hParent).mono fun out l₁ hDone => ?_
  obtain ⟨rfl, hCame⟩ := hDone.1 hStands
  refine ⟨rfl, hCame.sits, fun l₂ hRoamed => ?_⟩
  have hAway := hRoamed.away hG (hCame.away hTorn hFits.1)
  refine ⟨hAway.span_eq, fun parent' before' hFits' hStands' hBefore' => ?_, ?_⟩
  · refine (hAway.moves hG hFits' hStands' hBefore').mono ?_
    rintro _ l₃ ⟨rfl, hAway₃, hSits⟩
    exact ⟨rfl, hAway₃.span_eq, hSits⟩
  · refine (hAway.comes_home hG h.sound hOff).mono ?_
    rintro _ l₃ ⟨rfl, hSpared⟩
    exact ⟨rfl, hSpared.children, fun c' hc' => hSpared.span hc'⟩

/-- A container with two elements and an empty container between them, and with a hook. -/
def packedWorks : List (Work Unit) :=
  pairWorks.take 5 ++ [.createContainer, .attach (.container 1) (.container 0) (some (.node 4)),
    .observe (.container 0), .hook 0 .afterAttach ()]

theorem packedWorks_run :
    Works (Calls.upTo Client.still 2) (create {} ()) (worked packedWorks) := by
  have h₆ := pairWorks_held.work .createContainer trivial
  have hLaid := h₆.laid Client.still_quiet 0 (create_laid {} ())
  have h₇ := h₆.work (.attach (.container 1) (.container 0) (some (.node 4)))
    ⟨by change 1 < _; decide +kernel, by change 0 < _; decide +kernel,
      hLaid.not_inside (by decide +kernel)⟩
  exact (h₇.work (.observe (.container 0)) (by change 0 < _; decide +kernel)).work
    (.hook 0 .afterAttach ()) trivial

theorem packedWorks_tended : (worked packedWorks).Tended fun hook => ∃ k, hook = .client k := by
  have hClients : (worked packedWorks).observers.all
      (fun x => x.hooks.all fun e => e.hook.client?.isSome) = true := by decide +kernel
  refine (packedWorks_run.laid Client.still_quiet 0 (create_laid {} ())).tended (by decide +kernel)
    fun o kind hook hMem => ?_
  obtain ⟨x, hx, e, he, -, rfl⟩ := mem_hooksFor.mp hMem
  obtain ⟨y, hy, rfl⟩ := Option.map_eq_some_iff.mp hx
  have hSome := List.all_eq_true.mp
    (Array.all_eq_true_iff_forall_mem.mp hClients y (Array.mem_of_getElem? hy)) e he
  cases hHook : e.hook with
  | client k => exact ⟨k, rfl⟩
  | _ =>
    rw [hHook] at hSome
    cases hSome

/-- The container is put into the body and taken out again. -/
theorem container_round_trip_packed :
    let l := worked packedWorks
    let calls : Calls Unit Unit := Calls.upTo Client.still 2
    l.dom.span 0 = [3, 8, 9, 4] ∧ (l.hooksFor 0 .afterAttach).length = 1 ∧
      After (attach calls (.container 0) (.node 2) none).run l fun out l₁ =>
        out = .ok () ∧ l₁.dom.span 0 = l.dom.span 0 ∧
        After (detach calls (.container 0)).run l₁ fun out l₂ =>
          out = .ok () ∧ ∀ q, l₂.dom.children q = l.dom.children q := by
  have hBody : (worked packedWorks).dom.Known (.node 2) :=
    Dom.plain_of_parts (by decide +kernel) (by decide +kernel)
  have hFits : Fits (worked packedWorks).dom (.container 0) (.node 2) :=
    ⟨by change 0 < _; decide +kernel, hBody,
      packedWorks_tended.sound.not_inside (by decide +kernel)⟩
  have hLast : (worked packedWorks).dom.Stands (.node 2) none := fun _ hb => nomatch hb
  refine ⟨by decide +kernel, by decide +kernel, (container_round_trip
    (Client.still_quiet.gentle (fun _ _ _ _ => rfl) 1) packedWorks_tended (by decide +kernel) hFits
    (by decide +kernel) (by decide +kernel) hLast).mono ?_⟩
  rintro _ l₁ ⟨rfl, -, hRoamed⟩
  obtain ⟨hSpan, -, hDetach⟩ := hRoamed l₁ .stay
  exact ⟨rfl, hSpan, hDetach.mono fun _ _ hDone => ⟨hDone.1, hDone.2.1⟩⟩

/-! ## Containers that fill themselves -/

/-- A conditional in a new document, which is to show a child. -/
def eagerConditional : Live String Unit :=
  ((newConditional (Calls.upTo Client.drawing 4) 0 (.client "p")).run.run
    (newDocument none (.bool true))).2

theorem eagerConditional_made :
    eagerConditional.dom = (newDocument none (.bool true)).dom.createContainer.1 ∧
      eagerConditional.Vacant (firstFollower (.conditional 0)) 0 (.client "p")
        (firstLeeway (.conditional 0)) := by
  have hMade : After (newConditional (Calls.upTo Client.drawing 4) 0 (.client "p")).run
      (newDocument none (.bool true)) _ :=
    newConditional_vacant (newDocument_prepared _ _ (.conditional 0)) (fun _ => Iff.rfl) .nil
      (fun _ ht => nomatch ht) (fun _ ht => nomatch ht) _
  unfold eagerConditional
  exact ⟨hMade.1.2, hMade.2⟩

/-- It is not enough that hooks cancel nothing. The container of a conditional is empty before it is
attached to the body, and is not when it is detached again. -/
theorem not_container_round_trip :
    ¬ ∀ (calls : Calls String Unit) (l : Live String Unit) (c : ContainerId) (parent : NodeRef),
      (∀ hook event l', ((calls.hook hook event).run l').1 = false) → l.dom.Sound →
      l.tornDown = false → Fits l.dom (.container c) parent →
      l.stateOf (.container c) = .detached → (l.stateOf parent).isEnding = false →
      After (do attach calls (.container c) parent none; detach calls (.container c) :
        Act String Unit Unit).run l fun _ l' => l'.dom.span c = l.dom.span c := by
  intro hTrip
  obtain ⟨hDom, hVacant⟩ := eagerConditional_made
  have hCancels : ∀ hook event l',
      (((Calls.upTo Client.drawing 4 : Calls String Unit).hook hook event).run l').1 = false := by
    intro hook event l'
    cases hook <;> rfl
  have hProper := mountBody_proper hVacant.toPoised hDom
  have hSame := hTrip (Calls.upTo Client.drawing 4) eagerConditional 0 (.node 2) hCancels
    hVacant.sound (by decide +kernel) ⟨by change 0 < _; decide +kernel, hProper.1, hProper.2.1⟩
    (by decide +kernel) (by decide +kernel)
  have hFilled : ((do
      attach (Calls.upTo Client.drawing 4) (.container 0) (.node 2) none
      detach (Calls.upTo Client.drawing 4) (.container 0) : Act String Unit Unit).run.run
        eagerConditional).2.dom.span 0 = [6] := by
    decide +kernel
  have hEmpty : eagerConditional.dom.span 0 = [] := by decide +kernel
  exact absurd (hFilled.symm.trans (hSame.trans hEmpty)) (by decide)

end LiveMarkup.Live

/-! ## Attaching from any state -/

namespace LiveMarkup.Live

variable {κ σ : Type} {calls : Calls κ σ} {A : Hook κ → Prop} {l l₁ l' : Live κ σ}
variable {r parent : NodeRef} {before : Option NodeRef}

/-! ### What comes of it -/

/-- It is attached and sits where it was to be. All others are where they were, in their states. -/
structure Moved (l : Live κ σ) (r parent : NodeRef) (before : Option NodeRef) (l' : Live κ σ) :
    Prop where
  seated : l'.dom.Seated r parent before
  attached : l'.stateOf r = .attached
  carried : l.dom.Carried l'.dom r
  others : ∀ x, l.dom.Known x → x ≠ r → l'.stateOf x = l.stateOf x

/-- It was taken out and is nowhere. All others are where they were, in their states. -/
structure Dropped (l : Live κ σ) (r : NodeRef) (l' : Live κ σ) : Prop where
  leaves : l.dom.Leaves l'.dom r
  detached : l'.stateOf r = .detached
  others : ∀ x, l.dom.Known x → x ≠ r → l'.stateOf x = l.stateOf x

/-- What comes of attaching something from any state. -/
inductive Resettled (l : Live κ σ) (r parent : NodeRef) (before : Option NodeRef) (l' : Live κ σ) :
    Except Fault Unit → Prop
  | spared (hState : l.stateOf r ≠ .detached)
    (hStays : l.stateOf r = .attached → l.dom.Seated r parent before) (hSame : l' = l) :
    Resettled l r parent before l' (.ok ())
  | tornDown (hState : l.stateOf r = .detached ∨
      l.stateOf r = .attached ∧ ¬ l.dom.Seated r parent before)
    (hTorn : l.tornDown = true) (hSame : l' = l) : Resettled l r parent before l' (.error .tornDown)
  | moved (hState : l.stateOf r = .detached ∨
      l.stateOf r = .attached ∧ ¬ l.dom.Seated r parent before)
    (hTorn : l.tornDown = false) (hParent : (l.stateOf parent).isEnding = false)
    (hOffers : l.dom.Offers r parent before) (hMoved : Moved l r parent before l') :
    Resettled l r parent before l' (.ok ())
  | refused (hState : l.stateOf r = .detached) (hTorn : l.tornDown = false)
    (hNoPlace : (l.stateOf parent).isEnding = true ∨ ¬ l.dom.Offers r parent before)
    (hSame : Unstirred l l') {fault : Fault} : Resettled l r parent before l' (.error fault)
  | dropped (hState : l.stateOf r = .attached) (hAway : ¬ l.dom.Seated r parent before)
    (hTorn : l.tornDown = false)
    (hNoPlace : (l.stateOf parent).isEnding = true ∨ ¬ l.dom.Offers r parent before)
    (hDropped : Dropped l r l') {fault : Fault} : Resettled l r parent before l' (.error fault)

/-! ### The steps -/

section Any

variable {post : Except Fault Unit → Live κ σ → Prop}

/-- Nothing is done to what is neither detached nor attached elsewhere, whatever the hooks are. -/
theorem attachAnywhere_spares (hState : l.stateOf r ≠ .detached)
    (hStays : l.stateOf r = .attached → l.dom.standsAt r parent before = true) :
    After (attachAnywhere calls r parent before).run l fun out l' => out = .ok () ∧ l' = l := by
  unfold attachAnywhere
  refine After.get_act ?_
  split
  · rename_i hDetached
    exact absurd hDetached hState
  · rename_i hAttached
    rw [hStays hAttached]
    exact ⟨rfl, rfl⟩
  · exact ⟨rfl, rfl⟩

theorem attachAnywhere_detached (hState : l.stateOf r = .detached)
    (h : After (attach calls r parent before).run l post) :
    After (attachAnywhere calls r parent before).run l post := by
  unfold attachAnywhere
  refine After.get_act ?_
  rw [hState]
  exact h

theorem attachAnywhere_attached (hState : l.stateOf r = .attached)
    (hAway : l.dom.standsAt r parent before = false) {m : Except Fault Unit → Live κ σ → Prop}
    (h : After (detach calls r).run l m)
    (hError : ∀ fault l₁, m (.error fault) l₁ → post (.error fault) l₁)
    (hOk : ∀ l₁, m (.ok ()) l₁ → l₁.stateOf r = .detached ∧
      After (attach calls r parent before).run l₁ post) :
    After (attachAnywhere calls r parent before).run l post := by
  unfold attachAnywhere
  refine After.get_act ?_
  rw [hState]
  dsimp only
  rw [hAway]
  refine After.act_bind h (fun _ l₁ hDone => After.get_act ?_) hError
  obtain ⟨hDetached, hRest⟩ := hOk l₁ hDone
  rw [if_pos hDetached]
  exact hRest

/-- Nothing is attached in a document that is torn down. -/
theorem attachAnywhere_tornDown (hTorn : l.tornDown = true) (hState : l.stateOf r = .detached ∨
    l.stateOf r = .attached ∧ l.dom.standsAt r parent before = false) :
    After (attachAnywhere calls r parent before).run l fun out l' =>
      out = .error .tornDown ∧ l' = l := by
  rcases hState with hDetached | ⟨hAttached, hAway⟩
  · refine attachAnywhere_detached hDetached ?_
    unfold attach
    exact After.ensureLive (fun _ => ⟨rfl, rfl⟩) fun hLive => nomatch hLive.symm.trans hTorn
  · refine attachAnywhere_attached hAttached hAway (m := fun out l' =>
      out = .error .tornDown ∧ l' = l) ?_ (fun _ _ hDone => hDone) fun _ hDone => nomatch hDone.1
    unfold detach
    exact After.ensureLive (fun _ => ⟨rfl, rfl⟩) fun hLive => nomatch hLive.symm.trans hTorn

end Any

/-- What is detached is offered any reference that there is. -/
theorem Tended.offers_iff (h : l.Tended A) (hFits : Fits l.dom r parent)
    (hKey : l.dom.key r ≠ l.document) (hState : l.stateOf r = .detached) :
    l.dom.Offers r parent before ↔ l.dom.Stands parent before := by
  obtain ⟨hr, hp, hOut⟩ := hFits
  obtain ⟨-, hOff⟩ := (h.placed_of_state hKey).1 hState
  exact ⟨fun hOffers => hOffers.1, fun hStands =>
    ⟨hStands, h.sound.before_apart_of_unplaced hr hp hOut hOff hStands⟩⟩

section Steps

variable (hG : Gentle calls A) (h : l.Tended A) (hTorn : l.tornDown = false)
variable (hFits : Fits l.dom r parent)
include hG h hTorn hFits

/-- What is detached comes to sit in a parent that takes children, or nothing is stirred. -/
theorem Tended.attach_cases (hState : l.stateOf r = .detached) :
    After (Live.attach calls r parent before).run l fun out l' =>
      ((l.stateOf parent).isEnding = false ∧ l.dom.Stands parent before ∧ out = .ok () ∧
        Came A l r parent before l') ∨
      (((l.stateOf parent).isEnding = true ∨ ¬ l.dom.Stands parent before) ∧
        (∃ fault, out = .error fault) ∧ Unstirred l l' ∧ l'.Tended A) := by
  cases hParent : (l.stateOf parent).isEnding with
  | false =>
    refine (h.attach hG hTorn hFits hState hParent).mono fun out l' hDone => ?_
    by_cases hStands : l.dom.Stands parent before
    · obtain ⟨hOk, hCame⟩ := hDone.1 hStands
      exact .inl ⟨rfl, hStands, hOk, hCame⟩
    · obtain ⟨⟨cause, hError⟩, hSame, hTended⟩ := hDone.2 hStands
      exact .inr ⟨.inr hStands, ⟨_, hError⟩, hSame, hTended⟩
  | true =>
    unfold Live.attach
    refine After.ensureLive (fun ht => absurd (hTorn.symm.trans ht) Bool.false_ne_true) fun _ => ?_
    refine After.needState (fun hs => absurd hState hs) fun _ => ?_
    refine After.needParent (fun _ => .inr ⟨.inl rfl, ⟨_, rfl⟩, .refl l, h⟩) fun hLives => ?_
    exact nomatch hLives.symm.trans hParent

end Steps

/-! ### Both steps -/

section Both

variable (hFits : Fits l.dom r parent) (hSound : l.dom.Sound)
include hFits hSound

/-- What was displaced and put into a parent sits there, and others are where and as they were. -/
theorem Came.moved (h : Came A l₁ r parent before l') (hDisplaced : Displaced A l r l')
    (hSound₁ : l₁.dom.Sound) (hr₁ : l₁.dom.Known r) (hOffers : l₁.dom.Offers r parent before) :
    Moved l r parent before l' where
  seated := h.sits.seated h.grown hSound₁ h.tended.sound hr₁ hOffers
  attached := h.attached
  carried := hDisplaced.carried
  others _ hx hNe := hDisplaced.stateOf_eq hSound hFits.1 hx hNe

/-- What left its place and was not stirred then is nowhere. -/
theorem Went.dropped (h : Went A l r l₁) (hSame : Unstirred l₁ l') (hTended : l'.Tended A) :
    Dropped l r l' := by
  have hr₁ := h.grown.known hFits.1
  have hDisplaced := h.displaced.trans (hSame.displaced hTended hr₁)
  have hOff : l'.dom.isPlaced r = false := (hSame.dom.isPlaced hr₁).trans h.leaves.off
  exact ⟨⟨hDisplaced.carried.run, hOff, hDisplaced.carried.rest⟩,
    (hSame.stateOf_eq hr₁).trans h.detached,
    fun x hx hNe => hDisplaced.stateOf_eq hSound hFits.1 hx hNe⟩

theorem Went.fits (h : Went A l r l₁) : Fits l₁.dom r parent := by
  obtain ⟨hr, hp, hOut⟩ := hFits
  refine ⟨h.grown.known hr, h.grown.known hp, ?_⟩
  rw [h.grown.key hp, h.displaced.carried.inside_iff hSound h.tended.sound]
  exact hOut

theorem Went.stateOf_parent (h : Went A l r l₁) : l₁.stateOf parent = l.stateOf parent := by
  refine h.displaced.stateOf_eq hSound hFits.1 hFits.2.1 ?_
  rintro rfl
  exact hFits.2.2 (Dom.inside_key _)

theorem Went.stands_iff (h : Went A l r l₁) :
    l₁.dom.Stands parent before ↔ l.dom.Offers r parent before :=
  h.displaced.carried.stands_iff hSound h.tended.sound hFits.1 hFits.2.1 hFits.2.2 h.leaves.off

end Both

section Resettle

variable (hG : Gentle calls A) (h : l.Tended A) (hFits : Fits l.dom r parent)
variable (hKey : l.dom.key r ≠ l.document)
include hG h hFits hKey

theorem Tended.resettles_detached (hTorn : l.tornDown = false) (hState : l.stateOf r = .detached) :
    After (Live.attach calls r parent before).run l fun out l' =>
      Resettled l r parent before l' out := by
  refine (h.attach_cases hG hTorn hFits hState).mono ?_
  rw [← h.offers_iff hFits hKey hState]
  rintro _ l' (⟨hParent, hOffers, rfl, hCame⟩ | ⟨hNoPlace, ⟨fault, rfl⟩, hSame, -⟩)
  · exact .moved (.inl hState) hTorn hParent hOffers
      (hCame.moved hFits h.sound hCame.displaced h.sound hFits.1 hOffers)
  · exact .refused hState hTorn hNoPlace hSame

/-- The reference is asked for when what is attached elsewhere has been taken out already. -/
theorem Tended.resettles_attached (hTorn : l.tornDown = false) (hState : l.stateOf r = .attached)
    (hAway : ¬ l.dom.Seated r parent before) (hWent : Went A l r l₁) :
    After (Live.attach calls r parent before).run l₁ fun out l' =>
      Resettled l r parent before l' out := by
  have hFits₁ : Fits l₁.dom r parent := hWent.fits hFits h.sound
  have hKey₁ : l₁.dom.key r ≠ l₁.document := by
    rw [hWent.grown.key hFits.1, hWent.document]
    exact hKey
  have hOffers₁ : l₁.dom.Offers r parent before ↔ l₁.dom.Stands parent before :=
    hWent.tended.offers_iff hFits₁ hKey₁ hWent.detached
  have hStands₁ : l₁.dom.Stands parent before ↔ l.dom.Offers r parent before :=
    hWent.stands_iff hFits h.sound
  refine (hWent.tended.attach_cases hG (hWent.tornDown.trans hTorn) hFits₁ hWent.detached).mono ?_
  rw [hWent.stateOf_parent hFits h.sound, hStands₁]
  rintro _ l' (⟨hParent, hOffers, rfl, hCame⟩ | ⟨hNoPlace, ⟨fault, rfl⟩, hSame, hTended⟩)
  · exact .moved (.inr ⟨hState, hAway⟩) hTorn hParent hOffers
      (hCame.moved hFits h.sound (hWent.displaced.trans hCame.displaced) hWent.tended.sound hFits₁.1
        (hOffers₁.mpr (hStands₁.mpr hOffers)))
  · exact .dropped hState hAway hTorn hNoPlace (hWent.dropped hFits h.sound hSame hTended)

end Resettle

/-- With gentle hooks, something other than the document is left alone if it is neither detached nor
attached, or if it sits already where it is to be. Otherwise it comes to sit there, if the parent
takes children and the reference is one of them and not its own. If not, that is refused: what was
detached is as it was, and what was attached is attached no more and nowhere. -/
theorem attachAnywhere_resettles (hG : Gentle calls A) (h : l.Tended A)
    (hFits : Fits l.dom r parent) (hKey : l.dom.key r ≠ l.document) :
    After (attachAnywhere calls r parent before).run l fun out l' =>
      Resettled l r parent before l' out := by
  have hSeated : l.dom.standsAt r parent before = true ↔ l.dom.Seated r parent before :=
    h.sound.standsAt_iff hFits.1 hFits.2.1 hFits.2.2
  by_cases hStays : l.stateOf r ≠ .detached ∧
      (l.stateOf r = .attached → l.dom.Seated r parent before)
  · refine (attachAnywhere_spares hStays.1 fun hs => hSeated.mpr (hStays.2 hs)).mono ?_
    rintro _ l' ⟨rfl, rfl⟩
    exact .spared hStays.1 hStays.2 rfl
  have hState : l.stateOf r = .detached ∨
      l.stateOf r = .attached ∧ ¬ l.dom.Seated r parent before := by
    rwa [Classical.not_and_iff_not_or_not, not_not, Classical.not_imp] at hStays
  have hStandsAt : ¬ l.dom.Seated r parent before → l.dom.standsAt r parent before = false :=
    fun hAway => Bool.eq_false_iff.mpr fun hs => hAway (hSeated.mp hs)
  cases hTorn : l.tornDown with
  | true =>
    refine (attachAnywhere_tornDown hTorn
      (hState.imp_right fun hs => ⟨hs.1, hStandsAt hs.2⟩)).mono ?_
    rintro _ l' ⟨rfl, rfl⟩
    exact .tornDown hState hTorn rfl
  | false =>
    rcases hState with hDetached | ⟨hAttached, hAway⟩
    · exact attachAnywhere_detached hDetached
        (h.resettles_detached hG hFits hKey hTorn hDetached)
    · refine attachAnywhere_attached hAttached (hStandsAt hAway)
        (h.detach hG hTorn hFits.1 hKey hAttached) (fun _ _ hDone => nomatch hDone.1) ?_
      exact fun l₁ ⟨_, hWent⟩ => ⟨hWent.detached,
        h.resettles_attached hG hFits hKey hTorn hAttached hAway hWent⟩

theorem packedWorks_fits (c : ContainerId) (hc : c < 2) :
    Fits (worked packedWorks).dom (.node 3) (.container c) := by
  refine ⟨Dom.plain_of_parts (by decide +kernel) (by decide +kernel), ?_,
    packedWorks_tended.sound.not_inside ?_⟩
  · have hSize : (worked packedWorks).dom.containers.size = 2 := by decide +kernel
    exact hc.trans_eq hSize.symm
  · revert c
    decide +kernel

/-- The first element of a container is put into a container that is in it, too. -/
theorem attachAnywhere_resettles_packed :
    let l := worked packedWorks
    let calls : Calls Unit Unit := Calls.upTo Client.still 2
    l.stateOf (.node 3) = .attached ∧ l.dom.span 1 = [] ∧
      After (attachAnywhere calls (.node 3) (.container 1) none).run l fun out l' =>
        out = .ok () ∧ Moved l (.node 3) (.container 1) none l' := by
  have hFits := packedWorks_fits 1 (by decide)
  have hState : (worked packedWorks).stateOf (.node 3) = .attached := by decide +kernel
  have hAway : ¬ (worked packedWorks).dom.Seated (.node 3) (.container 1) none := fun hSeated =>
    absurd ((packedWorks_tended.sound.standsAt_iff hFits.1 hFits.2.1 hFits.2.2).mpr hSeated)
      (by decide +kernel)
  have hOffers : (worked packedWorks).dom.Offers (.node 3) (.container 1) none :=
    ⟨fun _ hb => (nomatch hb), fun _ hb => (nomatch hb)⟩
  have hLives : ((worked packedWorks).stateOf (.container 1)).isEnding = false := by decide +kernel
  refine ⟨hState, by decide +kernel, (attachAnywhere_resettles
    (Client.still_quiet.gentle (fun _ _ _ _ => rfl) 1) packedWorks_tended hFits
    (by decide +kernel)).mono fun out l' hDone => ?_⟩
  cases hDone with
  | spared _ hStays _ => exact absurd (hStays hState) hAway
  | tornDown _ hTorn _ => exact absurd hTorn (by decide +kernel)
  | moved _ _ _ _ hMoved => exact ⟨rfl, hMoved⟩
  | refused hDetached _ _ _ => exact absurd (hDetached.symm.trans hState) (by decide)
  | dropped _ _ _ hNoPlace _ =>
    rcases hNoPlace with hEnding | hNone
    · exact nomatch hLives.symm.trans hEnding
    · exact absurd hOffers hNone

/-- A refusal does not leave everything as it was. An element that is to come before one that is no
child of the container is taken out of it and is detached then. -/
theorem not_attachAnywhere_atomic :
    ¬ ∀ (calls : Calls Unit Unit) (A : Hook Unit → Prop) (l : Live Unit Unit) (r parent : NodeRef)
      (before : Option NodeRef), Gentle calls A → l.Tended A → l.tornDown = false →
      Fits l.dom r parent → After (attachAnywhere calls r parent before).run l fun out l' =>
        (∃ fault, out = .error fault) → l'.stateOf r = l.stateOf r ∧
          l'.dom.childrenOf parent = l.dom.childrenOf parent := by
  intro hAtomic
  have hSame := hAtomic (Calls.upTo Client.still 2) _ (worked packedWorks) (.node 3) (.container 0)
    (some (.node 2)) (Client.still_quiet.gentle (fun _ _ _ _ => rfl) 1) packedWorks_tended
    (by decide +kernel) (packedWorks_fits 0 (by decide))
  have hFault : ∀ out : Except Fault Unit, out.isOk = false → ∃ fault, out = .error fault := by
    intro out hOut
    cases out with
    | ok => cases hOut
    | error fault => exact ⟨fault, rfl⟩
  have hDetached := (hSame (hFault _ (by decide +kernel))).1
  exact absurd hDetached (by decide +kernel)

end LiveMarkup.Live
