import LiveMarkup.Proofs.Dom.Taking
import LiveMarkup.Proofs.Live.Rows

/-!
# What is destroyed

In a session, what is destroyed stays so, and with it the bindings that it hosts. All that is
inside is destroyed too, unless something is moved into it afterwards.

* `Lasting`: conditions on the tree and the notes that transitions keep, `Lasting.step`: and so do
  deeds;
* `Run.final`: what is destroyed is so for good;
* `tearDown_final`: from a tear-down on no transition succeeds;
* `SparingRun.destroyed_throughout`: what is inside something destroyed is destroyed.
-/

namespace LiveMarkup.Live

variable {κ σ : Type} {client : Client κ σ} {l l₁ l' : Live κ σ} {r parent : NodeRef}
variable {before : Option NodeRef}

/-! ## Notes -/

/-- The tree and the noted states are as before. -/
structure SameNotes (l l' : Live κ σ) : Prop where
  document : l'.document = l.document
  dom : l'.dom = l.dom
  state : ∀ n, (l'.trackedOf n).state = (l.trackedOf n).state

theorem SameNotes.trans (h₁ : SameNotes l l₁) (h₂ : SameNotes l₁ l') : SameNotes l l' :=
  ⟨h₂.document.trans h₁.document, h₂.dom.trans h₁.dom,
    fun n => (h₂.state n).trans (h₁.state n)⟩

theorem Changed.sameNotes {f : ObserverId → Observer.Core κ → Observer.Core κ}
    (h : Changed l l' l.dom f) : SameNotes l l' :=
  ⟨h.document, h.dom, fun n => congrArg _ (h.tracked n)⟩

theorem Calm.sameNotes (h : Calm l l') : SameNotes l l' :=
  (Changed.alike_of_calm h).sameNotes

theorem observe_sameNotes (l : Live κ σ) (r : NodeRef) :
    After (observe r).run l fun _ l' => SameNotes l l' := by
  have hJoin : ∀ {l' : Live κ σ} {status : Connectivity}, Joined l l' r status →
      SameNotes l l' := fun h => ⟨h.document, h.dom, fun n => by
    rw [h.tracked]
    split <;> rfl⟩
  refine (observe_cases l r).mono ?_
  rintro _ l' (⟨_, _, rfl⟩ | ⟨_, _, _, _, hAlike, _, _⟩ | ⟨_, ⟨_, hJoined⟩ | ⟨_, _, hJoined⟩⟩)
  · exact ⟨rfl, rfl, fun _ => rfl⟩
  · exact hAlike.sameNotes
  · exact hJoin hJoined
  · exact hJoin hJoined

theorem bind_sameNotes {hosts : List NodeRef} {byHand : List BindingId} (hO : l.Observed)
    (hW : Wired l hosts byHand) (hClient : client.Quiet) (depth : Nat) {feed : Feed κ}
    (hFeed : feed.Quiet) (held : Bool) (hr : l.dom.Known r) :
    After (bind (Calls.upTo client (depth + 2)) r feed held).run l
      fun _ l' => SameNotes l l' := by
  refine After.bind_tie ((observe_orderly hO hW hr).and (observe_sameNotes l r)) (fun _ _ h => h.2)
    (fun _ _ h => h.2) ?_
  rintro o l₁ ⟨⟨_, hW₁, _⟩, hSame₁⟩ -
  have hSizes := hW₁.subscriptions_size.trans hW₁.bindings_size.symm
  refine (tie_tied hClient depth hFeed held hSizes o).mono ?_
  rintro b l₂ ⟨_, hTied⟩
  exact hSame₁.trans ⟨hTied.document, hTied.dom, fun n => congrArg _ (hTied.tracked n)⟩

/-! ## Conditions that last -/

/-- A condition on the tree and the notes that transitions keep, but for moves into what is
destroyed. -/
structure Lasting (P : Live κ σ → Prop) : Prop where
  same : ∀ {l l'}, SameNotes l l' → P l → P l'
  put : ∀ {l l' r parent before}, l.Observed → l.dom.Known r → l.dom.Known parent →
    l.stateOf r ≠ .destroyed → l.stateOf parent ≠ .destroyed → l.Put r parent before l' →
      P l → P l'
  takenOut : ∀ {l l' r}, l.Observed → l.dom.Known r → l.TakenOut r l' → P l → P l'
  destroyed : ∀ {l l' r}, l.Observed → l.dom.Known r → l.stateOf r = .detached →
    Destroyed l l' r → P l → P l'

theorem Observed.laid {hosts : List NodeRef} {byHand : List BindingId} (hO : l.Observed)
    (hW : Wired l hosts byHand) : l.Laid :=
  ⟨hO.sound, hO.plain, fun n _ => hO.settled n, hW.quietFor⟩

namespace Lasting

variable {P : Live κ σ → Prop} (hP : Lasting P) (hClient : client.Quiet) (depth : Nat)
variable {hosts : List NodeRef} {byHand : List BindingId}
variable (hO : l.Observed) (hW : Wired l hosts byHand) (h : P l)
include hP hClient hO hW h

theorem attach (hr : l.MovableInto r parent) :
    After (Live.attach (Calls.upTo client (depth + 2)) r parent before).run l
      fun _ l' => P l' := by
  refine ((hO.laid hW).attach_put hClient depth ⟨hr.1.1, hr.2.1, hr.2.2⟩).mono ?_
  rintro _ l' (hAlike | ⟨hState, hEnding, hPut⟩)
  · exact hP.same hAlike.sameNotes h
  · refine hP.put hO hr.1.1 hr.2.1 ?_ ?_ hPut h
    · simp [hState]
    · intro hDestroyed
      simp [hDestroyed, NodeState.isEnding] at hEnding

theorem detach (hr : l.Movable r) :
    After (Live.detach (Calls.upTo client (depth + 2)) r).run l fun _ l' => P l' := by
  refine ((hO.laid hW).detach_takenOut hClient depth hr.1 hr.2).mono ?_
  rintro _ l' (hAlike | ⟨_, hTaken⟩)
  · exact hP.same hAlike.sameNotes h
  · exact hP.takenOut hO hr.1 hTaken h

theorem destroy (hr : l.Movable r) :
    After (Live.destroy (Calls.upTo client (depth + 2)) r).run l fun _ l' => P l' := by
  refine ((hO.laid hW).destroy_destroyed hClient depth hr.1).mono ?_
  rintro _ l' (hAlike | ⟨hState, hD⟩)
  · exact hP.same hAlike.sameNotes h
  · exact hP.destroyed hO hr.1 hState hD h

/-- After a detachment, all that is asked of a document still holds. -/
theorem detached (hr : l.Movable r) :
    After (Live.detach (Calls.upTo client (depth + 2)) r).run l fun _ l' =>
      (Carried l l' r ∧ Wired l' hosts byHand) ∧ P l' :=
  ((hO.detach hClient depth hW.quietFor hr.1 hr.2).and (((Wired.stepwise hClient depth).detach r).keeps l hW)).and
    (hP.detach hClient depth hO hW h hr)

theorem detachIfAttached (hr : l.Movable r) :
    After (Live.detachIfAttached (Calls.upTo client (depth + 2)) r).run l fun _ l' => P l' := by
  refine After.get_act ?_
  split
  · exact hP.detach hClient depth hO hW h hr
  · exact h

theorem attachAnywhere (hr : l.MovableInto r parent) :
    After (Live.attachAnywhere (Calls.upTo client (depth + 2)) r parent before).run l
      fun _ l' => P l' := by
  refine After.get_act ?_
  split
  · exact hP.attach hClient depth hO hW h hr
  · split
    · refine After.act_bind (hP.detached hClient depth hO hW h hr.1) ?_ fun _ _ hDone => hDone.2
      rintro _ l₁ ⟨⟨hCarried, hW₁⟩, h₁⟩
      refine After.get_act ?_
      split
      · exact hP.attach hClient depth hCarried.toObserved hW₁ h₁ (hCarried.movableInto hr)
      · exact h₁
    · exact h
  · exact h

theorem destroyFully (hr : l.Movable r) :
    After (Live.destroyFully (Calls.upTo client (depth + 2)) r).run l fun _ l' => P l' := by
  refine After.get_act ?_
  split
  · exact h
  · exact h
  · refine After.act_bind (hP.detached hClient depth hO hW h hr) ?_ fun _ _ hDone => hDone.2
    rintro _ l₁ ⟨⟨hCarried, hW₁⟩, h₁⟩
    refine After.get_act ?_
    split
    · exact hP.destroy hClient depth hCarried.toObserved hW₁ h₁ (hCarried.movable hr)
    · exact h₁
  · exact hP.destroy hClient depth hO hW h hr

end Lasting

/-- One proper deed keeps it, if moving does. -/
theorem Lasting.step {P : Live κ σ → Prop} (hP : Lasting P) (hClient : client.Quiet) (depth : Nat)
    {s : Session κ σ} (hs : Orderly s) (d : Deed κ) (hProper : d.Proper s.live) (h : P s.live)
    (hMoved : ∀ r parent before, d = .moveTo r parent before → s.live.stateOf r = .attached →
      ∀ l', s.live.Put r parent before l' → P l') :
    P (s.step (Calls.upTo client (depth + 2)) d).live := by
  have hO := hs.observed
  obtain ⟨hosts, hW, _⟩ := hs.wired
  have hSame : ∀ {α : Type} {op : Act κ σ α},
      (After op.run s.live fun _ l' => SameNotes s.live l') → P (s.after op).live :=
    fun hOp => hP.same hOp h
  have hStill : ∀ {α : Type} {op : Act κ σ α},
      (After op.run s.live fun _ l' => l' = s.live) → P (s.after op).live := fun hOp => by
    unfold Session.after
    rwa [show (_ : Live κ σ) = s.live from hOp]
  cases d with
  | observe r => exact hSame (observe_sameNotes s.live r)
  | hook o kind k =>
    refine hP.same ?_ h
    have hAfter := (addHook_turned s.live o kind (.client k)).mono
      fun _ l' hDone => (show SameNotes s.live l' from ⟨hDone.1.document, hDone.1.dom, fun n => by
        simp only [trackedOf, hDone.1.tracked]⟩)
    exact hAfter
  | bind r feed held =>
    have hAfter := bind_sameNotes hO hW hClient depth hProper.2 held hProper.1
    unfold After at hAfter
    simp only [Session.step]
    split
    · rename_i b live hRun
      rw [hRun] at hAfter
      exact hP.same hAfter h
    · rename_i e live hRun
      rw [hRun] at hAfter
      exact hP.same hAfter h
  | switchOn b =>
    refine hP.same ?_ h
    have hAfter : After (activateBinding (Calls.upTo client (depth + 2)) b).run s.live
        fun _ l' => SameNotes s.live l' := by
      unfold activateBinding
      refine After.get_act ?_
      dsimp only
      split
      · rw [after_act_throw_bind]
        exact ⟨rfl, rfl, fun _ => rfl⟩
      rw [after_lift]
      exact (switchOn_quiet hClient (depth + 1) (Hook.quiet_switchOn.mpr
        fun x _ feed hFeed => hW.feeds _ feed hFeed)).mono
        fun _ _ hQuiet => hQuiet.1.sameNotes
    exact hAfter
  | switchOff b =>
    refine hP.same ?_ h
    have hAfter := (switchOff_quiet (l := s.live) (b := b) (.of_slight trivial)).mono
      fun _ _ hQuiet => hQuiet.1.sameNotes
    exact hAfter
  | attach r parent before =>
    rcases hProper with rfl | hr
    · exact hStill (attach_document s.live _ parent before)
    · exact hP.attach hClient depth hO hW h hr
  | detach r => exact hP.detach hClient depth hO hW h hProper
  | destroy r =>
    rcases hProper with rfl | hr
    · exact hStill (destroy_document s.live _)
    · exact hP.destroy hClient depth hO hW h hr
  | moveTo r parent before =>
    have hMove : After (moveTo (Calls.upTo client (depth + 2)) r parent before).run s.live
        fun _ l' => P l' :=
      ((hO.laid hW).moveTo_put hClient depth ⟨hProper.1.1, hProper.2.1, hProper.2.2⟩).mono
        fun _ l' hDone => hDone.elim (fun hAlike => hP.same hAlike.sameNotes h)
          fun hPut => hMoved r parent before rfl hPut.1 l' hPut.2
    exact hMove
  | attachAnywhere r parent before => exact hP.attachAnywhere hClient depth hO hW h hProper
  | detachIfAttached r => exact hP.detachIfAttached hClient depth hO hW h hProper
  | destroyFully r => exact hP.destroyFully hClient depth hO hW h hProper

/-! ## For good -/

/-- A node or container is there and is destroyed. -/
def Gone (r : NodeRef) (l : Live κ σ) : Prop :=
  l.dom.Known r ∧ l.dom.key r ≠ l.document ∧
    (l.trackedOf (l.dom.key r)).state = some .destroyed

theorem Gone.stateOf (h : Gone r l) : l.stateOf r = .destroyed := by
  rw [Live.stateOf, if_neg h.2.1, h.2.2]
  rfl

theorem gone_of_stateOf (hO : l.Observed) (hr : l.dom.Known r) (h : l.stateOf r = .destroyed) :
    Gone r l := by
  refine ⟨hr, fun hKey => ?_, stateOf_eq_destroyed hO.settled h⟩
  simp [Live.stateOf, hKey] at h

theorem Gone.sameParts {d : Dom} {f : ObserverId → Observer.Core κ → Observer.Core κ}
    (hC : Changed l l' d f) (hParts : Dom.SameParts l.dom d) (h : Gone r l) : Gone r l' := by
  unfold Gone
  rw [hC.dom, hC.document, hParts.key, hC.tracked, hParts.known_iff]
  exact h

theorem gone_lasting (r : NodeRef) : Lasting (Gone r : Live κ σ → Prop) where
  same hSame h := by
    unfold Gone
    rw [hSame.dom, hSame.document, hSame.state]
    exact h
  put _ _ _ _ _ hPut h := by
    obtain ⟨_, _, hHoused, hC, _⟩ := hPut
    exact h.sameParts hC hHoused.toSameParts
  takenOut _ _ hTaken h := by
    obtain ⟨hUnhoused, _, hC, _⟩ := hTaken
    exact h.sameParts hC hUnhoused.toSameParts
  destroyed _ _ _ hD h := by
    unfold Gone
    rw [hD.dom, hD.document, hD.tracked]
    refine ⟨h.1, h.2.1, ?_⟩
    split
    · rfl
    · exact h.2.2

theorem Run.gone {s s' : Session κ σ} (hClient : client.Quiet) (depth : Nat) (hs : Orderly s)
    (h : Run (Calls.upTo client (depth + 2)) s s') (hGone : Gone r s.live) : Gone r s'.live := by
  induction h with
  | start => exact hGone
  | step h d hProper ih =>
    refine (gone_lasting r).step hClient depth (h.orderly hClient depth hs) d hProper ih ?_
    rintro _ _ _ _ _ l' ⟨_, _, hHoused, hC, _⟩
    exact ih.sameParts hC hHoused.toSameParts

theorem Run.bound_subset {calls : Calls κ σ} {s s' : Session κ σ} (h : Run calls s s') :
    ∀ x ∈ s.bound, x ∈ s'.bound := by
  induction h with
  | start => exact fun _ hx => hx
  | step _ d _ ih =>
    intro x hx
    have hOld := ih x hx
    cases d with
    | bind r feed held =>
      simp only [Session.step]
      split
      · exact List.mem_append_left _ hOld
      · exact hOld
    | _ => exact hOld

theorem Orderly.off_of_gone {s : Session κ σ} (hs : Orderly s) (hGone : Gone r s.live)
    {b : BindingId} (hb : (b, r) ∈ s.bound) : s.live.isBindingActive b = false := by
  obtain ⟨hosts, hW, hBound⟩ := hs.wired
  obtain ⟨o, x, hx, hTarget⟩ := hW.hosted b r (hBound _ hb)
  have hEnded := (hs.observed.alone_of_destroyed hGone.stateOf o x hx hTarget).1
  rw [isBindingActive_eq, hW.ended b r (hBound _ hb) o x hx hTarget hEnded]
  rfl

/-- What is destroyed at some time of a session stays so for the rest of it and is never attached
again. The bindings that were made on an observer that has ended are off for the rest of the
session, even if somebody tries to switch them on. -/
theorem Run.final {l : Live κ σ} {s s' : Session κ σ} (hClient : client.Quiet) (depth : Nat)
    (hFresh : l.Unobserved) (h : Run (Calls.upTo client (depth + 2)) { live := l } s)
    (h' : Run (Calls.upTo client (depth + 2)) s s') :
    (∀ r, s.live.dom.Known r → s.live.stateOf r = .destroyed → s'.live.stateOf r = .destroyed ∧
      ∀ parent before,
        After (attach (Calls.upTo client (depth + 2)) r parent before).run s'.live fun out l' =>
          (∃ fault, out = .error fault) ∧ l' = s'.live) ∧
    ∀ o x, s.live.observer? o = some x → x.status = .destroyed → ∀ b, (b, x.target) ∈ s.bound →
      s'.live.isBindingActive b = false := by
  have hs := h.orderly hClient depth hFresh.orderly
  have hs' := h'.orderly hClient depth hs
  refine ⟨fun r hr hState => ?_, fun o x hx hStatus b hb => ?_⟩
  · have hGone := h'.gone hClient depth hs (gone_of_stateOf hs.observed hr hState)
    refine ⟨hGone.stateOf, fun parent before => ?_⟩
    unfold attach
    refine After.ensureLive (fun _ => ⟨⟨_, rfl⟩, rfl⟩) fun _ =>
      After.needState (fun _ => ⟨⟨_, rfl⟩, rfl⟩) fun hDetached => ?_
    rw [hGone.stateOf] at hDetached
    cases hDetached
  · have hCore : s.live.core? o = some x.core := by simp [core?, hx]
    have hNoted := hs.observed.ended o _ hCore hStatus
    have hGone : Gone x.target s.live := by
      refine ⟨hs.observed.known o _ hCore, fun hKey => ?_, hNoted⟩
      change (s.live.trackedOf (s.live.dom.key x.target)).state = _ at hNoted
      rw [hKey, hs.observed.lasting] at hNoted
      cases hNoted
    exact hs'.off_of_gone (h'.gone hClient depth hs hGone) (h'.bound_subset _ hb)

/-- From a tear-down on no transition succeeds, whatever became of the node before. -/
theorem tearDown_final (calls : Calls κ σ) (l : Live κ σ) (r parent : NodeRef)
    (before : Option NodeRef) :
    After tearDown l fun _ m =>
      ∀ transition ∈ [attach calls r parent before, detach calls r, destroy calls r,
        moveTo calls r parent before],
      After transition.run m fun out m' => out = .error .tornDown ∧ m' = m := by
  suffices h : After tearDown l fun _ m => m.tornDown = true by
    refine h.mono fun _ m hTorn => ?_
    have hDead {rest : Act κ σ Unit} : After (do ensureLive; rest).run m fun out m' =>
        out = .error .tornDown ∧ m' = m :=
      After.ensureLive (fun _ => ⟨rfl, rfl⟩) fun hLive => nomatch hLive.symm.trans hTorn
    simp only [List.forall_mem_cons]
    exact ⟨hDead, hDead, hDead, hDead, by simp⟩
  unfold tearDown
  rw [after_bind, after_get]
  split
  next =>
    -- What is dropped in the end concerns subscriptions only.
    refine (show After _ _ fun _ _ => True from trivial).bind fun _ m _ => ?_
    rw [after_bind, after_modify]
    refine Keeps.forM (P := fun m => m.tornDown = true) (fun b m hTorn => ?_) _ rfl
    unfold dropBinding
    rw [after_bind, after_get]
    split
    · exact (switchOff_quiet (.of_slight trivial)).mono fun _ m' h => h.1.tornDown.trans hTorn
    · exact hTorn
  next h => simpa using h

theorem plain_of_no_containers {d : Dom} {n : NodeId} (hn : n < d.nodes.size)
    (hNone : d.containers.size = 0) : d.Plain n :=
  ⟨hn, fun c hc => by rw [hNone] at hc; cases hc⟩

/-- The body hosts a binding and is destroyed. -/
def bodyBurial : List (Deed Unit) :=
  [.bind (.node 2) (.signal 0 (.client ())) true, .detach (.node 2), .destroy (.node 2)]

theorem bodyBurial_run :
    Run (Calls.upTo Client.still 2) (bodySession []) (bodySession bodyBurial) := by
  have h₁ : Run (Calls.upTo Client.still 2) (bodySession []) (bodySession (bodyBurial.take 1)) :=
    Run.start.step (.bind (.node 2) (.signal 0 (.client ())) true)
      ⟨plain_of_no_containers (by decide +kernel) (by decide +kernel), trivial⟩
  have h₂ : Run (Calls.upTo Client.still 2) (bodySession []) (bodySession (bodyBurial.take 2)) :=
    h₁.step (.detach (.node 2))
      ⟨plain_of_no_containers (by decide +kernel) (by decide +kernel), by decide +kernel⟩
  exact h₂.step (.destroy (.node 2))
    (.inr ⟨plain_of_no_containers (by decide +kernel) (by decide +kernel), by decide +kernel⟩)

/-- Switching its binding on does not help. -/
theorem bodyBurial_final :
    (bodySession (bodyBurial ++ [.switchOn 0])).live.stateOf (.node 2) = .destroyed ∧
      (bodySession (bodyBurial ++ [.switchOn 0])).live.isBindingActive 0 = false := by
  have hFinal := Run.final Client.still_quiet 0 (create_unobserved {} ()) bodyBurial_run
    (Run.start.step (.switchOn 0) trivial)
  refine ⟨(hFinal.1 (.node 2)
    (plain_of_no_containers (by decide +kernel) (by decide +kernel)) (by decide +kernel)).1, ?_⟩
  have hSeen : ((bodySession bodyBurial).live.observer? 0).map (fun x => (x.target, x.status)) =
      some (.node 2, .destroyed) := by decide +kernel
  obtain ⟨x, hx, hEq⟩ := Option.map_eq_some_iff.mp hSeen
  obtain ⟨hTarget, hStatus⟩ := Prod.mk.inj hEq
  exact hFinal.2 0 x hx hStatus 0 (by rw [hTarget]; decide +kernel)

/-- A client whose hooks destroy a node, and then note the state of the target of the event. -/
def Client.razing : Client NodeId NodeState :=
  { Client.still with
    hook := fun calls n event => do
      attempt (Live.destroy calls (.node n))
      modify fun l => { l with client := l.stateOf event.target }
      pure false }

/-- A hook of the body destroys the element that it is in, just before it is detached from there. -/
def razed : Session NodeId NodeState :=
  [.detach (.node 1), .observe (.node 2), .hook 0 .beforeDetach 1, .detach (.node 2)].foldl
    (Session.step (Calls.upTo Client.razing 3)) { live := create {} .attached }

/-- If hooks call back, a node that was destroyed can be detached afterwards, and attached again. -/
theorem razed_revived :
    razed.live.tornDown = false ∧ razed.live.client = .destroyed ∧
      razed.live.stateOf (.node 2) = .detached ∧
      ((attach (Calls.upTo Client.razing 3) (.node 2) (.node 0) none).run razed.live).1 = .ok () ∧
      (razed.step (Calls.upTo Client.razing 3)
        (.attach (.node 2) (.node 0) none)).live.stateOf (.node 2) = .attached := by
  decide +kernel

/-! ## All that is inside -/

/-- A deed moves nothing into what is destroyed. -/
def Deed.Sparing (l : Live κ σ) : Deed κ → Prop
  | .moveTo _ parent _ => l.stateOf parent ≠ .destroyed
  | _ => True

/-- The sessions that come out of one by proper deeds that move nothing into what is destroyed. -/
inductive SparingRun (calls : Calls κ σ) (s₀ : Session κ σ) : Session κ σ → Prop where
  | start : SparingRun calls s₀ s₀
  | step {s : Session κ σ} (h : SparingRun calls s₀ s) (d : Deed κ) (hProper : d.Proper s.live)
    (hSparing : d.Sparing s.live) : SparingRun calls s₀ (s.step calls d)

theorem SparingRun.run {calls : Calls κ σ} {s₀ s : Session κ σ} (h : SparingRun calls s₀ s) :
    Run calls s₀ s := by
  induction h with
  | start => exact .start
  | step _ d hProper _ ih => exact ih.step d hProper

/-- Of a tree, all is noted to be destroyed or nothing is. -/
def Sunk (l : Live κ σ) : Prop :=
  l.dom.Uniform fun n => (l.trackedOf n).state = some .destroyed

theorem Sunk.of_uniform (hState : ∀ n, (l'.trackedOf n).state = (l.trackedOf n).state)
    (h : l'.dom.Uniform fun n => (l.trackedOf n).state = some .destroyed) : Sunk l' := by
  unfold Sunk
  simp only [hState]
  exact h

theorem Sunk.put (hO : l.Observed) (hr : l.dom.Known r) (hParent : l.dom.Known parent)
    (hState : l.stateOf r ≠ .destroyed) (hAbove : l.stateOf parent ≠ .destroyed)
    (hPut : l.Put r parent before l') (h : Sunk l) : Sunk l' := by
  obtain ⟨hPoint, _, hHoused, hC, _⟩ := hPut
  refine .of_uniform (fun n => congrArg _ (hC.tracked n)) ?_
  rw [hC.dom]
  refine h.housed hO.sound hr hHoused (hO.ne_destroyed_state hState) ?_
  rw [h.point hO.sound hParent hPoint]
  exact hO.ne_destroyed_state hAbove

theorem sunk_lasting : Lasting (Sunk : Live κ σ → Prop) where
  same hSame h := by
    refine .of_uniform hSame.state ?_
    rw [hSame.dom]
    exact h
  put hO hr hParent hState hAbove hPut h := h.put hO hr hParent hState hAbove hPut
  takenOut hO hr hTaken h := by
    obtain ⟨hUnhoused, _, hC, _⟩ := hTaken
    refine .of_uniform (fun n => congrArg _ (hC.tracked n)) ?_
    rw [hC.dom]
    exact h.unhoused hO.sound hr hUnhoused
  destroyed {l l' r} hO hr hState hD h := by
    have hKey : l.dom.key r ≠ l.document := fun hKey => by simp [Live.stateOf, hKey] at hState
    have hOff := (isPlaced_of_state (hO.settled _) hKey).1 hState
    have hNoted : ∀ n, (l'.trackedOf n).state = some .destroyed ↔
        n ∈ l.dom.subtree r ∨ (l.trackedOf n).state = some .destroyed := fun n => by
      rw [hD.tracked]
      split <;> simp [*]
    unfold Sunk
    simp only [hNoted, hD.dom]
    exact Dom.Uniform.subtree h hO.sound hr hOff

/-- A document on which nothing was observed yet has nothing destroyed. -/
theorem Unobserved.sunk (h : l.Unobserved) : Sunk l := fun n p _ => by
  simp [h.tracked]

theorem SparingRun.sunk {l : Live κ σ} {s : Session κ σ} (hClient : client.Quiet) (depth : Nat)
    (hFresh : l.Unobserved) (h : SparingRun (Calls.upTo client (depth + 2)) { live := l } s) :
    Sunk s.live := by
  induction h with
  | start => exact hFresh.sunk
  | step h d hProper hSparing ih =>
    have hs := h.run.orderly hClient depth hFresh.orderly
    refine sunk_lasting.step hClient depth hs d hProper ih ?_
    rintro r parent before rfl hState l' hPut
    exact ih.put hs.observed hProper.1.1 hProper.2.1 (by simp [hState]) hSparing hPut

theorem Observed.stateOf_destroyed_iff (hO : l.Observed) (r : NodeRef) :
    l.stateOf r = .destroyed ↔ (l.trackedOf (l.dom.key r)).state = some .destroyed :=
  ⟨stateOf_eq_destroyed hO.settled, fun h => by_contra fun hNe => hO.ne_destroyed_state hNe h⟩

/-- In a session that moves nothing into what is destroyed, all that is inside a node or container
is destroyed if that is, and nothing of it if that is not. -/
theorem SparingRun.destroyed_throughout {l : Live κ σ} {s : Session κ σ} {x : NodeRef}
    (hClient : client.Quiet)
    (depth : Nat) (hFresh : l.Unobserved)
    (h : SparingRun (Calls.upTo client (depth + 2)) { live := l } s) (hr : s.live.dom.Known r)
    (hx : s.live.dom.Known x) (hIn : s.live.dom.Inside r (s.live.dom.key x)) :
    s.live.stateOf x = .destroyed ↔ s.live.stateOf r = .destroyed := by
  have hO := (h.run.orderly hClient depth hFresh.orderly).observed
  rw [hO.stateOf_destroyed_iff, hO.stateOf_destroyed_iff]
  exact (h.sunk hClient depth hFresh).inside hO.sound hr hx hIn

/-- The body is destroyed with the element that it is in. -/
theorem htmlBurial_throughout :
    (bodySession [.detach (.node 1), .destroy (.node 1)]).live.stateOf (.node 2) = .destroyed ↔
      (bodySession [.detach (.node 1), .destroy (.node 1)]).live.stateOf (.node 1) =
        .destroyed := by
  have h₁ : SparingRun (Calls.upTo Client.still 2) (bodySession [])
      (bodySession [.detach (.node 1)]) :=
    SparingRun.start.step (.detach (.node 1))
      ⟨plain_of_no_containers (by decide +kernel) (by decide +kernel), by decide +kernel⟩ trivial
  have h₂ : SparingRun (Calls.upTo Client.still 2) (bodySession [])
      (bodySession [.detach (.node 1), .destroy (.node 1)]) :=
    h₁.step (.destroy (.node 1))
      (.inr ⟨plain_of_no_containers (by decide +kernel) (by decide +kernel), by decide +kernel⟩)
      trivial
  refine h₂.destroyed_throughout Client.still_quiet 0 (create_unobserved {} ())
    (plain_of_no_containers (by decide +kernel) (by decide +kernel))
    (plain_of_no_containers (by decide +kernel) (by decide +kernel)) ?_
  rw [Dom.inside_node]
  exact Forest.up_parent (by decide +kernel)

/-- The body is destroyed, and the element that it was in is moved into it. -/
def bodyMove : List (Deed Unit) :=
  [.detach (.node 2), .destroy (.node 2), .moveTo (.node 1) (.node 2) none]

/-- What is moved into something destroyed stays attached there. -/
theorem bodyMove_attached :
    Run (Calls.upTo Client.still 2) (bodySession []) (bodySession bodyMove) ∧
      (bodySession bodyMove).live.stateOf (.node 2) = .destroyed ∧
      (bodySession bodyMove).live.dom.Inside (.node 2) 1 ∧
      (bodySession bodyMove).live.stateOf (.node 1) = .attached := by
  have h₁ : Run (Calls.upTo Client.still 2) (bodySession []) (bodySession (bodyMove.take 1)) :=
    Run.start.step (.detach (.node 2))
      ⟨plain_of_no_containers (by decide +kernel) (by decide +kernel), by decide +kernel⟩
  have h₂ : Run (Calls.upTo Client.still 2) (bodySession []) (bodySession (bodyMove.take 2)) :=
    h₁.step (.destroy (.node 2))
      (.inr ⟨plain_of_no_containers (by decide +kernel) (by decide +kernel), by decide +kernel⟩)
  refine ⟨h₂.step (.moveTo (.node 1) (.node 2) none)
    ⟨⟨plain_of_no_containers (by decide +kernel) (by decide +kernel), by decide +kernel⟩,
      plain_of_no_containers (by decide +kernel) (by decide +kernel), ?_⟩,
    by decide +kernel, ?_, by decide +kernel⟩
  · rw [Dom.inside_node]
    intro hUp
    exact absurd (hUp.eq_of_parent_none (by decide +kernel)) (by decide +kernel)
  · rw [Dom.inside_node]
    exact Forest.up_parent (by decide +kernel)

end LiveMarkup.Live
