import LiveMarkup.Proofs.Dom.Sparing
import LiveMarkup.Proofs.Live.Bystander
import LiveMarkup.Proofs.Live.Rows

/-!
# Transitions with gentle hooks

A hook is gentle if it cancels nothing, leaves every node and container where it is and in the state
that it has, and adds none but gentle hooks. It may write texts and attributes, make nodes, set
signals and keep notes of its own. With gentle hooks, attaching, detaching and moving do to the tree
what they are asked for and nothing else.

* `Gentle`: hooks of a kind are gentle;
* `Tended`: a state between two transitions, or in the middle of one;
* `Unstirred`: nothing was moved and no state changed;
* `Tended.attach`, `Tended.detach`, `Tended.moveTo`: what comes of each.
-/

namespace LiveMarkup.Live

variable {κ σ α : Type} {calls : Calls κ σ} {A : Hook κ → Prop} {l l₀ l₁ l' : Live κ σ}
variable {r x parent : NodeRef} {before : Option NodeRef}

/-! ## What stays -/

/-- The document is the same and the same states are noted. -/
structure Constant (l l' : Live κ σ) : Prop where
  document : l'.document = l.document
  tornDown : l'.tornDown = l.tornDown
  noted : ∀ n, (l'.trackedOf n).state = (l.trackedOf n).state

theorem Constant.trans (h₁ : Constant l l₁) (h₂ : Constant l₁ l') : Constant l l' where
  document := h₂.document.trans h₁.document
  tornDown := h₂.tornDown.trans h₁.tornDown
  noted n := (h₂.noted n).trans (h₁.noted n)

theorem Constant.stateOf (h : Constant l l') (hKey : l'.dom.key x = l.dom.key x)
    (hPlaced : l'.dom.isPlaced x = l.dom.isPlaced x) : l'.stateOf x = l.stateOf x := by
  simp only [Live.stateOf, shownState, hKey, hPlaced, h.document, h.noted]

/-- Every node stands where it stood, and nodes and containers have the states that they had. -/
structure Unstirred (l l' : Live κ σ) : Prop extends Constant l l' where
  dom : l.dom.Spared l'.dom

namespace Unstirred

theorem refl (l : Live κ σ) : Unstirred l l :=
  ⟨⟨rfl, rfl, fun _ => rfl⟩, .refl _⟩

theorem trans (h₁ : Unstirred l l₁) (h₂ : Unstirred l₁ l') : Unstirred l l' :=
  ⟨h₁.toConstant.trans h₂.toConstant, h₁.dom.trans h₂.dom⟩

theorem stateOf_eq (h : Unstirred l l') (hx : l.dom.Known x) : l'.stateOf x = l.stateOf x :=
  h.toConstant.stateOf (h.dom.toExtends.key hx) (h.dom.isPlaced hx)

end Unstirred

/-! ## Gentle hooks -/

/-- The tree is sound, only states that do not show in it are noted, and all hooks are of a kind. -/
structure Tended (A : Hook κ → Prop) (l : Live κ σ) : Prop where
  sound : l.dom.Sound
  plain : l.dom.Plain l.document
  transient : ∀ n s, (l.trackedOf n).state = some s → s.isSettled = false
  hooks : ∀ o kind, ∀ hook ∈ l.hooksFor o kind, A hook

/-- Hooks of a kind cancel nothing and leave all nodes and containers where and as they are. -/
def Gentle (calls : Calls κ σ) (A : Hook κ → Prop) : Prop :=
  ∀ hook, A hook → ∀ event l, l.Tended A → After (calls.hook hook event) l fun cancels l' =>
    (event.kind.isCancelable = true → cancels = false) ∧ l.Unstirred l' ∧ l'.Tended A

/-- Nothing was stirred since some state, and all hooks are of a kind. -/
structure Rest (A : Hook κ → Prop) (l₀ l : Live κ σ) : Prop where
  unstirred : l₀.Unstirred l
  tended : l.Tended A

theorem Tended.rest (h : l.Tended A) : Rest A l l :=
  ⟨.refl l, h⟩

/-- A step that does not touch the tree, the states and the hooks. -/
theorem Rest.aside (h : Rest A l₀ l) (hDom : l'.dom = l.dom) (hDocument : l'.document = l.document)
    (hTorn : l'.tornDown = l.tornDown) (hTracked : ∀ n, l'.trackedOf n = l.trackedOf n)
    (hHooks : ∀ o kind, l'.hooksFor o kind = l.hooksFor o kind) : Rest A l₀ l' where
  unstirred := h.unstirred.trans
    ⟨⟨hDocument, hTorn, fun n => by rw [hTracked]⟩, hDom ▸ .refl _⟩
  tended :=
    { sound := hDom ▸ h.tended.sound
      plain := by
        rw [hDom, hDocument]
        exact h.tended.plain
      transient := fun n s hs => h.tended.transient n s (hTracked n ▸ hs)
      hooks := fun o kind hook hMem => h.tended.hooks o kind hook (hHooks o kind ▸ hMem) }

theorem Rest.modifyObserver {o : ObserverId} {f : Observer κ → Observer κ}
    (hHooks : ∀ x, (f x).hooks = x.hooks) :
    Keeps (Rest A l₀) (modifyObserver o f : LiveM κ σ Unit) := by
  intro l h
  refine h.aside rfl rfl rfl (fun _ => rfl) fun p kind => ?_
  have hSame : (((l.observers.modify o f)[p]?).map (·.hooks)) =
      (l.observers[p]?).map (·.hooks) := by
    rw [Array.getElem?_modify]
    split
    · cases l.observers[p]? with
      | none => rfl
      | some x => exact congrArg some (hHooks x)
    · rfl
  exact congrArg (fun hooks => (hooks.getD []).filterMap fun e : Observer.Entry κ =>
    if e.kind = kind then some e.hook else none) hSame

section Told

variable (hG : Gentle calls A)
include hG

/-- Gentle hooks that are run one after the other cancel nothing. -/
theorem Rest.runHooks (event : Event) {hooks : List (Hook κ)} (hA : ∀ hook ∈ hooks, A hook)
    (h : Rest A l₀ l) : After (runHooks calls event hooks) l fun cancelled l' =>
      cancelled = false ∧ Rest A l₀ l' := by
  induction hooks generalizing l with
  | nil => exact ⟨rfl, h⟩
  | cons hook rest ih =>
    refine (hG hook (hA hook List.mem_cons_self) event l h.tended).bind ?_
    rintro cancels l₁ ⟨hCancels, hUnstirred, hTended⟩
    have hGo : (cancels && event.kind.isCancelable) = false := by
      cases hKind : event.kind.isCancelable with
      | false => exact Bool.and_false _
      | true => rw [hCancels hKind, Bool.false_and]
    rw [hGo, if_neg Bool.false_ne_true]
    exact ih (fun k hk => hA k (List.mem_cons_of_mem _ hk)) ⟨h.unstirred.trans hUnstirred, hTended⟩

theorem Rest.fire (o : ObserverId) (event : Event) (h : Rest A l₀ l) :
    After (fire calls o event) l fun cancelled l' => cancelled = false ∧ Rest A l₀ l' :=
  h.runHooks hG event fun hook hMem => h.tended.hooks o event.kind hook hMem

theorem Rest.fireAt (r : NodeRef) (kind : EventKind) (h : Rest A l₀ l) :
    After (fireAt calls r kind) l fun cancelled l' => cancelled = false ∧ Rest A l₀ l' := by
  unfold Live.fireAt
  rw [after_bind, after_get]
  split
  · exact ⟨rfl, h⟩
  · exact h.fire hG _ _

theorem Rest.tell (o : ObserverId) (kind : EventKind) : Keeps (Rest A l₀) (tell calls o kind) := by
  intro l h
  unfold Live.tell
  rw [after_bind, after_get]
  split
  · exact h
  · exact (h.fire hG _ _).bind fun _ _ h' => h'.2

omit hG in
theorem Rest.setStatus (o : ObserverId) (status : Connectivity) :
    Keeps (Rest A l₀) (setStatus o status : LiveM κ σ Unit) :=
  Rest.modifyObserver fun x => by split <;> rfl

theorem Rest.notifyConnected (r : NodeRef) : Keeps (Rest A l₀) (notifyConnected calls r) := by
  refine Keeps.bind Keeps.get fun _ => Keeps.forM fun o => Keeps.bind Keeps.get fun l => ?_
  split
  · exact Keeps.bind (Rest.setStatus o _) fun _ => Rest.tell hG o _
  · exact Keeps.pure _

theorem Rest.notifyDisconnected (r : NodeRef) : Keeps (Rest A l₀) (notifyDisconnected calls r) := by
  refine Keeps.bind Keeps.get fun _ => Keeps.forM fun o => Keeps.bind Keeps.get fun l => ?_
  split
  · exact Keeps.bind (Rest.setStatus o _) fun _ => Rest.tell hG o _
  · exact Keeps.pure _

omit hG in
theorem Rest.noteMoves (r : NodeRef) : Keeps (Rest A l₀) (noteMoves r : LiveM κ σ Unit) := by
  refine Keeps.bind Keeps.get fun l => ?_
  split
  · exact Keeps.forM fun o l₁ h =>
      Rest.modifyObserver (f := fun x => { x with lastSeen := l₁.dom.position x.target })
        (fun _ => rfl) l₁ h
  · exact Keeps.pure _

end Told

/-! ## Attaching -/

/-- The states of nodes other than the document, by what is noted and what the tree shows. -/
theorem Tended.placed_of_state (h : l.Tended A) (hKey : l.dom.key r ≠ l.document) :
    (l.stateOf r = .detached →
      (l.trackedOf (l.dom.key r)).state = none ∧ l.dom.isPlaced r = false) ∧
    (l.stateOf r = .attached →
      (l.trackedOf (l.dom.key r)).state = none ∧ l.dom.isPlaced r = true) := by
  cases hNote : (l.trackedOf (l.dom.key r)).state with
  | none =>
    rw [stateOf_of_none hNote hKey, shownState]
    cases l.dom.isPlaced r <;> simp
  | some s =>
    have hTransient := h.transient _ s hNote
    have hState : l.stateOf r = s := by simp [stateOf, hKey, hNote]
    rw [hState]
    constructor <;> rintro rfl <;> cases hTransient

theorem stateOf_of_placed (hNone : (l.trackedOf (l.dom.key r)).state = none)
    (hKey : l.dom.key r ≠ l.document) :
    (l.dom.isPlaced r = true → l.stateOf r = .attached) ∧
      (l.dom.isPlaced r = false → l.stateOf r = .detached) := by
  rw [stateOf_of_none hNone hKey, shownState]
  cases l.dom.isPlaced r <;> simp

/-- Noting what does not show, or taking a note away, keeps everything tended. -/
theorem Tended.noted {s : NodeState} (h : l.Tended A)
    (hNoted : Noted l l' r (if s.isSettled then none else some s)) : l'.Tended A where
  sound := hNoted.dom ▸ h.sound
  plain := by
    rw [hNoted.dom, hNoted.document]
    exact h.plain
  transient n t ht := by
    rw [hNoted.tracked] at ht
    split at ht
    · cases hSettled : s.isSettled with
      | true => simp [hSettled] at ht
      | false =>
        obtain rfl : s = t := by simpa [hSettled] using ht
        exact hSettled
    · exact h.transient n t ht
  hooks o kind hook hMem := by
    refine h.hooks o kind hook ?_
    simpa only [hooksFor, observer?, hNoted.observers] using hMem

/-- Another tree, as sound as the one before, on the same nodes. -/
theorem Tended.withDom (h : l.Tended A) {d : Dom} (hSound : d.Sound) (hParts : l.dom.SameParts d) :
    (l.withDom d).Tended A where
  sound := hSound
  plain := hParts.plain_iff.mpr h.plain
  transient := h.transient
  hooks := h.hooks

/-- A state was noted and then nothing was stirred. When the note is taken away, in a tree with the
same nodes, all notes are as they were. -/
theorem Rest.settled {s s' : NodeState} {d : Dom} {l₂ : Live κ σ} (h : Rest A l₁ l₂)
    (hr : l.dom.Known r) (hNone : (l.trackedOf (l.dom.key r)).state = none)
    (hNoted : Noted l l₁ r (some s)) (hSettled : s'.isSettled = true) (hSound : d.Sound)
    (hParts : l₂.dom.SameParts d)
    (hBack : Noted (l₂.withDom d) l' r (if s'.isSettled then none else some s')) :
    Constant l l' ∧ l'.Tended A ∧ l'.dom = d := by
  have hSpared : l.dom.Spared l₂.dom := hNoted.dom ▸ h.unstirred.dom
  have hKey : (l₂.withDom d).dom.key r = l.dom.key r :=
    (hParts.key r).trans (hSpared.toExtends.key hr)
  refine ⟨⟨hBack.document.trans (h.unstirred.document.trans hNoted.document),
    hBack.tornDown.trans (h.unstirred.tornDown.trans hNoted.tornDown), fun n => ?_⟩,
    (h.tended.withDom hSound hParts).noted hBack, hBack.dom⟩
  have hSame : ((l₂.withDom d).trackedOf n).state = (l₁.trackedOf n).state := h.unstirred.noted n
  rw [hBack.tracked, hKey, if_pos hSettled]
  by_cases hn : n = l.dom.key r
  · rw [if_pos hn, hn, hNone]
  · rw [if_neg hn, hSame, hNoted.tracked, if_neg hn]

theorem Rest.unnotified (h : Rest A l₀ l) :
    After (sure (Live.noteMoves r) : Act κ σ Unit).run l fun out l' =>
      out = .ok () ∧ Rest A l₀ l' := by
  rw [after_sure]
  exact (Rest.noteMoves r l h).mono fun _ _ h' => ⟨rfl, h'⟩

theorem Rest.notified {notify : LiveM κ σ Unit} (hNotify : Keeps (Rest A l₀) notify)
    (h : Rest A l₀ l) : After (do notify; sure (Live.noteMoves r) : Act κ σ Unit).run l
      fun out l' => out = .ok () ∧ Rest A l₀ l' :=
  After.lift_bind (hNotify l h) fun _ _ _ h' => h'.unnotified

/-! ## Coming and going -/

/-- A node or container has come to sit in a parent. All else is where and as it was. -/
structure Came (A : Hook κ → Prop) (l : Live κ σ) (r parent : NodeRef) (before : Option NodeRef)
    (l' : Live κ σ) : Prop extends Constant l l' where
  tended : l'.Tended A
  grown : l.dom.Extends l'.dom
  sits : l.dom.Sits l'.dom r parent before
  attached : l'.stateOf r = .attached

/-- A node or container has left its place. All else is where and as it was. -/
structure Went (A : Hook κ → Prop) (l : Live κ σ) (r : NodeRef) (l' : Live κ σ) : Prop
    extends Constant l l' where
  tended : l'.Tended A
  grown : l.dom.Extends l'.dom
  leaves : l.dom.Leaves l'.dom r
  detached : l'.stateOf r = .detached

/-- No more than one node or container has changed its place. All else is where and as it was. -/
structure Displaced (A : Hook κ → Prop) (l : Live κ σ) (r : NodeRef) (l' : Live κ σ) : Prop
    extends Constant l l' where
  tended : l'.Tended A
  carried : l.dom.Carried l'.dom r

theorem Came.displaced (h : Came A l r parent before l') : Displaced A l r l' :=
  ⟨h.toConstant, h.tended, h.sits.carried h.grown⟩

theorem Went.displaced (h : Went A l r l') : Displaced A l r l' :=
  ⟨h.toConstant, h.tended, h.leaves.carried h.grown⟩

theorem Unstirred.displaced (h : Unstirred l l') (hTended : l'.Tended A) (hr : l.dom.Known r) :
    Displaced A l r l' :=
  ⟨h.toConstant, hTended, h.dom.carried hr⟩

theorem Displaced.trans (h₁ : Displaced A l r l₁) (h₂ : Displaced A l₁ r l') : Displaced A l r l' :=
  ⟨h₁.toConstant.trans h₂.toConstant, h₂.tended, h₁.carried.trans h₂.carried⟩

theorem Displaced.stateOf_eq (h : Displaced A l r l') (hSound : l.dom.Sound) (hr : l.dom.Known r)
    (hx : l.dom.Known x) (hNe : x ≠ r) : l'.stateOf x = l.stateOf x :=
  h.toConstant.stateOf (h.carried.toExtends.key hx)
    (h.carried.isPlaced_eq hSound h.tended.sound hr hx hNe)

section Change

variable {d₁ : Dom} (hr : l.dom.Known r) (hKey : l.dom.key r ≠ l.document)
variable (hNone : (l.trackedOf (l.dom.key r)).state = none) (hSpared : l.dom.Spared d₁)
variable (hParts : d₁.SameParts l₁.dom) (hConstant : Constant l l₁) (hRest : Rest A l₁ l')
include hr hKey hNone hSpared hParts hConstant hRest

theorem Came.of_rest (hp : l.dom.Known parent) (hSound : d₁.Sound)
    (hSits : d₁.Sits l₁.dom r parent before) : Came A l r parent before l' := by
  have hConst := hConstant.trans hRest.unstirred.toConstant
  have hGrown := (hSpared.toExtends.trans hParts.extends).trans hRest.unstirred.dom.toExtends
  have hSits' := hSits.spared hSpared hRest.unstirred.dom hSound hParts.extends hr hp
  refine ⟨hConst, hRest.tended, hGrown, hSits', (stateOf_of_placed ?_ ?_).1 ?_⟩
  · rw [hGrown.key hr, hConst.noted, hNone]
  · rw [hGrown.key hr, hConst.document]
    exact hKey
  · exact hRest.tended.sound.isPlaced_of_sits (hGrown.known hr) (hGrown.known hp) hSits' hSits'.run

/-- What left its place is nowhere after a rest. -/
theorem Went.of_rest (hLeaves : d₁.Leaves l₁.dom r) : Went A l r l' := by
  have hConst := hConstant.trans hRest.unstirred.toConstant
  have hGrown := (hSpared.toExtends.trans hParts.extends).trans hRest.unstirred.dom.toExtends
  have hCarried := (hSpared.carried hr).trans ((hLeaves.carried hParts.extends).trans
    (hRest.unstirred.dom.carried (hParts.extends.known (hSpared.toExtends.known hr))))
  have hOff : l'.dom.isPlaced r = false :=
    (hRest.unstirred.dom.isPlaced (hParts.extends.known (hSpared.toExtends.known hr))).trans
      hLeaves.off
  refine ⟨hConst, hRest.tended, hGrown, ⟨hCarried.run, hOff, hCarried.rest⟩,
    (stateOf_of_placed ?_ ?_).2 hOff⟩
  · rw [hGrown.key hr, hConst.noted, hNone]
  · rw [hGrown.key hr, hConst.document]
    exact hKey

end Change

/-! ## Transitions -/

section Transitions

variable (hG : Gentle calls A) (h : l.Tended A) (hTorn : l.tornDown = false)
include hG h

/-- A transition is noted and the hooks are asked, which do not cancel it. -/
theorem Tended.asked {s : NodeState} (hTransient : s.isSettled = false) {kind : EventKind}
    {k : Bool → Act κ σ Unit} {post : Except Fault Unit → Live κ σ → Prop}
    (hRest : ∀ l₁ l₂, Noted l l₁ r (some s) → Rest A l₁ l₂ → After (k false).run l₂ post) :
    After (do
        sure (setState r s)
        let cancelled ← fireAt calls r kind
        k cancelled : Act κ σ Unit).run l post := by
  refine After.sure_bind (setState_noted l r s) fun _ l₁ hNoted => ?_
  have hTended := h.noted hNoted
  rw [hTransient, if_neg Bool.false_ne_true] at hNoted
  refine After.lift_bind (hTended.rest.fireAt hG r kind) ?_
  rintro _ l₂ _ ⟨rfl, h₂⟩
  exact hRest l₁ l₂ hNoted h₂

/-- After the tree was changed, the hooks of what was moved are told of it, then the observers in it
if its connection has changed, and then places are noted. -/
theorem Tended.told {kind : EventKind} {c : Live κ σ → Bool} {notify : LiveM κ σ Unit}
    (hNotify : ∀ l₀, Keeps (Rest A l₀) notify) :
    After (do
        let _ ← fireAt calls r kind
        if c (← get) then notify
        sure (Live.noteMoves r) : Act κ σ Unit).run l fun out l' => out = .ok () ∧ Rest A l l' := by
  refine After.lift_bind (h.rest.fireAt hG r kind) ?_
  rintro _ l₁ _ ⟨-, h₁⟩
  refine After.get_act ?_
  split
  · exact h₁.notified (hNotify l)
  · exact h₁.unnotified

include hTorn

/-- Attaching puts what is detached before the reference or last. If the reference is no child
of the parent, it is refused, and nothing was stirred. -/
theorem Tended.attach (hFits : Fits l.dom r parent) (hState : l.stateOf r = .detached)
    (hParent : (l.stateOf parent).isEnding = false) :
    After (Live.attach calls r parent before).run l fun out l' =>
      (l.dom.Stands parent before → out = .ok () ∧ Came A l r parent before l') ∧
      (¬ l.dom.Stands parent before →
        (∃ cause, out = .error (.notAChild cause)) ∧ l.Unstirred l' ∧ l'.Tended A) := by
  obtain ⟨hr, hp, hOut⟩ := hFits
  have hKey : l.dom.key r ≠ l.document := fun hDocument => by simp [stateOf, hDocument] at hState
  obtain ⟨hNone, hOff⟩ := (h.placed_of_state hKey).1 hState
  unfold Live.attach
  refine After.ensureLive (fun ht => absurd (hTorn.symm.trans ht) Bool.false_ne_true) fun _ => ?_
  refine After.needState (fun hs => absurd hState hs) fun _ => ?_
  refine After.needParent (fun he => absurd (hParent.symm.trans he) Bool.false_ne_true) fun _ => ?_
  refine h.asked hG rfl fun l₁ l₂ hNoted h₂ => ?_
  -- what is asked of the tree is asked of one in which everything stands where it stood
  have hSpared : l.dom.Spared l₂.dom := hNoted.dom ▸ h₂.unstirred.dom
  obtain ⟨hRefused, hPlaced⟩ := hSpared.placed h₂.tended.sound hr hp hOut hOff before
  rw [if_neg Bool.false_ne_true]
  refine After.get_act ?_
  split
  · rename_i cause hPlace
    refine After.sure_bind (setState_noted l₂ r .detached) fun _ l₃ hBack => ?_
    obtain ⟨hConstant, hTended, hDom⟩ :=
      h₂.settled hr hNone hNoted rfl h₂.tended.sound (.refl l₂.dom) hBack
    exact ⟨fun hStand => absurd hStand (hRefused cause hPlace),
      fun _ => ⟨⟨cause, rfl⟩, ⟨hConstant, hDom ▸ hSpared⟩, hTended⟩⟩
  · rename_i d' hPlace
    obtain ⟨hStand, hSound, hParts, hSits⟩ := hPlaced d' hPlace
    refine After.sure_run (t := l₂.withDom d') rfl ?_
    refine After.sure_bind (setState_noted (l₂.withDom d') r .attached) fun _ l₃ hBack => ?_
    obtain ⟨hConstant, hTended, hDom⟩ := h₂.settled hr hNone hNoted rfl hSound hParts hBack
    refine (hTended.told hG fun _ => Rest.notifyConnected hG r).mono ?_
    rintro _ l' ⟨rfl, hRest⟩
    exact ⟨fun _ => ⟨rfl, .of_rest hr hKey hNone hSpared (hDom ▸ hParts) hConstant hRest hp
      h₂.tended.sound (hDom ▸ hSits)⟩, fun hNot => absurd hStand hNot⟩

/-- Detaching takes what is attached out of its place. -/
theorem Tended.detach (hr : l.dom.Known r) (hKey : l.dom.key r ≠ l.document)
    (hState : l.stateOf r = .attached) :
    After (Live.detach calls r).run l fun out l' => out = .ok () ∧ Went A l r l' := by
  obtain ⟨hNone, hOn⟩ := (h.placed_of_state hKey).2 hState
  unfold Live.detach
  refine After.ensureLive (fun ht => absurd (hTorn.symm.trans ht) Bool.false_ne_true) fun _ => ?_
  refine After.needState (fun hs => absurd hState hs) fun _ => ?_
  refine h.asked hG rfl fun l₁ l₂ hNoted h₂ => ?_
  have hSpared : l.dom.Spared l₂.dom := hNoted.dom ▸ h₂.unstirred.dom
  obtain ⟨hSound', hParts, hLeaves⟩ := h₂.tended.sound.taken (hSpared.toExtends.known hr)
    ((hSpared.isPlaced hr).trans hOn)
  rw [if_neg Bool.false_ne_true]
  refine After.get_act ?_
  refine After.sure_run (t := l₂.withDom (l₂.dom.takeOut r)) rfl ?_
  refine After.sure_bind (setState_noted _ r .detached) fun _ l₃ hBack => ?_
  obtain ⟨hConstant, hTended, hDom⟩ := h₂.settled hr hNone hNoted rfl hSound' hParts hBack
  refine (hTended.told hG (c := fun _ => l₂.isConnected r)
    fun _ => Rest.notifyDisconnected hG r).mono ?_
  rintro _ l' ⟨rfl, hRest⟩
  exact ⟨rfl, .of_rest hr hKey hNone hSpared (hDom ▸ hParts) hConstant hRest (hDom ▸ hLeaves)⟩

/-- A move is refused by the tree and nothing was done, or it is done and nothing else is. -/
theorem Tended.moveTo_cases (hState : l.stateOf r = .attached)
    (hOk : ∀ d', l.dom.move r parent before = .ok d' → d'.Sound ∧ l.dom.SameParts d') :
    After (Live.moveTo calls r parent before).run l fun out l' =>
      (∃ cause, l.dom.move r parent before = .error cause ∧ out = .error (.notAChild cause) ∧
        l' = l) ∨
      ∃ d', l.dom.move r parent before = .ok d' ∧ out = .ok () ∧ Rest A (l.withDom d') l' := by
  unfold Live.moveTo
  refine After.ensureLive (fun ht => absurd (hTorn.symm.trans ht) Bool.false_ne_true) fun _ => ?_
  refine After.needState (fun hs => absurd hState hs) fun _ => After.get_act ?_
  refine After.tryInDom (fun cause hMove => .inl ⟨cause, hMove, rfl, rfl⟩) fun d' hMove => ?_
  obtain ⟨hSound, hParts⟩ := hOk d' hMove
  have hTended : (l.withDom d').Tended A := h.withDom hSound hParts
  refine After.get_act ?_
  dsimp only
  split
  · exact (hTended.rest.notified (Rest.notifyConnected hG r)).mono fun _ _ hDone =>
      .inr ⟨d', hMove, hDone⟩
  · split
    · exact (hTended.rest.notified (Rest.notifyDisconnected hG r)).mono fun _ _ hDone =>
        .inr ⟨d', hMove, hDone⟩
    · exact hTended.rest.unnotified.mono fun _ _ hDone => .inr ⟨d', hMove, hDone⟩

/-- Moving puts what is attached before the reference, which is none of its own nodes, or last. -/
theorem Tended.moveTo (hFits : Fits l.dom r parent) (hKey : l.dom.key r ≠ l.document)
    (hState : l.stateOf r = .attached) (hStands : l.dom.Stands parent before)
    (hBefore : ∀ b, before = some b → l.dom.key b ∉ l.dom.runOf r) :
    After (Live.moveTo calls r parent before).run l fun out l' =>
      out = .ok () ∧ Came A l r parent before l' := by
  obtain ⟨hr, hp, hOut⟩ := hFits
  obtain ⟨hNone, hOn⟩ := (h.placed_of_state hKey).2 hState
  obtain ⟨d', hMove, hSound, hParts, hSits⟩ := h.sound.moved hr hp hOut hOn hStands hBefore
  have hConstant : Constant l (l.withDom d') := ⟨rfl, rfl, fun _ => rfl⟩
  refine (h.moveTo_cases hG hTorn hState fun d₁ hMove₁ => ?_).mono ?_
  · obtain rfl := Except.ok.inj (hMove.symm.trans hMove₁)
    exact ⟨hSound, hParts⟩
  · rintro _ l' (⟨cause, hError, -⟩ | ⟨d₁, hMove₁, rfl, hRest⟩)
    · exact nomatch hError.symm.trans hMove
    · obtain rfl := Except.ok.inj (hMove.symm.trans hMove₁)
      exact ⟨rfl, .of_rest hr hKey hNone (.refl _) hParts hConstant hRest hp h.sound hSits⟩

end Transitions

end LiveMarkup.Live
