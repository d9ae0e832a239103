import LiveMarkup.Proofs.Dom.Sparing
import LiveMarkup.Proofs.Mirror.Notifying
import LiveMarkup.Proofs.Mirror.Growing
import LiveMarkup.Proofs.Live.Scripts
import LiveMarkup.Proofs.Mirror.Burying
import LiveMarkup.Proofs.Mirror.Rendered

/-!
# Conditionals that follow signals

What a follower keeps is attached to its container, detached from it or moved in it, while the
record of what is kept and shown changes along with it. Before the tree changes the record may be
ahead of it.

A conditional shows its child, which it builds if it has none, or hides it, while the condition
turns. The record of the conditional is changed first, and then what is in its container.

* `Ahead`: a document whose records may be ahead of the tree;
* `show_leads`, `hide_maintained`, `shift_maintained`: the transitions of what is kept;
* `attach_refused`: nothing is attached to what is dead;
* `withConditional`: the document with another record of a conditional;
* `showChild_leads`, `hideChild_leads`, `setVisible_leads`: the conditional is as its signal says.
-/

/-! ## Showing, hiding and moving what is kept -/

namespace LiveMarkup

/-- A tree in which only the kin of one node or container are others. -/
structure Dom.Refits (d d' : Dom) (p : NodeRef) : Prop extends Dom.SameParts d d' where
  sound : d'.Sound
  kin : ∀ q, d.Known q → q ≠ p → d'.kin q = d.kin q

namespace Dom.Refits

variable {d d' : Dom} {p x : NodeRef}

theorem refl (hd : d.Sound) (p : NodeRef) : d.Refits d p :=
  ⟨.refl d, hd, fun _ _ _ => rfl⟩

/-- What stood nowhere but there still does. -/
theorem mem_kin_of_isPlaced (h : d.Refits d' p) (hd : d.Sound) (hp : d.Known p) (hx : d.Known x)
    (hPlaced : d.isPlaced x = true → x ∈ d.kin p) (hOn : d'.isPlaced x = true) : x ∈ d'.kin p := by
  obtain ⟨q, hq, hIn⟩ := (h.sound.isPlaced_iff_kin (h.known_iff.mpr hx)).mp hOn
  by_cases hEq : q = p
  · rwa [← hEq]
  · have hOld := h.known_iff.mp hq
    rw [h.kin q hOld hEq] at hIn
    exact absurd (hd.kin_inj hOld hp hIn (hPlaced (hd.isPlaced_of_mem_kin hOld hIn))) hEq

end Dom.Refits

theorem Dom.Sound.standsAt_last {d : Dom} (hd : d.Sound) {p x : NodeRef} {xs : List NodeRef}
    (hp : d.Known p) (hKin : d.kin p = xs ++ [x]) : d.standsAt x p none = true := by
  have hIn : x ∈ d.kin p := by
    rw [hKin]
    exact List.mem_append_right _ (List.mem_singleton_self x)
  have hx := hd.known_of_mem_kin hp hIn
  have hOut : ¬ d.Inside x (d.key p) := fun hInside =>
    hd.not_below_kin hp hIn (hd.below_of_inside hx hp hInside)
  refine (hd.standsAt_iff hx hp hOut).mpr ⟨nofun, xs.flatMap d.runOf, [], ?_, rfl⟩
  rw [(hd.row_kin hp).2, hKin, List.flatMap_append, List.flatMap_singleton, List.append_nil]

namespace Live

variable {κ σ : Type} {π π₁ π' : Plan} {P P₁ P' : Pending} {l l₁ l' : Live κ σ}
variable {u w : BindingId} {s t : SignalId} {sink sink' : Sink κ} {r q x : NodeRef}
variable {before : Option NodeRef} {b : ContainerId} {client : Client κ σ} {n m : Nat}

/-! ### States -/

theorem Maintained.state_of_alive (h : Maintained π P l) (hDying : P.dying = fun _ => False)
    (hAlive : ¬ Dead P.dying l.trackedOf (l.dom.key r)) :
    (l.trackedOf (l.dom.key r)).state = none := by
  rcases h.graves.state (l.dom.key r) with hNone | hDestroyed | ⟨-, hDies⟩
  · exact hNone
  · exact absurd (.inr hDestroyed) hAlive
  · rw [hDying] at hDies
    exact hDies.elim

/-- The state of what is alive is the one that the tree shows. -/
theorem Maintained.stateOf_of_alive (h : Maintained π P l) (hDying : P.dying = fun _ => False)
    (hAlive : ¬ Dead P.dying l.trackedOf (l.dom.key r)) (hNe : l.dom.key r ≠ l.document) :
    l.stateOf r = if l.dom.isPlaced r then .attached else .detached := by
  rw [stateOf, if_neg hNe, h.state_of_alive hDying hAlive]
  rfl

theorem Maintained.stateOf_of_dead (h : Maintained π P l) (hDying : P.dying = fun _ => False)
    (hDead : Dead P.dying l.trackedOf (l.dom.key r)) : l.stateOf r = .destroyed := by
  have hNe : l.dom.key r ≠ l.document := fun hEq => h.graves.top (hEq ▸ hDead)
  rcases hDead with hDies | hDestroyed
  · rw [hDying] at hDies
    exact hDies.elim
  · rw [stateOf, if_neg hNe, hDestroyed]
    rfl

theorem Maintained.not_ending (h : Maintained π P l) (hDying : P.dying = fun _ => False)
    (hAlive : ¬ Dead P.dying l.trackedOf (l.dom.key r)) : (l.stateOf r).isEnding = false := by
  by_cases hNe : l.dom.key r = l.document
  · rw [stateOf, if_pos hNe]
    rfl
  · rw [h.stateOf_of_alive hDying hAlive hNe]
    split <;> rfl

theorem Maintained.key_ne_document (h : Maintained π P l) (hLt : l.dom.key q < l.dom.key r) :
    l.dom.key r ≠ l.document := fun hEq => by
  rw [hEq, h.rooted.zero] at hLt
  exact Nat.not_lt_zero _ hLt

/-- Nothing is attached to what is dead. -/
theorem attach_refused (calls : Calls κ σ) {parent : NodeRef}
    (hEnding : (l.stateOf parent).isEnding = true) :
    After (attach calls r parent before).run l fun out l' => (∃ e, out = .error e) ∧ l' = l := by
  unfold attach
  refine After.ensureLive (fun _ => ⟨⟨_, rfl⟩, rfl⟩) fun _ => ?_
  refine After.needState (fun _ => ⟨⟨_, rfl⟩, rfl⟩) fun _ => ?_
  refine After.needParent (fun _ => ⟨⟨_, rfl⟩, rfl⟩) fun hNot => ?_
  rw [hEnding] at hNot
  cases hNot

/-! ### Records that are ahead -/

/-- A document with the same tree, the same observers and the same notes. -/
structure Ahead (l l₁ : Live κ σ) : Prop where
  tornDown : l₁.tornDown = l.tornDown
  document : l₁.document = l.document
  dom : l₁.dom = l.dom
  tracked : ∀ n, l₁.trackedOf n = l.trackedOf n
  observers : l₁.observers = l.observers

namespace Ahead

theorem refl (l : Live κ σ) : Ahead l l := ⟨rfl, rfl, rfl, fun _ => rfl, rfl⟩

variable (hA : Ahead l l₁)
include hA

theorem stateOf (r : NodeRef) : l₁.stateOf r = l.stateOf r := by
  rw [Live.stateOf, Live.stateOf, shownState, shownState, hA.tracked, hA.dom, hA.document]

theorem unasked (h : Maintained π P l) (hAlive : ¬ Dead P.dying l.trackedOf (l.dom.key r)) :
    l₁.Unasked r := fun o ho kind hKind => by
  rw [hA.dom, hA.tracked] at ho
  rw [hooksFor, observer?, hA.observers]
  exact h.unasked hAlive o ho kind hKind

end Ahead

/-- Where a follower is served nothing else changes. -/
theorem Restocked.endures (h : Restocked l l' (.container b))
    (hu : Keeper l u s sink (.container b)) :
    Endures (fun _ => False) l l' :=
  { h.lasts with
    label := fun n _ _ _ => h.label n
    kin := fun n hn _ _ => h.kin _ hn nofun
    box := fun c hc hNone _ => by
      refine ⟨h.kin _ hc ?_, fun w t sink' hw => hNone w t sink' (h.follower_iff.mp hw)⟩
      rintro hEq
      exact hNone u s sink (hEq ▸ hu)
    text := fun x hx => .inl (h.projectors ▸ hx) }

section Place

variable (h : Maintained π P₁ l) (hu : Keeper l u s sink (.container b))
variable (hA : Ahead l l₁) (hPend : P₁.Elsewhere P l (.container b))
variable (hDying : P₁.dying = fun _ => False)
variable (hAlive : ¬ Dead P₁.dying l.trackedOf (l.dom.key (.container b)))
include h hu hA hPend hDying hAlive

/-- Something that is kept, or comes to be kept, is attached to the container. -/
theorem show_leads (hReceives : Receives (Calls.upTo client n) n) (hUnder : P.Under π (u + 1))
    (hx : Comes π P₁ l (.container b) x) (hOff : l.dom.isPlaced x = false)
    (hBefore : ∀ y, before = some y → y ∈ l.dom.kin (.container b))
    (hCap : 3 * π.cap (l.dom.key x) + 2 ≤ n)
    (hRest : ∀ d', Dom.Gains l.dom d' x (.container b) before →
      Restocked l (l₁.withDom d') (.container b) ∧
        Refilled π P₁ P l (l₁.withDom d') (.container b) u s sink) :
    After (attach (Calls.upTo client (n + 1)) x (.container b) before).run l₁ fun out l' =>
      out = .ok () ∧ Leads π P l l' := by
  have hSound := h.rooted.sound
  have hp := h.rigs.known _ _ _ _ hu
  have hNe := h.key_ne_document hx.lt
  have hLive : ¬ Dead P₁.dying l.trackedOf (l.dom.key x) := mt hx.dead_iff.mp hAlive
  have hOut : ¬ l.dom.Below x (.container b) := fun hBelow =>
    absurd (h.edge_of_below hx.known hBelow).1 (Nat.not_le.mpr hx.lt)
  obtain ⟨d', hPlace, hGains⟩ := hSound.gains_of_place hx.known hp hOff hOut hBefore
  obtain ⟨hR, hAt⟩ := hRest d' hGains
  have hKey := hGains.key x
  have hx' : d'.Known x := hGains.known_iff.mpr hx.known
  let P' : Pending := { P with
    untold := fun w => P.untold w ∨ (d'.Below (.node l₁.document) x ∧
      ∃ s sink q, Keeper (l₁.withDom d') w s sink q ∧ d'.Below x q) }
  have hPend' : P₁.Elsewhere P' l (.container b) :=
    { hPend with untold := fun w hw => .inl (hPend.untold w hw) }
  have hIn : ∀ q, l.dom.Below x q → d'.Below x q := fun q => hGains.below_mono hSound hx.known
  have hGained : Maintained π P' (l₁.withDom d') := by
    refine h.gained hu hR hPend' { hAt with } hGains hDying hx hOff
      fun w t sink' q hw hBelow hTop => ?_
    refine .inr ⟨?_, t, sink', q, hR.follower_iff.mpr hw, hIn q hBelow⟩
    rw [hA.document]
    refine (hGains.below_iff hSound hx.known hp h.known_document hOff hOut).mpr (.inr ⟨hTop, .self⟩)
  refine (attach_leads (P := P) (hA.tornDown.trans h.running)
    (by rw [hA.dom, hA.tracked]; exact h.state_of_alive hDying hLive) (hA.unasked h hLive) hReceives
    ?_ ?_ (by rw [hA.dom]; exact hPlace) (by rw [hA.dom]; exact hKey) hGained hx' ?_
    fun _ => ⟨?_, fun w t sink' q hw hBelow => ?_⟩).mono ?_
  · rw [hA.stateOf, h.stateOf_of_alive hDying hLive hNe, hOff]
    rfl
  · rw [hA.stateOf]
    exact h.not_ending hDying hAlive
  · change ¬ (P.dying _ ∨ (l₁.trackedOf _).state = _)
    rw [hPend.dying, hKey, hA.tracked]
    exact hLive
  · rw [hKey]
    exact hCap
  · refine hUnder.mono (Nat.succ_le_of_lt (h.rigs.lt_of_key hu (hR.follower_iff.mp hw) ?_))
    rcases (hGains.below_iff hSound hx.known hp hx.known hOff hOut).mp hBelow with hOld | ⟨hUp, -⟩
    · exact Nat.lt_of_lt_of_le hx.lt (h.edge_of_below hx.known hOld).1
    · exact absurd hUp hOut
  · rintro out l' ⟨hOut, hLeads⟩
    exact ⟨hOut, Leads.trans (.refl π l) (hR.endures hu) hLeads⟩

omit hPend in
/-- What is shown is attached and alive. -/
theorem shown_attached (hx : x ∈ l.dom.kin (.container b)) : l.dom.Known x ∧
    l.dom.isPlaced x = true ∧ l.dom.key x ≠ l.document ∧
      ¬ Dead P₁.dying l.trackedOf (l.dom.key x) ∧ l₁.stateOf x = .attached := by
  have hp := h.rigs.known _ _ _ _ hu
  have hPlaced := h.rooted.sound.isPlaced_of_mem_kin hp hx
  have hNe := h.key_ne_document (h.rooted.edge _ _ hp hx).1
  have hLive := mt (h.graves.up _ _ hp hx) hAlive
  refine ⟨h.rooted.sound.known_of_mem_kin hp hx, hPlaced, hNe, hLive, ?_⟩
  rw [hA.stateOf, h.stateOf_of_alive hDying hLive hNe, hPlaced]
  rfl

/-- Something that is shown is detached from the container. -/
theorem hide_maintained (hx : x ∈ l.dom.kin (.container b))
    (hRest : Restocked l (l₁.withDom (l.dom.takeOut x)) (.container b) ∧
      Refilled π P₁ P l (l₁.withDom (l.dom.takeOut x)) (.container b) u s sink) :
    After (detach (Calls.upTo client (n + 1)) x).run l₁ fun out l' => out = .ok () ∧
      Unmoved (l₁.withDom (l.dom.takeOut x)) l' ∧ Maintained π P l' := by
  obtain ⟨hKnown, hPlaced, hNe, hLive, hState⟩ := shown_attached h hu hA hDying hAlive hx
  obtain ⟨hR, hAt⟩ := hRest
  have hLoses := h.rooted.sound.loses_of_takeOut hKnown hPlaced
  have hKey := hLoses.key x
  have hLost := h.lost hu hR hPend hAt hLoses hDying
  have hDom := hA.dom
  rw [← hDom] at hLost hKey ⊢
  refine detach_steady (hA.tornDown.trans h.running)
    (by rw [hA.dom, hA.tracked]; exact h.state_of_alive hDying hLive) (hA.unasked h hLive) hState hKey
    hLost ?_ ?_ ?_ ?_
  · rw [hDom]
    exact hLoses.known_iff.mpr hKnown
  · change ¬ (P.dying _ ∨ (l₁.trackedOf _).state = _)
    rw [hPend.dying, hDom, hA.tracked]
    exact hLive
  · rw [hDom]
    exact hLoses.isPlaced_self hKnown
  · rintro rfl
    rw [hA.document] at hNe
    exact hNe rfl

/-- Something that is shown is moved in the container. -/
theorem shift_maintained {calls : Calls κ σ} (hx : x ∈ l.dom.kin (.container b))
    (hBefore : ∀ y, before = some y → y ∈ l.dom.kin (.container b) ∧ y ≠ x)
    (hRest : ∀ d', Dom.Shifts l.dom d' x (.container b) before →
      Restocked l (l₁.withDom d') (.container b) ∧
        Refilled π P₁ P l (l₁.withDom d') (.container b) u s sink) :
    After (moveTo calls x (.container b) before).run l₁ fun out l' => out = .ok () ∧
      ∃ d', Dom.Shifts l.dom d' x (.container b) before ∧ Twin (l₁.withDom d') l' ∧
        Maintained π P l' := by
  have hSound := h.rooted.sound
  have hp := h.rigs.known _ _ _ _ hu
  obtain ⟨hKnown, -, -, -, hState⟩ := shown_attached h hu hA hDying hAlive hx
  obtain ⟨d', hMove, hShifts⟩ := hSound.shifts_of_move hKnown hp hx hBefore
  obtain ⟨hR, hAt⟩ := hRest d' hShifts
  have hShifted := h.shifted hu hR hPend hAt hShifts hx hDying
  refine (after_move (hA.tornDown.trans h.running) hState (by rw [hA.dom]; exact hMove)
    ?_).mono ?_
  · rw [Bool.eq_iff_iff]
    refine (hShifted.isConnected_iff (hShifts.known_iff.mpr hKnown)).trans ?_
    change d'.Below (.node l₁.document) x ↔ _
    rw [hA.document, hShifts.below_iff hx hSound h.known_document, ← h.isConnected_iff hKnown,
      isConnected, isConnected, hA.dom, hA.document]
  · rintro out l' ⟨hOut, hTwin⟩
    exact ⟨hOut, d', hShifts, hTwin, hTwin.maintained hShifted⟩

end Place

/-! ### One at a time -/

section Single

variable (h : Maintained π P₁ l) (hu : Keeper l u s sink (.container b))
variable (hA : Ahead l l₁) (hPend : P₁.Elsewhere P l (.container b))
variable (hDying : P₁.dying = fun _ => False)
variable (hx : l.dom.Known x) (hNe : l.dom.key x ≠ l.document)
variable (hPlaced : l.dom.isPlaced x = true → x ∈ l.dom.kin (.container b))
variable (hOnly : ¬ Dead P₁.dying l.trackedOf (l.dom.key (.container b)) →
  ∀ q ∈ l.dom.kin (.container b), q = x)
include h hu hA hPend hDying hx hNe hPlaced hOnly

/-- Something is attached to the container, which shows nothing else, unless it is shown already or
the container is dead. -/
theorem attachAnywhere_leads (hReceives : Receives (Calls.upTo client n) n)
    (hUnder : P.Under π (u + 1)) (hLive : ¬ Dead P₁.dying l.trackedOf (l.dom.key x))
    (hComes : ¬ Dead P₁.dying l.trackedOf (l.dom.key (.container b)) →
      Comes π P₁ l (.container b) x)
    (hCap : 3 * π.cap (l.dom.key x) + 2 ≤ n)
    (hRest : ∀ d', l.dom.Refits d' (.container b) → d'.kin (.container b) = [x] →
      Restocked l (l₁.withDom d') (.container b) ∧
        Refilled π P₁ P l (l₁.withDom d') (.container b) u s sink) :
    After (attachAnywhere (Calls.upTo client (n + 1)) x (.container b) none).run l₁ fun out l' =>
      out = .ok () ∧ Leads π P l l' ∨
        Dead P₁.dying l.trackedOf (l.dom.key (.container b)) ∧ (∃ e, out = .error e) ∧
          l' = l₁ := by
  have hSound := h.rooted.sound
  have hp := h.rigs.known _ _ _ _ hu
  have hShown := h.stateOf_of_alive hDying hLive hNe
  rw [← hA.stateOf] at hShown
  unfold attachAnywhere
  refine After.get_act ?_
  by_cases hAlive : Dead P₁.dying l.trackedOf (l.dom.key (.container b))
  · have hOff : l.dom.isPlaced x = false := Bool.eq_false_iff.mpr fun hOn =>
      hLive (h.graves.down _ _ hp (hPlaced hOn) hAlive)
    rw [hShown, hOff]
    refine (attach_refused _ ?_).mono fun _ _ hRefused => .inr ⟨hAlive, hRefused⟩
    rw [hA.stateOf, h.stateOf_of_dead hDying hAlive]
    rfl
  cases hOn : l.dom.isPlaced x with
  | true =>
    have hKin : l.dom.kin (.container b) = [x] := by
      have hAll := List.eq_replicate_of_mem (hOnly hAlive)
      have hNodup := hSound.nodup_kin hp
      have hSome := List.length_pos_of_mem (hPlaced hOn)
      rw [hAll, List.nodup_replicate] at hNodup
      rw [hAll, Nat.le_antisymm hNodup hSome]
      rfl
    have hStands : l₁.dom.standsAt x (.container b) none = true := by
      rw [hA.dom]
      exact hSound.standsAt_last hp (show l.dom.kin (.container b) = [] ++ [x] from hKin)
    rw [hShown, hOn]
    simp only [if_true, hStands, Bool.not_true, Bool.false_eq_true, if_false]
    refine .inl ⟨rfl, ?_⟩
    obtain ⟨hR, hAt⟩ := hRest l.dom (.refl hSound _) hKin
    have hSame : l₁.withDom l.dom = l₁ := by rw [← hA.dom]; rfl
    have hMaintained := h.refilled hu hR hPend hAt rfl
    rw [hSame] at hMaintained hR
    exact Leads.trans (.refl π l) (hR.endures hu) hMaintained.leads
  | false =>
    have hKin : l.dom.kin (.container b) = [] := List.eq_nil_iff_forall_not_mem.mpr fun q hq => by
      obtain rfl := hOnly hAlive q hq
      rw [hSound.isPlaced_of_mem_kin hp hq] at hOn
      cases hOn
    rw [hShown, hOn]
    refine (show_leads h hu hA hPend hDying hAlive hReceives hUnder (hComes hAlive) hOn (by nofun)
      hCap fun d' hGains => ?_).mono fun _ _ hLeads => .inl hLeads
    refine hRest d' ⟨hGains.toSameParts, hGains.sound, fun q hq hOther =>
      (hGains.kin q hq).trans (if_neg hOther)⟩ ?_
    rw [hGains.kin _ hp, if_pos rfl, hKin]
    rfl

/-- Something is detached from the container, which shows nothing else, if it is shown there. -/
theorem detachIfAttached_maintained
    (hLive : ¬ Dead P₁.dying l.trackedOf (l.dom.key (.container b)) →
      ¬ Dead P₁.dying l.trackedOf (l.dom.key x))
    (hRest : ∀ d', l.dom.Refits d' (.container b) →
      (¬ Dead P₁.dying l.trackedOf (l.dom.key (.container b)) → d'.kin (.container b) = []) →
        Restocked l (l₁.withDom d') (.container b) ∧
          Refilled π P₁ P l (l₁.withDom d') (.container b) u s sink) :
    After (detachIfAttached (Calls.upTo client (n + 1)) x).run l₁ fun out l' => out = .ok () ∧
      Maintained π P l' ∧ Endures (fun _ => False) l l' ∧ ∃ d', Unmoved (l₁.withDom d') l' := by
  have hSound := h.rooted.sound
  have hp := h.rigs.known _ _ _ _ hu
  unfold detachIfAttached
  refine After.get_act ?_
  rw [hA.stateOf]
  by_cases hIn : x ∈ l.dom.kin (.container b) ∧
      ¬ Dead P₁.dying l.trackedOf (l.dom.key (.container b))
  · obtain ⟨hIn, hAlive⟩ := hIn
    have hOn := hSound.isPlaced_of_mem_kin hp hIn
    have hState : l.stateOf x = .attached := by
      rw [h.stateOf_of_alive hDying (hLive hAlive) hNe, hOn, if_pos rfl]
    have hLoses := hSound.loses_of_takeOut hx hOn
    have hNone : (l.dom.takeOut x).kin (.container b) = [] := by
      rw [hLoses.kin _ hp, List.filter_eq_nil_iff]
      intro q hq
      simpa using hOnly hAlive q hq
    have hBoth := hRest _ ⟨hLoses.toSameParts, hLoses.sound, fun q hq hOther => by
      rw [hLoses.kin q hq, List.filter_eq_self]
      intro z hz
      simp only [ne_eq, decide_eq_true_eq]
      rintro rfl
      exact hOther (hSound.kin_inj hq hp hz hIn)⟩ fun _ => hNone
    rw [if_pos hState]
    refine (hide_maintained h hu hA hPend hDying hAlive hIn hBoth).mono ?_
    rintro out l' ⟨hOut, hUnmoved, hMaintained⟩
    exact ⟨hOut, hMaintained, (hBoth.1.endures hu).trans hUnmoved.lasts, _, hUnmoved⟩
  · have hState : l.stateOf x ≠ .attached := fun hState => by
      by_cases hDead : Dead P₁.dying l.trackedOf (l.dom.key x)
      · rw [h.stateOf_of_dead hDying hDead] at hState
        cases hState
      · rw [h.stateOf_of_alive hDying hDead hNe] at hState
        split at hState
        · rename_i hOn
          exact hIn ⟨hPlaced hOn, fun hEnd => hDead (h.graves.down _ _ hp (hPlaced hOn) hEnd)⟩
        · cases hState
    obtain ⟨hR, hAt⟩ := hRest l.dom (.refl hSound _) fun hAlive =>
      List.eq_nil_iff_forall_not_mem.mpr fun q hq => by
        obtain rfl := hOnly hAlive q hq
        exact hIn ⟨hq, hAlive⟩
    have hSame : l₁.withDom l.dom = l₁ := by rw [← hA.dom]; rfl
    have hMaintained := h.refilled hu hR hPend hAt rfl
    rw [hSame] at hMaintained hR
    rw [if_neg hState]
    refine ⟨rfl, hMaintained, (hR.endures hu), l.dom, ?_⟩
    rw [hSame]
    exact (Twin.refl l₁).steady

end Single

end Live

end LiveMarkup

namespace LiveMarkup.Live

variable {κ σ : Type} {π π₁ π' : Plan} {P P₁ P' : Pending} {l l₁ l' : Live κ σ}
variable {u w : BindingId} {s t : SignalId} {r q ch : NodeRef} {c : ConditionalId}
variable {x y : Conditional κ} {K K' : Clock κ} {d : Dom} {client : Client κ σ} {n m : Nat}

/-! ## Building -/

/-- What a factory can make is built. -/
theorem build_yields {f : NodeFactory κ} {cap : Nat} (h : Maintained π P l) (hUnder : P.Under π u)
    (hu : u < l.subscriptions.size) (hAble : f.Able π l u cap) :
    After ((Calls.upTo client (n + 1)).build f).run l fun out l' => ∃ r body scope hosted π',
      f = .body body scope hosted ∧ out = .ok r ∧ body.height < cap ∧
        Yields P π l scope body r π' l' := by
  obtain ⟨body, scope, hosted, rfl, hMakes⟩ := hAble
  refine (render_yields h hUnder (Nat.le_of_lt hu) hMakes.signals hMakes.plain).mono ?_
  rintro out l' ⟨r, π', hOut, hY⟩
  exact ⟨r, body, scope, hosted, π', rfl, hOut, hMakes.low, hY⟩

/-- What was built for a follower comes to its container. -/
theorem Yields.fit {scope : Scope} {body : Instruction} {sink : Sink κ}
    (hY : Yields P π l scope body q π' l') (h : Maintained π P l)
    (hDying : P.dying = fun _ => False)
    (hu : Keeper l u s sink r) (hLow : body.height < π.cap (l.dom.key r)) :
    Fit π' P l' r q := by
  have hr := h.rigs.known u s sink r hu
  have hLt := h.rooted.sound.key_lt_size hr
  have hKey := hY.adds.lasts.key r hr
  refine ⟨hY.stray.known, ?_, ?_, hY.stray.not_dead hDying, hY.stray.free⟩
  · rw [hKey]
    exact Nat.lt_of_lt_of_le hLt hY.new
  · rw [hY.cap, hKey, hY.adds.plan.cap _ hLt]
    exact hLow

theorem Fit.comes {p : NodeRef} (hFit : Fit π P l p q)
    (hAlive : ¬ Dead P.dying l.trackedOf (l.dom.key p)) : Comes π P l p q :=
  ⟨hFit.known, hFit.lt, Nat.le_of_lt hFit.cap,
    ⟨fun hDead => absurd hDead hFit.alive, fun hDead => absurd hDead hAlive⟩,
    fun w t sink x hw hIn => absurd hIn (hFit.free w t sink x hw)⟩

/-- What a follower keeps comes to its container. -/
theorem Maintained.stock_comes {sink : Sink κ} (h : Maintained π P l) (hu : Keeper l u s sink r)
    (hIn : q ∈ sink.stock l (P.hand u)) (hAlive : ¬ Dead P.dying l.trackedOf (l.dom.key r)) :
    Comes π P l r q := by
  obtain ⟨hKnown, hLt, hCap⟩ := h.shelves.known u s sink r q hu hIn
  refine ⟨hKnown, hLt, Nat.le_of_lt hCap, ⟨fun hDead => ?_, fun hDead => absurd hDead hAlive⟩,
    fun w t sink' p hw hIn' => ?_⟩
  · exact absurd hDead (h.shelves.alive u s sink r q hu hAlive hIn)
  · obtain rfl := h.shelves.apart u s sink r w t sink' p q hu hw hIn hIn'
    exact (hu.unique hw).2.2.symm

/-! ## Records of conditionals -/

def withConditional (l : Live κ σ) (c : ConditionalId) (x : Conditional κ) (K : Clock κ) :
    Live κ σ :=
  { l with conditionals := l.conditionals.modify c fun _ => x, clock := K }

theorem conditional_withConditional (hy : l.conditionals[c]? = some y) :
    (l.withConditional c x K).conditionals[c]? = some x := by
  change (l.conditionals.modify c fun _ => x)[c]? = _
  rw [Array.getElem?_modify, if_pos rfl, hy]
  rfl

theorem withConditional_modify (hy : l.conditionals[c]? = some y)
    (f : Conditional κ → Conditional κ) :
    { l with conditionals := l.conditionals.modify c f, clock := K } =
      l.withConditional c (f y) K := by
  have hSame : l.conditionals.modify c f = l.conditionals.modify c fun _ => f y := by
    refine Array.ext_getElem? fun i => ?_
    rw [Array.getElem?_modify, Array.getElem?_modify]
    split
    · rename_i hEq
      rw [← hEq, hy]
      rfl
    · rfl
  rw [hSame, withConditional]

theorem withConditional_withConditional (x x' : Conditional κ) (K K' : Clock κ) :
    (l.withConditional c x K).withConditional c x' K' = l.withConditional c x' K' := by
  have hSame : (l.conditionals.modify c fun _ => x).modify c (fun _ => x') =
      l.conditionals.modify c fun _ => x' := by
    refine Array.ext_getElem? fun i => ?_
    rw [Array.getElem?_modify, Array.getElem?_modify, Array.getElem?_modify]
    split
    · rw [Option.map_map]
      rfl
    · rfl
  exact congrArg (fun C => { l with conditionals := C, clock := K' }) hSame

theorem ahead_withConditional : Ahead l (l.withConditional c x K) :=
  ⟨rfl, rfl, rfl, fun _ => rfl, rfl⟩

/-- The clock has no more timers than it had but for the grace of a conditional. -/
def Clock.Spends (c : ConditionalId) (K K' : Clock κ) : Prop :=
  (∀ t ∈ K'.timers, t ∈ K.timers ∨ t.task = .endGrace c) ∧ K'.microtasks = K.microtasks

theorem Clock.Spends.refl (c : ConditionalId) (K : Clock κ) : K.Spends c K :=
  ⟨fun _ => .inl, rfl⟩

theorem stopGrace_withConditional (hy : l.conditionals[c]? = some y)
    (hK : l.clock.Spends c K) : After (stopGrace c) (l.withConditional c x K) fun _ l' =>
      ∃ timer K', l.clock.Spends c K' ∧ l' = l.withConditional c { x with timer } K' := by
  rcases stopGrace_run (l.withConditional c x K) c with hSame | ⟨timer, hStopped⟩
  · exact ⟨x.timer, K, hK, hSame⟩
  · refine ⟨none, { K with timers := K.timers.filter fun t => !(t.number == timer) },
      ⟨fun t ht => hK.1 t (List.mem_of_mem_filter ht), hK.2⟩, hStopped.trans ?_⟩
    exact (withConditional_modify (conditional_withConditional hy) _).trans
      (withConditional_withConditional _ _ _ _)

section Records

variable (h : Maintained π P₁ l) (hu : Keeper l u s (.conditional c) (.container y.box))
variable (hy : l.conditionals[c]? = some y) (hBox : x.box = y.box)
  (hFactory : x.factory = y.factory)
variable (hK : l.clock.Spends c K)
include hu hy hBox hFactory hK

theorem restocked_withConditional (hParts : Dom.SameParts l.dom d) (hSound : d.Sound)
    (hKin : ∀ q, l.dom.Known q → q ≠ .container y.box → d.kin q = l.dom.kin q) :
    Restocked l ((l.withConditional c x K).withDom d) (.container y.box) :=
  Restocked.of_conditional (f := fun _ => x) hParts hSound hKin hy hBox hFactory rfl
    (fun t ht => (hK.1 t ht).imp_right fun hTask => ⟨c, u, s, _, hTask, hu⟩) hK.2

omit hK hBox hu in
include h hu in
/-- The new record says of the conditional what it has to. -/
theorem refilled_withConditional
    (hStock : ∀ n, x.child = some n → y.child = some n ∨ Fit π P₁ l (.container y.box) n ∧
      ∃ body scope hosted, y.factory = .body body scope hosted ∧ MadeOf l scope n body)
    (hPlaced : ∀ n, x.child = some n → d.isPlaced n = true → n ∈ d.kin (.container y.box))
    (hShape : ¬ Dead P₁.dying l.trackedOf (l.dom.key (.container y.box)) →
      d.kin (.container y.box) = if x.visible then x.child.toList else [])
    (hCurrent : l.statusOf u = .connected → P'.lagging u ∨
      x.visible = (l.valueOf s).truthy ∧ (x.visible = true → x.child.isSome)) :
    Refilled π P₁ P' l ((l.withConditional c x K).withDom d) (.container y.box) u s
      (.conditional c) := by
  have hx : ((l.withConditional c x K).withDom d).conditionals[c]? = some x :=
    conditional_withConditional (K := K) hy
  have hMem : ∀ {l₁ : Live κ σ} {x : Conditional κ} {hand n}, l₁.conditionals[c]? = some x →
      (n ∈ (Sink.conditional c).stock l₁ hand ↔ x.child = some n) := by
    intro l₁ x hand n hx
    rw [Sink.stock, hx, Option.bind_some, Option.mem_toList]
  refine ⟨fun n hn => ?_, fun n hn hOn => ?_, fun b hb hAlive => ?_, fun x' hx' n hn hAlive => ?_,
    fun hOn => ?_⟩
  · exact (hStock n ((hMem hx).mp hn)).imp (hMem hy).mpr And.left
  · exact hPlaced n ((hMem hx).mp hn) hOn
  · simp only [Sink.shown, hx]
    exact hShape hAlive
  · cases hx.symm.trans hx'
    rcases hStock n hn with hOld | ⟨-, hNew⟩
    · rw [hFactory]
      exact h.shelves.child u s c _ y n hu hy hOld hAlive
    · rw [hFactory]
      exact hNew
  · refine (hCurrent hOn).imp_right fun hBoth => .inr (.inr fun x' hx' => ?_)
    cases hx.symm.trans hx'
    exact hBoth

end Records

/-! ## Showing the child -/

/-- Only a record changed, and the tree did not. -/
theorem Maintained.recorded (h : Maintained π P₁ l)
    (hu : Keeper l u s (.conditional c) (.container y.box)) (hy : l.conditionals[c]? = some y)
    (hBox : x.box = y.box) (hFactory : x.factory = y.factory) (hK : l.clock.Spends c K)
    (hPend : P₁.Elsewhere P l (.container y.box))
    (hAt : Refilled π P₁ P l ((l.withConditional c x K).withDom l.dom) (.container y.box) u s
      (.conditional c)) :
    Maintained π P (l.withConditional c x K) ∧
    Endures (fun _ => False) l (l.withConditional c x K) :=
  have hR := restocked_withConditional hu hy hBox hFactory hK (.refl l.dom) h.rooted.sound
    fun _ _ _ => rfl
  ⟨h.refilled hu hR hPend hAt rfl, (hR.endures hu)⟩

/-- What is up to date in the end was behind before. -/
theorem Pending.Elsewhere.caught_up {sink : Sink κ} (P : Pending)
    (hu : Keeper l u s sink r) : (P.behind u).Elsewhere P l r :=
  .of_follower hu (fun _ => id) rfl rfl rfl rfl fun _ hw =>
    ⟨rfl, rfl, rfl, fun hLag => hLag.resolve_right hw⟩

section Conditional

variable (hReceives : Receives (Calls.upTo client n) n) (h : Maintained π (P.behind u) l)
variable (hu : Keeper l u s (.conditional c) (.container y.box)) (hy : l.conditionals[c]? = some y)
variable (hUnder : P.Under π u) (hCap : 3 * π.cap (l.dom.key (.container y.box)) ≤ n)
include hReceives h hu hy hUnder hCap

/-- A child that is alive and stands at the container or nowhere is shown. -/
theorem attachChild_leads (hChild : x.child = some ch) (hVisible : x.visible = true)
    (hTruthy : (l.valueOf s).truthy = true) (hBox : x.box = y.box) (hFactory : x.factory = y.factory)
    (hK : l.clock.Spends c K)
    (hNode : y.child = some ch ∨ Fit π (P.behind u) l (.container y.box) ch ∧
      ∃ body scope hosted, y.factory = .body body scope hosted ∧ MadeOf l scope ch body)
    (hKnown : l.dom.Known ch) (hNe : l.dom.key ch ≠ l.document)
    (hPlaced : l.dom.isPlaced ch = true → ch ∈ l.dom.kin (.container y.box))
    (hOnly : ¬ Dead P.dying l.trackedOf (l.dom.key (.container y.box)) →
      ∀ q ∈ l.dom.kin (.container y.box), q = ch)
    (hAlive : ¬ Dead P.dying l.trackedOf (l.dom.key ch))
    (hComes : ¬ Dead P.dying l.trackedOf (l.dom.key (.container y.box)) →
      Comes π (P.behind u) l (.container y.box) ch)
    (hLow : π.cap (l.dom.key ch) < π.cap (l.dom.key (.container y.box))) :
    After (attachAnywhere (Calls.upTo client (n + 1)) ch (.container y.box) none).run
      (l.withConditional c x K) fun _ l' => Leads π P l l' := by
  have hPend := Pending.Elsewhere.caught_up P hu
  have hAt : ∀ d : Dom, (d.isPlaced ch = true → ch ∈ d.kin (.container y.box)) →
      (¬ Dead P.dying l.trackedOf (l.dom.key (.container y.box)) →
        d.kin (.container y.box) = [ch]) →
      Refilled π (P.behind u) P l ((l.withConditional c x K).withDom d) (.container y.box) u s
        (.conditional c) := fun d hPlaced hShape =>
    refilled_withConditional h hu hy hFactory
      (fun n hn => Option.some.inj (hChild.symm.trans hn) ▸ hNode)
      (fun n hn => Option.some.inj (hChild.symm.trans hn) ▸ hPlaced)
      (fun hAlive => by
        rw [hVisible, hChild]
        exact hShape hAlive)
      fun _ => .inr ⟨by rw [hVisible, hTruthy], fun _ => by rw [hChild]; rfl⟩
  refine (attachAnywhere_leads h hu ahead_withConditional hPend hUnder.dying hKnown hNe hPlaced hOnly
    hReceives (hUnder.mono (Nat.le_succ u)) hAlive hComes (by omega)
    fun d' hRefits hKin => ⟨restocked_withConditional hu hy hBox hFactory hK hRefits.toSameParts
      hRefits.sound hRefits.kin, hAt d' (fun _ => by rw [hKin]; exact List.mem_singleton_self ch)
        fun _ => hKin⟩).mono ?_
  rintro _ _ (⟨-, hLeads⟩ | ⟨hDead, -, rfl⟩)
  · exact hLeads
  · obtain ⟨hMaintained, hEndures⟩ := h.recorded hu hy hBox hFactory hK hPend
      (hAt l.dom hPlaced fun hNot => absurd hDead hNot)
    exact Leads.trans (.refl π l) hEndures hMaintained.leads

/-- The child that is kept is shown. -/
theorem showKept_leads (hChild : y.child = some ch) (hState : l.stateOf ch ≠ .destroyed)
    (hVisible : x.visible = true) (hTruthy : (l.valueOf s).truthy = true) (hBox : x.box = y.box)
    (hFactory : x.factory = y.factory) (hSame : x.child = some ch) (hK : l.clock.Spends c K) :
    After (attachAnywhere (Calls.upTo client (n + 1)) ch (.container y.box) none).run
      (l.withConditional c x K) fun _ l' => Leads π P l l' := by
  have hStock : ch ∈ (Sink.conditional c).stock l ((P.behind u).hand u) := by
    rw [Sink.stock, hy, Option.bind_some, hChild]
    exact List.mem_singleton_self ch
  obtain ⟨hKnown, hLt, hLow⟩ := h.shelves.known _ _ _ _ ch hu hStock
  refine attachChild_leads hReceives h hu hy hUnder hCap hSame hVisible hTruthy hBox hFactory hK
    (.inl hChild) hKnown (h.key_ne_document hLt) (h.shelves.placed _ _ _ _ ch hu hStock)
    (fun hAlive q hq => ?_) (mt (h.stateOf_of_dead hUnder.dying) hState) (h.stock_comes hu hStock)
    hLow
  rw [h.shelves.shape _ _ _ _ hu hAlive] at hq
  simp only [Sink.shown, hy, hChild] at hq
  split at hq
  · simpa using hq
  · cases hq

/-- A new child is built and shown. -/
theorem showBuilt_leads (hGone : ∀ ch, y.child = some ch → l.stateOf ch = .destroyed)
    (hVisible : x.visible = true) (hTruthy : (l.valueOf s).truthy = true) (hBox : x.box = y.box)
    (hFactory : x.factory = y.factory) (hSame : x.child = y.child) (hK : l.clock.Spends c K) :
    After (do
      let child ← (Calls.upTo client (n + 1)).build x.factory
      sure (modifyConditional c fun x => { x with child := some child })
      attachAnywhere (Calls.upTo client (n + 1)) child (.container y.box) none : Act κ σ Unit).run
      (l.withConditional c x K) fun _ l' => Leads π P l l' := by
  have hDying := hUnder.dying
  have hPend := Pending.Elsewhere.refl (P.behind u) l (.container y.box)
  have hStock : ∀ {ch}, y.child = some ch →
      ch ∈ (Sink.conditional c).stock l ((P.behind u).hand u) := fun hChild => by
    rw [Sink.stock, hy, Option.bind_some, hChild]
    exact List.mem_singleton_self _
  have hNone : ¬ Dead P.dying l.trackedOf (l.dom.key (.container y.box)) → y.child = none := by
    intro hAlive
    cases hChild : y.child with
    | none => rfl
    | some ch =>
      have hLive := h.shelves.alive _ _ _ _ ch hu hAlive (hStock hChild)
      have hNe := h.key_ne_document (h.shelves.known _ _ _ _ ch hu (hStock hChild)).2.1
      have hShown := h.stateOf_of_alive hDying hLive hNe
      rw [hGone ch hChild] at hShown
      split at hShown <;> cases hShown
  -- what is left of a child is not looked at
  obtain ⟨h₁, hEndures₁⟩ := h.recorded hu hy hBox hFactory hK hPend
    (refilled_withConditional h hu hy hFactory (fun n hn => .inl (by rw [← hSame, hn]))
      (fun n hn => h.shelves.placed _ _ _ _ n hu (hStock (by rw [← hSame, hn])))
      (fun hAlive => by
        refine (h.shelves.shape _ _ _ _ hu hAlive).trans ?_
        simp [Sink.shown, hy, hSame, hNone hAlive])
      fun _ => .inl (.inr rfl))
  have hu₁ := hEndures₁.follower hu
  have hx₁ : (l.withConditional c x K).conditionals[c]? = some x := conditional_withConditional hy
  have hAble := h₁.shelves.able _ _ _ _ hu₁ x hx₁
  have hUnder₁ : (P.behind u).Under π u := ⟨hUnder.busy, hUnder.pinned, hUnder.dying⟩
  refine (build_yields h₁ hUnder₁ hu₁.lt_size hAble).act_bind ?_
    (by rintro e _ ⟨_, _, _, _, _, _, ⟨⟩, _⟩)
  rintro ch l₂ ⟨_, body, scope, hosted, π₂, hBody, ⟨⟩, hLow, hY⟩
  have h₂ := hY.adds.maintained
  have hu₂ := hY.adds.lasts.follower hu₁
  have hx₂ := hY.adds.conditional c x hx₁
  have hFit := hY.fit h₁ hDying hu₁ hLow
  refine After.sure_bind (m := fun _ l₃ => l₃ = l₂.withConditional c { x with child := some ch }
    l₂.clock) (withConditional_modify hx₂ _) ?_
  rintro _ _ rfl
  rw [← hBox] at hu₂ ⊢
  rw [← hBox] at hFit
  have hValue : l₂.valueOf s = l.valueOf s :=
    hY.adds.value s (h₁.rigs.reads _ _ _ _ hu₁).1
  have hUnder₂ : P.Under π₂ u := hUnder.extended h₁ (fun _ _ => id) hY.adds.plan
  have hCapKey : π₂.cap (l₂.dom.key (.container x.box)) = π.cap (l.dom.key (.container y.box)) := by
    rw [hBox, hY.adds.plan.cap_key hY.adds.lasts h₁.rooted.sound (h₁.rigs.known _ _ _ _ hu₁)]
    rfl
  refine (attachChild_leads (x := { x with child := some ch }) hReceives h₂ hu₂ hx₂ hUnder₂
    (hCapKey ▸ hCap) rfl hVisible (hValue ▸ hTruthy) rfl rfl (.refl c l₂.clock)
    (.inr ⟨hFit, body, scope, hosted, hBody, hY.made⟩) hFit.known hY.stray.ne
    (fun hOn => absurd hOn (by rw [hY.stray.off]; exact Bool.false_ne_true)) (fun hAlive q hq => ?_)
    hFit.alive hFit.comes hFit.cap).mono fun _ _ hLeads =>
      Leads.trans (.refl π l) hEndures₁ (Leads.trans hY.adds.plan hY.adds.lasts hLeads)
  have hAlive₀ : ¬ Dead P.dying l.trackedOf (l.dom.key (.container y.box)) := by
    rintro (hDies | hDestroyed)
    · rw [hDying] at hDies
      exact hDies
    · refine hAlive (.inr ?_)
      rw [hBox, hY.adds.lasts.key _ (h₁.rigs.known _ _ _ _ hu₁)]
      exact (hY.adds.state _).trans hDestroyed
  rw [h₂.shelves.shape _ _ _ _ hu₂ hAlive] at hq
  simp [Sink.shown, hx₂, hSame, hNone hAlive₀] at hq

/-- A child is shown while the condition holds. -/
theorem showChild_leads (hTruthy : (l.valueOf s).truthy = true) :
    After (showChild (Calls.upTo client (n + 1)) c).run
      (l.withConditional c { y with visible := true } l.clock) fun _ l' => Leads π P l l' := by
  unfold showChild
  refine After.sure_bind (stopGrace_withConditional hy (.refl c l.clock)) ?_
  rintro _ _ ⟨timer, K, hK, rfl⟩
  refine After.get_act ?_
  have hx : (l.withConditional c { y with visible := true, timer } K).conditional? c =
    some { y with visible := true, timer } := conditional_withConditional hy
  rw [hx]
  dsimp only
  unfold childOf
  rw [bind_assoc]
  refine After.get_act ?_
  cases hKept : y.child.filter fun child => !decide
      ((l.withConditional c { y with visible := true, timer } K).stateOf child = .destroyed) with
  | some ch =>
    obtain ⟨hChild, hState⟩ := Option.filter_eq_some_iff.mp hKept
    rw [ahead_withConditional.stateOf] at hState
    exact showKept_leads hReceives h hu hy hUnder hCap hChild (by simpa using hState) rfl hTruthy
      rfl rfl hChild hK
  | none =>
    simp only [bind_assoc]
    refine showBuilt_leads (x := { y with visible := true, timer }) hReceives h hu hy hUnder hCap
      (fun ch hChild => ?_) rfl hTruthy rfl rfl rfl hK
    have hAll := Option.filter_eq_none_iff.mp hKept ch hChild
    rw [ahead_withConditional.stateOf] at hAll
    simpa using hAll

/-! ## Hiding the child -/

omit hReceives hCap in
/-- The child is hidden, if it is shown. -/
theorem hideKept_maintained (hChild : y.child = some ch) (hVisible : x.visible = false)
    (hTruthy : (l.valueOf s).truthy = false) (hBox : x.box = y.box)
    (hFactory : x.factory = y.factory) (hSame : x.child = some ch) (hK : l.clock.Spends c K) :
    After (detachIfAttached (Calls.upTo client (n + 1)) ch).run (l.withConditional c x K)
      fun out l' => out = .ok () ∧ Maintained π P l' ∧ Endures (fun _ => False) l l' ∧
        l'.conditionals[c]? = some x := by
  have hStock : ch ∈ (Sink.conditional c).stock l ((P.behind u).hand u) := by
    rw [Sink.stock, hy, Option.bind_some, hChild]
    exact List.mem_singleton_self ch
  obtain ⟨hKnown, hLt, -⟩ := h.shelves.known _ _ _ _ ch hu hStock
  refine (detachIfAttached_maintained h hu ahead_withConditional (.caught_up P hu) hUnder.dying
    hKnown (h.key_ne_document hLt) (h.shelves.placed _ _ _ _ ch hu hStock) (fun hAlive q hq => ?_)
    (fun hAlive => h.shelves.alive _ _ _ _ ch hu hAlive hStock) fun d' hRefits hKin =>
      ⟨restocked_withConditional hu hy hBox hFactory hK hRefits.toSameParts hRefits.sound
        hRefits.kin, refilled_withConditional h hu hy hFactory
          (fun n hn => .inl (by rw [hChild, ← hSame, hn])) (fun n hn => ?_) (fun hAlive => ?_)
          fun _ => .inr ⟨by rw [hVisible, hTruthy], fun hTrue => ?_⟩⟩).mono ?_
  · rw [h.shelves.shape _ _ _ _ hu hAlive] at hq
    simp only [Sink.shown, hy, hChild] at hq
    split at hq
    · simpa using hq
    · cases hq
  · rw [hSame] at hn
    cases hn
    exact hRefits.mem_kin_of_isPlaced h.rooted.sound (h.rigs.known _ _ _ _ hu) hKnown
      (h.shelves.placed _ _ _ _ ch hu hStock)
  · rw [hVisible]
    exact hKin hAlive
  · rw [hVisible] at hTrue
    cases hTrue
  · rintro out l' ⟨hOut, hMaintained, hEndures, d', hUnmoved⟩
    refine ⟨hOut, hMaintained, hEndures, ?_⟩
    rw [hUnmoved.conditionals]
    exact conditional_withConditional (K := K) hy

omit hReceives h hUnder hCap in
/-- The grace of a hidden child begins. -/
theorem startGrace_leads (h : Maintained π P l) (delay : Nat) :
    After (do
      stopGrace c
      let timer ← setTimer delay (.endGrace c)
      modifyConditional c fun x => { x with timer := some timer } : LiveM κ σ Unit) l
      fun _ l' => Leads π P l l' := by
  refine After.bind (h.stopGrace hu hy) ?_
  rintro _ l₁ ⟨h₁, hRazed, -, -, timer, hy₁⟩
  have hu₁ := hRazed.lasts.follower hu
  let K : Clock κ := { l₁.clock with
    nextTimer := l₁.clock.nextTimer + 1
    timers := insertTimer ⟨l₁.clock.now + delay, l₁.clock.nextTimer, .endGrace c⟩ l₁.clock.timers }
  have hK : l₁.clock.Spends c K := ⟨fun t ht => by
    rcases Clock.mem_insertTimer ht with rfl | hOld
    · exact .inr rfl
    · exact .inl hOld, rfl⟩
  refine After.bind (m := fun number l₂ => l₂ = { l₁ with clock := K }) ?_ ?_
  · unfold After
    rw [Clock.run_setTimer h₁.running]
  · rintro number _ rfl
    have hRun : ((modifyConditional c fun x => { x with timer := some number }).run
        { l₁ with clock := K }).2 = l₁.withConditional c { y with timer := some number } K :=
      withConditional_modify (K := K) hy₁ _
    unfold After
    rw [hRun, ← withConditional_modify (K := K) hy₁ fun x => { x with timer := some number }]
    refine Leads.trans (.refl π l) hRazed.lasts (Leads.trans (.refl π l₁) ?_
      (h₁.retimed _ _ hu₁ hy₁ hK.1 hK.2).leads)
    rw [withConditional_modify (K := K) hy₁]
    exact (restocked_withConditional (y := { y with timer }) (x := { y with timer := some number })
      hu₁ hy₁ rfl rfl hK (.refl l₁.dom) h₁.rooted.sound
      fun _ _ _ => rfl).endures hu₁

omit hReceives in
/-- The child is hidden when the condition ceases to hold. -/
theorem hideChild_leads (hTruthy : (l.valueOf s).truthy = false) :
    After (hideChild (Calls.upTo client (n + 1)) c).run
      (l.withConditional c { y with visible := false } l.clock) fun _ l' => Leads π P l l' := by
  unfold hideChild
  refine After.get_act ?_
  have hx : ((l.withConditional c { y with visible := false } l.clock).conditional? c).bind
      (·.child) = y.child := by
    rw [conditional?, conditional_withConditional hy]
    rfl
  rcases Option.eq_none_or_eq_some y.child with hChild | ⟨ch, hChild⟩
  · rw [hx.trans hChild]
    obtain ⟨hMaintained, hEndures⟩ := Maintained.recorded (x := { y with visible := false }) h hu hy
      rfl rfl (.refl c l.clock) (Pending.Elsewhere.caught_up P hu)
      (refilled_withConditional h hu hy rfl (fun n hn => .inl hn)
        (fun n hn => by
          rw [hChild] at hn
          cases hn)
        (fun hAlive => by
          refine (h.shelves.shape _ _ _ _ hu hAlive).trans ?_
          simp [Sink.shown, hy, hChild])
        fun _ => .inr ⟨hTruthy.symm, fun hVisible => by cases hVisible⟩)
    exact Leads.trans (.refl π l) hEndures hMaintained.leads
  · rw [hx.trans hChild]
    refine (hideKept_maintained (x := { y with visible := false }) h hu hy hUnder hChild rfl
      hTruthy rfl rfl hChild (.refl c l.clock)).act_ok ?_
    rintro l₁ ⟨h₁, hEndures₁, hx₁⟩
    have hu₁ := hEndures₁.follower hu
    have hLead : ∀ l', Leads π P l₁ l' → Leads π P l l' := fun l' =>
      Leads.trans (.refl π l) hEndures₁
    refine After.get_act ?_
    split
    · exact hLead _ h₁.leads
    · refine (discardChild_razes (destroy_razes client (n + 1)) h₁ hu₁ ?_ (.inr fun y' hy' => ?_)
        fun w t sink' q hw hBusy => ?_).mono fun _ l' hEnd =>
          hLead l' (Leads.trans (.refl π l₁) hEnd.2.2.lasts hEnd.2.1.leads)
      · rw [hEndures₁.key _ (h.rigs.known _ _ _ _ hu)]
        omega
      · rw [hx₁] at hy'
        cases hy'
        rfl
      · refine Nat.not_lt.mp fun hLt => ?_
        exact Nat.lt_asymm (h₁.rigs.lt_of_key hu₁ hw hLt) (hUnder.busy w (.inr (.inr hBusy)))
    · exact (startGrace_leads (y := { y with visible := false }) hu₁ hx₁ h₁ _).mono
        fun _ l' hLeads => hLead l' hLeads

/-- A conditional follows its condition. -/
theorem setVisible_leads :
    After (setVisible (Calls.upTo client (n + 1)) c (l.valueOf s).truthy).run l
    fun _ l' => Leads π P l l' := by
  unfold setVisible
  refine After.sure_bind (m := fun _ l₁ => l₁ =
    l.withConditional c { y with visible := (l.valueOf s).truthy } l.clock)
    (withConditional_modify (K := l.clock) hy _) ?_
  rintro _ _ rfl
  cases hTruthy : (l.valueOf s).truthy with
  | true => exact showChild_leads hReceives h hu hy hUnder hCap hTruthy
  | false => exact hideChild_leads h hu hy hUnder hCap hTruthy

end Conditional

end LiveMarkup.Live
