import LiveMarkup.Proofs.Dom.Taking
import LiveMarkup.Proofs.Live.Session

/-!
# Rows of siblings in a run

A client makes nodes and containers, puts them into each other and takes them out again, through
the life of nodes or at the containers alone. No marker is taken for a node and nothing is put into
what is inside it. Then the rows of siblings are in order at any time.

* `Laid`: what holds between any two works, `Laid.work`: that one work keeps it;
* `Works.rows`: the children of each container are one run, and runs do not cross.
-/

namespace LiveMarkup.Live

variable {κ σ : Type} {client : Client κ σ} {l l₁ l' : Live κ σ}

/-! ## Works -/

/-- What a client does to nodes and containers. -/
inductive Work (κ : Type) where
  | create (label : Dom.Label)
  | createContainer
  | observe (r : NodeRef)
  | hook (o : ObserverId) (kind : EventKind) (k : κ)
  | attach (r parent : NodeRef) (before : Option NodeRef)
  | detach (r : NodeRef)
  | destroy (r : NodeRef)
  | moveTo (r parent : NodeRef) (before : Option NodeRef)
  | attachAnywhere (r parent : NodeRef) (before : Option NodeRef)
  | detachIfAttached (r : NodeRef)
  | destroyFully (r : NodeRef)
  | insert (parent : NodeRef) (child : NodeId) (reference : Option NodeId)
  | remove (c : ContainerId) (child : NodeId)
  | replace (c : ContainerId) (new old : NodeId)

/-- Does a work. A replacement is an insertion and, if that succeeds, a removal. -/
def Work.perform (calls : Calls κ σ) : Work κ → LiveM κ σ Unit
  | .create label => do let _ ← makeInDom fun d => d.create label
  | .createContainer => do let _ ← makeInDom Dom.createContainer
  | .observe r => do let _ ← (Live.observe r).run
  | .hook o kind k => do let _ ← addHook o kind (.client k)
  | .attach r parent before => attempt (Live.attach calls r parent before)
  | .detach r => attempt (Live.detach calls r)
  | .destroy r => attempt (Live.destroy calls r)
  | .moveTo r parent before => attempt (Live.moveTo calls r parent before)
  | .attachAnywhere r parent before => attempt (Live.attachAnywhere calls r parent before)
  | .detachIfAttached r => attempt (Live.detachIfAttached calls r)
  | .destroyFully r => attempt (Live.destroyFully calls r)
  | .insert parent child reference =>
    attempt (tryInDom fun d => d.insertUnder parent child reference)
  | .remove c child => attempt (tryInDom fun d => d.removeFrom c child)
  | .replace c new old => attempt do
    tryInDom fun d => d.insertInto c new (some old)
    tryInDom fun d => d.removeFrom c old

/-- A node or container may be put into another one that is not inside it. -/
def Fits (d : Dom) (r parent : NodeRef) : Prop :=
  d.Known r ∧ d.Known parent ∧ ¬ d.Inside r (d.key parent)

/-- No marker is taken for a node and nothing is put into what is inside it. -/
def Work.Proper (d : Dom) : Work κ → Prop
  | .create _ => True
  | .createContainer => True
  | .observe r => d.Known r
  | .hook _ _ _ => True
  | .attach r parent _ => Fits d r parent
  | .detach r => d.Known r
  | .destroy r => d.Known r
  | .moveTo r parent _ => Fits d r parent
  | .attachAnywhere r parent _ => Fits d r parent
  | .detachIfAttached r => d.Known r
  | .destroyFully r => d.Known r
  | .insert parent child _ => Fits d (.node child) parent
  | .remove c child => d.Known (.container c) ∧ d.Known (.node child)
  | .replace c new old => Fits d (.node new) (.container c) ∧ d.Known (.node old)

/-- The documents that come out of one by proper works. -/
inductive Works (calls : Calls κ σ) (l : Live κ σ) : Live κ σ → Prop
  | start : Works calls l l
  | work {l₁ : Live κ σ} (h : Works calls l l₁) (w : Work κ) (hProper : w.Proper l₁.dom) :
    Works calls l ((w.perform calls).run l₁).2

/-! ## What holds in between -/

/-- The tree is sound, nothing but the document is under way, and hooks are quiet. -/
structure Laid (l : Live κ σ) : Prop where
  sound : l.dom.Sound
  plain : l.dom.Plain l.document
  settled : ∀ n, n ≠ l.document →
    (l.trackedOf n).state = none ∨ (l.trackedOf n).state = some .destroyed
  quiet : l.QuietFor fun _ => True

/-- A node or container was put where an insertion into a parent lands. -/
inductive Put (l : Live κ σ) (r parent : NodeRef) (before : Option NodeRef) (l' : Live κ σ) : Prop
  | intro {d' : Dom} {f : ObserverId → Observer.Core κ → Observer.Core κ} {host : NodeId}
    {reference : Option NodeId} (hPoint : l.dom.point parent before = .ok (host, reference))
    (hHost : l.dom.Host r host) (hHoused : Dom.Housed l.dom d' r host reference)
    (hChanged : Changed l l' d' f) (hHooks : ∀ o x, (f o x).hooks = x.hooks)

/-- A node or container was taken out of its place. -/
inductive TakenOut (l : Live κ σ) (r : NodeRef) (l' : Live κ σ) : Prop
  | intro {f : ObserverId → Observer.Core κ → Observer.Core κ}
    (hUnhoused : Dom.Unhoused l.dom (l.dom.takeOut r) r) (hLinked : (l.dom.takeOut r).nodes.Linked)
    (hChanged : Changed l l' (l.dom.takeOut r) f) (hHooks : ∀ o x, (f o x).hooks = x.hooks)

theorem moving_self (l : Live κ σ) (r : NodeRef) : l.moving l.dom r = fun _ => id := by
  have hSame : (l.withDom l.dom).isConnected r = l.isConnected r := rfl
  unfold moving
  rw [hSame]
  cases l.isConnected r <;> rfl

/-- What comes of detaching the document, which is attached whatever is noted of it. -/
inductive DocumentLeft (l : Live κ σ) (calls : Calls κ σ) (l' : Live κ σ) :
    Except Fault Unit → Prop
  | tornDown (hTorn : l.tornDown = true) : DocumentLeft l calls l' (.error .tornDown)
  | cancelled (hTorn : l.tornDown = false)
    (hCancel : l.cancels calls (.node l.document) .detaching .beforeDetach = true)
    (hDom : l'.dom = l.dom) (hCore : ∀ o, l'.core? o = l.core? o)
    (hTracked : ∀ n ≠ l.document, l'.trackedOf n = l.trackedOf n) :
    DocumentLeft l calls l' (.ok ())
  | left (hTorn : l.tornDown = false)
    (hCancel : l.cancels calls (.node l.document) .detaching .beforeDetach = false)
    (hDom : l'.dom = l.dom.remove l.document) : DocumentLeft l calls l' (.ok ())

namespace Laid

variable (h : l.Laid)
include h

/-- A change of the tree and of statuses. -/
theorem changed {d' : Dom} {f : ObserverId → Observer.Core κ → Observer.Core κ}
    (hC : Changed l l' d' f) (hSound : d'.Sound) (hParts : Dom.SameParts l.dom d')
    (hHooks : ∀ o x, ∀ e ∈ (f o x).hooks, e ∈ x.hooks) : l'.Laid where
  sound := by
    rw [hC.dom]
    exact hSound
  plain := by
    rw [hC.dom, hC.document]
    exact hParts.plain_iff.mpr h.plain
  settled n hn := by
    rw [hC.document] at hn
    rw [hC.tracked]
    exact h.settled n hn
  quiet := hC.quietFor h.quiet hHooks

theorem alike (hAlike : Alike l l') : l'.Laid :=
  h.changed hAlike h.sound (Dom.SameParts.refl _) fun _ _ _ he => he

theorem withDom {d : Dom} (hSound : d.Sound) (hPlain : d.Plain l.document) : (l.withDom d).Laid :=
  ⟨hSound, hPlain, h.settled, h.quiet.of_core (Frame.of_eq rfl rfl rfl rfl rfl rfl rfl)
    fun _ x hx => ⟨x, hx, fun _ he => he⟩⟩

theorem key_ne_document {r : NodeRef} (hr : l.dom.Known r) (hNe : r ≠ .node l.document) :
    l.dom.key r ≠ l.document := by
  intro hKey
  cases r with
  | node n => exact hNe (congrArg NodeRef.node hKey)
  | container c => exact h.plain.ne_part c hr .start hKey.symm

theorem noted {s : Option NodeState} (hNoted : Noted l l' (.node l.document) s) : l'.Laid where
  sound := by
    rw [hNoted.dom]
    exact h.sound
  plain := by
    rw [hNoted.dom, hNoted.document]
    exact h.plain
  settled n hn := by
    rw [hNoted.document] at hn
    rw [hNoted.tracked, if_neg (show n ≠ l.dom.key (.node l.document) from hn)]
    exact h.settled n hn
  quiet := hNoted.quietFor h.quiet

theorem destroyed {r : NodeRef} (hD : Destroyed l l' r) : l'.Laid where
  sound := by
    rw [hD.dom]
    exact h.sound
  plain := by
    rw [hD.dom, hD.document]
    exact h.plain
  settled n hn := by
    rw [hD.document] at hn
    rw [hD.tracked]
    split
    · exact .inr rfl
    · exact h.settled n hn
  quiet := h.quiet.of_core hD.toFrame fun o x' hx' => by
    rw [hD.core] at hx'
    obtain ⟨x, hx, rfl⟩ := Option.map_eq_some_iff.mp hx'
    refine ⟨x, hx, fun e he => ?_⟩
    split at he
    · exact Observer.Core.mem_of_mem_ended he
    · exact he

/-! ### Transitions -/

section Transitions

variable (hClient : client.Quiet) (depth : Nat) {r parent : NodeRef} {before : Option NodeRef}
include hClient

theorem attach_put (hFits : Fits l.dom r parent) :
    After (Live.attach (Calls.upTo client (depth + 2)) r parent before).run l fun _ l' =>
      Alike l l' ∨ l.stateOf r = .detached ∧ (l.stateOf parent).isEnding = false ∧
        l.Put r parent before l' := by
  obtain ⟨hr, hParent, hOut⟩ := hFits
  by_cases hNe : r = .node l.document
  · subst hNe
    refine (attach_document l _ parent before).mono fun _ _ hSame => .inl ?_
    rw [hSame]
    exact Changed.alike_of_calm (Calm.refl l)
  have hKey := h.key_ne_document hr hNe
  have hParentNe : parent ≠ r := by
    rintro rfl
    exact hOut (Dom.inside_key _)
  have hPlaced := fun hState d' (hPlace : l.dom.place r parent before = .ok d') =>
    h.sound.housed_of_place hr hParent hParentNe hOut
      ((isPlaced_of_state (h.settled _ hKey) hKey).1 hState) hPlace
  refine (attach_outcome hClient depth h.quiet (h.settled _ hKey) (fun _ _ => trivial)
    fun hState d' hPlace => ⟨?_, fun _ _ => trivial⟩).mono fun out l' hOutcome => ?_
  · obtain ⟨_, _, _, _, hHoused⟩ := hPlaced hState d' hPlace
    exact hHoused.key r
  cases hOutcome with
  | tornDown _ hSame => exact .inl hSame
  | wrongState _ _ hSame => exact .inl hSame
  | noParent _ _ _ hSame => exact .inl hSame
  | cancelled _ _ _ _ hSame => exact .inl hSame
  | astray _ _ _ _ _ hSame => exact .inl hSame
  | attached _ hState hEnding _ hPlace hChanged =>
    obtain ⟨host, reference, hPoint, hHost, hHoused⟩ := hPlaced hState _ hPlace
    exact .inr ⟨hState, hEnding, hPoint, hHost, hHoused, hChanged, connecting_hooks _ r⟩

theorem moveTo_put (hFits : Fits l.dom r parent) :
    After (Live.moveTo (Calls.upTo client (depth + 2)) r parent before).run l fun _ l' =>
      Alike l l' ∨ l.stateOf r = .attached ∧ l.Put r parent before l' := by
  obtain ⟨hr, hParent, hOut⟩ := hFits
  have hParentNe : parent ≠ r := by
    rintro rfl
    exact hOut (Dom.inside_key _)
  refine ((moveTo_outcome hClient depth h.quiet fun _ _ _ _ _ => trivial).mono
    fun _ _ h => h.changed).mono ?_
  rintro _ l' (⟨hAlike, _⟩ | ⟨d', hMove, _, hState, hChanged⟩)
  · exact .inl hAlike
  by_cases hOn : l.dom.isPlaced r = true
  · rcases h.sound.housed_of_move hr hParent hParentNe hOut hOn hMove with
      rfl | ⟨host, reference, hPoint, hHost, hHoused⟩
    · rw [moving_self] at hChanged
      exact .inl hChanged
    · exact .inr ⟨hState, hPoint, hHost, hHoused, hChanged, moving_hooks l d' r⟩
  · -- only the document is attached without a parent, and moving a node is placing it
    obtain rfl : r = .node l.document := by
      by_contra hNe
      have hKey := h.key_ne_document hr hNe
      exact hOn ((isPlaced_of_state (h.settled _ hKey) hKey).2 hState)
    obtain ⟨host, reference, hPoint, hHost, hHoused⟩ := h.sound.housed_of_place hr hParent
      hParentNe hOut (Bool.eq_false_iff.mpr hOn) hMove
    exact .inr ⟨hState, hPoint, hHost, hHoused, hChanged, moving_hooks l d' _⟩

theorem detach_takenOut (hr : l.dom.Known r) (hNe : r ≠ .node l.document) :
    After (Live.detach (Calls.upTo client (depth + 2)) r).run l fun _ l' =>
      Alike l l' ∨ l.stateOf r = .attached ∧ l.TakenOut r l' := by
  have hKey := h.key_ne_document hr hNe
  have hTaken := fun hState =>
    h.sound.unhoused_takeOut hr ((isPlaced_of_state (h.settled _ hKey) hKey).2 hState)
  refine ((detach_outcome hClient depth h.quiet (h.settled _ hKey) hKey (fun _ _ => trivial)
    fun hState => ⟨(hTaken hState).1.key r, fun _ _ => trivial⟩).mono fun _ _ h => h.changed).mono ?_
  rintro _ l' (⟨hAlike, _⟩ | ⟨_, hState, hChanged⟩)
  · exact .inl hAlike
  · obtain ⟨hUnhoused, hLinked⟩ := hTaken hState
    refine .inr ⟨hState, hUnhoused, hLinked, hChanged, fun o x => ?_⟩
    split
    · exact disconnecting_hooks _ r o x
    · rfl

theorem destroy_destroyed (hr : l.dom.Known r) :
    After (Live.destroy (Calls.upTo client (depth + 2)) r).run l fun _ l' =>
      Alike l l' ∨ l.stateOf r = .detached ∧ Destroyed l l' r := by
  refine ((destroy_outcome hClient depth h.quiet
    ((h.sound.key_mem_subtree hr hr).mpr (Dom.inside_key r)) fun _ _ => trivial).mono
      fun _ _ h => h.changed).mono ?_
  rintro _ l' (⟨hAlike, _⟩ | ⟨-, hState, hD⟩)
  · exact .inl hAlike
  · exact .inr ⟨hState, hD⟩

omit hClient in
theorem put (hr : l.dom.Known r) (hPut : l.Put r parent before l') : l'.Laid := by
  obtain ⟨_, hHost, hHoused, hChanged, hHooks⟩ := hPut
  exact h.changed hChanged (hHoused.sound h.sound hr hHost) hHoused.toSameParts
    fun o x e he => hHooks o x ▸ he

omit hClient in
theorem takenOut (hr : l.dom.Known r) (hTaken : l.TakenOut r l') : l'.Laid := by
  obtain ⟨hUnhoused, hLinked, hChanged, hHooks⟩ := hTaken
  exact h.changed hChanged (hUnhoused.sound h.sound hr hLinked) hUnhoused.toSameParts
    fun o x e he => hHooks o x ▸ he

theorem attach (hFits : Fits l.dom r parent) :
    After (Live.attach (Calls.upTo client (depth + 2)) r parent before).run l
      fun _ l' => l'.Laid :=
  (h.attach_put hClient depth hFits).mono fun _ _ hDone =>
    hDone.elim h.alike fun ⟨_, _, hPut⟩ => h.put hFits.1 hPut

theorem moveTo (hFits : Fits l.dom r parent) :
    After (Live.moveTo (Calls.upTo client (depth + 2)) r parent before).run l
      fun _ l' => l'.Laid :=
  (h.moveTo_put hClient depth hFits).mono fun _ _ hDone =>
    hDone.elim h.alike fun ⟨_, hPut⟩ => h.put hFits.1 hPut

/-- The document is taken out like any other node, but what is noted of it does not matter. -/
theorem detach_document :
    After (Live.detach (Calls.upTo client (depth + 2)) (.node l.document)).run l fun out l' =>
      l'.Laid ∧ l'.document = l.document ∧
        l.DocumentLeft (Calls.upTo client (depth + 2)) l' out := by
  unfold Live.detach
  refine After.ensureLive (fun hTorn => ⟨h, rfl, .tornDown hTorn⟩) fun hTorn =>
    After.needState (fun hState => absurd (stateOf_document l) hState) fun _ => ?_
  refine After.sure_bind (setState_noted l (.node l.document) .detaching).run_eq
    fun _ l₁ ⟨hRun, h₁⟩ => ?_
  have hLaid₁ := h.noted h₁
  refine After.lift_bind (fireAt_calm hClient depth hLaid₁.quiet (fun _ _ => trivial) .beforeDetach)
    fun cancelled l₂ hCancelled h₂ => ?_
  have hCancels : l.cancels (Calls.upTo client (depth + 2)) (.node l.document) .detaching
      .beforeDetach = cancelled := by
    rw [cancels, hRun, hCancelled]
  have hLaid₂ := hLaid₁.alike (Changed.alike_of_calm h₂)
  have hSame : l₂.document = l.document := h₂.document.trans h₁.document
  have hDom : l₂.dom = l.dom := h₂.dom.trans h₁.dom
  rw [← hSame]
  split
  · rename_i hCancel
    rw [after_sure]
    refine (setState_noted l₂ (.node l₂.document) .attached).mono fun _ l₃ h₃ =>
      ⟨hLaid₂.noted h₃, h₃.document, .cancelled hTorn (hCancels.trans hCancel) (h₃.dom.trans hDom)
        (fun o => ?_) fun n hn => ?_⟩
    · rw [h₃.core, h₂.core?_eq, h₁.core]
    · rw [h₃.tracked, if_neg (show n ≠ l₂.dom.key (.node l₂.document) from fun he =>
        hn (he.trans hSame)), h₂.trackedOf_eq, h₁.tracked,
        if_neg (show n ≠ l.dom.key (.node l.document) from hn)]
  · rename_i hGo
    have hGo := hCancels.trans (Bool.eq_false_iff.mpr hGo)
    refine After.get_act ?_
    refine After.sure_run (t := l₂.withDom (l₂.dom.remove l₂.document)) rfl ?_
    obtain ⟨hUnhoused, hLinked⟩ := hLaid₂.sound.unhoused_remove l₂.document
    have hLaid₃ := hLaid₂.withDom (hUnhoused.sound hLaid₂.sound (r := .node l₂.document)
      hLaid₂.plain hLinked) (hUnhoused.plain_iff.mpr hLaid₂.plain)
    have hTaken : l₂.dom.remove l₂.document = l.dom.remove l.document := by rw [hDom, hSame]
    refine After.sure_bind (setState_noted _ (.node l₂.document) .detached) fun _ l₄ h₄ => ?_
    have hLaid₄ := hLaid₃.noted h₄
    refine After.lift_bind (fireAt_calm hClient depth hLaid₄.quiet (fun _ _ => trivial)
      .afterDetach) fun _ l₅ _ h₅ => ?_
    have hLaid₅ := hLaid₄.alike (Changed.alike_of_calm h₅)
    have hSame₅ : l₅.document = l₂.document := h₅.document.trans h₄.document
    have hDom₅ : l₅.dom = l.dom.remove l.document := h₅.dom.trans (h₄.dom.trans hTaken)
    split
    · refine After.lift_bind (notifyDisconnected_changed hClient depth hLaid₅.quiet
        fun _ _ => trivial) fun _ l₆ _ h₆ => ?_
      have hLaid₆ := hLaid₅.changed h₆ hLaid₅.sound (Dom.SameParts.refl _)
        fun o x e he => by rwa [turnAll_hooks] at he
      rw [after_sure]
      exact (noteMoves_alike l₆ _).mono fun _ l₇ h₇ =>
        ⟨hLaid₆.alike h₇.1, h₇.1.document.trans (h₆.document.trans hSame₅),
          .left hTorn hGo (h₇.1.dom.trans (h₆.dom.trans hDom₅))⟩
    · rw [after_sure]
      exact (noteMoves_alike l₅ _).mono fun _ l₆ h₆ =>
        ⟨hLaid₅.alike h₆.1, h₆.1.document.trans hSame₅, .left hTorn hGo (h₆.1.dom.trans hDom₅)⟩

/-- What is detached is still there and fits where it did before. -/
theorem detach (hr : l.dom.Known r) :
    After (Live.detach (Calls.upTo client (depth + 2)) r).run l fun _ l' => l'.Laid ∧
      (l'.stateOf r = .detached → l'.dom.Known r ∧
        ∀ parent, Fits l.dom r parent → Fits l'.dom r parent) := by
  by_cases hNe : r = .node l.document
  · subst hNe
    refine (h.detach_document hClient depth).mono ?_
    rintro _ l' ⟨hLaid, hSame, -⟩
    refine ⟨hLaid, fun hState => ?_⟩
    rw [← hSame, stateOf_document] at hState
    cases hState
  refine (h.detach_takenOut hClient depth hr hNe).mono ?_
  rintro _ l' (hAlike | ⟨-, hTaken⟩)
  · rw [hAlike.dom]
    exact ⟨h.alike hAlike, fun _ => ⟨hr, fun _ hFits => hFits⟩⟩
  · refine ⟨h.takenOut hr hTaken, fun _ => ?_⟩
    obtain ⟨hUnhoused, _, hChanged, _⟩ := hTaken
    have hKnown := hUnhoused.known_iff.mpr hr
    rw [hChanged.dom]
    refine ⟨hKnown, fun parent ⟨_, hParent, hOut⟩ =>
      ⟨hKnown, hUnhoused.known_iff.mpr hParent, ?_⟩⟩
    rw [hUnhoused.key, hUnhoused.inside_iff hr]
    exact hOut

theorem destroy (hr : l.dom.Known r) :
    After (Live.destroy (Calls.upTo client (depth + 2)) r).run l fun _ l' => l'.Laid :=
  (h.destroy_destroyed hClient depth hr).mono fun _ _ hDone =>
    hDone.elim h.alike fun ⟨_, hD⟩ => h.destroyed hD

/-! ### From any state -/

theorem detachIfAttached (hr : l.dom.Known r) :
    After (Live.detachIfAttached (Calls.upTo client (depth + 2)) r).run l fun _ l' => l'.Laid := by
  refine After.get_act ?_
  split
  · exact (h.detach hClient depth hr).mono fun _ _ hDone => hDone.1
  · exact h

theorem attachAnywhere (hFits : Fits l.dom r parent) :
    After (Live.attachAnywhere (Calls.upTo client (depth + 2)) r parent before).run l
      fun _ l' => l'.Laid := by
  refine After.get_act ?_
  split
  · exact h.attach hClient depth hFits
  · split
    · refine After.act_bind (h.detach hClient depth hFits.1) ?_ fun _ _ hDone => hDone.1
      rintro _ l₁ ⟨hLaid₁, hFits₁⟩
      refine After.get_act ?_
      split
      · rename_i hState
        exact hLaid₁.attach hClient depth ((hFits₁ hState).2 parent hFits)
      · exact hLaid₁
    · exact h
  · exact h

theorem destroyFully (hr : l.dom.Known r) :
    After (Live.destroyFully (Calls.upTo client (depth + 2)) r).run l fun _ l' => l'.Laid := by
  refine After.get_act ?_
  split
  · exact h
  · exact h
  · refine After.act_bind (h.detach hClient depth hr) ?_ fun _ _ hDone => hDone.1
    rintro _ l₁ ⟨hLaid₁, hKnown₁⟩
    refine After.get_act ?_
    split
    · rename_i hState
      exact hLaid₁.destroy hClient depth (hKnown₁ hState).1
    · exact hLaid₁
  · exact h.destroy hClient depth hr

end Transitions

/-! ### Observers and the tree alone -/

theorem observe (r : NodeRef) : After (Live.observe r).run l fun _ l' => l'.Laid := by
  have hJoin : ∀ {l' : Live κ σ} {status : Connectivity}, Joined l l' r status → l'.Laid := by
    intro l' status hJoined
    refine ⟨by rw [hJoined.dom]; exact h.sound, by rw [hJoined.dom, hJoined.document]; exact h.plain,
      fun n hn => ?_, fun o _ x hx e he => ?_⟩
    · rw [hJoined.document] at hn
      rw [hJoined.tracked]
      split
      · exact h.settled n hn
      · exact h.settled n hn
    · rw [hJoined.core] at hx
      split at hx
      · obtain rfl := Option.some.inj hx
        cases he
      · exact hJoined.hook_quiet (h.quiet o trivial x hx e he)
  refine (observe_cases l r).mono ?_
  rintro _ l' (⟨_, _, rfl⟩ | ⟨_, _, _, _, hAlike, _, _⟩ | ⟨_, ⟨_, hJoined⟩ | ⟨_, _, hJoined⟩⟩)
  · exact h
  · exact h.alike hAlike
  · exact hJoin hJoined
  · exact hJoin hJoined

theorem addHook (o : ObserverId) (kind : EventKind) (k : κ) :
    After (Live.addHook o kind (.client k)) l fun _ l' => l'.Laid := by
  refine (addHook_turned l o kind (.client k)).mono ?_
  rintro number l' ⟨hTurned, _⟩
  have hTracked : ∀ n, l'.trackedOf n = l.trackedOf n := fun n => by
    simp only [trackedOf, hTurned.tracked]
  refine ⟨by rw [hTurned.dom]; exact h.sound, by rw [hTurned.dom, hTurned.document]; exact h.plain,
    fun n hn => ?_, fun p _ y hy e he => ?_⟩
  · rw [hTurned.document] at hn
    rw [hTracked]
    exact h.settled n hn
  · rw [hTurned.core] at hy
    obtain ⟨x, hx, rfl⟩ := Option.map_eq_some_iff.mp hy
    have hOld : ∀ e ∈ x.hooks, e.hook.Quiet l' := fun e he =>
      hTurned.hook_quiet (h.quiet p trivial x hx e he)
    split at he
    · unfold Observer.Core.hooked at he
      split at he
      · exact hOld e he
      · rcases List.mem_append.mp he with he | he
        · exact hOld e he
        · rw [List.mem_singleton.mp he]
          exact .of_slight trivial
    · exact hOld e he

theorem tryInDom {f : Dom → Except NotAChild Dom} (hOk : ∀ d, f l.dom = .ok d →
    d.Sound ∧ Dom.SameParts l.dom d) : After (Live.tryInDom f).run l fun _ l' =>
      l'.Laid ∧ Dom.SameParts l.dom l'.dom := by
  refine After.get_act ?_
  split
  · rename_i d hd
    obtain ⟨hSound, hParts⟩ := hOk d hd
    exact ⟨h.withDom hSound (hParts.plain_iff.mpr h.plain), hParts⟩
  · exact ⟨h, Dom.SameParts.refl _⟩

theorem insert {parent : NodeRef} {child : NodeId} {reference : Option NodeId}
    (hFits : Fits l.dom (.node child) parent) :
    After (Live.tryInDom fun d => d.insertUnder parent child reference).run l fun _ l' =>
      l'.Laid ∧ Dom.SameParts l.dom l'.dom := by
  obtain ⟨hChild, hParent, hOut⟩ := hFits
  refine h.tryInDom fun d hd => ?_
  obtain ⟨hSound, hParts, _⟩ := h.sound.insertUnder hChild hParent hOut hd
  exact ⟨hSound, hParts⟩

theorem remove {c : ContainerId} {child : NodeId} (hChild : l.dom.Known (.node child)) :
    After (Live.tryInDom fun d => d.removeFrom c child).run l fun _ l' => l'.Laid := by
  refine (h.tryInDom fun d hd => ?_).mono fun _ _ hDone => hDone.1
  obtain ⟨hUnhoused, hLinked⟩ := h.sound.unhoused_remove child
  unfold Dom.removeFrom at hd
  split at hd
  · obtain rfl := Except.ok.inj hd
    exact ⟨hUnhoused.sound h.sound hChild hLinked, hUnhoused.toSameParts⟩
  · cases hd

theorem replace {c : ContainerId} {new old : NodeId} (hFits : Fits l.dom (.node new) (.container c))
    (hOld : l.dom.Known (.node old)) :
    After (do
      Live.tryInDom fun d => d.insertInto c new (some old)
      Live.tryInDom fun d => d.removeFrom c old : Act κ σ Unit).run l fun _ l' => l'.Laid := by
  refine After.act_bind (h.insert hFits) ?_ fun _ _ hDone => hDone.1
  rintro _ l₁ ⟨hLaid₁, hParts₁⟩
  exact hLaid₁.remove (hParts₁.known_iff.mpr hOld)

/-- One proper work. -/
theorem work (hClient : client.Quiet) (depth : Nat) (w : Work κ) (hProper : w.Proper l.dom) :
    After (w.perform (Calls.upTo client (depth + 2))) l fun _ l' => l'.Laid := by
  cases w with
  | create label =>
    exact h.withDom (h.sound.create label) ((Dom.grown_create l.dom label).plain h.plain)
  | createContainer =>
    exact h.withDom h.sound.createContainer ((Dom.grown_createContainer l.dom).plain h.plain)
  | observe r => exact h.observe r
  | hook o kind k => exact h.addHook o kind k
  | attach r parent before => exact h.attach hClient depth hProper
  | detach r => exact (h.detach hClient depth hProper).mono fun _ _ hDone => hDone.1
  | destroy r => exact h.destroy hClient depth hProper
  | moveTo r parent before => exact h.moveTo hClient depth hProper
  | attachAnywhere r parent before => exact h.attachAnywhere hClient depth hProper
  | detachIfAttached r => exact h.detachIfAttached hClient depth hProper
  | destroyFully r => exact h.destroyFully hClient depth hProper
  | insert parent child reference => exact (h.insert hProper).mono fun _ _ hDone => hDone.1
  | remove c child => exact h.remove hProper.2
  | replace c new old => exact h.replace hProper.1 hProper.2

end Laid

/-! ## Runs -/

theorem create_laid (config : Config) (c : σ) : (create config c : Live κ σ).Laid := by
  have h := create_unobserved (κ := κ) config c
  refine ⟨h.sound, h.plain, fun n _ => .inl (by rw [h.tracked]), fun o _ x hx => ?_⟩
  rw [h.core?_eq_none] at hx
  cases hx

theorem Works.laid (hClient : client.Quiet) (depth : Nat)
    (h : Works (Calls.upTo client (depth + 2)) l l') (hLaid : l.Laid) : l'.Laid := by
  induction h with
  | start => exact hLaid
  | work _ w hProper ih => exact ih.work hClient depth w hProper

/-- A run of works on a fresh document keeps the rows of siblings in order. A container is either
not live, with its markers nowhere and its children in the fragment, or live, with an empty
fragment and all its children between the markers. The runs of two live containers in the same
parent have no node in common, or one stands in the span of the other. -/
theorem Works.rows (hClient : client.Quiet) (depth : Nat) {config : Config} {state : σ}
    (h : Works (Calls.upTo client (depth + 2)) (create config state) l) :
    (∀ c < l.dom.containers.size, l.dom.Whole c) ∧
    ∀ c < l.dom.containers.size, ∀ c' < l.dom.containers.size, c ≠ c' →
      (l.dom.container c).live = true → (l.dom.container c').live = true →
      l.dom.parent? (l.dom.part c .start) = l.dom.parent? (l.dom.part c' .start) →
        (∀ n ∈ l.dom.run c, n ∉ l.dom.run c') ∨ (∀ n ∈ l.dom.run c, n ∈ l.dom.span c') ∨
          ∀ n ∈ l.dom.run c', n ∈ l.dom.span c := by
  have hSound := (h.laid hClient depth (create_laid config state)).sound
  exact ⟨fun c hc => hSound.whole hc, fun c hc c' hc' hNe hLive hLive' hSame =>
    hSound.apart_or_nested hc hc' hNe hLive hLive' hSame⟩

/-- A container in the body and another one in it. -/
def nestedWorks : List (Work Unit) :=
  [.createContainer, .createContainer, .attach (.container 0) (.node 2) none,
    .attach (.container 1) (.container 0) none]

/-- A fresh document after some works. -/
def worked (ws : List (Work Unit)) : Live Unit Unit :=
  ws.foldl (fun l w => ((w.perform (Calls.upTo Client.still 2)).run l).2) (create {} ())

theorem Laid.not_inside {c : ContainerId} {n : NodeId} (h : l.Laid)
    (hOut : ∀ k ∈ l.dom.run c, k ∉ n :: l.dom.nodes.ancestors n) :
    ¬ l.dom.Inside (.container c) n :=
  h.sound.not_inside hOut

theorem nestedWorks_run : Works (Calls.upTo Client.still 2) (create {} ()) (worked nestedWorks) := by
  have h₂ : Works (Calls.upTo Client.still 2) (create {} ())
      (worked [.createContainer, .createContainer]) :=
    (Works.start.work .createContainer trivial).work .createContainer trivial
  have hLaid₂ := h₂.laid Client.still_quiet 0 (create_laid {} ())
  have hBody : (worked [.createContainer, .createContainer]).dom.Plain 2 := by decide +kernel
  have h₃ : Works (Calls.upTo Client.still 2) (create {} ())
      (worked [.createContainer, .createContainer, .attach (.container 0) (.node 2) none]) :=
    h₂.work (.attach (.container 0) (.node 2) none)
      ⟨by change 0 < _; decide +kernel, hBody, hLaid₂.not_inside (by decide +kernel)⟩
  have hLaid₃ := h₃.laid Client.still_quiet 0 (create_laid {} ())
  have hBox : (worked [.createContainer, .createContainer,
      .attach (.container 0) (.node 2) none]).dom.Known (.container 0) := by
    change 0 < _
    decide +kernel
  exact h₃.work (.attach (.container 1) (.container 0) none)
    ⟨by change 1 < _; decide +kernel, hBox, hLaid₃.not_inside (by decide +kernel)⟩

theorem nestedWorks_rows :
    let d := (worked nestedWorks).dom
    (∀ c < d.containers.size, d.Whole c) ∧
    ∀ c < d.containers.size, ∀ c' < d.containers.size, c ≠ c' →
      (d.container c).live = true → (d.container c').live = true →
      d.parent? (d.part c .start) = d.parent? (d.part c' .start) →
        (∀ n ∈ d.run c, n ∉ d.run c') ∨ (∀ n ∈ d.run c, n ∈ d.span c') ∨
          ∀ n ∈ d.run c', n ∈ d.span c :=
  Works.rows Client.still_quiet 0 nestedWorks_run

end LiveMarkup.Live
