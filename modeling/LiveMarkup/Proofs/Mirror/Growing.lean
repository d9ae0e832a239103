import LiveMarkup.Proofs.Mirror.Notifying
import LiveMarkup.Proofs.Live.Observed

/-!
# Transitions and growing

In a program no hook waits for an event that it could cancel. So attaching, detaching and moving
change the tree, tell the followers in what was moved, and do nothing else.

While something is rendered, nodes, signals and followers are made. What was there before does not
change, and a plan is extended for what is new.

* `Unasked`: no hook could cancel;
* `after_attach`, `after_detach`, `after_move`: what the transitions do;
* `attach_leads`, `detach_steady`: all followers are told and up to date in the end;
* `Maintained.extend`: an extended plan is as good;
* `Maintained.grown`: there are new nodes and containers;
* `Maintained.signalled`, `Maintained.derived`: there is one more signal;
* `Maintained.fitted`: there is one more follower.
-/

/-! ## Attaching, detaching and moving -/

namespace LiveMarkup.Live

variable {κ σ : Type} {π π₁ π' : Plan} {P P₁ P' : Pending} {l l₁ l' : Live κ σ}
variable {u w : BindingId} {s t : SignalId} {sink sink' : Sink κ} {r q parent : NodeRef}
variable {before : Option NodeRef} {d' : Dom} {client : Client κ σ} {n m : Nat}

/-! ### Nobody cancels -/

/-- No hook on a node or container waits for an event that it could cancel. -/
def Unasked (l : Live κ σ) (r : NodeRef) : Prop :=
  ∀ o, (l.trackedOf (l.dom.key r)).observer = some o → ∀ kind : EventKind,
    kind.isCancelable = true → l.hooksFor o kind = []

theorem Maintained.unasked (h : Maintained π P l)
    (hAlive : ¬ Dead P.dying l.trackedOf (l.dom.key r)) :
    l.Unasked r := by
  intro o ho kind hKind
  obtain ⟨s, sink, q, hu, hKey⟩ := h.rigs.tracked _ o ho
  have hStatus := (h.rigs.alive o s sink q hu (by rwa [hKey])).1
  refine (h.hooksFor_eq hu hStatus kind).trans ?_
  cases kind <;> cases hKind <;> cases sink <;> rfl

/-- The hooks are those that there were, whatever is noted of states meanwhile. -/
theorem Unasked.fireAt_eq (h : l.Unasked r) (l₁ : Live κ σ) (hKey : l₁.dom.key r = l.dom.key r)
    (hObservers : l₁.observers = l.observers)
    (hTracked : (l₁.trackedOf (l.dom.key r)).observer = (l.trackedOf (l.dom.key r)).observer)
    (kind : EventKind) (hKind : kind.isCancelable = true) (calls : Calls κ σ) :
    (fireAt calls r kind).run l₁ = (false, l₁) := by
  rw [fireAt_reads, hKey, hTracked]
  split
  · rfl
  · rename_i o ho
    have hNone : l₁.hooksFor o kind = [] := by
      rw [hooksFor, observer?, hObservers]
      exact h o ho kind hKind
    have hFire : (fire calls o { kind, target := r }).run l₁ =
        (runHooks calls { kind, target := r } (l₁.hooksFor o kind)).run l₁ := rfl
    rw [hFire, hNone]
    rfl

/-- The document with a note of a state. -/
def marked (l : Live κ σ) (r : NodeRef) (state : NodeState) : Live κ σ :=
  { l with
    tracked := l.tracked.set (l.dom.key r) (some { l.trackedOf (l.dom.key r) with
      state := if state.isSettled then none else some state }) }

theorem trackedOf_marked (l : Live κ σ) (r : NodeRef) (state : NodeState) (n : NodeId) :
    (l.marked r state).trackedOf n =
      if n = l.dom.key r then { l.trackedOf (l.dom.key r) with
        state := if state.isSettled then none else some state } else l.trackedOf n :=
  trackedOf_set l _ _ _

theorem observer_marked (l : Live κ σ) (r : NodeRef) (state : NodeState) (n : NodeId) :
    ((l.marked r state).trackedOf n).observer = (l.trackedOf n).observer := by
  rw [trackedOf_marked]
  split
  · rename_i hEq
    rw [hEq]
  · rfl

theorem trackedOf_marked_marked (state : NodeState) {state' : NodeState}
    (hSettled : state'.isSettled = true)
    (hNone : (l.trackedOf (l.dom.key r)).state = none)
    (hKey : d'.key r = l.dom.key r) (n : NodeId) :
    (((l.marked r state).withDom d').marked r state').trackedOf n = l.trackedOf n := by
  have hOuter := trackedOf_marked ((l.marked r state).withDom d') r state' n
  have hInner : ∀ n, ((l.marked r state).withDom d').trackedOf n = _ := trackedOf_marked l r state
  rw [show ((l.marked r state).withDom d').dom.key r = l.dom.key r from hKey, hInner, hInner,
    if_pos rfl, hSettled, if_pos rfl] at hOuter
  rw [hOuter]
  split
  · rename_i hEq
    rw [hEq, ← hNone]
  · rfl

theorem twin_of_tracked {T : Table Tracked}
    (h : ∀ n, trackedOf { l with tracked := T } n = l.trackedOf n) :
    Twin l { l with tracked := T } :=
  { Twin.refl l with tracked := h }

/-- Once a transition is over nothing is noted of it. -/
theorem twin_marked (state state' : NodeState) (hSettled : state'.isSettled = true)
    (hNone : (l.trackedOf (l.dom.key r)).state = none) (hKey : d'.key r = l.dom.key r) :
    Twin (l.withDom d') (((l.marked r state).withDom d').marked r state') :=
  twin_of_tracked (l := l.withDom d') (trackedOf_marked_marked state hSettled hNone hKey)

/-! ### Transitions -/

section Transitions

variable {calls : Calls κ σ} {Q : Live κ σ → Prop} (hTorn : l.tornDown = false)
include hTorn

omit hTorn in
/-- Whoever is told is told before the places of what was moved are noted. -/
theorem after_told {tell : LiveM κ σ Unit} {c : Prop} [Decidable c]
    (h : After (if c then tell else pure ()) l fun _ l₂ => Q l₂) :
    After (do
        if c then tell
        sure (noteMoves r) : Act κ σ Unit).run l fun out l' =>
      out = .ok () ∧ ∃ l₂, Q l₂ ∧ Twin l₂ l' := by
  split
  · rename_i hTold
    rw [if_pos hTold] at h
    refine After.sure_bind h fun _ l₂ h₂ => ?_
    exact after_sure.mpr ((noteMoves_twin l₂ r).mono fun _ _ hSame => ⟨rfl, l₂, h₂, hSame⟩)
  · rename_i hUntold
    rw [if_neg hUntold] at h
    exact after_sure.mpr ((noteMoves_twin _ r).mono fun _ _ hSame => ⟨rfl, _, h, hSame⟩)

/-- What is attached is put to its place, and told if it reaches the document there. -/
theorem after_attach (hState : l.stateOf r = .detached)
    (hNone : (l.trackedOf (l.dom.key r)).state = none)
    (hParent : (l.stateOf parent).isEnding = false) (hUnasked : l.Unasked r)
    (hPlace : l.dom.place r parent before = .ok d') (hKey : d'.key r = l.dom.key r)
    (hRest : ∀ l₁, Twin (l.withDom d') l₁ →
      After (if l₁.isConnected r then notifyConnected calls r else pure ()) l₁ fun _ l₂ => Q l₂) :
    After (attach calls r parent before).run l fun out l' =>
      out = .ok () ∧ ∃ l₂, Q l₂ ∧ Twin l₂ l' := by
  unfold attach
  refine After.ensureLive (fun hT => ?_) fun _ => ?_
  · rw [hTorn] at hT
    cases hT
  refine After.needState (fun hNot => absurd hState hNot) fun _ => ?_
  refine After.needParent (fun hEnding => ?_) fun _ => ?_
  · rw [hParent] at hEnding
    cases hEnding
  refine After.sure_run (t := l.marked r .attaching) rfl ?_
  refine After.sure_run (hUnasked.fireAt_eq (l.marked r .attaching) rfl rfl
    (observer_marked l r .attaching _) .beforeAttach rfl calls) ?_
  rw [if_neg Bool.false_ne_true]
  refine After.get_act ?_
  have hDom : (l.marked r .attaching).dom.place r parent before = .ok d' := hPlace
  rw [hDom]
  have hTwin := twin_marked .attaching .attached rfl hNone hKey
  refine After.sure_run (t := (l.marked r .attaching).withDom d') rfl ?_
  refine After.sure_run (t := ((l.marked r .attaching).withDom d').marked r .attached) rfl ?_
  refine After.sure_run (hUnasked.fireAt_eq (((l.marked r .attaching).withDom d').marked r .attached)
    hKey rfl (by rw [hTwin.tracked]; rfl) .afterAttach rfl calls) ?_
  exact After.get_act (after_told (hRest _ hTwin))

/-- What is detached is taken out, and told if it reached the document. -/
theorem after_detach (hState : l.stateOf r = .attached)
    (hNone : (l.trackedOf (l.dom.key r)).state = none) (hUnasked : l.Unasked r)
    (hKey : (l.dom.takeOut r).key r = l.dom.key r)
    (hRest : ∀ l₁, Twin (l.withDom (l.dom.takeOut r)) l₁ →
      After (if l.isConnected r then notifyDisconnected calls r else pure ()) l₁ fun _ l₂ => Q l₂) :
    After (detach calls r).run l fun out l' => out = .ok () ∧ ∃ l₂, Q l₂ ∧ Twin l₂ l' := by
  unfold detach
  refine After.ensureLive (fun hT => ?_) fun _ => ?_
  · rw [hTorn] at hT
    cases hT
  refine After.needState (fun hNot => absurd hState hNot) fun _ => ?_
  refine After.sure_run (t := l.marked r .detaching) rfl ?_
  refine After.sure_run (hUnasked.fireAt_eq (l.marked r .detaching) rfl rfl
    (observer_marked l r .detaching _) .beforeDetach rfl calls) ?_
  rw [if_neg Bool.false_ne_true]
  refine After.get_act ?_
  have hTwin := twin_marked .detaching .detached rfl hNone hKey
  refine After.sure_run (t := (l.marked r .detaching).withDom (l.dom.takeOut r)) rfl ?_
  refine After.sure_run (t := ((l.marked r .detaching).withDom (l.dom.takeOut r)).marked r
    .detached) rfl ?_
  refine After.sure_run (hUnasked.fireAt_eq
    (((l.marked r .detaching).withDom (l.dom.takeOut r)).marked r .detached) hKey rfl
    (by rw [hTwin.tracked]; rfl) .afterDetach rfl calls) ?_
  exact after_told (hRest _ hTwin)

/-- What is moved within what reaches the document, or within what does not, is told nothing. -/
theorem after_move (hState : l.stateOf r = .attached)
    (hMove : l.dom.move r parent before = .ok d')
    (hSame : (l.withDom d').isConnected r = l.isConnected r) :
    After (moveTo calls r parent before).run l fun out l' =>
      out = .ok () ∧ Twin (l.withDom d') l' := by
  unfold moveTo
  refine After.ensureLive (fun hT => ?_) fun _ => ?_
  · rw [hTorn] at hT
    cases hT
  refine After.needState (fun hNot => absurd hState hNot) fun _ => ?_
  refine After.get_act (After.tryInDom (fun cause hCause => ?_) fun d hd => ?_)
  · rw [hMove] at hCause
    cases hCause
  · cases hMove.symm.trans hd
    refine After.get_act ?_
    dsimp only
    rw [hSame]
    have hNeither : (!l.isConnected r && l.isConnected r) = false := by simp
    have hNor : (l.isConnected r && !l.isConnected r) = false := by simp
    rw [hNeither, hNor]
    exact after_sure.mpr ((noteMoves_twin _ r).mono fun _ _ hTwin => ⟨rfl, hTwin⟩)

end Transitions

/-! ### Followers -/

theorem Maintained.isConnected_iff (h : Maintained π P l) (hr : l.dom.Known r) :
    l.isConnected r = true ↔ l.dom.Below (.node l.document) r := by
  have hSound := h.rooted.sound
  rw [← hSound.up_iff_below h.rooted.plain hr, ← hSound.first_up_root_iff hr h.rooted.plain,
    isConnected, Option.any_eq_true]
  refine exists_congr fun n => and_congr_right fun _ => ?_
  rw [beq_iff_eq, hSound.linked.root_eq_iff]
  exact and_iff_left h.rooted.top

theorem Leads.twin (h : Leads π P l l₁) (hTwin : Twin l₁ l') : Leads π P l l' := by
  obtain ⟨π', hExtends, hLasts, hMaintained⟩ := h
  exact ⟨π', hExtends, hLasts.trans hTwin.steady.lasts, hTwin.maintained hMaintained⟩

theorem Twin.leads_from (hTwin : Twin l l₁) (h : Leads π P l₁ l') : Leads π P l l' := by
  obtain ⟨π', hExtends, hLasts, hMaintained⟩ := h
  refine ⟨π', ⟨fun t ht => hExtends.role t ?_, fun n hn => hExtends.cap n ?_, hExtends.values,
    hExtends.room⟩,
    hTwin.steady.lasts.trans hLasts, hMaintained⟩
  · rwa [hTwin.signals]
  · rwa [hTwin.dom]

section Followers

variable (hTorn : l.tornDown = false) (hNone : (l.trackedOf (l.dom.key r)).state = none)
variable (hUnasked : l.Unasked r)
include hTorn hNone hUnasked

/-- All followers in what is attached are told if they reach the document. -/
theorem attach_leads (hReceives : Receives (Calls.upTo client n) n)
    (hState : l.stateOf r = .detached) (hParent : (l.stateOf parent).isEnding = false)
    (hPlace : l.dom.place r parent before = .ok d') (hKey : d'.key r = l.dom.key r)
    (h : Maintained π { P with
      untold := fun w => P.untold w ∨ (d'.Below (.node l.document) r ∧
        ∃ s sink q, Keeper (l.withDom d') w s sink q ∧ d'.Below r q) } (l.withDom d'))
    (hr : d'.Known r) (hAlive : ¬ Dead P.dying l.trackedOf (d'.key r))
    (hTold : d'.Below (.node l.document) r → 3 * π.cap (d'.key r) + 2 ≤ n ∧
      ∀ w s sink q, Keeper (l.withDom d') w s sink q → d'.Below r q → P.Under π w) :
    After (attach (Calls.upTo client (n + 1)) r parent before).run l fun out l' =>
      out = .ok () ∧ Leads π P (l.withDom d') l' := by
  refine (after_attach (Q := fun l₂ => Leads π P (l.withDom d') l₂) hTorn hState hNone hParent
    hUnasked hPlace hKey fun l₁ hTwin => ?_).mono ?_
  rotate_left
  · rintro _ _ ⟨hOut, l₂, h₂, hTwin⟩
    exact ⟨hOut, h₂.twin hTwin⟩
  have h₁ := hTwin.maintained h
  have hDom : l₁.dom = d' := hTwin.dom
  have hDocument : l₁.document = l.document := hTwin.document
  have hOn := h₁.isConnected_iff (hDom ▸ hr)
  rw [hDom, hDocument] at hOn
  split
  · rename_i hConnected
    obtain ⟨hCap, hUnder⟩ := hTold (hOn.mp hConnected)
    refine (notifyConnected_leads hReceives (P := P) (π := π) ?_ (hDom ▸ hr) ?_ ?_ ?_).mono
      fun _ l₂ hLeads => hTwin.leads_from hLeads
    · refine h₁.relax (fun w hw => hw.imp_right fun hIn => ?_)
        (fun _ => id) (fun _ => id) (fun _ => id) rfl rfl rfl rfl fun _ _ => id
      obtain ⟨-, s, sink, q, hu, hBelow⟩ := hIn
      exact ⟨s, sink, q, hTwin.steady.follower_iff.mpr hu, hDom ▸ hBelow⟩
    · rw [hDom]
      rwa [Dead, hTwin.tracked]
    · intro w s sink q hu hBelow
      exact hUnder w s sink q (hTwin.steady.follower_iff.mp hu) (hDom ▸ hBelow)
    · rwa [hDom]
  · rename_i hOff
    refine hTwin.leads_from
      (Maintained.leads (h₁.relax (fun w hw => hw.elim id fun hIn => ?_)
      (fun _ => id) (fun _ => id) (fun _ => id) rfl rfl rfl rfl fun _ _ => id))
    exact absurd (hOn.mpr hIn.1) hOff

/-- All followers in what is detached are told that they do not reach the document. -/
theorem detach_steady (hState : l.stateOf r = .attached)
    (hKey : (l.dom.takeOut r).key r = l.dom.key r)
    (h : Maintained π P (l.withDom (l.dom.takeOut r)))
    (hr : (l.dom.takeOut r).Known r) (hAlive : ¬ Dead P.dying l.trackedOf (l.dom.key r))
    (hOff : (l.dom.takeOut r).isPlaced r = false) (hNe : r ≠ .node l.document) :
    After (detach (Calls.upTo client (n + 1)) r).run l fun out l' => out = .ok () ∧
      Unmoved (l.withDom (l.dom.takeOut r)) l' ∧ Maintained π P l' := by
  refine (after_detach (Q := fun l₂ => Unmoved (l.withDom (l.dom.takeOut r)) l₂ ∧ Maintained π P l₂)
    hTorn hState hNone hUnasked hKey fun l₁ hTwin => ?_).mono fun _ _ ⟨hOut, l₂, h₂, hTwin⟩ =>
      ⟨hOut, h₂.1.trans hTwin.steady, hTwin.maintained h₂.2⟩
  have h₁ := hTwin.maintained h
  have hDom : l₁.dom = l.dom.takeOut r := hTwin.dom
  split
  · refine (notifyDisconnected_unmoved h₁ (hDom ▸ hr) ?_ (hDom ▸ hOff) ?_).mono
      fun _ l₂ ⟨hSteady, h₂⟩ => ⟨hTwin.steady.trans hSteady, h₂⟩
    · rw [hDom, hKey, Dead, hTwin.tracked]
      exact hAlive
    · rw [hTwin.document]
      exact hNe
  · exact ⟨hTwin.steady, h₁⟩

end Followers

end LiveMarkup.Live

/-! ## Growing -/

namespace LiveMarkup.Live

variable {κ σ : Type} {π π' : Plan} {P : Pending} {l l' : Live κ σ}
variable {u w : BindingId} {s t : SignalId} {sink sink' : Sink κ} {r q : NodeRef}

/-! ### Plans -/

section Extend

variable (hE : π.Extends π' l)
include hE

theorem Makeable.extend {m cap : Nat} {scope : Scope} {known : String → Prop} {body : Instruction}
    (h : Makeable π l m cap scope known body) : Makeable π' l m cap scope known body :=
  ⟨h.plain, h.low, fun name s hName => by
    obtain ⟨hLt, hRest⟩ := h.signals name s hName
    rw [hE.role s hLt]
    exact ⟨hLt, hRest⟩⟩

theorem NodeFactory.Able.extend {m cap : Nat} {f : NodeFactory κ} (h : f.Able π l m cap) :
    f.Able π' l m cap := by
  obtain ⟨body, scope, hosted, rfl, hMakes⟩ := h
  exact ⟨body, scope, hosted, rfl, hMakes.extend hE⟩

theorem Sink.Able.extend {m cap : Nat} (h : sink.Able π l m cap) : sink.Able π' l m cap := by
  cases sink with
  | conditional c => exact fun x hx => (h x hx).extend hE
  | switch c =>
    exact fun x hx => ⟨fun e he => ((h x hx).1 e he).extend hE, fun f hf =>
      ((h x hx).2 f hf).extend hE⟩
  | series c =>
    intro x hx
    obtain ⟨loop, body, scope, hosted, hFactory, hMakes⟩ := h x hx
    exact ⟨loop, body, scope, hosted, hFactory, hMakes.extend hE⟩
  | projector _ => trivial
  | derived _ _ => trivial
  | client _ => trivial

theorem ItemMade.extend {factory : ItemFactory κ} {item : Series.Item}
    (h : ItemMade π l factory item) : ItemMade π' l factory item := by
  obtain ⟨loop, body, scope, hosted, index, value, v, hFactory, hFixed, hLt, hRest⟩ := h
  exact ⟨loop, body, scope, hosted, index, value, v,
    hFactory, by rwa [hE.role value hLt], hLt, hRest⟩

/-- Only what a plan says about what is there matters. -/
theorem Maintained.extend (h : Maintained π P l) : Maintained π' P l := by
  have hCap : ∀ r, l.dom.Known r → π'.cap (l.dom.key r) = π.cap (l.dom.key r) := fun r hr =>
    hE.cap _ (h.rooted.sound.key_lt_size hr)
  have hRole : ∀ (s : SignalId) (g : Signal κ), l.signals[s]? = some g → π'.role s = π.role s :=
    fun s g hg => hE.role s (Array.getElem?_eq_some_iff.mp hg).1
  have hS := h.shelves
  refine { h with
    closed := hE.values ▸ h.closed
    rooted := { h.rooted with
      edge := fun p r hp hr => by
        rw [hCap p hp, hCap r (h.rooted.sound.known_of_mem_kin hp hr)]
        exact h.rooted.edge p r hp hr }
    wires := { h.wires with
      value := fun s g hg => hE.values ▸ h.wires.value s g hg
      roles := fun s g n d f hg hIn => by
        obtain ⟨g', hg', -⟩ := h.wires.derived s g n d f hg hIn
        rw [hRole s g hg, hRole d g' hg', hE.values]
        exact h.wires.roles s g n d f hg hIn
      fixed := fun s g v hg hv => h.wires.fixed s g v hg (hRole s g hg ▸ hv) }
    rigs := { h.rigs with
      reads := fun u s sink r hu => by
        have hReads := h.rigs.reads u s sink r hu
        rw [hE.role s hReads.1, hCap r (h.rigs.known u s sink r hu)]
        exact hReads }
    shelves := { hS with
      able := fun u s sink r hu => by
        rw [hCap r (h.rigs.known u s sink r hu)]
        exact (hS.able u s sink r hu).extend hE
      known := fun u s sink r n hu hn => by
        have hKnown := hS.known u s sink r n hu hn
        rw [hCap r (h.rigs.known u s sink r hu), hCap n hKnown.1]
        exact hKnown
      item := fun u s c r x item hu hx hIn hAlive =>
        (hS.item u s c r x item hu hx hIn hAlive).extend hE
      cursor := fun u s c r x item hu hx hIn => by
        have hCursor := hS.cursor u s c r x item hu hx hIn
        rw [hE.role _ hCursor.1, hCap r (h.rigs.known u s _ r hu)]
        exact hCursor } }

end Extend

/-! ### The tree -/

section Redom

variable {d' : Dom} (hKnown : ∀ {q}, l.dom.Known q → d'.Known q)
variable (hKey : ∀ {q}, l.dom.Known q → d'.key q = l.dom.key q)

include hKnown hKey in
/-- Followers and their observers where the tree is another one. -/
theorem Rigs.redom (h : Rigs π P l)
    (hText : ∀ n, l.dom.Known (.node n) → (∃ text, l.dom.label n = .text text) →
      ∃ text, d'.label n = .text text) : Rigs π P (l.withDom d') :=
  { h with
    known := fun u s sink r hu => hKnown (h.known u s sink r hu)
    writes := fun x hx => hKnown (h.writes x hx)
    reads := fun u s sink r hu => by
      change _ ∧ _ ∧ π.cap (d'.key r) < _
      rw [hKey (h.known u s sink r hu)]
      exact h.reads u s sink r hu
    rising := fun u s sink r w t sink' q hu hw hLt => by
      change d'.key r < d'.key q
      rw [hKey (h.known u s sink r hu), hKey (h.known w t sink' q hw)]
      exact h.rising u s sink r w t sink' q hu hw hLt
    text := fun u s c n hu => hText n (h.known u s _ _ hu) (h.text u s c n hu)
    alive := fun u s sink r hu hAlive => by
      change ¬ Dead _ _ (d'.key r) at hAlive
      change _ ∧ (l.trackedOf (d'.key r)).observer = _
      rw [hKey (h.known u s sink r hu)] at hAlive ⊢
      exact h.alive u s sink r hu hAlive
    dead := fun u s sink r hu hNot hd => by
      change ¬ P.dying (d'.key r) at hNot
      change Dead _ _ (d'.key r) at hd
      rw [hKey (h.known u s sink r hu)] at hNot hd
      exact h.dead u s sink r hu hNot hd
    tracked := fun n u hn => by
      obtain ⟨s, sink, r, hu, rfl⟩ := h.tracked n u hn
      exact ⟨s, sink, r, hu, hKey (h.known u s sink r hu)⟩
    awake := fun u s sink r hu hOn => by
      change _ ∨ P.dying (d'.key r) ∨ _
      rw [hKey (h.known u s sink r hu)]
      exact h.awake u s sink r hu hOn }

include hKnown hKey in
/-- What is kept where the tree is another one with the same kin. -/
theorem Shelves.redom (hS : Shelves π P l) (hRigs : Rigs π P l)
    (hKin : ∀ {q}, l.dom.Known q → d'.kin q = l.dom.kin q)
    (hPlaced : ∀ {q}, l.dom.Known q → d'.isPlaced q = l.dom.isPlaced q)
    (hLasts : Endures (fun _ => False) l (l.withDom d')) : Shelves π P (l.withDom d') := by
  have hOut : ∀ (n : NodeRef) (m : NodeId), l.dom.Below n (.node m) → ¬ False := fun _ _ _ => id
  refine { hS with
    able := fun u s sink r hu => ?_
    known := fun u s sink r n hu hn => ?_
    placed := fun u s sink r n hu hn hOn => ?_
    shape := fun u s sink c hu hAlive => ?_
    child := fun u s c r x n hu hx hn hAlive => ?_
    arm := fun u s c r x arm n hu hx hn hAlive => ?_
    item := fun u s c r x item hu hx hIn hAlive => ?_
    cursor := fun u s c r x item hu hx hIn => ?_
    alive := fun u s sink r n hu hAlive hn => ?_
    showing := fun u s c r x hu hx => ?_ }
  all_goals have hr := hRigs.known u s _ _ hu
  · change sink.Able π (l.withDom d') u (π.cap (d'.key r))
    rw [hKey hr]
    exact (hS.able u s sink r hu).congr (.of_eq rfl rfl rfl rfl) (Nat.le_refl _)
  · obtain ⟨hn', hRest⟩ := hS.known u s sink r n hu hn
    change d'.Known n ∧ d'.key r < d'.key n ∧ π.cap (d'.key n) < π.cap (d'.key r)
    rw [hKey hr, hKey hn']
    exact ⟨hKnown hn', hRest⟩
  · change d'.isPlaced n = true at hOn
    rw [hPlaced (hS.known u s sink r n hu hn).1] at hOn
    change n ∈ d'.kin r
    rw [hKin hr]
    exact hS.placed u s sink r n hu hn hOn
  · change ¬ Dead _ _ (d'.key (.container c)) at hAlive
    change d'.kin (.container c) = _
    rw [hKey hr] at hAlive
    rw [hKin hr]
    exact hS.shape u s sink c hu hAlive
  · have hn' := (hS.known u s _ r n hu (by
      rw [Sink.stock, show l.conditionals[c]? = some x from hx, Option.bind_some, hn]
      exact List.mem_singleton_self _)).1
    change ¬ Dead _ _ (d'.key n) at hAlive
    rw [hKey hn'] at hAlive
    obtain ⟨body, scope, hosted, hFactory, hMade⟩ := hS.child u s c r x n hu hx hn hAlive
    exact ⟨body, scope, hosted, hFactory, hLasts.made (hOut n) hMade⟩
  · have hn' := (hS.known u s _ r n hu (by
      rw [Sink.stock, show l.switches[c]? = some x from hx]
      exact List.mem_map.mpr ⟨_, hn, rfl⟩)).1
    change ¬ Dead _ _ (d'.key n) at hAlive
    rw [hKey hn'] at hAlive
    obtain ⟨body, scope, hosted, hFactory, hMade⟩ := hS.arm u s c r x arm n hu hx hn hAlive
    exact ⟨body, scope, hosted, hFactory, hLasts.made (hOut n) hMade⟩
  · have hn' := (hS.known u s _ r item.node hu (by
      rw [Sink.stock, show l.series[c]? = some x from hx]
      exact List.mem_map.mpr ⟨_, hIn, rfl⟩)).1
    change ¬ Dead _ _ (d'.key item.node) at hAlive
    rw [hKey hn'] at hAlive
    exact (hS.item u s c r x item hu hx hIn hAlive).lasts hLasts (hOut _)
  · change _ ∧ _ = ({ owner := u + 1, room := π.cap (d'.key r) } : Role)
    rw [hKey hr]
    exact hS.cursor u s c r x item hu hx hIn
  · change ¬ Dead _ _ (d'.key r) at hAlive
    change ¬ Dead _ _ (d'.key n)
    rw [hKey hr] at hAlive
    rw [hKey (hS.known u s sink r n hu hn).1]
    exact hS.alive u s sink r n hu hAlive hn
  · change _ ∧ (¬ Dead _ _ (d'.key r) → _)
    rw [hKey hr]
    exact hS.showing u s c r x hu hx

end Redom

section Grown

variable {d' : Dom} (hGrown : l.dom.Sprouts d')
include hGrown

theorem lasts_grown (hSound : l.dom.Sound) : Endures (fun _ => False) l (l.withDom d') :=
  { (Endures.refl l : Endures (fun _ => False) l l) with
    known := fun _ hr => hGrown.known hr
    key := fun _ hr => hGrown.key hr
    label := fun n hn _ _ => by
      change d'.label n = l.dom.label n
      rw [Dom.label, hGrown.label n hn.lt_size]
      rfl
    kin := fun _ hn _ _ => hGrown.kin_old hSound hn
    box := fun _ hc h _ => ⟨hGrown.kin_old hSound hc, h⟩
    nodes_size := hGrown.nodes_size }

/-- There are new nodes and containers, which nothing is known of. -/
theorem Maintained.grown (h : Maintained π P l) : Maintained π P (l.withDom d') := by
  have hSound := h.rooted.sound
  have hLasts := lasts_grown hGrown hSound
  have hKey : ∀ {r}, l.dom.Known r → d'.key r = l.dom.key r := fun hr => hGrown.key hr
  have hKin : ∀ {q}, l.dom.Known q → d'.kin q = l.dom.kin q := fun hq => hGrown.kin_old hSound hq
  -- whatever has kin was there before
  have hOld : ∀ p r, d'.Known p → r ∈ d'.kin p → l.dom.Known p ∧ r ∈ l.dom.kin p := by
    intro p r hp hr
    rcases hGrown.new p hp with hpOld | ⟨-, hNone⟩
    · exact ⟨hpOld, hKin hpOld ▸ hr⟩
    · rw [hNone] at hr
      cases hr
  have hDocument := h.known_document
  refine ⟨h.running, h.closed, ⟨hGrown.sound, hGrown.plain h.rooted.plain, ?_, h.rooted.zero,
    fun p r hp hr => ?_, hGrown.marked h.rooted.marked⟩,
    ⟨h.graves.state, fun p r hp hr => ?_, fun p r hp hr => ?_, h.graves.top,
      fun n hn => h.graves.fresh n (Nat.le_trans hGrown.nodes_size hn), fun r hr hd => ?_⟩,
    h.wires, h.feeds, ?_, ?_, ?_, ⟨h.alarms.timer, h.alarms.microtask⟩⟩
  · change d'.parent? l.document = none
    rw [hGrown.parent _ h.rooted.plain.lt_size]
    exact h.rooted.top
  · obtain ⟨hpOld, hrOld⟩ := hOld p r hp hr
    change d'.key p < d'.key r ∧ π.cap (d'.key r) ≤ π.cap (d'.key p)
    rw [hKey hpOld, hKey (hSound.known_of_mem_kin hpOld hrOld)]
    exact h.rooted.edge p r hpOld hrOld
  · obtain ⟨hpOld, hrOld⟩ := hOld p r hp hr
    change Dead _ _ (d'.key r) → Dead _ _ (d'.key p)
    rw [hKey hpOld, hKey (hSound.known_of_mem_kin hpOld hrOld)]
    exact h.graves.up p r hpOld hrOld
  · obtain ⟨hpOld, hrOld⟩ := hOld p r hp hr
    change Dead _ _ (d'.key p) → Dead _ _ (d'.key r)
    rw [hKey hpOld, hKey (hSound.known_of_mem_kin hpOld hrOld)]
    exact h.graves.down p r hpOld hrOld
  · change d'.isPlaced r = true ∨ (l.trackedOf (d'.key r)).state ≠ none
    rcases hGrown.new r hr with hrOld | ⟨hNew, -⟩
    · change P.dying (d'.key r) at hd
      rw [hKey hrOld] at hd
      rw [hKey hrOld, hGrown.isPlaced hrOld]
      exact h.graves.noted r hrOld hd
    · exact absurd hd (h.graves.fresh _ hNew).2
  · exact h.rigs.redom hGrown.known hKey fun n hn ⟨text, hText⟩ => ⟨text, by
      rw [Dom.label, hGrown.label n hn.lt_size]
      exact hText⟩
  · exact h.shelves.redom hGrown.known hKey h.rigs hKin hGrown.isPlaced hLasts
  · refine ⟨fun u s sink r hu hBelow => ?_, fun u s sink r hu hOn => ?_⟩
    · exact h.upkeep.told u s sink r hu ((hGrown.below_iff hSound hDocument).mp hBelow)
    · change _ ∨ _ ∨ P.dying (d'.key r) ∨ _
      rw [hKey (h.rigs.known u s sink r hu)]
      refine (h.upkeep.current u s sink r hu hOn).imp_right (Or.imp_right (Or.imp_right
        fun hCurrent => ?_))
      cases sink with
      | projector c =>
        intro x hx
        obtain ⟨n, rfl, hn⟩ := hu.2.2
        cases (show l.projectors[c]? = some x from hx).symm.trans hn
        change d'.label n = _
        rw [Dom.label, hGrown.label n (h.rigs.known u s _ _ hu).lt_size]
        exact hCurrent _ hn
      | _ => exact hCurrent

end Grown

/-! ### Signals -/

def withSignals (l : Live κ σ) (signals : Array (Signal κ)) : Live κ σ :=
  { l with signals }

section Signals

variable {S : Array (Signal κ)}

/-- There are more signals and more watchers of them, and what there was has the value it had. -/
structure Sprung (signals signals' : Array (Signal κ)) : Prop where
  size : signals.size ≤ signals'.size
  kept : ∀ (s : SignalId) (g : Signal κ), signals[s]? = some g → ∃ g' : Signal κ,
    signals'[s]? = some g' ∧ g'.value = g.value ∧ ∀ x ∈ g.watchers, x ∈ g'.watchers

variable (hS : Sprung l.signals S)
include hS

theorem Sprung.valueOf (hs : s < l.signals.size) : (l.withSignals S).valueOf s = l.valueOf s := by
  have hg : l.signals[s]? = some l.signals[s] := Array.getElem?_eq_getElem hs
  obtain ⟨g', hg', hValue, -⟩ := hS.kept s _ hg
  rw [valueOf_eq hg, ← hValue]
  exact valueOf_eq (l := l.withSignals S) hg'

theorem Sprung.lasts : Endures (fun _ => False) l (l.withSignals S) :=
  { (Endures.refl l : Endures (fun _ => False) l l) with
    derives := fun t d f h => by
      obtain ⟨n, hn⟩ := h
      obtain ⟨g, hg, hIn⟩ := mem_watchersOf.mp hn
      obtain ⟨g', hg', -, hKept⟩ := hS.kept t g hg
      exact ⟨n, mem_watchersOf.mpr ⟨g', hg', hKept _ hIn⟩⟩
    signals_size := hS.size }

theorem Maintained.sprung (h : Maintained π P l) (hWires : Wires π P.stale P.pinned S)
    (hFeeds : Piped S l.subscriptions) : Maintained π P (l.withSignals S) := by
  have hValue : ∀ u s sink r, Keeper l u s sink r →
      (l.withSignals S).valueOf s = l.valueOf s := fun u s sink r hu =>
    hS.valueOf (h.rigs.reads u s sink r hu).1
  refine ⟨h.running, h.closed, h.rooted, h.graves, hWires, hFeeds, ?_, ?_, ?_,
    ⟨h.alarms.timer, h.alarms.microtask⟩⟩
  · exact { h.rigs with
      reads := fun u s sink r hu => by
        have hReads := h.rigs.reads u s sink r hu
        exact ⟨Nat.lt_of_lt_of_le hReads.1 hS.size, hReads.2⟩ }
  · exact h.shelves.congr rfl (fun _ => rfl) rfl rfl rfl rfl (fun _ _ _ _ hu => hu) hS.lasts
  · refine ⟨h.upkeep.told, fun u s sink r hu hOn => ?_⟩
    refine (h.upkeep.current u s sink r hu hOn).imp_right (Or.imp_right (Or.imp_right
      fun hCurrent => ?_))
    rw [hValue u s sink r hu]
    refine hCurrent.congr (.of_eq rfl rfl rfl rfl) (fun _ => rfl) fun c x hSink hx item hIn => ?_
    subst hSink
    exact hS.valueOf (h.shelves.cursor u s c r x item hu hx (List.mem_append_left _ hIn)).1

end Signals

theorem sprung_push (S : Array (Signal κ)) (g : Signal κ) : Sprung S (S.push g) where
  size := by
    rw [Array.size_push]
    exact Nat.le_succ _
  kept t g' hg' := by
    have hLt := (Array.getElem?_eq_some_iff.mp hg').1
    exact ⟨g', by rw [Array.getElem?_push_lt hLt, ← hg', Array.getElem?_eq_getElem hLt], rfl,
      fun _ => id⟩

theorem getElem?_push_cases {α : Type} {xs : Array α} {x y : α} {i : Nat}
    (h : (xs.push x)[i]? = some y) : xs[i]? = some y ∨ i = xs.size ∧ y = x := by
  rw [Array.getElem?_push] at h
  split at h
  · exact .inr ⟨‹_›, (Option.some.inj h).symm⟩
  · exact .inl h

/-- A new signal, which nothing watches. -/
theorem Maintained.signalled (h : Maintained π P l) {v : Value} (hv : π.values v)
    (hFixed : ∀ v', (π.role l.signals.size).fixed = some v' → v = v') :
    Maintained π P (l.withSignals (l.signals.push { value := v })) := by
  have hS := sprung_push l.signals { value := v }
  have hNone : l.signals[l.signals.size]? = none := Array.getElem?_eq_none (Nat.le_refl _)
  refine h.sprung hS ⟨fun s g hg => ?_, fun s g hg => ?_, fun s g n d f hg hIn => ?_,
    fun s g n d f hg hIn => ?_, fun s g v' hg hv' => ?_, fun s v' hv' => ?_⟩
    ⟨fun s g x hg hx => ?_, fun u s sink n hu => ?_⟩
  · rcases getElem?_push_cases hg with hOld | ⟨-, rfl⟩
    · exact h.wires.value s g hOld
    · exact hv
  · rcases getElem?_push_cases hg with hOld | ⟨-, rfl⟩
    · exact h.wires.numbered s g hOld
    · exact ⟨List.nodup_nil, fun _ hw => absurd hw List.not_mem_nil⟩
  · rcases getElem?_push_cases hg with hOld | ⟨-, rfl⟩
    · obtain ⟨g', hg', hRest⟩ := h.wires.derived s g n d f hOld hIn
      have hLt := (Array.getElem?_eq_some_iff.mp hg').1
      refine ⟨g', ?_, hRest⟩
      rw [Array.getElem?_push, if_neg (Nat.ne_of_lt hLt)]
      exact hg'
    · exact absurd hIn List.not_mem_nil
  · rcases getElem?_push_cases hg with hOld | ⟨-, rfl⟩
    · exact h.wires.roles s g n d f hOld hIn
    · exact absurd hIn List.not_mem_nil
  · rcases getElem?_push_cases hg with hOld | ⟨rfl, rfl⟩
    · exact h.wires.fixed s g v' hOld hv'
    · exact hFixed v' hv'
  · obtain ⟨g, hg, hEq⟩ := h.wires.pinned s v' hv'
    obtain ⟨g', hg', hValue, -⟩ := hS.kept s g hg
    exact ⟨g', hg', hValue.trans hEq⟩
  · rcases getElem?_push_cases hg with hOld | ⟨-, rfl⟩
    · exact h.feeds.watcher s g x hOld hx
    · exact absurd hx List.not_mem_nil
  · obtain ⟨g, hg, hIn⟩ := h.feeds.registered u s sink n hu
    obtain ⟨g', hg', -, hKept⟩ := hS.kept s g hg
    exact ⟨g', hg', hKept _ hIn⟩

/-- The signals after one is derived from another. -/
def branched (signals : Array (Signal κ)) (s : SignalId) (g : Signal κ) (f : Value → Value) :
    Array (Signal κ) :=
  ((signals.push { value := f g.value }).modify s fun g' =>
    { g' with
      watchers := g'.watchers ++ [⟨g.nextWatcher, .derived signals.size f⟩]
      nextWatcher := g.nextWatcher + 1 }).modify signals.size fun g' =>
        { g' with source := some (s, g.nextWatcher) }

section Branched

variable {g : Signal κ} (hs : l.signals[s]? = some g) {f : Value → Value}
include hs

theorem getElem?_branched (t : SignalId) : (branched l.signals s g f)[t]? =
    if t = l.signals.size then some { value := f g.value, source := some (s, g.nextWatcher) }
    else if t = s then some { g with
      watchers := g.watchers ++ [⟨g.nextWatcher, .derived l.signals.size f⟩]
      nextWatcher := g.nextWatcher + 1 }
    else l.signals[t]? := by
  have hLt := (Array.getElem?_eq_some_iff.mp hs).1
  rw [branched, Array.getElem?_modify, Array.getElem?_modify, Array.getElem?_push]
  by_cases hNew : t = l.signals.size
  · subst hNew
    rw [if_pos rfl, if_neg (Nat.ne_of_lt hLt), if_pos rfl, if_pos rfl]
    rfl
  · rw [if_neg fun h => hNew h.symm, if_neg hNew, if_neg hNew]
    by_cases hEq : t = s
    · subst hEq
      rw [if_pos rfl, if_pos rfl, hs]
      rfl
    · rw [if_neg fun h => hEq h.symm, if_neg hEq]

theorem derive_run : (derive s f).run l =
    (l.signals.size, l.withSignals (branched l.signals s g f)) := by
  have hLt := (Array.getElem?_eq_some_iff.mp hs).1
  let l₁ := l.withSignals (l.signals.push { value := f (l.valueOf s) })
  have hNumber : ((l₁.signal? s).map (·.nextWatcher)).getD 0 = g.nextWatcher := by
    change (((l.signals.push _)[s]?).map _).getD 0 = _
    rw [Array.getElem?_push, if_neg (Nat.ne_of_lt hLt), hs]
    rfl
  have hRun : (derive s f).run l =
      let n := ((l₁.signal? s).map (·.nextWatcher)).getD 0
      (l.signals.size, l.withSignals ((l₁.signals.modify s fun g' =>
        { g' with
          watchers := g'.watchers ++ [⟨n, .derived l.signals.size f⟩]
          nextWatcher := n + 1 }).modify l.signals.size fun g' =>
            { g' with source := some (s, n) })) := rfl
  rw [hRun, hNumber, branched, ← valueOf_eq hs]
  rfl

theorem sprung_branched : Sprung l.signals (branched l.signals s g f) where
  size := by
    rw [branched, Array.size_modify, Array.size_modify, Array.size_push]
    exact Nat.le_succ _
  kept t g' hg' := by
    have hLt := (Array.getElem?_eq_some_iff.mp hg').1
    rw [getElem?_branched hs, if_neg (Nat.ne_of_lt hLt)]
    split
    · rename_i hEq
      subst hEq
      cases hs.symm.trans hg'
      exact ⟨_, rfl, rfl, fun _ hx => List.mem_append_left _ hx⟩
    · exact ⟨g', hg', rfl, fun _ => id⟩

theorem derives_branched :
    Derives (l.withSignals (branched l.signals s g f)) s l.signals.size f := by
  have hLt := (Array.getElem?_eq_some_iff.mp hs).1
  refine ⟨g.nextWatcher, mem_watchersOf.mpr ⟨_, (getElem?_branched hs s).trans
    ((if_neg (Nat.ne_of_lt hLt)).trans (if_pos rfl)), ?_⟩⟩
  exact List.mem_append_right _ (List.mem_singleton_self _)

/-- A signal is derived from another. -/
theorem Maintained.derived (h : Maintained π P l) (hRank : (π.role s).rank ≤ 1)
    (hRole : π.role l.signals.size =
      { owner := (π.role s).owner, rank := (π.role s).rank + 1, room := (π.role s).room })
    (hf : ∀ v, π.values v → π.values (f v)) :
    Maintained π P (l.withSignals (branched l.signals s g f)) := by
  have hS := sprung_branched hs (f := f)
  have hLt := (Array.getElem?_eq_some_iff.mp hs).1
  obtain ⟨hNodup, hBound⟩ := h.wires.numbered s g hs
  -- what a signal is afterwards: the new one, the one that it is derived from, or an old one
  have hCases : ∀ (t : SignalId) (g' : Signal κ), (branched l.signals s g f)[t]? = some g' →
      (t = l.signals.size ∧ g' = { value := f g.value, source := some (s, g.nextWatcher) }) ∨
      (t = s ∧ g' = { g with
        watchers := g.watchers ++ [⟨g.nextWatcher, .derived l.signals.size f⟩]
        nextWatcher := g.nextWatcher + 1 }) ∨ (t ≠ s ∧ l.signals[t]? = some g') := by
    intro t g' hg'
    rw [getElem?_branched hs] at hg'
    split at hg'
    · exact .inl ⟨‹_›, (Option.some.inj hg').symm⟩
    · split at hg'
      · exact .inr (.inl ⟨‹_›, (Option.some.inj hg').symm⟩)
      · exact .inr (.inr ⟨‹_›, hg'⟩)
  have hKeeps : ∀ (t : SignalId) (g' : Signal κ), l.signals[t]? = some g' → ∃ g'' : Signal κ,
      (branched l.signals s g f)[t]? = some g'' ∧ g''.value = g'.value ∧ g''.source =
      g'.source := by
    intro t g' hg'
    rw [getElem?_branched hs, if_neg (Nat.ne_of_lt (Array.getElem?_eq_some_iff.mp hg').1)]
    split
    · rename_i hEq
      subst hEq
      cases hs.symm.trans hg'
      exact ⟨_, rfl, rfl, rfl⟩
    · exact ⟨g', hg', rfl, rfl⟩
  -- a derived signal is an old one or the new one
  have hDerived : ∀ (t : SignalId) (g' : Signal κ) n d f',
      (branched l.signals s g f)[t]? = some g' →
      ⟨n, .derived d f'⟩ ∈ g'.watchers → (∃ g₀ : Signal κ, l.signals[t]? = some g₀ ∧
        g₀.value = g'.value ∧ ⟨n, .derived d f'⟩ ∈ g₀.watchers) ∨
          t = s ∧ g'.value = g.value ∧ n = g.nextWatcher ∧ d = l.signals.size ∧ f' = f := by
    intro t g' n d f' hg' hIn
    rcases hCases t g' hg' with ⟨-, rfl⟩ | ⟨rfl, rfl⟩ | ⟨-, hOld⟩
    · exact absurd hIn List.not_mem_nil
    · rcases List.mem_append.mp hIn with hIn | hIn
      · exact .inl ⟨g, hs, rfl, hIn⟩
      · obtain ⟨rfl, hSink⟩ := Signal.Watcher.mk.inj (List.mem_singleton.mp hIn)
        obtain ⟨rfl, rfl⟩ := Sink.derived.inj hSink
        exact .inr ⟨rfl, rfl, rfl, rfl, rfl⟩
    · exact .inl ⟨g', hOld, rfl, hIn⟩
  refine h.sprung hS ⟨fun t g' hg' => ?_, fun t g' hg' => ?_, fun t g' n d f' hg' hIn => ?_,
    fun t g' n d f' hg' hIn => ?_, fun t g' v hg' hv => ?_, fun t v hv => ?_⟩
    ⟨fun t g' x hg' hx => ?_, fun u t sink n hu => ?_⟩
  · rcases hCases t g' hg' with ⟨-, rfl⟩ | ⟨rfl, rfl⟩ | ⟨-, hOld⟩
    · exact hf _ (h.wires.value s g hs)
    · exact h.wires.value _ g hs
    · exact h.wires.value t g' hOld
  · rcases hCases t g' hg' with ⟨-, rfl⟩ | ⟨rfl, rfl⟩ | ⟨-, hOld⟩
    · exact ⟨List.nodup_nil, fun _ hw => absurd hw List.not_mem_nil⟩
    · exact numbered_snoc _ hNodup hBound
    · exact h.wires.numbered t g' hOld
  · rcases hDerived t g' n d f' hg' hIn with ⟨g₀, hg₀, hValue, hIn₀⟩ | ⟨rfl, hValue, rfl, rfl, rfl⟩
    · obtain ⟨g₁, hg₁, hSource, hRest⟩ := h.wires.derived t g₀ n d f' hg₀ hIn₀
      obtain ⟨g₂, hg₂, hValue₂, hSource₂⟩ := hKeeps d g₁ hg₁
      refine ⟨g₂, hg₂, hSource₂.trans hSource, hRest.imp_right fun hEq => ?_⟩
      rw [hValue₂, hEq, hValue]
    · refine ⟨_, (getElem?_branched hs _).trans (if_pos rfl), rfl, .inr ?_⟩
      rw [hValue]
  · rcases hDerived t g' n d f' hg' hIn with ⟨g₀, hg₀, -, hIn₀⟩ | ⟨rfl, -, rfl, rfl, rfl⟩
    · exact h.wires.roles t g₀ n d f' hg₀ hIn₀
    · exact ⟨hRole, hRank, hf⟩
  · rcases hCases t g' hg' with ⟨rfl, rfl⟩ | ⟨rfl, rfl⟩ | ⟨-, hOld⟩
    · rw [hRole] at hv
      cases hv
    · exact h.wires.fixed _ g v hs hv
    · exact h.wires.fixed t g' v hOld hv
  · obtain ⟨g₀, hg₀, hEq⟩ := h.wires.pinned t v hv
    obtain ⟨g₂, hg₂, hValue₂, -⟩ := hKeeps t g₀ hg₀
    exact ⟨g₂, hg₂, hValue₂.trans hEq⟩
  · rcases hCases t g' hg' with ⟨-, rfl⟩ | ⟨rfl, rfl⟩ | ⟨-, hOld⟩
    · exact absurd hx List.not_mem_nil
    · rcases List.mem_append.mp hx with hx | hx
      · exact h.feeds.watcher _ g x hs hx
      · rw [List.mem_singleton.mp hx]
        exact .inl ⟨_, _, rfl⟩
    · exact h.feeds.watcher t g' x hOld hx
  · obtain ⟨g₀, hg₀, hIn⟩ := h.feeds.registered u t sink n hu
    obtain ⟨g', hg', -, hKept⟩ := hS.kept t g₀ hg₀
    exact ⟨g', hg', hKept _ hIn⟩

end Branched

end LiveMarkup.Live
