import LiveMarkup.Proofs.Live.Lineup
import LiveMarkup.Proofs.Live.Hearing

/-!
# Transitions that nobody hinders

If the hooks of the client cancel nothing, items are put into a container that takes children, moved
in it and destroyed without fail. A move within the container tells nobody.

* `Unhindered`: items of such a container;
* `Unhindered.attach`, `Unhindered.shift`, `Unhindered.destroyFully`: the transitions of items;
* `Unhindered.attach_withHook`, `Unhindered.destroyFully_withHook`: what else would come of them if
  other hooks ran.
-/

namespace LiveMarkup.Live

variable {κ σ : Type} {client : Client κ σ} {l l₁ l' : Live κ σ} {m : Leeway κ}
variable {box : ContainerId} {rs order : List NodeRef} {r : NodeRef} {before : Option NodeRef}
variable {hook : Hook κ → Event → LiveM κ σ Bool}

/-! ## Hooks that cancel nothing -/

/-- The hooks of a client cancel nothing. -/
def Client.Consents (client : Client κ σ) : Prop :=
  ∀ calls k event l, ((client.hook calls k event).run l).1 = false

/-- The hooks of a client do not cancel an event. -/
def Client.Grants (client : Client κ σ) (event : Event) : Prop :=
  ∀ calls k l, ((client.hook calls k event).run l).1 = false

theorem Client.Consents.grants (h : client.Consents) (event : Event) : client.Grants event :=
  fun calls k l => h calls k event l

section Granting

variable {event : Event} (hGrants : client.Grants event) (depth : Nat)
include hGrants

theorem hook_grants (h : Hook κ) (l : Live κ σ) :
    (((Calls.upTo client depth).hook h event).run l).1 = false := by
  cases depth with
  | zero => rfl
  | succ depth =>
    rw [hook_upTo]
    cases h with
    | client k => exact hGrants _ k l
    | _ => rfl

theorem runHooks_grants (hooks : List (Hook κ)) (l : Live κ σ) :
    ((runHooks (Calls.upTo client depth) event hooks).run l).1 = false := by
  induction hooks generalizing l with
  | nil => rfl
  | cons h hooks ih =>
    have hAfter : After (runHooks (Calls.upTo client depth) event (h :: hooks)) l
        fun cancels _ => cancels = false := by
      rw [runHooks]
      have hFirst : After ((Calls.upTo client depth).hook h event) l fun cancels _ =>
          cancels = false := hook_grants hGrants depth h l
      refine hFirst.bind ?_
      rintro _ l₁ rfl
      exact ih l₁
    exact hAfter

end Granting

section Granting

variable {kind : EventKind} (depth : Nat)

theorem fireAt_grants (hGrants : client.Grants { kind, target := r }) (l : Live κ σ) :
    ((fireAt (Calls.upTo client depth) r kind).run l).1 = false := by
  have hAfter : After (fireAt (Calls.upTo client depth) r kind) l fun cancels _ =>
      cancels = false := by
    unfold fireAt
    rw [after_bind, after_get]
    split
    · rfl
    · exact runHooks_grants hGrants depth _ l
  exact hAfter

theorem not_cancels (hGrants : client.Grants { kind, target := r }) (state : NodeState)
    (l : Live κ σ) : l.cancels (Calls.upTo client depth) r state kind = false :=
  fireAt_grants depth hGrants _

end Granting

/-! ## Items of a container that takes children -/

/-- The observers that are found in a node or container are those of the nodes that they are found
at. -/
def Posted (l : Live κ σ) (r : NodeRef) : Prop :=
  ∀ n ∈ l.dom.subtree r, ∀ o x, (l.trackedOf n).observer = some o → l.core? o = some x →
    l.dom.Known x.target ∧ l.dom.key x.target = n

/-- Items in line, with observers that are posted, of a container that takes children. -/
structure Unhindered (l : Live κ σ) (box : ContainerId) (rs order : List NodeRef)
    (m : Leeway κ := .strict) : Prop extends Lineup l box rs order m where
  up : l.tornDown = false
  takes : (l.stateOf (.container box)).isEnding = false
  posted : ∀ r ∈ rs, l.Posted r

/-- Observers stay posted if the same is inside and they keep their targets. -/
theorem Posted.of_same (h : l.Posted r)
    (hKey : ∀ x, l.dom.Known x → l'.dom.Known x ∧ l'.dom.key x = l.dom.key x)
    (hSubtree : ∀ n ∈ l'.dom.subtree r, n ∈ l.dom.subtree r)
    (hTracked : ∀ n ∈ l'.dom.subtree r, (l'.trackedOf n).observer = (l.trackedOf n).observer)
    (hCore : ∀ o x', l'.core? o = some x' → ∃ x, l.core? o = some x ∧ x'.target = x.target) :
    l'.Posted r := by
  intro n hn o x' ho hx'
  obtain ⟨x, hx, hTarget⟩ := hCore o x' hx'
  rw [hTracked n hn] at ho
  obtain ⟨hKnown, hAt⟩ := h n (hSubtree n hn) o x ho hx
  rw [hTarget, (hKey _ hKnown).2]
  exact ⟨(hKey _ hKnown).1, hAt⟩

namespace Unhindered

/-- What is not changed in the tables stays posted. -/
theorem posted_of_changed (h : l.Unhindered box rs order m) {d' : Dom}
    {f : ObserverId → Observer.Core κ → Observer.Core κ} (hC : Changed l l' d' f m)
    (hTarget : ∀ o x, (f o x).target = x.target) (hSound : d'.Sound)
    (hParts : Dom.SameParts l.dom d')
    (hInside : ∀ r ∈ rs, ∀ m, d'.Inside r m ↔ l.dom.Inside r m) : ∀ r ∈ rs, l'.Posted r := by
  have hTree := hC.tree.relabeled
  intro r hr
  refine (h.posted r hr).of_same (fun x hx => ?_) (fun n hn => ?_) (fun n _ => by rw [hC.tracked])
    fun o x' hx' => ?_
  · exact ⟨hTree.known_iff.mpr (hParts.known_iff.mpr hx), (hTree.key x).trans (hParts.key x)⟩
  · rw [hTree.subtree] at hn
    exact (h.sound.mem_subtree_congr hSound hParts (h.shelf.known r hr) (hInside r hr) n).mp hn
  · obtain ⟨x, hx, rfl⟩ := Option.map_eq_some_iff.mp ((hC.core o).symm.trans hx')
    exact ⟨x, hx, hTarget o x⟩

theorem passed_up (h : l.Unhindered box rs order m) (hP : Passed l l' box m) :
    l'.tornDown = false ∧ (l'.stateOf (.container box)).isEnding = false :=
  ⟨hP.tornDown.trans h.up, hP.ending.trans h.takes⟩

/-! ## Making items -/

theorem spared (h : l.Unhindered box rs order m) (hS : Spared l l' m) :
    l'.Unhindered box rs order m := by
  have hP := h.toLineup.passed hS
  refine ⟨h.toLineup.spared hS, (h.passed_up hP).1, (h.passed_up hP).2, fun r hr n hn o x' ho hx' => ?_⟩
  have hKnown := h.shelf.known r hr
  have hOld := (hS.mem_subtree h.sound hKnown n).mp hn
  have hLt := h.sound.lt_size_of_inside hKnown ((h.sound.mem_subtree hKnown).mp hOld).1
  rw [hS.tracked n hLt] at ho
  obtain ⟨x, hx⟩ := Option.isSome_iff_exists.mp (h.observers n o ho)
  rw [hS.core o x hx, Option.some.injEq] at hx'
  subst hx'
  obtain ⟨hTarget, hKey⟩ := h.posted r hr n hOld o x ho hx
  exact ⟨hS.kept.known hTarget, (hS.kept.key hTarget).trans hKey⟩

theorem add (h : l.Unhindered box rs order m) (hS : Spared l l' m) (hFresh : Fresh l l' r m)
    (hPosted : l'.Posted r) : l'.Unhindered box (r :: rs) order m := by
  have h' := h.spared hS
  exact ⟨h.toLineup.add hS hFresh, h'.up, h'.takes, List.forall_mem_cons.mpr ⟨hPosted, h'.posted⟩⟩

theorem mono (h : l.Unhindered box rs order m) {rs' : List NodeRef} (hLess : ∀ r ∈ rs', r ∈ rs)
    (hOrder : ∀ r ∈ order, r ∈ rs') : l.Unhindered box rs' order m :=
  ⟨h.toLineup.mono hLess hOrder, h.up, h.takes, fun r hr => h.posted r (hLess r hr)⟩

/-! ## Transitions of items -/

section Transitions

variable (hClient : client.Quiet) (hConsents : client.Consents) (depth : Nat)
include hClient

/-- An item that is attached finds its place, and those in it are told, unless hooks cancel that. -/
theorem attaches_unless (h : l.Unhindered box rs order m) (hr : r ∈ rs) (hOut : r ∉ order)
    (hBefore : ∀ a, before = some a → a ∈ order) :
    After (Live.attach (Calls.upTo client (depth + 2)) r (.container box) before).run l fun out l' =>
      out = .ok () ∧ ((¬ client.Grants { kind := .beforeAttach, target := r } ∧ Alike l l' m) ∨
        ∃ d', l.dom.place r (.container box) before = .ok d' ∧
          Changed l l' d' ((l.withDom d').connecting r) m) := by
  have hBefore' : ∀ a, before = some a → a ∈ order ∧ a ≠ r := fun a ha =>
    ⟨hBefore a ha, fun he => hOut (he ▸ hBefore a ha)⟩
  have hState := (h.stateOf_detached_iff hr).mpr hOut
  refine (attach_outcome hClient depth (h.quiet r hr) (.inl (h.idle r hr)) (h.own hr)
    fun _ d' hPlace => ?_).mono fun out l' hOutcome => ?_
  · obtain ⟨hParts, hSound, _, hInside⟩ := h.put hr hOut hBefore' hPlace
    exact ⟨hParts.key r, fun o ho => (h.mem_observersIn hr hSound hParts hInside).mp ho⟩
  · cases hOutcome with
    | tornDown hTorn => exact absurd (h.up.symm.trans hTorn) Bool.false_ne_true
    | wrongState _ hWrong => exact absurd hState hWrong
    | noParent _ _ hEnding => exact absurd (h.takes.symm.trans hEnding) Bool.false_ne_true
    | cancelled _ _ _ hCancel hSame =>
      refine ⟨rfl, .inl ⟨fun hGrants => ?_, hSame⟩⟩
      rw [not_cancels _ hGrants] at hCancel
      cases hCancel
    | astray _ _ _ _ hPlace =>
      obtain ⟨d', hOk⟩ := h.shelf.exists_place h.sound hr hOut hBefore
      rw [hOk] at hPlace
      cases hPlace
    | attached _ _ _ _ hPlace hC => exact ⟨rfl, .inr ⟨_, hPlace, hC⟩⟩

/-- An item that is taken out leaves its place, and those in it are told, unless hooks cancel that. -/
theorem detaches_unless (h : l.Unhindered box rs order m) (hIn : r ∈ order) :
    After (Live.detach (Calls.upTo client (depth + 2)) r).run l fun out l' => out = .ok () ∧
      ((¬ client.Grants { kind := .beforeDetach, target := r } ∧ Alike l l' m) ∨
        Changed l l' (l.dom.takeOut r)
          (if l.isConnected r then (l.withDom (l.dom.takeOut r)).disconnecting r
            else fun _ => id) m) := by
  have hr := h.shelf.subset r hIn
  have hState := (h.stateOf_attached_iff hr).mpr hIn
  obtain ⟨hUnhoused, hLinked⟩ :=
    h.sound.unhoused_takeOut (h.shelf.known r hr) ((h.shelf.placed r hr).mpr hIn)
  obtain ⟨hSound, hShelf, hInside⟩ := h.shelf.unhoused h.sound hIn hUnhoused hLinked
  refine (detach_outcome hClient depth (h.quiet r hr) (.inl (h.idle r hr)) (h.other r hr) (h.own hr)
    fun _ => ⟨hUnhoused.key r, fun o ho => ?_⟩).mono fun out l₁ hOutcome => ?_
  · exact (h.mem_observersIn hr hSound hUnhoused.toSameParts hInside).mp ho
  · cases hOutcome with
    | tornDown hTorn => exact absurd (h.up.symm.trans hTorn) Bool.false_ne_true
    | wrongState _ hWrong => exact absurd hState hWrong
    | cancelled _ _ hCancel hSame =>
      refine ⟨rfl, .inl ⟨fun hGrants => ?_, hSame⟩⟩
      rw [not_cancels _ hGrants] at hCancel
      cases hCancel
    | detached _ _ _ hC => exact ⟨rfl, .inr hC⟩

include hConsents

theorem attaches (h : l.Unhindered box rs order m) (hr : r ∈ rs) (hOut : r ∉ order)
    (hBefore : ∀ a, before = some a → a ∈ order) :
    After (Live.attach (Calls.upTo client (depth + 2)) r (.container box) before).run l fun out l' =>
      out = .ok () ∧ ∃ d', l.dom.place r (.container box) before = .ok d' ∧
        Changed l l' d' ((l.withDom d').connecting r) m :=
  (h.attaches_unless hClient depth hr hOut hBefore).mono fun _ _ hPost =>
    ⟨hPost.1, hPost.2.resolve_left fun hCancel => hCancel.1 (hConsents.grants _)⟩

/-- An item is attached before another one or last. -/
theorem attach (h : l.Unhindered box rs order m) (hr : r ∈ rs) (hOut : r ∉ order)
    (hBefore : ∀ a, before = some a → a ∈ order) :
    After (attach (Calls.upTo client (depth + 2)) r (.container box) before).run l fun out l' =>
      out = .ok () ∧ Frame l l' m ∧ Passed l l' box m ∧
        l'.Unhindered box rs (Forest.splice before [r] order) m := by
  refine (h.attaches hClient hConsents depth hr hOut hBefore).mono ?_
  rintro _ l' ⟨rfl, d', hPlace, hC⟩
  obtain ⟨hParts, hSound, hShelf, hInside⟩ := h.put hr hOut
    (fun a ha => ⟨hBefore a ha, fun he => hOut (he ▸ hBefore a ha)⟩) hPlace
  have hP := hC.passed hParts box
  refine ⟨rfl, hC.toFrame, hP, ?_, (h.passed_up hP).1, (h.passed_up hP).2, ?_⟩
  · exact h.changed hC (connecting_hooks _ r) hSound hParts hShelf hInside fun _ => h.up
  · exact h.posted_of_changed hC (connecting_target _ r) hSound hParts hInside

theorem detaches (h : l.Unhindered box rs order m) (hIn : r ∈ order) :
    After (Live.detach (Calls.upTo client (depth + 2)) r).run l fun out l' => out = .ok () ∧
      Changed l l' (l.dom.takeOut r)
        (if l.isConnected r then (l.withDom (l.dom.takeOut r)).disconnecting r
          else fun _ => id) m :=
  (h.detaches_unless hClient depth hIn).mono fun _ _ hPost =>
    ⟨hPost.1, hPost.2.resolve_left fun hCancel => hCancel.1 (hConsents.grants _)⟩

/-- An item is taken out of the row. -/
theorem detach (h : l.Unhindered box rs order m) (hIn : r ∈ order) :
    After (detach (Calls.upTo client (depth + 2)) r).run l fun out l' => out = .ok () ∧
      Frame l l' m ∧ Passed l l' box m ∧ l'.Unhindered box rs (order.filter (· ≠ r)) m := by
  have hr := h.shelf.subset r hIn
  obtain ⟨hUnhoused, hLinked⟩ :=
    h.sound.unhoused_takeOut (h.shelf.known r hr) ((h.shelf.placed r hr).mpr hIn)
  obtain ⟨hSound, hShelf, hInside⟩ := h.shelf.unhoused h.sound hIn hUnhoused hLinked
  refine (h.detaches hClient hConsents depth hIn).mono ?_
  rintro _ l' ⟨rfl, hC⟩
  have hP := hC.passed hUnhoused.toSameParts box
  refine ⟨rfl, hC.toFrame, hP, ?_, (h.passed_up hP).1, (h.passed_up hP).2, ?_⟩
  · refine h.changed hC (fun o x => ?_) hSound hUnhoused.toSameParts hShelf hInside fun _ => h.up
    split
    · exact disconnecting_hooks _ r o x
    · rfl
  · refine h.posted_of_changed hC (fun o x => ?_) hSound hUnhoused.toSameParts hInside
    split
    · exact turnAll_target _ _ o x
    · rfl

omit hConsents in
theorem destroys (h : l.Unhindered box rs order m) (hr : r ∈ rs) (hOut : r ∉ order) :
    After (Live.destroy (Calls.upTo client (depth + 2)) r).run l fun out l' =>
      out = .ok () ∧ Destroyed l l' r m := by
  have hKnown := h.shelf.known r hr
  have hState := (h.stateOf_detached_iff hr).mpr hOut
  refine (destroy_outcome hClient depth (h.quiet r hr) ((h.sound.key_mem_subtree hKnown hKnown).mpr
    (Dom.inside_key r)) fun _ ho => ho).mono fun out l' hOutcome => ?_
  cases hOutcome with
  | tornDown hTorn => exact absurd (h.up.symm.trans hTorn) Bool.false_ne_true
  | wrongState _ hWrong => exact absurd hState hWrong
  | destroyed _ _ hD => exact ⟨rfl, hD⟩

omit hConsents in
/-- An item that does not stand in the row is destroyed. -/
theorem destroy (h : l.Unhindered box rs order m) (hr : r ∈ rs) (hOut : r ∉ order) :
    After (destroy (Calls.upTo client (depth + 2)) r).run l fun out l' => out = .ok () ∧
      Frame l l' m ∧ Passed l l' box m ∧ l'.stateOf r = .destroyed ∧
        l'.Unhindered box (rs.filter (· ≠ r)) order m := by
  have hKnown := h.shelf.known r hr
  refine (h.destroys hClient depth hr hOut).mono ?_
  rintro _ l' ⟨rfl, hD⟩
  obtain ⟨hP, hGone, hLineup⟩ := h.toLineup.destroyed hr hOut hD
  refine ⟨rfl, hD.toFrame, hP, hGone, hLineup, (h.passed_up hP).1, (h.passed_up hP).2,
    fun x hx => ?_⟩
  obtain ⟨hx, hNe⟩ := List.mem_filter.mp hx
  rw [decide_eq_true_iff] at hNe
  have hTree := hD.tree.relabeled
  refine (h.posted x hx).of_same (fun y hy => ⟨hTree.known_iff.mpr hy, hTree.key y⟩)
    (fun n hn => hTree.subtree x ▸ hn) (fun n hn => ?_) fun o x' hx' => ?_
  · rw [hTree.subtree] at hn
    rw [hD.tracked, if_neg]
    intro hnr
    exact h.shelf.disjoint h.sound hx hr hNe ((h.sound.mem_subtree (h.shelf.known x hx)).mp hn).1
      ((h.sound.mem_subtree hKnown).mp hnr).1
  · obtain ⟨y, hy, rfl⟩ := Option.map_eq_some_iff.mp ((hD.core o).symm.trans hx')
    refine ⟨y, hy, ?_⟩
    split
    · exact Observer.Core.ended_target y
    · rfl

/-- An item that stands in the row is destroyed. -/
theorem destroyFully (h : l.Unhindered box rs order m) (hIn : r ∈ order) :
    After (destroyFully (Calls.upTo client (depth + 2)) r).run l fun out l' =>
      out = .ok () ∧ Frame l l' m ∧ Passed l l' box m ∧ l'.stateOf r = .destroyed ∧
        l'.Unhindered box (rs.filter (· ≠ r)) (order.filter (· ≠ r)) m := by
  have hr := h.shelf.subset r hIn
  unfold Live.destroyFully
  refine After.get_act ?_
  rw [(h.stateOf_attached_iff hr).mpr hIn]
  refine After.act_bind (h.detach hClient hConsents depth hIn) ?_ ?_
  · rintro _ l₁ ⟨-, hFrame₁, hP₁, h₁⟩
    refine After.get_act ?_
    have hOut : r ∉ order.filter (· ≠ r) := by simp
    rw [if_pos ((h₁.stateOf_detached_iff hr).mpr hOut)]
    refine (h₁.destroy hClient depth hr hOut).mono ?_
    rintro out l' ⟨hOk, hFrame, hP, hGone, h'⟩
    exact ⟨hOk, hFrame₁.trans hFrame, hP₁.trans hP, hGone, h'⟩
  · rintro e l₁ ⟨hOut, -⟩
    cases hOut

end Transitions

/-! ## Moves within the container -/

theorem up_iff_of_parent {d : Dom} {n p root : NodeId} (hParent : d.parent? n = some p)
    (hNe : n ≠ root) : d.nodes.Up n root ↔ d.nodes.Up p root := by
  constructor
  · intro hUp
    rcases hUp.cases_first with hEq | ⟨q, hq, hUp⟩
    · exact absurd hEq hNe
    · rw [show d.nodes.parent? n = some p from hParent] at hq
      rwa [Option.some.inj hq]
  · exact fun hUp => (Forest.up_parent hParent).trans hUp

/-- An item that is moved within the container reaches the document as it did before. -/
theorem isConnected_moved (h : l.Unhindered box rs order m) (hIn : r ∈ order)
    (hBefore : ∀ a, before = some a → a ∈ order) {d' : Dom} {host : NodeId}
    {reference : Option NodeId}
    (hPoint : l.dom.point (.container box) before = .ok (host, reference))
    (hHoused : Dom.Housed l.dom d' r host reference) :
    (l.withDom d').isConnected r = l.isConnected r := by
  have hr := h.shelf.subset r hIn
  have hKnown := h.shelf.known r hr
  obtain ⟨host', u, v, hHost, hRow, hFlanked⟩ := h.sound.flanked_row h.shelf.box_lt
  rw [h.shelf.point_eq (Dom.Shelf.framed hHost hRow hFlanked) hBefore] at hPoint
  obtain ⟨rfl, rfl⟩ := Prod.mk.inj (Except.ok.inj hPoint)
  have hHosted := h.shelf.hosted h.sound hr hHost
  have hSound := hHoused.sound h.sound hKnown hHosted
  -- the host is the parent before and afterwards
  have hParent : l.dom.parent? (l.dom.key r) = some host' := by
    rcases h.shelf.parent_cases h.sound hHost hr (Dom.key_mem_run r) with ⟨_, hParent⟩ | ⟨hOut, _⟩
    · exact hParent
    · exact absurd hIn hOut
  have hParent' : d'.parent? (l.dom.key r) = some host' := by
    rw [hHoused.parent, if_pos (Dom.key_mem_run r)]
  have hPlaced' : d'.isPlaced r = true := by
    rw [hSound.isPlaced_iff (hHoused.known_iff.mpr hKnown), hHoused.key]
    exact ⟨host', hParent'⟩
  have hFirst : l.dom.first? r = some (l.dom.key r) :=
    Dom.Sound.first?_of_placed ((h.shelf.placed r hr).mpr hIn)
  have hFirst' : d'.first? r = some (l.dom.key r) := by
    rw [Dom.Sound.first?_of_placed hPlaced', hHoused.key]
  have hAway : ¬ l.dom.Inside r host' := fun ⟨k, hk, hUp⟩ => hHosted.away k hk hUp
  unfold isConnected
  change (d'.first? r).any (fun n => d'.nodes.root n == l.document) = _
  rw [hFirst, hFirst', Bool.eq_iff_iff]
  simp only [Option.any_some, beq_iff_eq]
  rw [hSound.linked.root_eq_iff, h.sound.linked.root_eq_iff, up_iff_of_parent hParent' (h.other r hr),
    up_iff_of_parent hParent (h.other r hr), hHoused.up_iff_of_outside hAway]
  refine and_congr_right fun hUp => ?_
  have hOut : l.document ∉ l.dom.runOf r := fun hk => hHosted.away _ hk hUp
  change d'.parent? _ = none ↔ l.dom.parent? _ = none
  rw [hHoused.parent, if_neg hOut]

/-- An item that stands in the row is moved before another one or to the end. Nobody is told: it is
the tree that changes, and where nodes were seen last. -/
theorem shift (h : l.Unhindered box rs order m) (calls : Calls κ σ) (hIn : r ∈ order)
    (hBefore : ∀ a, before = some a → a ∈ order ∧ a ≠ r) :
    After (moveTo calls r (.container box) before).run l fun out l' => out = .ok () ∧ Frame l l' m ∧
      Passed l l' box m ∧
        l'.Unhindered box rs (Forest.splice before [r] (order.filter (· ≠ r))) m ∧
        ∃ d', l.dom.move r (.container box) before = .ok d' ∧
          (l.withDom d').isConnected r = l.isConnected r ∧
          l' = ((noteMoves r).run (l.withDom d')).2 := by
  have hr := h.shelf.subset r hIn
  have hState := (h.stateOf_attached_iff hr).mpr hIn
  obtain ⟨d', host, reference, hMove, hPoint, hHoused⟩ := h.shelf.exists_move h.sound hIn hBefore
  obtain ⟨hSound, hShelf, hInside⟩ := h.shelf.housed h.sound hr hBefore hPoint hHoused
  have hSame := h.isConnected_moved hIn (fun a ha => (hBefore a ha).1) hPoint hHoused
  have hC : After (noteMoves r) (l.withDom d') fun _ l' => Changed l l' d' (fun _ => id) m := by
    refine (noteMoves_alike (l.withDom d') r m).mono fun _ l' hNoted => ?_
    have hMoved : Changed l (l.withDom d') d' (fun _ => id) m :=
      ⟨withDom_frame l (.move hMove), .refl m _, fun _ => rfl,
        fun o => by rw [core?_withDom, Option.map_id, id]⟩
    exact hMoved.then (Changed.alike_of_calm (Calm.refl _)) hNoted.1
  unfold moveTo
  refine After.ensureLive (fun hTorn => ?_) fun _ => ?_
  · exact absurd (h.up.symm.trans hTorn) Bool.false_ne_true
  refine After.needState (fun hWrong => absurd hState hWrong) fun _ => ?_
  refine After.get_act (After.tryInDom (fun cause hError => ?_) fun d₁ hMove₁ => ?_)
  · rw [hMove] at hError
    cases hError
  rw [hMove] at hMove₁
  obtain rfl := Except.ok.inj hMove₁
  refine After.get_act ?_
  dsimp only
  rw [hSame]
  rw [if_neg (by simp), if_neg (by simp), after_sure]
  refine hC.run_eq.mono ?_
  rintro _ l' ⟨hRun, hC⟩
  have hP := hC.passed hHoused.toSameParts box
  refine ⟨rfl, hC.toFrame, hP, ⟨?_, (h.passed_up hP).1, (h.passed_up hP).2, ?_⟩, d', hMove, hSame, ?_⟩
  · exact h.changed hC (fun _ _ => rfl) hSound hHoused.toSameParts hShelf hInside fun _ => h.up
  · exact h.posted_of_changed hC (fun _ _ => rfl) hSound hHoused.toSameParts hInside
  · rw [hRun]

/-! ## Other hooks -/

section Hearing

variable (hClient : client.Quiet) (depth : Nat)
include hClient

/-- Attaching an item tells nobody that it is disconnected. -/
theorem attach_withHook (h : l.Unhindered box rs order m) (hr : r ∈ rs) (hOut : r ∉ order)
    (hBefore : ∀ a, before = some a → a ∈ order)
    (hOther : ∀ x event, event.kind ≠ .disconnect →
      hook x event = (Calls.upTo client (depth + 2)).hook x event) :
    (Live.attach ((Calls.upTo client (depth + 2)).withHook hook) r (.container box) before).run.run l =
      (Live.attach (Calls.upTo client (depth + 2)) r (.container box) before).run.run l := by
  have hBefore' : ∀ a, before = some a → a ∈ order ∧ a ≠ r := fun a ha =>
    ⟨hBefore a ha, fun he => hOut (he ▸ hBefore a ha)⟩
  refine Live.attach_withHook hClient depth (h.quiet r hr) (fun o ho x hx e he hKind target _ => ?_)
    (h.own hr) fun _ d' hPlace => ?_
  · refine hOther _ _ fun hEq => ?_
    rw [show e.kind = .disconnect from hEq] at hKind
    simp at hKind
  · obtain ⟨hParts, hSound, _, hInside⟩ := h.put hr hOut hBefore' hPlace
    exact ⟨hParts.key r, fun o ho => (h.mem_observersIn hr hSound hParts hInside).mp ho⟩

/-- Destroying an item tells nobody else that it is disconnected. -/
theorem destroyFully_withHook (hConsents : client.Consents) (h : l.Unhindered box rs order m)
    (hIn : r ∈ order)
    (hOther : ∀ x event, (event.kind ≠ .disconnect ∨ l.dom.key event.target ∈ l.dom.subtree r) →
      hook x event = (Calls.upTo client (depth + 2)).hook x event) :
    (Live.destroyFully ((Calls.upTo client (depth + 2)).withHook hook) r).run.run l =
      (Live.destroyFully (Calls.upTo client (depth + 2)) r).run.run l := by
  have hr := h.shelf.subset r hIn
  have hKnown := h.shelf.known r hr
  obtain ⟨hUnhoused, hLinked⟩ := h.sound.unhoused_takeOut hKnown ((h.shelf.placed r hr).mpr hIn)
  obtain ⟨hSound, hShelf, hInside⟩ := h.shelf.unhoused h.sound hIn hUnhoused hLinked
  unfold Live.destroyFully
  refine get_bind_congr_run ?_
  rw [(h.stateOf_attached_iff hr).mpr hIn]
  refine act_bind_congr_run ?_ (h.detach hClient hConsents depth hIn) ?_
  · refine Live.detach_withHook hClient depth (h.quiet r hr) ?_ (h.own hr)
      fun _ => ⟨hUnhoused.key r, fun o ho => ?_⟩
    · -- whoever is told is in the item
      rintro o ho x hx e _ _ target hTarget
      refine hOther _ _ (.inr ?_)
      obtain ⟨n, hn, hTracked⟩ := List.mem_filterMap.mp ho
      rcases hTarget with rfl | rfl
      · rw [(h.posted r hr n hn o x hTracked hx).2]
        exact hn
      · exact (h.sound.key_mem_subtree hKnown hKnown).mpr (Dom.inside_key _)
    · exact (h.mem_observersIn hr hSound hUnhoused.toSameParts hInside).mp ho
  · rintro _ l₁ ⟨-, -, -, h₁⟩
    refine get_bind_congr_run ?_
    split
    · refine Live.destroy_withHook hClient depth (h₁.quiet r hr)
        (fun o _ x _ e _ hKind target _ => hOther _ _ (.inl fun hEq => ?_)) fun _ ho => ho
      rw [show e.kind = .disconnect from hEq] at hKind
      simp at hKind
    · rfl

end Hearing

end Unhindered

end LiveMarkup.Live
