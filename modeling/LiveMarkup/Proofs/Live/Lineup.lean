import LiveMarkup.Proofs.Dom.Shelf
import LiveMarkup.Proofs.Live.Transitions
import LiveMarkup.Live.Signals

/-!
# Items in line

The items of a container stand in a row of which the order is known. A transition of one item with
quiet hooks changes the order in one place or is refused.

A factory that makes items leaves alone all that is there and makes nodes that stand nowhere. New
watchers are slight: they bring signals up to date or write values, and do nothing else. So does who
sets a cursor that only such watchers have.

* `Lineup.attach`, `Lineup.moveTo`, `Lineup.detach`, `Lineup.destroyFully`: the transitions of
  items;
* `bars`, `retains`: why an item is not put into the row, and why one is not destroyed;
* `Crafts`: what is asked of a factory;
* `Lineup.spared`, `Lineup.add`: what it leaves of the items, and the new item;
* `newSignal_spared`, `setIfChanged_tuned`: making and setting cursors.
-/

namespace LiveMarkup.Live

variable {κ σ : Type} {client : Client κ σ} {l l₁ l' : Live κ σ} {m : Leeway κ}
variable {box : ContainerId} {rs order : List NodeRef} {r x : NodeRef} {before : Option NodeRef}

/-! ## Settled states -/

theorem stateOf_destroyed_iff : l.stateOf r = .destroyed ↔
    l.dom.key r ≠ l.document ∧ (l.trackedOf (l.dom.key r)).state = some .destroyed := by
  unfold stateOf shownState
  by_cases hKey : l.dom.key r = l.document
  · simp [hKey]
  · cases (l.trackedOf (l.dom.key r)).state with
    | none =>
      rw [if_neg hKey]
      cases l.dom.isPlaced r <;> simp
    | some state => simp [hKey]

theorem isEnding_stateOf (l : Live κ σ) (r : NodeRef) : (l.stateOf r).isEnding =
    (decide (l.dom.key r ≠ l.document) &&
      (l.trackedOf (l.dom.key r)).state.any NodeState.isEnding) := by
  unfold stateOf shownState
  by_cases hKey : l.dom.key r = l.document
  · simp [hKey, NodeState.isEnding]
  · cases (l.trackedOf (l.dom.key r)).state with
    | none =>
      rw [if_neg hKey]
      cases l.dom.isPlaced r <;> simp [NodeState.isEnding]
    | some state => simp [hKey]

/-! ## What lasts -/

/-- Signals that were there are driven as before and have no new watchers but slight ones. -/
structure Widened (l l' : Live κ σ) (m : Leeway κ) : Prop where
  signals_size : l.signals.size ≤ l'.signals.size
  drives : ∀ s < l.signals.size, m.Drives l' s ↔ m.Drives l s
  slight : ∀ sink : Sink κ, sink.Slight l m → sink.Slight l' m
  watchers : ∀ s < l.signals.size, ∀ w ∈ l'.watchersOf s,
    w ∈ l.watchersOf s ∨ w.sink.Slight l' m

theorem Widened.trans (h₁ : Widened l l₁ m) (h₂ : Widened l₁ l' m) : Widened l l' m where
  signals_size := Nat.le_trans h₁.signals_size h₂.signals_size
  drives s hs := (h₂.drives s (Nat.lt_of_lt_of_le hs h₁.signals_size)).trans (h₁.drives s hs)
  slight sink h := h₂.slight sink (h₁.slight sink h)
  watchers s hs w hw := by
    rcases h₂.watchers s (Nat.lt_of_lt_of_le hs h₁.signals_size) w hw with hOld | hNew
    · exact (h₁.watchers s hs w hOld).imp_right (h₂.slight _)
    · exact .inr hNew

theorem Frame.widened (h : Frame l l' m) : Widened l l' m where
  signals_size := Nat.le_of_eq h.signals_size.symm
  drives s _ := h.drives_iff s
  slight _ := h.slight
  watchers s _ := h.newcomers s

/-- What is never undone while the items of a container are brought in line. -/
structure Passed (l l' : Live κ σ) (box : ContainerId) (m : Leeway κ := .strict) : Prop
    extends Widened l l' m where
  series : l'.series = l.series
  tornDown : l'.tornDown = l.tornDown
  known : ∀ r, l.dom.Known r → l'.dom.Known r
  destroyed : ∀ r, l.dom.Known r → l.stateOf r = .destroyed → l'.stateOf r = .destroyed
  ending : (l'.stateOf (.container box)).isEnding = (l.stateOf (.container box)).isEnding

namespace Passed

theorem refl (l : Live κ σ) (box : ContainerId) : Passed l l box m :=
  ⟨(Frame.refl l).widened, rfl, rfl, fun _ h => h, fun _ _ h => h, rfl⟩

theorem trans (h₁ : Passed l l₁ box m) (h₂ : Passed l₁ l' box m) : Passed l l' box m where
  toWidened := h₁.toWidened.trans h₂.toWidened
  series := h₂.series.trans h₁.series
  tornDown := h₂.tornDown.trans h₁.tornDown
  known r hr := h₂.known r (h₁.known r hr)
  destroyed r hr h := h₂.destroyed r (h₁.known r hr) (h₁.destroyed r hr h)
  ending := h₂.ending.trans h₁.ending

end Passed

/-- A change of the tree and of observers undoes nothing. -/
theorem Changed.passed {d : Dom} {f : ObserverId → Observer.Core κ → Observer.Core κ}
    (h : Changed l l' d f m) (hParts : Dom.SameParts l.dom d) (box : ContainerId) :
    Passed l l' box m where
  toWidened := h.toFrame.widened
  series := h.series
  tornDown := h.tornDown
  known r hr := h.tree.relabeled.known_iff.mpr (hParts.known_iff.mpr hr)
  destroyed r _ hr := by
    rw [stateOf_destroyed_iff] at hr ⊢
    rw [h.tree.relabeled.key, hParts.key, h.document, h.tracked]
    exact hr
  ending := by
    rw [isEnding_stateOf, isEnding_stateOf, h.tree.relabeled.key, hParts.key, h.document, h.tracked]

/-! ## Refusals -/

/-- Whether a node or container that is detached is not put into a container: nothing can be any
more, or a hook cancels it. -/
def bars (l : Live κ σ) (calls : Calls κ σ) (box : ContainerId) (r : NodeRef) : Bool :=
  decide (l.stateOf r = .detached) && (l.tornDown || (l.stateOf (.container box)).isEnding ||
    l.cancels calls r .attaching .beforeAttach)

/-- Whether a node or container is not destroyed: nothing can be any more, or a hook cancels that it
is detached. -/
def retains (l : Live κ σ) (calls : Calls κ σ) (r : NodeRef) : Bool :=
  l.tornDown ||
    decide (l.stateOf r = .attached) && l.cancels calls r .detaching .beforeDetach

/-! ## Items in line -/

/-- The tree is sound, the observers that are known of are there, and nothing is known of nodes
that are not. -/
structure Tabled (l : Live κ σ) : Prop where
  sound : l.dom.Sound
  observers : ∀ n o, (l.trackedOf n).observer = some o → (l.core? o).isSome
  untracked : ∀ n, l.dom.nodes.size ≤ n → l.trackedOf n = {}

/-- The tables are in order, and what follows the signals that may be driven is slight. New signals
may be driven. -/
structure Ready (l : Live κ σ) (m : Leeway κ := .strict) : Prop extends Tabled l where
  closed : l.Closed m
  ample : m.writes = true → ∀ s, l.signals.size ≤ s → m.driven s

theorem Tabled.ready (h : l.Tabled) : l.Ready :=
  ⟨h, closed_strict l, fun hWrites => absurd hWrites Bool.false_ne_true⟩

/-- The items that a container could hold and those that stand in it, in order. None of them is
the document, under way or destroyed, and the hooks of all that is in them are quiet. -/
structure Lineup (l : Live κ σ) (box : ContainerId) (rs order : List NodeRef)
    (m : Leeway κ := .strict) : Prop extends Ready l m where
  document : l.document < l.dom.nodes.size
  shelf : l.dom.Shelf box rs order
  other : ∀ r ∈ rs, l.dom.key r ≠ l.document
  idle : ∀ r ∈ rs, (l.trackedOf (l.dom.key r)).state = none
  quiet : ∀ r ∈ rs, l.QuietFor (· ∈ l.observersIn r) m
  live : order ≠ [] → l.tornDown = false

/-- The same is inside if the subtrees list the same. -/
theorem mem_observersIn_congr {l l' : Live κ σ} {r : NodeRef}
    (hSubtree : ∀ n, n ∈ l'.dom.subtree r ↔ n ∈ l.dom.subtree r)
    (hTracked : ∀ n ∈ l.dom.subtree r, (l'.trackedOf n).observer = (l.trackedOf n).observer)
    (o : ObserverId) : o ∈ l'.observersIn r ↔ o ∈ l.observersIn r := by
  simp only [observersIn, List.mem_filterMap]
  refine exists_congr fun n => ?_
  rw [hSubtree]
  exact and_congr_right fun hn => by rw [hTracked n hn]

theorem QuietFor.mono {K K' : ObserverId → Prop} (h : l.QuietFor K m) (hLess : ∀ o, K' o → K o) :
    l.QuietFor K' m :=
  fun o ho => h o (hLess o ho)

namespace Lineup

theorem stateOf_eq (h : l.Lineup box rs order m) (hr : r ∈ rs) :
    l.stateOf r = if r ∈ order then .attached else .detached := by
  rw [stateOf_of_none (h.idle r hr) (h.other r hr), shownState]
  simp only [h.shelf.placed r hr]

theorem stateOf_attached_iff (h : l.Lineup box rs order m) (hr : r ∈ rs) :
    l.stateOf r = .attached ↔ r ∈ order := by
  rw [h.stateOf_eq hr]
  split <;> simp_all

theorem stateOf_detached_iff (h : l.Lineup box rs order m) (hr : r ∈ rs) :
    l.stateOf r = .detached ↔ r ∉ order := by
  rw [h.stateOf_eq hr]
  split <;> simp_all

theorem stateOf_ne_destroyed (h : l.Lineup box rs order m) (hr : r ∈ rs) : l.stateOf r ≠ .destroyed := by
  rw [h.stateOf_eq hr]
  split <;> simp

theorem mono (h : l.Lineup box rs order m) {rs' : List NodeRef} (hLess : ∀ r ∈ rs', r ∈ rs)
    (hOrder : ∀ r ∈ order, r ∈ rs') : l.Lineup box rs' order m where
  toReady := h.toReady
  document := h.document
  shelf := h.shelf.mono hLess hOrder
  other r hr := h.other r (hLess r hr)
  idle r hr := h.idle r (hLess r hr)
  quiet r hr := h.quiet r (hLess r hr)
  live := h.live

/-- A change of the row and of statuses. -/
theorem changed {order' : List NodeRef} {d' : Dom}
    {f : ObserverId → Observer.Core κ → Observer.Core κ} (h : l.Lineup box rs order m)
    (hC : Changed l l' d' f m) (hHooks : ∀ o x, (f o x).hooks = x.hooks) (hSound : d'.Sound)
    (hParts : Dom.SameParts l.dom d') (hShelf : d'.Shelf box rs order')
    (hInside : ∀ r ∈ rs, ∀ m, d'.Inside r m ↔ l.dom.Inside r m)
    (hLive : order' ≠ [] → l.tornDown = false) : l'.Lineup box rs order' m := by
  have hTree := hC.tree.relabeled
  have hSize := hTree.nodes_size.trans hParts.nodes_size
  refine ⟨⟨⟨hTree.sound hSound, fun n o ho => ?_, fun n hn => ?_⟩, hC.closed h.closed, ?_⟩, ?_,
    hShelf.kept hSound (hTree.sound hSound) hTree.kept, fun r hr => ?_, fun r hr => ?_,
    fun r hr => ?_, fun hNe => ?_⟩
  · rw [hC.tracked] at ho
    rw [hC.core, Option.isSome_map]
    exact h.observers n o ho
  · rw [hSize] at hn
    rw [hC.tracked]
    exact h.untracked n hn
  · rw [hC.signals_size]
    exact h.ample
  · rw [hC.document, hSize]
    exact h.document
  · rw [hTree.key, hParts.key, hC.document]
    exact h.other r hr
  · rw [hTree.key, hParts.key, hC.tracked]
    exact h.idle r hr
  · refine (hC.quietFor (h.quiet r hr) fun o x e he => hHooks o x ▸ he).mono fun o ho => ?_
    refine (mem_observersIn_congr (fun n => ?_) (fun n _ => by rw [hC.tracked]) o).mp ho
    rw [hTree.subtree]
    exact h.sound.mem_subtree_congr hSound hParts (h.shelf.known r hr) (hInside r hr) n
  · rw [hC.tornDown]
    exact hLive hNe

/-- The observers in an item do not depend on where the items stand. -/
theorem mem_observersIn {d' : Dom} (h : l.Lineup box rs order m) (hr : r ∈ rs) (hSound : d'.Sound)
    (hParts : Dom.SameParts l.dom d') (hInside : ∀ r ∈ rs, ∀ m, d'.Inside r m ↔ l.dom.Inside r m)
    {o : ObserverId} : o ∈ (l.withDom d').observersIn r ↔ o ∈ l.observersIn r := by
  refine mem_observersIn_congr (fun n => ?_) (fun _ _ => ?_) o
  · exact h.sound.mem_subtree_congr hSound hParts (h.shelf.known r hr) (hInside r hr) n
  · rfl

theorem alike (h : l.Lineup box rs order m) (hAlike : Alike l l' m) : l'.Lineup box rs order m :=
  h.changed hAlike (fun _ _ => rfl) h.sound (Dom.SameParts.refl _) h.shelf
    (fun _ _ _ => Iff.rfl) h.live

theorem own (h : l.Lineup box rs order m) (hr : r ∈ rs) :
    ∀ o, (l.trackedOf (l.dom.key r)).observer = some o → o ∈ l.observersIn r := by
  intro o ho
  have hKnown := h.shelf.known r hr
  exact List.mem_filterMap.mpr
    ⟨_, (h.sound.key_mem_subtree hKnown hKnown).mpr (Dom.inside_key r), ho⟩

/-- Where an item stands that was put before another one or last. -/
theorem put (h : l.Lineup box rs order m) (hr : r ∈ rs) (hOut : r ∉ order)
    (hBefore : ∀ a, before = some a → a ∈ order ∧ a ≠ r) {d' : Dom}
    (hPlace : l.dom.place r (.container box) before = .ok d') :
    Dom.SameParts l.dom d' ∧ d'.Sound ∧ d'.Shelf box rs (Forest.splice before [r] order) ∧
      ∀ x ∈ rs, ∀ m, d'.Inside x m ↔ l.dom.Inside x m := by
  have hOff : l.dom.isPlaced r = false := Bool.eq_false_iff.mpr (mt (h.shelf.placed r hr).mp hOut)
  obtain ⟨host, reference, hPoint, hHost, hHoused⟩ := h.sound.housed_of_place (h.shelf.known r hr)
    h.shelf.known_box (h.shelf.ne_box hr) (h.shelf.away r hr) hOff hPlace
  obtain ⟨hSound, hShelf, hInside⟩ := h.shelf.housed h.sound hr hBefore hPoint hHoused
  rw [List.filter_eq_self.mpr] at hShelf
  · exact ⟨hHoused.toSameParts, hSound, hShelf, hInside⟩
  · intro x hx
    have hNe : x ≠ r := fun he => hOut (he ▸ hx)
    simpa using hNe

/-! ## Transitions of items -/

variable (hClient : client.Quiet) (depth : Nat)
include hClient

/-- An item is attached before another one or last, unless that is barred. Then nothing changes. -/
theorem attach (h : l.Lineup box rs order m) (hr : r ∈ rs)
    (hBefore : ∀ a, before = some a → a ∈ order ∧ a ≠ r) :
    After (attach (Calls.upTo client (depth + 2)) r (.container box) before).run l fun _ l' =>
      Frame l l' m ∧ Passed l l' box m ∧
        ((l'.Lineup box rs order m ∧
            (r ∈ order ∨ l.bars (Calls.upTo client (depth + 2)) box r = true)) ∨
          r ∉ order ∧ l.bars (Calls.upTo client (depth + 2)) box r = false ∧
            l'.Lineup box rs (Forest.splice before [r] order) m) := by
  have hPut : l.stateOf r = .detached → ∀ d', l.dom.place r (.container box) before = .ok d' →
      r ∉ order ∧ Dom.SameParts l.dom d' ∧ d'.Sound ∧
        d'.Shelf box rs (Forest.splice before [r] order) ∧
        ∀ x ∈ rs, ∀ m, d'.Inside x m ↔ l.dom.Inside x m := fun hState d' hPlace =>
    ⟨(h.stateOf_detached_iff hr).mp hState,
      h.put hr ((h.stateOf_detached_iff hr).mp hState) hBefore hPlace⟩
  refine (attach_outcome hClient depth (h.quiet r hr) (.inl (h.idle r hr)) (h.own hr)
    fun hState d' hPlace => ?_).mono ?_
  · obtain ⟨_, hParts, hSound, _, hInside⟩ := hPut hState d' hPlace
    exact ⟨hParts.key r, fun o ho => (h.mem_observersIn hr hSound hParts hInside).mp ho⟩
  · intro out l' hOut
    -- if nothing changes the row stays what it is
    have hStays (hSame : Alike l l' m)
        (hWhy : r ∈ order ∨ l.bars (Calls.upTo client (depth + 2)) box r = true) :
        Frame l l' m ∧ Passed l l' box m ∧ ((l'.Lineup box rs order m ∧
            (r ∈ order ∨ l.bars (Calls.upTo client (depth + 2)) box r = true)) ∨
          r ∉ order ∧ l.bars (Calls.upTo client (depth + 2)) box r = false ∧
            l'.Lineup box rs (Forest.splice before [r] order) m) :=
      ⟨hSame.toFrame, hSame.passed (Dom.SameParts.refl _) box, .inl ⟨h.alike hSame, hWhy⟩⟩
    have hBars (hNo : (l.tornDown || (l.stateOf (.container box)).isEnding ||
        l.cancels (Calls.upTo client (depth + 2)) r .attaching .beforeAttach) = true) :
        r ∈ order ∨ l.bars (Calls.upTo client (depth + 2)) box r = true := by
      refine Decidable.or_iff_not_imp_left.mpr fun hNot => ?_
      rw [bars, (h.stateOf_detached_iff hr).mpr hNot, hNo]
      rfl
    cases hOut with
    | tornDown hTorn hSame => exact hStays hSame (hBars (by simp [hTorn]))
    | wrongState _ hState hSame =>
      exact hStays hSame (.inl (Decidable.not_not.mp (mt (h.stateOf_detached_iff hr).mpr hState)))
    | noParent _ _ hEnding hSame => exact hStays hSame (hBars (by simp [hEnding]))
    | cancelled _ _ _ hCancel hSame => exact hStays hSame (hBars (by simp [hCancel]))
    | astray _ hState _ _ hPlace hSame =>
      obtain ⟨d', hOk⟩ := h.shelf.exists_place h.sound hr ((h.stateOf_detached_iff hr).mp hState)
        fun a ha => (hBefore a ha).1
      rw [hOk] at hPlace
      cases hPlace
    | attached hTorn hState hParent hCancel hPlace hC =>
      obtain ⟨hOut, hParts, hSound, hShelf, hInside⟩ := hPut hState _ hPlace
      refine ⟨hC.toFrame, hC.passed hParts box, .inr ⟨hOut, by simp [bars, hTorn, hParent, hCancel], ?_⟩⟩
      exact h.changed hC (connecting_hooks _ r) hSound hParts hShelf hInside fun _ => hTorn

/-- An item that stands in the row is moved before another one or to the end. -/
theorem moveTo (h : l.Lineup box rs order m) (hIn : r ∈ order)
    (hBefore : ∀ a, before = some a → a ∈ order ∧ a ≠ r) :
    After (moveTo (Calls.upTo client (depth + 2)) r (.container box) before).run l fun _ l' =>
      Frame l l' m ∧ Passed l l' box m ∧
        l'.Lineup box rs (Forest.splice before [r] (order.filter (· ≠ r))) m := by
  have hr := h.shelf.subset r hIn
  have hKnown := h.shelf.known r hr
  have hTorn := h.live (List.ne_nil_of_mem hIn)
  obtain ⟨d', host, reference, hMove, hPoint, hHoused⟩ := h.shelf.exists_move h.sound hIn hBefore
  obtain ⟨hSound, hShelf, hInside⟩ := h.shelf.housed h.sound hr hBefore hPoint hHoused
  refine ((moveTo_outcome hClient depth (h.quiet r hr) fun _ d₁ hMove₁ o ho => ?_).mono
    fun _ _ h => h.changed).mono ?_
  · rw [hMove] at hMove₁
    obtain rfl := Except.ok.inj hMove₁
    exact (h.mem_observersIn hr hSound hHoused.toSameParts hInside).mp ho
  · rintro out l' (⟨hAlike, hRefused⟩ | ⟨d₁, hMove₁, -, -, hC⟩)
    · rcases hRefused with hTorn' | hState | ⟨cause, hError⟩
      · rw [hTorn] at hTorn'
        cases hTorn'
      · exact absurd ((h.stateOf_attached_iff hr).mpr hIn) hState
      · rw [hMove] at hError
        cases hError
    · rw [hMove] at hMove₁
      obtain rfl := Except.ok.inj hMove₁
      refine ⟨hC.toFrame, hC.passed hHoused.toSameParts box, ?_⟩
      exact h.changed hC (moving_hooks l d' r) hSound hHoused.toSameParts hShelf hInside
        fun _ => hTorn

/-- An item is taken out of the row, unless a hook cancels that. Then nothing changes. -/
theorem detach (h : l.Lineup box rs order m) (hIn : r ∈ order) :
    After (detach (Calls.upTo client (depth + 2)) r).run l fun out l' =>
      out = .ok () ∧ Frame l l' m ∧ Passed l l' box m ∧
        ((l'.Lineup box rs order m ∧ l.retains (Calls.upTo client (depth + 2)) r = true) ∨
          l.retains (Calls.upTo client (depth + 2)) r = false ∧
            l'.Lineup box rs (order.filter (· ≠ r)) m) := by
  have hr := h.shelf.subset r hIn
  have hKnown := h.shelf.known r hr
  have hTorn := h.live (List.ne_nil_of_mem hIn)
  have hAttached := (h.stateOf_attached_iff hr).mpr hIn
  obtain ⟨hUnhoused, hLinked⟩ := h.sound.unhoused_takeOut hKnown ((h.shelf.placed r hr).mpr hIn)
  obtain ⟨hSound, hShelf, hInside⟩ := h.shelf.unhoused h.sound hIn hUnhoused hLinked
  refine (detach_outcome hClient depth (h.quiet r hr) (.inl (h.idle r hr)) (h.other r hr) (h.own hr)
    fun _ => ⟨hUnhoused.key r, fun o ho => ?_⟩).mono ?_
  · exact (h.mem_observersIn hr hSound hUnhoused.toSameParts hInside).mp ho
  · intro out l' hOut
    cases hOut with
    | tornDown hTorn' => rw [hTorn] at hTorn'; cases hTorn'
    | wrongState _ hState => exact absurd hAttached hState
    | cancelled _ _ hCancel hSame =>
      exact ⟨rfl, hSame.toFrame, hSame.passed (Dom.SameParts.refl _) box,
        .inl ⟨h.alike hSame, by simp [retains, hAttached, hCancel]⟩⟩
    | detached _ _ hCancel hC =>
      refine ⟨rfl, hC.toFrame, hC.passed hUnhoused.toSameParts box,
        .inr ⟨by simp [retains, hTorn, hCancel], ?_⟩⟩
      refine h.changed hC (fun o x => ?_) hSound hUnhoused.toSameParts hShelf hInside fun _ => hTorn
      split
      · exact disconnecting_hooks _ r o x
      · rfl

omit hClient in
theorem destroyed (h : l.Lineup box rs order m) (hr : r ∈ rs) (hOut : r ∉ order)
    (hD : Destroyed l l' r m) : Passed l l' box m ∧ l'.stateOf r = .destroyed ∧
      l'.Lineup box (rs.filter (· ≠ r)) order m := by
  have hTree := hD.tree.relabeled
  have hKnown := h.shelf.known r hr
  have hSubtree : ∀ x ∈ rs, x ≠ r → ∀ n ∈ l.dom.subtree x, n ∉ l.dom.subtree r := by
    intro x hx hxr n hn hnr
    exact h.shelf.disjoint h.sound hx hr hxr
      ((h.sound.mem_subtree (h.shelf.known x hx)).mp hn).1 ((h.sound.mem_subtree hKnown).mp hnr).1
  have hKeyIn : ∀ x ∈ rs, l.dom.key x ∈ l.dom.subtree x := fun x hx =>
    (h.sound.key_mem_subtree (h.shelf.known x hx) (h.shelf.known x hx)).mpr (Dom.inside_key x)
  have hBox : l.dom.key (.container box) ∉ l.dom.subtree r := fun hMem =>
    h.shelf.away r hr ((h.sound.mem_subtree hKnown).mp hMem).1
  have hSize := hTree.nodes_size
  refine ⟨⟨hD.toFrame.widened, hD.series, hD.tornDown, fun x hx => hTree.known_iff.mpr hx,
    fun x _ hx => ?_, ?_⟩, ?_, ?_⟩
  · rw [stateOf_destroyed_iff] at hx ⊢
    rw [hTree.key, hD.document, hD.tracked]
    refine ⟨hx.1, ?_⟩
    split
    · rfl
    · exact hx.2
  · rw [isEnding_stateOf, isEnding_stateOf, hTree.key, hD.document, hD.tracked, if_neg hBox]
  · rw [stateOf_destroyed_iff, hTree.key, hD.document, hD.tracked, if_pos (hKeyIn r hr)]
    exact ⟨h.other r hr, rfl⟩
  · have hLeft : ∀ x ∈ rs.filter (· ≠ r), x ∈ rs ∧ x ≠ r := fun x hx => by simpa using hx
    refine ⟨⟨⟨hTree.sound h.sound, fun n o ho => ?_, fun n hn => ?_⟩, hD.closed h.closed, ?_⟩,
      by rw [hSize, hD.document]; exact h.document, ?_, fun x hx => ?_, fun x hx => ?_,
      fun x hx => ?_, ?_⟩
    · rw [hD.tracked] at ho
      split at ho
      · cases ho
      · rw [hD.core, Option.isSome_map]
        exact h.observers n o ho
    · rw [hSize] at hn
      have hOut : n ∉ l.dom.subtree r := fun hIn =>
        Nat.not_lt.mpr hn (h.sound.lt_size_of_inside hKnown ((h.sound.mem_subtree hKnown).mp hIn).1)
      rw [hD.tracked, if_neg hOut]
      exact h.untracked n hn
    · rw [hD.signals_size]
      exact h.ample
    · refine (h.shelf.kept h.sound (hTree.sound h.sound) hTree.kept).mono
        (fun x hx => (hLeft x hx).1) fun x hx => ?_
      have hNe : x ≠ r := fun he => hOut (he ▸ hx)
      exact List.mem_filter.mpr ⟨h.shelf.subset x hx, by simpa using hNe⟩
    · rw [hTree.key, hD.document]
      exact h.other x (hLeft x hx).1
    · rw [hTree.key, hD.tracked,
        if_neg (hSubtree x (hLeft x hx).1 (hLeft x hx).2 _ (hKeyIn x (hLeft x hx).1))]
      exact h.idle x (hLeft x hx).1
    · obtain ⟨hx, hxr⟩ := hLeft x hx
      have hIn : ∀ o, o ∈ l'.observersIn x ↔ o ∈ l.observersIn x := fun o =>
        mem_observersIn_congr (fun n => by rw [hTree.subtree])
          (fun n hn => by rw [hD.tracked, if_neg (hSubtree x hx hxr n hn)]) o
      refine QuietFor.mono ?_ fun o ho => (hIn o).mp ho
      refine (h.quiet x hx).of_core hD.toFrame fun o y' hy' => ?_
      obtain ⟨y, hy, rfl⟩ := Option.map_eq_some_iff.mp ((hD.core o).symm.trans hy')
      refine ⟨y, hy, fun e he => ?_⟩
      split at he
      · exact Observer.Core.mem_of_mem_ended he
      · exact he
    · rw [hD.tornDown]
      exact h.live

/-- What destroying does to an item that does not stand in the row. -/
theorem destroy (h : l.Lineup box rs order m) (hr : r ∈ rs) (hOut : r ∉ order) :
    After (destroy (Calls.upTo client (depth + 2)) r).run l fun _ l' =>
      Frame l l' m ∧ Passed l l' box m ∧ ((l'.Lineup box rs order m ∧ l.tornDown = true) ∨
        l.tornDown = false ∧ l'.stateOf r = .destroyed ∧
          l'.Lineup box (rs.filter (· ≠ r)) order m) := by
  have hKnown := h.shelf.known r hr
  refine (destroy_outcome hClient depth (h.quiet r hr)
    ((h.sound.key_mem_subtree hKnown hKnown).mpr (Dom.inside_key r)) fun _ ho => ho).mono ?_
  intro out l' hDone
  cases hDone with
  | tornDown hTorn hSame =>
    exact ⟨hSame.toFrame, hSame.passed (Dom.SameParts.refl _) box, .inl ⟨h.alike hSame, hTorn⟩⟩
  | wrongState _ hState => exact absurd ((h.stateOf_detached_iff hr).mpr hOut) hState
  | destroyed hTorn _ hD =>
    obtain ⟨hPassed, hState, hLineup⟩ := h.destroyed hr hOut hD
    exact ⟨hD.toFrame, hPassed, .inr ⟨hTorn, hState, hLineup⟩⟩

/-- An item is destroyed, unless it is retained. Then it stays what it is. -/
theorem destroyFully (h : l.Lineup box rs order m) (hr : r ∈ rs) :
    After (destroyFully (Calls.upTo client (depth + 2)) r).run l fun _ l' =>
      Frame l l' m ∧ Passed l l' box m ∧
        ((l'.Lineup box rs order m ∧ l.retains (Calls.upTo client (depth + 2)) r = true) ∨
          l.retains (Calls.upTo client (depth + 2)) r = false ∧ l'.stateOf r = .destroyed ∧
            l'.Lineup box (rs.filter (· ≠ r)) (order.filter (· ≠ r)) m) := by
  unfold Live.destroyFully
  refine After.get_act ?_
  by_cases hIn : r ∈ order
  · have hTorn := h.live (List.ne_nil_of_mem hIn)
    rw [(h.stateOf_attached_iff hr).mpr hIn]
    refine After.act_bind (h.detach hClient depth hIn) ?_ ?_
    · rintro _ l₁ ⟨-, hFrame₁, hPassed₁, ⟨hLineup, hRetains⟩ | ⟨hGo, hLineup⟩⟩
      · refine After.get_act ?_
        rw [if_neg fun hState => (hLineup.stateOf_detached_iff hr).mp hState hIn]
        exact ⟨hFrame₁, hPassed₁, .inl ⟨hLineup, hRetains⟩⟩
      · refine After.get_act ?_
        have hOut : r ∉ order.filter (· ≠ r) := by simp
        rw [if_pos ((hLineup.stateOf_detached_iff hr).mpr hOut)]
        refine (hLineup.destroy hClient depth hr hOut).mono ?_
        rintro _ l₂ ⟨hFrame₂, hPassed₂, hCase⟩
        refine ⟨hFrame₁.trans hFrame₂, hPassed₁.trans hPassed₂, ?_⟩
        rcases hCase with ⟨_, hTorn'⟩ | ⟨-, hDone⟩
        · rw [hPassed₁.tornDown, hTorn] at hTorn'
          cases hTorn'
        · exact .inr ⟨hGo, hDone⟩
    · rintro e l₁ ⟨hOk, -⟩
      cases hOk
  · rw [(h.stateOf_detached_iff hr).mpr hIn]
    have hSame : order.filter (· ≠ r) = order := List.filter_eq_self.mpr fun x hx => by
      have hNe : x ≠ r := fun he => hIn (he ▸ hx)
      simpa using hNe
    have hRetains : l.retains (Calls.upTo client (depth + 2)) r = l.tornDown := by
      simp [retains, (h.stateOf_detached_iff hr).mpr hIn]
    rw [hSame, hRetains]
    exact h.destroy hClient depth hr hIn

end Lineup

/-! ## New items -/

/-- All that was there is where it was, and signals that are not driven stay so. New watchers are
slight. -/
structure Spared (l l' : Live κ σ) (m : Leeway κ := .strict) : Prop
    extends Ready l' m, Widened l l' m where
  series : l'.series = l.series
  document : l'.document = l.document
  tornDown : l'.tornDown = l.tornDown
  kept : Dom.Kept l.dom l'.dom
  tracked : ∀ n < l.dom.nodes.size, l'.trackedOf n = l.trackedOf n
  core : ∀ o x, l.core? o = some x → l'.core? o = some x
  quiet : ∀ hook : Hook κ, hook.Quiet l m → hook.Quiet l' m

/-- A node or container that was made and is detached. The hooks of all that is in it are quiet. -/
structure Fresh (l l' : Live κ σ) (r : NodeRef) (m : Leeway κ := .strict) : Prop where
  known : l'.dom.Known r
  loose : l'.dom.isPlaced r = false
  new : ∀ k ∈ l'.dom.runOf r, l.dom.nodes.size ≤ k
  idle : (l'.trackedOf (l'.dom.key r)).state = none
  quiet : l'.QuietFor (· ∈ l'.observersIn r) m

/-- A factory fails or makes a new item, and leaves alone all that is there. -/
def Crafts (calls : Calls κ σ) (factory : ItemFactory κ) (m : Leeway κ := .strict) : Prop :=
  ∀ l value cursor, l.Ready m → l.document < l.dom.nodes.size → cursor < l.signals.size →
    ¬ m.Drives l cursor → After (calls.buildItem factory value cursor).run l fun out l' =>
      Spared l l' m ∧ (∀ s < l.signals.size, ¬ m.Drives l s → l'.valueOf s = l.valueOf s) ∧
        ∀ r, out = .ok r → Fresh l l' r m

/-- Hooks stay quiet if subscriptions and bindings are what they were. -/
theorem Sturdy.hook_quiet (h : Sturdy l l') (hClosed : l.Closed m → l'.Closed m)
    (hSubscriptions : l'.subscriptions = l.subscriptions) (hBindings : l'.bindings = l.bindings)
    {hook : Hook κ} (hQuiet : hook.Quiet l m) : hook.Quiet l' m := by
  refine ⟨?_, hQuiet.apart⟩
  have hSlight := hQuiet.slight
  cases hook with
  | switchOn b =>
    intro x hx feed hFeed
    simp only [binding?, hBindings] at hx
    simp only [feed?, subscription?, hSubscriptions] at hFeed
    have hOf := hSlight x hx feed hFeed
    cases feed with
    | signal s sink => exact ⟨h.slight hOf.1, hClosed hOf.2⟩
    | event => trivial
  | _ => exact hSlight

namespace Spared

theorem trans (h₁ : Spared l l₁ m) (h₂ : Spared l₁ l' m) : Spared l l' m where
  toReady := h₂.toReady
  toWidened := h₁.toWidened.trans h₂.toWidened
  series := h₂.series.trans h₁.series
  document := h₂.document.trans h₁.document
  tornDown := h₂.tornDown.trans h₁.tornDown
  kept := h₁.kept.trans h₂.kept
  tracked n hn :=
    (h₂.tracked n (Nat.lt_of_lt_of_le hn h₁.kept.nodes_size)).trans (h₁.tracked n hn)
  core o x hx := h₂.core o x (h₁.core o x hx)
  quiet hook h := h₂.quiet hook (h₁.quiet hook h)

theorem of_calm (h : Calm l l' m) (hReady : l.Ready m) : Spared l l' m where
  toWidened := h.toFrame.widened
  sound := h.tree.relabeled.sound hReady.sound
  observers n o ho := by
    rw [h.trackedOf_eq] at ho
    rw [h.core?_eq]
    exact hReady.observers n o ho
  untracked n hn := by
    rw [h.tree.relabeled.nodes_size] at hn
    rw [h.trackedOf_eq]
    exact hReady.untracked n hn
  closed := h.closed hReady.closed
  ample := by
    rw [h.signals_size]
    exact hReady.ample
  series := h.series
  document := h.document
  tornDown := h.tornDown
  kept := h.tree.relabeled.kept
  tracked n _ := h.trackedOf_eq n
  core o x hx := (h.core?_eq o).trans hx
  quiet _ := h.hook_quiet

/-- A step that changes no observers, and in which sinks and hooks stay slight, spares all. -/
theorem of_sturdy (hReady : l.Ready m) (hSound : l'.dom.Sound) (hKept : Dom.Kept l.dom l'.dom)
    (hSturdy : Sturdy l l') (hSize : l.signals.size ≤ l'.signals.size)
    (hWatchers : ∀ s, ∀ w ∈ l'.watchersOf s, w ∈ l.watchersOf s ∨ w.sink.Slight l' m)
    (hQuiet : l'.Closed m → ∀ hook : Hook κ, hook.Quiet l m → hook.Quiet l' m)
    (hSeries : l'.series = l.series) (hDocument : l'.document = l.document)
    (hTornDown : l'.tornDown = l.tornDown) (hTracked : l'.tracked = l.tracked)
    (hObservers : l'.observers = l.observers) : Spared l l' m := by
  have hNotes : ∀ n, l'.trackedOf n = l.trackedOf n := fun n => by simp only [trackedOf, hTracked]
  have hCore : ∀ o, l'.core? o = l.core? o := fun o => by simp only [core?, observer?, hObservers]
  have hClosed : l'.Closed m := fun s hs w hw =>
    (hWatchers s w hw).elim (fun hOld => hSturdy.slight (hReady.closed s hs w hOld)) id
  refine ⟨⟨⟨hSound, fun n o ho => ?_, fun n hn => ?_⟩, hClosed,
    fun hWrites s hs => hReady.ample hWrites s (Nat.le_trans hSize hs)⟩, ⟨hSize,
    fun s hs => hSturdy.drives_iff hs, fun _ => hSturdy.slight, fun s _ => hWatchers s⟩, hSeries,
    hDocument, hTornDown, hKept, fun n _ => hNotes n, fun o x hx => (hCore o).trans hx,
    hQuiet hClosed⟩
  · rw [hNotes] at ho
    rw [hCore]
    exact hReady.observers n o ho
  · rw [hNotes]
    exact hReady.untracked n (Nat.le_trans hKept.nodes_size hn)

/-- So does a change of signals that follow what they did and have no more watchers but slight ones. -/
theorem of_signals (hReady : l.Ready m) (signals : Array (Signal κ))
    (hSize : l.signals.size ≤ signals.size)
    (hSource : ∀ s < l.signals.size,
      sourceOf? { l with signals := signals } s = l.sourceOf? s)
    (hWatchers : ∀ s, ∀ w ∈ watchersOf { l with signals := signals } s,
      w ∈ l.watchersOf s ∨ w.sink.Slight { l with signals := signals } m) :
    Spared l { l with signals := signals } m := by
  have hSturdy : Sturdy l { l with signals := signals } :=
    ⟨hSource, fun p x hx => ⟨x, hx, rfl, rfl⟩, Nat.le_refl _, fun _ _ => rfl⟩
  exact of_sturdy hReady hReady.sound (.refl _) hSturdy hSize hWatchers
    (fun hClosed _ => hSturdy.hook_quiet (fun _ => hClosed) rfl rfl) rfl rfl rfl rfl rfl

theorem of_grown (hReady : l.Ready m) {d : Dom} (hGrown : Dom.Grown l.dom d) (hSound : d.Sound) :
    Spared l (l.withDom d) m := by
  have hSturdy : Sturdy l (l.withDom d) :=
    ⟨fun _ _ => rfl, fun p x hx => ⟨x, hx, rfl, rfl⟩, hGrown.nodes_size, hGrown.tag⟩
  exact of_sturdy hReady hSound hGrown.toKept hSturdy (Nat.le_refl _) (fun _ _ => .inl)
    (fun hClosed _ => hSturdy.hook_quiet (fun _ => hClosed) rfl rfl) rfl rfl rfl rfl rfl

theorem document_lt (hS : Spared l l' m) (h : l.document < l.dom.nodes.size) :
    l'.document < l'.dom.nodes.size :=
  hS.document ▸ Nat.lt_of_lt_of_le h hS.kept.nodes_size

theorem mem_subtree (hS : Spared l l' m) (hd : l.dom.Sound) (hr : l.dom.Known r) (n : NodeId) :
    n ∈ l'.dom.subtree r ↔ n ∈ l.dom.subtree r := by
  rw [hS.sound.mem_subtree (hS.kept.known hr), hd.mem_subtree hr,
    hS.kept.inside_iff hd hS.sound hr]
  refine and_congr_right fun _ => forall_congr' fun c => forall_congr' fun hc => ?_
  subst hc
  rw [hS.kept.part hr]

theorem mem_observersIn (hS : Spared l l' m) (hd : l.dom.Sound) (hr : l.dom.Known r)
    {o : ObserverId} : o ∈ l'.observersIn r ↔ o ∈ l.observersIn r :=
  mem_observersIn_congr (hS.mem_subtree hd hr)
    (fun n hn => by rw [hS.tracked n (hd.lt_size_of_inside hr ((hd.mem_subtree hr).mp hn).1)]) o

end Spared

/-! ## Items -/

namespace Lineup

theorem passed (h : l.Lineup box rs order m) (hS : Spared l l' m) : Passed l l' box m where
  toWidened := hS.toWidened
  series := hS.series
  tornDown := hS.tornDown
  known _ := hS.kept.known
  destroyed x hx hState := by
    rw [stateOf_destroyed_iff] at hState ⊢
    rw [hS.kept.key hx, hS.document, hS.tracked _ (h.sound.key_lt_size hx)]
    exact hState
  ending := by
    have hKnown : l.dom.Known (.container box) := h.shelf.box_lt
    rw [isEnding_stateOf, isEnding_stateOf, hS.kept.key hKnown, hS.document,
      hS.tracked _ (h.sound.key_lt_size hKnown)]

/-- The items stay as they are while others are made. -/
theorem spared (h : l.Lineup box rs order m) (hS : Spared l l' m) : l'.Lineup box rs order m where
  toReady := hS.toReady
  document := by
    rw [hS.document]
    exact Nat.lt_of_lt_of_le h.document hS.kept.nodes_size
  shelf := h.shelf.kept h.sound hS.sound hS.kept
  other r hr := by
    rw [hS.kept.key (h.shelf.known r hr), hS.document]
    exact h.other r hr
  idle r hr := by
    have hr' := h.shelf.known r hr
    rw [hS.kept.key hr', hS.tracked _ (h.sound.key_lt_size hr')]
    exact h.idle r hr
  quiet r hr o ho x' hx' e he := by
    have hOld := (hS.mem_observersIn h.sound (h.shelf.known r hr)).mp ho
    obtain ⟨n, -, hn⟩ := List.mem_filterMap.mp hOld
    obtain ⟨x, hx⟩ := Option.isSome_iff_exists.mp (h.observers n o hn)
    rw [hS.core o x hx, Option.some.injEq] at hx'
    subst hx'
    exact hS.quiet _ (h.quiet r hr o hOld x hx e he)
  live hNe := by
    rw [hS.tornDown]
    exact h.live hNe

/-- A new item. -/
theorem add (h : l.Lineup box rs order m) (hS : Spared l l' m) (hFresh : Fresh l l' r m) :
    l'.Lineup box (r :: rs) order m := by
  have h' := h.spared hS
  refine ⟨h'.toReady, h'.document,
    h.shelf.add h.sound hS.sound hS.kept hFresh.known hFresh.loose hFresh.new, ?_, ?_, ?_, h'.live⟩
  · refine List.forall_mem_cons.mpr ⟨fun hEq => ?_, h'.other⟩
    rw [hS.document] at hEq
    exact Nat.not_lt.mpr (hEq ▸ hFresh.new _ (Dom.key_mem_run r)) h.document
  · exact List.forall_mem_cons.mpr ⟨hFresh.idle, h'.idle⟩
  · exact List.forall_mem_cons.mpr ⟨hFresh.quiet, h'.quiet⟩

end Lineup

theorem Fresh.not_mem (hFresh : Fresh l l' r m) (h : l.Lineup box rs order m) (hS : Spared l l' m) :
    r ∉ rs := by
  intro hMem
  have hr := h.shelf.known r hMem
  have hNew := hFresh.new _ (Dom.key_mem_run r)
  rw [hS.kept.key hr] at hNew
  exact Nat.not_lt.mpr hNew (h.sound.key_lt_size hr)

/-! ## Cursors -/

theorem watchersOf_of_signals {l l' : Live κ σ} {s : SignalId}
    (h : l'.signals[s]? = l.signals[s]?) : l'.watchersOf s = l.watchersOf s := by
  simp only [watchersOf, signal?, h]

theorem valueOf_of_signals {l l' : Live κ σ} {s : SignalId}
    (h : l'.signals[s]? = l.signals[s]?) : l'.valueOf s = l.valueOf s := by
  simp only [valueOf, signal?, h]

/-- What making a cursor does. -/
theorem newSignal_spared (hReady : l.Ready m) (value : Value) :
    After (newSignal value) l fun cursor l' => Spared l l' m ∧ cursor = l.signals.size ∧
      l'.signals.size = l.signals.size + 1 ∧ l'.valueOf cursor = value ∧
      l'.watchersOf cursor = [] ∧ ¬ m.Drives l' cursor ∧
      ∀ s < l.signals.size, l'.valueOf s = l.valueOf s := by
  simp only [newSignal, after_modifyGet]
  have hOld : ∀ s < l.signals.size, (l.signals.push { value })[s]? = l.signals[s]? := by
    intro s hs
    rw [Array.getElem?_push, if_neg (Nat.ne_of_lt hs)]
  refine ⟨Spared.of_signals hReady _ (by simp) (fun s hs => ?_) fun s w hw => ?_, trivial, by simp,
    ?_, ?_, fun h => ?_, fun s hs => valueOf_of_signals (hOld s hs)⟩
  · simp only [sourceOf?, signal?, hOld s hs]
  · by_cases hs : s = l.signals.size
    · simp [watchersOf, signal?, hs] at hw
    · exact .inl (by simpa [watchersOf, signal?, Array.getElem?_push, hs] using hw)
  · simp [valueOf, signal?]
  · simp [watchersOf, signal?]
  · have hSource := h.2.2
    simp [sourceOf?, signal?] at hSource

/-- A signal has another value, of which nobody was told. -/
def given (l : Live κ σ) (s : SignalId) (value : Value) : Live κ σ :=
  { l with signals := l.signals.modify s fun g => { g with value } }

@[simp]
theorem watchersOf_given (l : Live κ σ) (s t : SignalId) (value : Value) :
    (l.given s value).watchersOf t = l.watchersOf t := by
  simp only [given, watchersOf, signal?_modify]
  split
  · cases l.signal? t <;> rfl
  · rfl

theorem valueOf_given {s : SignalId} (hs : s < l.signals.size) (value : Value) :
    (l.given s value).valueOf s = value := by
  have hSignal : l.signal? s = some l.signals[s] := Array.getElem?_eq_getElem hs
  simp only [given, valueOf, signal?_modify, if_pos, hSignal]
  rfl

theorem valueOf_given_of_ne {s t : SignalId} (h : t ≠ s) (value : Value) :
    (l.given s value).valueOf t = l.valueOf t := by
  simp only [given, valueOf, signal?_modify, if_neg (Ne.symm h)]

theorem given_spared (hReady : l.Ready m) (s : SignalId) (value : Value) :
    Spared l (l.given s value) m := by
  refine Spared.of_signals hReady _ (by simp) (fun t _ => ?_) fun t w hw => ?_
  · simp only [sourceOf?, signal?_modify]
    split
    · cases l.signal? t <;> rfl
    · rfl
  · have hSame : w ∈ (l.given s value).watchersOf t := hw
    rw [watchersOf_given] at hSame
    exact .inl hSame

/-- What setting a cursor does that only slight watchers have. -/
theorem setSignal_tuned (hClient : client.Quiet) (depth : Nat) (hReady : l.Ready m) {s : SignalId}
    (hs : s < l.signals.size) (hDriven : ¬ m.Drives l s)
    (hWatchers : ∀ w ∈ l.watchersOf s, w.sink.Slight l m) (value : Value) :
    After (setSignal (Calls.upTo client (depth + 1)) s value) l fun _ l' => Spared l l' m ∧
      l'.valueOf s = value ∧ ∀ t, t ≠ s → ¬ m.Drives l t → l'.valueOf t = l.valueOf t := by
  have hSpared := given_spared hReady s value
  have hSize : (l.given s value).signals.size = l.signals.size := Array.size_modify
  have hDrives : ∀ t, m.Drives (l.given s value) t ↔ m.Drives l t := fun t => by
    by_cases ht : t < l.signals.size
    · exact hSpared.drives t ht
    · exact iff_of_false (fun h => ht (hSize ▸ sourceOf?_lt h.2.2)) fun h => ht (sourceOf?_lt h.2.2)
  unfold setSignal
  refine After.bind (m := fun _ l₁ => l₁ = l.given s value) rfl ?_
  rintro _ _ rfl
  rw [after_bind, after_get, watchersOf_given]
  refine (tellAll_slight hClient (depth + 1) (fun w hw => hSpared.slight _ (hWatchers w hw))
    hSpared.closed value).mono fun _ l' hSilent => ?_
  refine ⟨hSpared.trans (Spared.of_calm hSilent.toCalm hSpared.toReady), ?_, fun t ht hNot => ?_⟩
  · rw [hSilent.kept s (mt (hDrives s).mp hDriven)]
    exact valueOf_given hs value
  · rw [hSilent.kept t (mt (hDrives t).mp hNot)]
    exact valueOf_given_of_ne ht value

theorem eq_nat_of_same {value : Value} {n : Nat} (h : (value == Value.nat n) = true) :
    value = .nat n := by
  cases value with
  | number m =>
    cases m with
    | int i =>
      have hEq : (i == (n : Int)) = true := h
      rw [beq_iff_eq.mp hEq]
      rfl
    | float x => cases h
  | _ => cases h

/-- What bringing a cursor to a number does. -/
theorem setIfChanged_tuned (hClient : client.Quiet) (depth : Nat) (hReady : l.Ready m)
    {s : SignalId} (hs : s < l.signals.size) (hDriven : ¬ m.Drives l s)
    (hWatchers : ∀ w ∈ l.watchersOf s, w.sink.Slight l m) (n : Nat) :
    After (setIfChanged (Calls.upTo client (depth + 1)) s (.nat n)) l fun _ l' => Spared l l' m ∧
      l'.valueOf s = .nat n ∧ ∀ t, t ≠ s → ¬ m.Drives l t → l'.valueOf t = l.valueOf t := by
  unfold setIfChanged
  rw [after_bind, after_get]
  split
  · rename_i hSame
    exact ⟨Spared.of_calm (Calm.refl l) hReady, eq_nat_of_same hSame, fun _ _ _ => rfl⟩
  · rw [after_bind]
    exact setSignal_tuned hClient depth hReady hs hDriven hWatchers (.nat n)

end LiveMarkup.Live
