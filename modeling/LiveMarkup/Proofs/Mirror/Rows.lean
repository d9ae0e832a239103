import LiveMarkup.Proofs.Live.Aligned
import LiveMarkup.Proofs.Mirror.Burying
import LiveMarkup.Proofs.Mirror.Hands

/-!
# Series that follow signals

Once the values of a list have found their items, those that are left are destroyed and the others
are brought to their places. The row that a series shows is told along the way as if the series
were alive; if it is dead the row does not matter, and nothing is attached.

* `InHand.remove`, `InHand.place`: one item is destroyed, or brought to its place;
* `reconcile_leads`: the series is as its signal says.
-/

namespace LiveMarkup.Live

open Forest

variable {κ σ : Type} {π π₁ π' : Plan} {P P₁ P' : Pending} {l l₁ l' : Live κ σ}
variable {u w : BindingId} {s t : SignalId} {r q node : NodeRef} {c : SeriesId} {b : ContainerId}
variable {x y : Series κ} {v : Value} {d : Dom} {client : Client κ σ} {n k : Nat}
variable {factory : ItemFactory κ} {hand hand' pool next : List Series.Item}
variable {row row' ahead behind : List NodeRef} {pinned pinned' : SignalId → Option Value}
variable {item : Series.Item} {p : Series.Pass}

/-! ## Destroying items -/

/-- An item that is placed nowhere is destroyed. -/
theorem InHand.destroyed (h : InHand π P l u s c b factory n (item :: pool) next row pinned)
    (hState : l.stateOf item.node = .detached) (hOff : l.dom.isPlaced item.node = false) :
    After (destroy (Calls.upTo client n) item.node).run l fun out l' => out = .ok () ∧
      InHand π P l' u s c b factory n pool next (row.filter (· ≠ item.node)) pinned ∧
        Endures (fun _ => False) l l' ∧ l'.stateOf item.node = .destroyed := by
  have hp := h.maintained.rigs.known _ _ _ _ h.busy.keeper
  have hIn : item ∈ item :: pool ++ next := List.mem_cons_self
  have hStock := (h.busy.mem_stock h.maintained).mpr ⟨item, hIn, rfl⟩
  obtain ⟨hKnown, hLt, hLow⟩ := h.maintained.shelves.known _ _ _ _ _ h.busy.keeper hStock
  have hRefl : l.dom.Refits l.dom (.container b) := .refl h.maintained.rooted.sound _
  -- the item is let go first
  obtain ⟨hR, hAt⟩ := h.busy.refits h.maintained (pool ++ next)
    (row.filter (· ≠ item.node)) hRefl
    (fun e he => .inl ⟨e, List.mem_cons_of_mem _ he, rfl, rfl, rfl⟩) fun hAlive => by
      rw [h.busy.kin_eq h.maintained hAlive]
      refine (List.filter_eq_self.mpr fun q hq => ?_).symm
      rw [← h.busy.kin_eq h.maintained hAlive] at hq
      have hNe : q ≠ item.node := by
        rintro rfl
        rw [h.maintained.rooted.sound.isPlaced_of_mem_kin hp hq] at hOff
        cases hOff
      simpa using hNe
  have h₁ := h.maintained.refilled h.busy.keeper hR (Pending.busy_elsewhere h.busy.keeper) hAt rfl
  have hFree : Free (P.busy u (pool ++ next) (row.filter (· ≠ item.node)) pinned) l item.node := by
    intro w t sink q hw hMem
    by_cases hEq : w = u
    · subst hEq
      obtain ⟨-, rfl, -⟩ := hw.unique h.busy.keeper
      obtain ⟨e, he, hNode⟩ := (h.busy.mem_stock h₁).mp hMem
      exact (List.nodup_cons.mp h.nodes).1 (List.mem_map.mpr ⟨e, he, hNode⟩)
    · refine hEq (h.maintained.shelves.apart _ _ _ _ _ _ _ _ _ hw h.busy.keeper ?_ hStock)
      have hHand : (P.busy u (item :: pool ++ next) row pinned).hand w =
          (P.busy u (pool ++ next) (row.filter (· ≠ item.node)) pinned).hand w :=
        (if_neg hEq).trans (if_neg hEq).symm
      rw [hHand]
      exact hMem
  have hDeep := h.busy.deep
  refine (destroy_razes client n π _ l item.node h₁ hKnown hState hFree (by omega)
    fun w t sink q hw hShowing => ?_).mono ?_
  · have hBusy := h.busy.under.busy w (.inr (.inr hShowing))
    exact Nat.lt_trans (h.maintained.rigs.rising _ _ _ _ _ _ _ _ hw h.busy.keeper hBusy) hLt
  · rintro out l' ⟨hOut, h', hRazed, hDestroyed⟩
    refine ⟨hOut, ⟨h', h.busy.led h.maintained h.pins.old (.refl π l) hRazed.lasts, h.pins,
      (List.nodup_cons.mp h.cursors).2, (List.nodup_cons.mp h.nodes).2⟩, hRazed.lasts, ?_⟩
    refine h'.stateOf_of_dead h.busy.under.dying (.inr ?_)
    rw [hRazed.dom]
    exact hDestroyed

/-- An item is taken out if it is shown, and destroyed. -/
theorem InHand.remove (h : InHand π P l u s c b factory (k + 1) (item :: pool) next row pinned) :
    After (destroyFully (Calls.upTo client (k + 1)) item.node).run l fun _ l' =>
      InHand π P l' u s c b factory (k + 1) pool next (row.filter (· ≠ item.node)) pinned ∧
        Endures (fun _ => False) l l' ∧ l'.stateOf item.node = .destroyed := by
  have hM := h.maintained
  have hDying : (P.busy u (item :: pool ++ next) row pinned).dying = fun _ => False :=
    h.busy.under.dying
  have hSound := hM.rooted.sound
  have hp := hM.rigs.known _ _ _ _ h.busy.keeper
  have hStock := (h.busy.mem_stock hM).mpr ⟨item, List.mem_cons_self, rfl⟩
  obtain ⟨hKnown, hLt, -⟩ := hM.shelves.known _ _ _ _ _ h.busy.keeper hStock
  have hNe := hM.key_ne_document hLt
  unfold destroyFully
  refine After.get_act ?_
  by_cases hLive : Dead P.dying l.trackedOf (l.dom.key item.node)
  · have hState := hM.stateOf_of_dead hDying hLive
    rw [hState]
    obtain ⟨hR, hAt⟩ := h.busy.refits hM (pool ++ next)
      (row.filter (· ≠ item.node)) (.refl hSound _)
      (fun e he => .inl ⟨e, List.mem_cons_of_mem _ he, rfl, rfl, rfl⟩)
      fun hAlive => absurd hLive (hM.shelves.alive _ _ _ _ _ h.busy.keeper hAlive hStock)
    exact ⟨⟨hM.refilled h.busy.keeper hR (Pending.busy_elsewhere h.busy.keeper) hAt rfl, h.busy,
      h.pins, (List.nodup_cons.mp h.cursors).2, (List.nodup_cons.mp h.nodes).2⟩, .refl l, hState⟩
  have hState := hM.stateOf_of_alive hDying hLive hNe
  cases hOn : l.dom.isPlaced item.node with
  | false =>
    rw [hOn] at hState
    rw [hState]
    exact (h.destroyed hState hOn).mono fun _ _ hDone => hDone.2
  | true =>
    rw [hOn] at hState
    rw [hState]
    have hIn := hM.shelves.placed _ _ _ _ _ h.busy.keeper hStock hOn
    have hAlive : ¬ Dead P.dying l.trackedOf (l.dom.key (.container b)) := fun hEnd =>
      hLive (hM.graves.down _ _ hp hIn hEnd)
    have hLoses := hSound.loses_of_takeOut hKnown hOn
    have hBoth := h.busy.refits hM (item :: pool ++ next)
      (row.filter (· ≠ item.node)) ⟨hLoses.toSameParts, hLoses.sound, fun q hq hOther => by
        rw [hLoses.kin q hq, List.filter_eq_self]
        intro z hz
        simp only [ne_eq, decide_eq_true_eq]
        rintro rfl
        exact hOther (hSound.kin_inj hq hp hz hIn)⟩
      (fun e he => .inl ⟨e, he, rfl, rfl, rfl⟩) fun _ => by
        rw [hLoses.kin _ hp, h.busy.kin_eq hM hAlive]
    refine (hide_maintained hM h.busy.keeper (.refl l) (Pending.busy_elsewhere h.busy.keeper) hDying
      hAlive hIn hBoth).act_ok ?_
    rintro l₁ ⟨hUnmoved, h₁⟩
    have hEndures := (hBoth.1.endures h.busy.keeper).trans hUnmoved.lasts
    have hHand : InHand π P l₁ u s c b factory (k + 1) (item :: pool) next
        (row.filter (· ≠ item.node)) pinned :=
      ⟨h₁, h.busy.led hM h.pins.old (.refl π l) hEndures, h.pins, h.cursors, h.nodes⟩
    have hOff : l₁.dom.isPlaced item.node = false := by
      rw [hUnmoved.dom]
      exact hLoses.isPlaced_self hKnown
    have hKey : l₁.dom.key item.node = l.dom.key item.node := hEndures.key _ hKnown
    have hState₁ : l₁.stateOf item.node = .detached := by
      rw [h₁.stateOf_of_alive hDying _ _, hOff]
      · rfl
      · rw [hKey]
        change ¬ (_ ∨ (l₁.trackedOf _).state = _)
        rw [hUnmoved.tracked]
        exact hLive
      · rw [hKey, hUnmoved.document]
        exact hNe
    refine After.get_act ?_
    rw [if_pos hState₁]
    refine (hHand.destroyed hState₁ hOff).mono ?_
    rintro _ l' ⟨-, h', hEndures', hDestroyed⟩
    rw [List.filter_filter, show (fun a => decide (a ≠ item.node) && decide (a ≠ item.node)) =
      fun a => decide (a ≠ item.node) from funext fun a => Bool.and_self _] at h'
    exact ⟨h', hEndures.trans hEndures', hDestroyed⟩

/-- What stands in order still does without a member of the row. -/
theorem Standing.remove {rs order : List NodeRef} (h : Standing rs order) (x : NodeRef) :
    Standing rs (order.filter (· ≠ x)) := by
  have hLess := h.filter (· ≠ x)
  have hSame : rs.filter (· ∈ order.filter (· ≠ x)) = (rs.filter (· ∈ order)).filter (· ≠ x) := by
    rw [List.filter_filter]
    refine List.filter_congr fun q _ => ?_
    simp [List.mem_filter, and_comm]
  rw [Standing, hSame]
  exact hLess

/-- All items that no value claimed are destroyed. -/
theorem InHand.removeAll {stays : List NodeRef}
    (h : InHand π P l u s c b factory (k + 1) pool next row pinned)
    (hStanding : Standing stays row) (hRow : ∀ q ∈ row, q ∈ (pool ++ next).map (·.node)) :
    After (pool.foldlM (removeItem (Calls.upTo client (k + 1))) p) l fun p' l' => ∃ row',
      InHand π P l' u s c b factory (k + 1) [] next row' pinned ∧ Endures (fun _ => False) l l' ∧
        Standing stays row' ∧ (∀ q ∈ row', q ∈ row ∧ q ∈ next.map (·.node)) ∧
          row'.Sublist row ∧ p'.next = p.next ∧ p'.lingering = p.lingering := by
  refine (After.foldlM (k := fun left p' l' => ∃ row',
    InHand π P l' u s c b factory (k + 1) left next row' pinned ∧ Endures (fun _ => False) l l' ∧
      Standing stays row' ∧ (∀ q ∈ row', q ∈ (left ++ next).map (·.node)) ∧ row'.Sublist row ∧
        p'.next = p.next ∧ p'.lingering = p.lingering)
    ⟨row, h, .refl l, hStanding, hRow, List.Sublist.refl row, rfl, rfl⟩ ?_).mono ?_
  · rintro item left p₁ l₁ ⟨row₁, h₁, hEndures₁, hStanding₁, hRow₁, hSub₁, hNext₁, hLingering₁⟩
    unfold removeItem
    refine After.bind h₁.remove ?_
    rintro outcome l₂ ⟨h₂, hEndures₂, hState⟩
    rw [after_bind, after_get, if_pos hState]
    refine after_pure.mpr ⟨_, h₂, hEndures₁.trans hEndures₂, hStanding₁.remove _, fun q hq => ?_,
      List.filter_sublist.trans hSub₁, ?_, ?_⟩
    · obtain ⟨hOld, hNe⟩ := List.mem_filter.mp hq
      have hIn := hRow₁ q hOld
      rw [List.cons_append, List.map_cons, List.mem_cons] at hIn
      exact hIn.resolve_left (by simpa using hNe)
    · exact (next_note p₁ outcome).trans hNext₁
    · exact (lingering_note p₁ outcome).trans hLingering₁
  · rintro p' l' ⟨row', h', hEndures, hStanding', hRow', hSub, hNext, hLingering⟩
    exact ⟨row', h', hEndures, hStanding', fun q hq => ⟨hSub.subset hq, hRow' q hq⟩, hSub, hNext,
      hLingering⟩

/-! ## Rows -/

/-- A row once an item is in its place in front of those behind it. -/
def settle (row behind : List NodeRef) (node : NodeRef) (inPlace : Bool) : List NodeRef :=
  if inPlace = true ∧ node ∈ row then row
  else splice (behind.filter (· ∈ row)).head? [node] (row.filter (· ≠ node))

section Settle

variable {inPlace : Bool}

theorem mem_settle : q ∈ settle row behind node inPlace ↔ q = node ∨ q ∈ row := by
  unfold settle
  split
  case isTrue hBoth =>
    refine ⟨.inr, fun hq => hq.elim (fun hEq => ?_) id⟩
    rw [hEq]
    exact hBoth.2
  case isFalse =>
    rw [mem_splice, List.mem_singleton, List.mem_filter]
    by_cases hEq : q = node <;> simp [hEq]

theorem nodup_settle (h : row.Nodup) : (settle row behind node inPlace).Nodup := by
  unfold settle
  split
  case isTrue => exact h
  case isFalse =>
    refine (splice_perm _ _ _).nodup_iff.mpr (List.nodup_cons.mpr ⟨fun hIn => ?_, h.filter _⟩)
    simpa using List.of_mem_filter hIn

theorem Standing.settle (h : Standing (ahead ++ (if inPlace then [node] else []) ++ behind) row)
    (hNodup : row.Nodup) (hAhead : node ∉ ahead) (hBehind : node ∉ behind) :
    Standing (ahead ++ node :: behind) (settle row behind node inPlace) := by
  unfold Live.settle
  split
  case isTrue hBoth =>
    rw [hBoth.1, if_pos rfl, List.append_assoc] at h
    exact h
  case isFalse =>
    refine Standing.splice (h.sublist ?_) hNodup hAhead hBehind
    rw [List.append_assoc]
    exact List.Sublist.append (List.Sublist.refl _) (List.sublist_append_right _ _)

end Settle

/-! ## Bringing items to their places -/

section Place

variable (hReceives : Receives (Calls.upTo client k) k)
variable (h : InHand π P l u s c b factory (k + 1) [] next row pinned) (hItem : item ∈ next)
include h hItem

omit hItem in
/-- What is shown does not matter if the series is dead. -/
theorem InHand.dead_row (hDead : Dead P.dying l.trackedOf (l.dom.key (.container b)))
    (row' : List NodeRef) : InHand π P l u s c b factory (k + 1) [] next row' pinned := by
  obtain ⟨hR, hAt⟩ := h.busy.refits h.maintained ([] ++ next) row'
    (.refl h.maintained.rooted.sound _) (fun e he => .inl ⟨e, he, rfl, rfl, rfl⟩)
    fun hAlive => absurd hDead hAlive
  exact ⟨h.maintained.refilled h.busy.keeper hR (Pending.busy_elsewhere h.busy.keeper) hAt rfl,
    h.busy, h.pins, h.cursors, h.nodes⟩

/-- What is shown are the nodes of a row, unless the series is dead. -/
theorem InHand.state_of_row (hAlive : ¬ Dead P.dying l.trackedOf (l.dom.key (.container b))) :
    (l.stateOf item.node = if item.node ∈ row then .attached else .detached) ∧
      (l.dom.isPlaced item.node = true ↔ item.node ∈ row) ∧
        Comes π (P.busy u ([] ++ next) row pinned) l (.container b) item.node := by
  have hM := h.maintained
  have hp := hM.rigs.known _ _ _ _ h.busy.keeper
  have hStock := (h.busy.mem_stock hM).mpr ⟨item, hItem, rfl⟩
  have hLive := hM.shelves.alive _ _ _ _ _ h.busy.keeper hAlive hStock
  have hNe := hM.key_ne_document (hM.shelves.known _ _ _ _ _ h.busy.keeper hStock).2.1
  have hOn : l.dom.isPlaced item.node = true ↔ item.node ∈ row := by
    rw [← h.busy.kin_eq hM hAlive]
    exact ⟨hM.shelves.placed _ _ _ _ _ h.busy.keeper hStock,
      hM.rooted.sound.isPlaced_of_mem_kin hp⟩
  refine ⟨?_, hOn, hM.stock_comes h.busy.keeper hStock hAlive⟩
  rw [hM.stateOf_of_alive h.busy.under.dying hLive hNe]
  exact if_congr hOn rfl rfl

include hReceives in
/-- An item that is not shown is attached in front of another one. -/
theorem InHand.attach (hAlive : ¬ Dead P.dying l.trackedOf (l.dom.key (.container b)))
    (hOff : item.node ∉ row) {anchor : Option NodeRef} (hAnchor : ∀ a, anchor = some a → a ∈ row) :
    After (attach (Calls.upTo client (k + 1)) item.node (.container b) anchor).run l fun out l' =>
      out = .ok () ∧ ∃ π', π.Extends π' l ∧ Endures (fun _ => False) l l' ∧
        InHand π' P l' u s c b factory (k + 1) [] next (splice anchor [item.node] row) pinned := by
  have hM := h.maintained
  have hp := hM.rigs.known _ _ _ _ h.busy.keeper
  have hKin := h.busy.kin_eq hM hAlive
  obtain ⟨-, hOn, hComes⟩ := h.state_of_row hItem hAlive
  have hStock := (h.busy.mem_stock hM).mpr ⟨item, hItem, rfl⟩
  have hLow := (hM.shelves.known _ _ _ _ _ h.busy.keeper hStock).2.2
  have hDeep := h.busy.deep
  refine (show_leads (P := P.busy u ([] ++ next) (splice anchor [item.node] row) pinned) hM
    h.busy.keeper (.refl l) (Pending.busy_elsewhere h.busy.keeper) h.busy.under.dying hAlive
    hReceives (h.under _ _) hComes (Bool.eq_false_iff.mpr (mt hOn.mp hOff)) (hKin.symm ▸ hAnchor)
    (by omega) fun d' hGains => h.busy.refits hM _ _ ⟨hGains.toSameParts, hGains.sound,
      fun q hq hNe => (hGains.kin q hq).trans (if_neg hNe)⟩
        (fun e he => .inl ⟨e, he, rfl, rfl, rfl⟩) fun _ => ?_).mono ?_
  · rw [hGains.kin _ hp, if_pos rfl, hKin]
  · rintro out l' ⟨hOut, π', hExtends, hEndures, h'⟩
    exact ⟨hOut, π', hExtends, hEndures, h', h.busy.led hM h.pins.old hExtends hEndures, h.pins,
      h.cursors, h.nodes⟩

omit hItem in
/-- An item that is shown is moved in front of another one. -/
theorem InHand.move {calls : Calls κ σ}
    (hAlive : ¬ Dead P.dying l.trackedOf (l.dom.key (.container b))) (hIn : item.node ∈ row)
    {anchor : Option NodeRef} (hAnchor : ∀ a, anchor = some a → a ∈ row ∧ a ≠ item.node) :
    After (moveTo calls item.node (.container b) anchor).run l fun out l' =>
      out = .ok () ∧ Endures (fun _ => False) l l' ∧ InHand π P l' u s c b factory (k + 1) [] next
        (splice anchor [item.node] (row.filter (· ≠ item.node))) pinned := by
  have hM := h.maintained
  have hp := hM.rigs.known _ _ _ _ h.busy.keeper
  have hKin := h.busy.kin_eq hM hAlive
  have hRest : ∀ d', Dom.Shifts l.dom d' item.node (.container b) anchor →
      Restocked l (l.withDom d') (.container b) ∧
        Refilled π (P.busy u ([] ++ next) row pinned) (P.busy u ([] ++ next)
          (splice anchor [item.node] (row.filter (· ≠ item.node))) pinned) l (l.withDom d')
            (.container b) u s (.series c) := fun d' hShifts =>
    h.busy.refits hM _ _ ⟨hShifts.toSameParts, hShifts.sound,
      fun q hq hNe => (hShifts.kin q hq).trans (if_neg hNe)⟩
        (fun e he => .inl ⟨e, he, rfl, rfl, rfl⟩) fun _ => by
          rw [hShifts.kin _ hp, if_pos rfl, hKin]
  refine (shift_maintained hM h.busy.keeper (.refl l) (Pending.busy_elsewhere h.busy.keeper)
    h.busy.under.dying hAlive (hKin.symm ▸ hIn) (hKin.symm ▸ hAnchor) hRest).mono ?_
  rintro out l' ⟨hOut, d', hShifts, hTwin, h'⟩
  have hEndures := ((hRest d' hShifts).1.endures h.busy.keeper).trans hTwin.steady.lasts
  exact ⟨hOut, hEndures, h', h.busy.led hM h.pins.old (.refl π l) hEndures, h.pins, h.cursors,
    h.nodes⟩

include hReceives in
/-- An item is brought to its place. -/
theorem InHand.place {anchor : Option NodeRef} {inPlace : Bool} (hBehind : item.node ∉ behind)
    (hAnchor : ¬ Dead P.dying l.trackedOf (l.dom.key (.container b)) →
      anchor = (behind.filter (· ∈ row)).head?) :
    After (placeItem (Calls.upTo client (k + 1)) (.container b) anchor inPlace p item) l
      fun p' l' => p'.next = p.next ∧ p'.lingering = p.lingering ∧ ∃ π', π.Extends π' l ∧
        Endures (fun _ => False) l l' ∧ InHand π' P l' u s c b factory (k + 1) [] next
          (settle row behind item.node inPlace) pinned := by
  have hM := h.maintained
  unfold placeItem
  rw [after_bind, after_get]
  by_cases hAlive : Dead P.dying l.trackedOf (l.dom.key (.container b))
  · have hSame := h.dead_row hAlive (settle row behind item.node inPlace)
    have hp := hM.rigs.known _ _ _ _ h.busy.keeper
    have hStock := (h.busy.mem_stock hM).mpr ⟨item, hItem, rfl⟩
    obtain ⟨-, hLt, -⟩ := hM.shelves.known _ _ _ _ _ h.busy.keeper hStock
    by_cases hLive : Dead P.dying l.trackedOf (l.dom.key item.node)
    · rw [hM.stateOf_of_dead h.busy.under.dying hLive]
      exact ⟨rfl, rfl, π, .refl π l, .refl l, hSame⟩
    · have hOff : ¬ l.dom.isPlaced item.node = true := fun hOn =>
        hLive (hM.graves.down _ _ hp (hM.shelves.placed _ _ _ _ _ h.busy.keeper hStock hOn) hAlive)
      rw [hM.stateOf_of_alive h.busy.under.dying hLive (hM.key_ne_document hLt), if_neg hOff]
      refine After.bind (attach_refused _ ?_) ?_
      · rw [hM.stateOf_of_dead h.busy.under.dying hAlive]
        rfl
      · rintro outcome l' ⟨-, hEq⟩
        rw [hEq]
        exact after_pure.mpr ⟨next_note p outcome, lingering_note p outcome, π, .refl π l, .refl l,
          hSame⟩
  rw [hAnchor hAlive]
  obtain ⟨hState, -, -⟩ := h.state_of_row hItem hAlive
  have hHead : ∀ a, (behind.filter (· ∈ row)).head? = some a → a ∈ row ∧ a ≠ item.node :=
    fun a ha => anchor_of_placing hBehind ha
  by_cases hIn : item.node ∈ row
  · rw [hState, if_pos hIn]
    dsimp only
    split
    · rename_i hInPlace
      rw [settle, if_pos ⟨hInPlace, hIn⟩]
      exact after_pure.mpr ⟨rfl, rfl, π, .refl π l, .refl l, h⟩
    · rename_i hInPlace
      rw [settle, if_neg fun hBoth => hInPlace hBoth.1]
      refine After.bind (h.move hAlive hIn hHead) ?_
      rintro _ l' ⟨rfl, hEndures, h'⟩
      exact after_pure.mpr ⟨rfl, rfl, π, .refl π l, hEndures, h'⟩
  · have hRow : row.filter (· ≠ item.node) = row := List.filter_eq_self.mpr fun q hq => by
      simpa using fun hEq : q = item.node => hIn (hEq ▸ hq)
    have hSettle : settle row behind item.node inPlace =
        splice (behind.filter (· ∈ row)).head? [item.node] row := by
      rw [settle, if_neg fun hBoth => hIn hBoth.2, hRow]
    rw [hState, if_neg hIn, hSettle]
    refine After.bind (h.attach hReceives hItem hAlive hIn fun a ha => (hHead a ha).1) ?_
    rintro outcome l' ⟨-, π', hExtends, hEndures, h'⟩
    exact after_pure.mpr ⟨next_note p outcome, lingering_note p outcome, π', hExtends, hEndures, h'⟩

end Place

/-! ## Bringing all items to their places -/

section All

variable (hReceives : Receives (Calls.upTo client k) k)
include hReceives

/-- All items are brought to their places, the last first. -/
theorem InHand.placeAll (stable : List Nat) (todo : List Series.Entry) (behind : List NodeRef)
    (h : InHand π P l u s c b factory (k + 1) [] next row pinned)
    (hItems : ∀ e ∈ todo, e.2 ∈ next) (hNodup : (todo.map (·.2.node) ++ behind).Nodup)
    (hStanding : Standing (stays stable todo.reverse ++ behind) row) (hRow : row.Nodup)
    (hBehind : ∀ q ∈ behind, q ∈ row) {anchor : Option NodeRef}
    (hAnchor : ¬ Dead P.dying l.trackedOf (l.dom.key (.container b)) →
      anchor = (behind.filter (· ∈ row)).head?) :
    After (placeItems (Calls.upTo client (k + 1)) (.container b) stable anchor p todo) l
      fun p' l' => p'.next = p.next ∧ p'.lingering = p.lingering ∧ ∃ π' row', π.Extends π' l ∧
        Endures (fun _ => False) l l' ∧ InHand π' P l' u s c b factory (k + 1) [] next row' pinned ∧
          Standing (todo.reverse.map (·.2.node) ++ behind) row' ∧ row'.Nodup ∧
            ∀ q, q ∈ row' ↔ q ∈ row ∨ q ∈ todo.map (·.2.node) := by
  induction todo generalizing behind anchor p l row π with
  | nil => exact ⟨rfl, rfl, π, row, .refl π l, .refl l, h, hStanding, hRow, by simp⟩
  | cons first todo ih =>
    obtain ⟨place, item⟩ := first
    obtain ⟨hItem, hRest⟩ := List.forall_mem_cons.mp hItems
    obtain ⟨hStays, hAhead, hNot, hNodup₁⟩ := stays_reverse_cons stable hNodup
    rw [hStays] at hStanding
    rw [placeItems]
    refine (h.place hReceives hItem hNot hAnchor).bind ?_
    rintro p₁ l₁ ⟨hNext₁, hLingering₁, π₁, hExtends₁, hEndures₁, h₁⟩
    rw [after_bind, after_get]
    have hIn : item.node ∈ settle row behind item.node (place.any stable.contains) :=
      mem_settle.mpr (.inl rfl)
    refine (ih _ h₁ hRest hNodup₁
      (hStanding.settle hRow hAhead hNot) (nodup_settle hRow) (fun q hq => mem_settle.mpr
        ((List.mem_cons.mp hq).imp_right (hBehind q))) fun hAlive => ?_).mono ?_
    · rw [(h₁.state_of_row hItem hAlive).1, if_pos hIn, if_pos rfl,
        List.filter_cons_of_pos (by simpa using hIn), List.head?_cons]
    · rintro p' l' ⟨hNext, hLingering, π', row', hExtends, hEndures, h', hStanding', hRow', hMem⟩
      refine ⟨hNext.trans hNext₁, hLingering.trans hLingering₁, π', row',
        hExtends₁.trans hEndures₁ hExtends, hEndures₁.trans hEndures, h', ?_, hRow', fun q => ?_⟩
      · rw [List.reverse_cons, List.map_append, List.append_assoc]
        exact hStanding'
      · rw [hMem, mem_settle, List.map_cons, List.mem_cons]
        tauto

/-- All items are attached, one after the other. -/
theorem InHand.appendAll {todo : List Series.Item}
    (h : InHand π P l u s c b factory (k + 1) [] next row pinned) (hItems : ∀ e ∈ todo, e ∈ next)
    (hNodup : (row ++ todo.map (·.node)).Nodup) :
    After (todo.foldlM (appendItem (Calls.upTo client (k + 1)) (.container b)) p) l
      fun p' l' => p'.next = p.next ∧ p'.lingering = p.lingering ∧ ∃ π', π.Extends π' l ∧
        Endures (fun _ => False) l l' ∧
          InHand π' P l' u s c b factory (k + 1) [] next (row ++ todo.map (·.node)) pinned := by
  induction todo generalizing p l row π with
  | nil =>
    refine ⟨rfl, rfl, π, .refl π l, .refl l, ?_⟩
    rw [List.map_nil, List.append_nil]
    exact h
  | cons item todo ih =>
    obtain ⟨hItem, hRest⟩ := List.forall_mem_cons.mp hItems
    have hRow : row ++ (item :: todo).map (·.node) = row ++ [item.node] ++ todo.map (·.node) := by
      rw [List.append_assoc]
      rfl
    rw [hRow] at hNodup ⊢
    have hOff : item.node ∉ row := fun hIn =>
      (List.nodup_append.mp (List.nodup_append.mp hNodup).1).2.2 _ hIn _
      (List.mem_singleton_self _) rfl
    rw [List.foldlM_cons]
    refine After.bind (m := fun p' l' => p'.next = p.next ∧ p'.lingering = p.lingering ∧
      ∃ π', π.Extends π' l ∧ Endures (fun _ => False) l l' ∧
        InHand π' P l' u s c b factory (k + 1) [] next (row ++ [item.node]) pinned) ?_ ?_
    · unfold appendItem
      by_cases hAlive : Dead P.dying l.trackedOf (l.dom.key (.container b))
      · refine After.bind (attach_refused _ ?_) ?_
        · rw [h.maintained.stateOf_of_dead h.busy.under.dying hAlive]
          rfl
        · rintro outcome l' ⟨-, hEq⟩
          rw [hEq]
          exact after_pure.mpr ⟨next_note p outcome, lingering_note p outcome, π, .refl π l,
            .refl l, h.dead_row hAlive _⟩
      · refine After.bind (h.attach hReceives hItem hAlive hOff nofun) ?_
        rintro outcome l' ⟨-, π', hExtends, hEndures, h'⟩
        exact after_pure.mpr ⟨next_note p outcome, lingering_note p outcome, π', hExtends,
          hEndures, h'⟩
    · rintro p₁ l₁ ⟨hNext₁, hLingering₁, π₁, hExtends₁, hEndures₁, h₁⟩
      refine (ih h₁ hRest hNodup).mono ?_
      rintro p' l' ⟨hNext, hLingering, π', hExtends, hEndures, h'⟩
      exact ⟨hNext.trans hNext₁, hLingering.trans hLingering₁, π',
        hExtends₁.trans hEndures₁ hExtends, hEndures₁.trans hEndures, h'⟩

end All

/-! ## A whole pass -/

theorem Standing.eq_of_mem {rs order : List NodeRef} (h : Standing rs order) (hRs : rs.Nodup)
    (hOrder : order.Nodup) (hMem : ∀ q, q ∈ order ↔ q ∈ rs) : order = rs := by
  have hAll : rs.filter (· ∈ order) = rs := List.filter_eq_self.mpr fun q hq => by
    simpa using (hMem q).mpr hq
  rw [Standing, hAll] at h
  exact (h.eq_of_length ((List.perm_ext_iff_of_nodup hRs hOrder).mpr fun q =>
    (hMem q).symm).length_eq).symm

/-- The items that keep their places stand in their former order. -/
theorem stays_sublist {former : List Series.Item} {entries : List Series.Entry}
    (hPlaced : Placed former entries) (hNodes : (entries.map (·.2.node)).Nodup) :
    (stays ((longestRun (entries.filterMap (·.1))).filterMap fun i =>
      (entries.filterMap (·.1))[i]?) entries).Sublist (former.map (·.node)) := by
  have hRises := pairwise_filter_longestRun (Series.places_nodup hPlaced hNodes)
  have hEq := Series.map_node_filter hPlaced ((longestRun (entries.filterMap (·.1))).filterMap
    fun i => (entries.filterMap (·.1))[i]?).contains
  rw [stays, hEq]
  refine (sublist_of_rising former hRises fun i hi => ?_).map _
  obtain ⟨e, he, hPlace⟩ := List.mem_filterMap.mp (List.mem_of_mem_filter hi)
  obtain ⟨item, hItem, -⟩ := hPlaced e he i hPlace
  exact (List.getElem?_eq_some_iff.mp hItem).1

/-- The items of a series are those of a list in the end, and shown in its order. -/
theorem Matched.passOver {values : List Value}
    (h : Matched π P l u s c x.box x.factory (k + 1) x.items (.ofItems x.items)
      (x.items.map (·.node)) pinned)
    (hReceives : Receives (Calls.upTo client k) k) (hSets : Sets client (k + 1))
    (hv : ∀ v ∈ values, π.values v) :
    After (passOver (Calls.upTo client (k + 1)) x values) l fun p' l' => ∃ π' pinned',
      π.Extends π' l ∧ Endures (fun _ => False) l l' ∧
        InHand π' P l' u s c x.box x.factory (k + 1) [] (p'.next.map (·.2))
          (p'.next.map (·.2.node)) pinned' ∧
            p'.next.map (·.2.key) = values.map Value.key ∧ p'.lingering = [] := by
  unfold Live.passOver
  refine After.bind (h.matchAll hSets rfl hv) ?_
  rintro p₁ l₁ ⟨π₁, pinned₁, hExtends₁, hEndures₁, h₁, hKeys⟩
  have hFormer : (x.items.map (·.node)).Nodup := by
    have hNodes := h.inHand.nodes
    rw [show (Series.Pass.ofItems x.items).next = [] from rfl, List.map_nil, List.append_nil,
      List.map_map] at hNodes
    exact (Series.pool_map x.items (·.node)) ▸ hNodes
  have hNodes : (p₁.next.map (·.2.node)).Nodup := by
    have hAll := h₁.inHand.nodes
    rw [List.map_append, List.map_map, List.map_map] at hAll
    exact (List.nodup_append.mp hAll).2.1
  have hPlaced : Placed x.items p₁.next := fun e he => h₁.placed e (List.mem_append_right _ he)
  have hStays : Standing (stays p₁.stable p₁.next) (x.items.map (·.node)) :=
    List.filter_sublist.trans (stays_sublist hPlaced hNodes)
  let calls := Calls.upTo client (k + 1)
  have hPerm := leftOver_perm calls p₁ l₁
  have hRow : ∀ q ∈ x.items.map (·.node),
      q ∈ (leftOver calls p₁ l₁ ++ p₁.next.map (·.2)).map (·.node) := fun q hq => by
    obtain ⟨item, hItem, rfl⟩ := List.mem_map.mp hq
    exact ((hPerm.append_right _).map _).mem_iff.mpr (h₁.covered item hItem)
  rw [after_bind, after_get]
  refine After.bind ((h₁.inHand.perm hPerm).removeAll hStays hRow) ?_
  rintro p₂ l₂ ⟨row₂, h₂, hEndures₂, hStays₂, hRow₂, hSub₂, hNext₂, hLingering₂⟩
  have hEndures := hEndures₁.trans hEndures₂
  split
  case isTrue hEmpty =>
    rw [List.isEmpty_iff.mp hEmpty] at hSub₂
    obtain rfl := List.sublist_nil.mp hSub₂
    rw [hNext₂]
    refine (h₂.appendAll hReceives (fun e => id) ?_).mono ?_
    · rw [List.nil_append, List.map_map]
      exact hNodes
    · rintro p' l' ⟨hNext, hLingering, π', hExtends, hEndures', h'⟩
      rw [hNext₂] at hNext
      rw [List.nil_append, List.map_map] at h'
      refine ⟨π', pinned₁, hExtends₁.trans hEndures hExtends, hEndures.trans hEndures', ?_, ?_, ?_⟩
      · rw [hNext]
        exact h'
      · rw [hNext, hKeys]
      · rw [hLingering, hLingering₂, h₁.lingering]
  case isFalse =>
    have hStable : p₂.stable = p₁.stable := by
      rw [Series.Pass.stable, Series.Pass.stable, hNext₂]
    have hTodo : p₂.next.reverse.reverse = p₁.next := by
      rw [List.reverse_reverse, hNext₂]
    refine (h₂.placeAll hReceives p₂.stable p₂.next.reverse []
      (fun e he => ?_) ?_ ?_ (hSub₂.nodup hFormer) (fun _ hIn => by cases hIn) fun _ => rfl).mono ?_
    · rw [hNext₂] at he
      exact List.mem_map_of_mem (List.mem_reverse.mp he)
    · rw [hNext₂, List.append_nil, List.map_reverse]
      exact List.nodup_reverse.mpr hNodes
    · rw [hTodo, hStable, List.append_nil]
      exact hStays₂
    · rintro p' l' ⟨hNext, hLingering, π', row', hExtends, hEndures', h', hStanding, hNodup, hMem⟩
      rw [hNext₂] at hNext
      rw [hTodo, List.append_nil] at hStanding
      have hEq : row' = p₁.next.map (·.2.node) := hStanding.eq_of_mem hNodes hNodup fun q => by
        rw [hMem, hNext₂, List.map_reverse, List.mem_reverse]
        refine ⟨fun hq => hq.elim (fun hOld => ?_) id, .inr⟩
        have hIn := (hRow₂ q hOld).2
        rwa [List.map_map] at hIn
      rw [hEq] at h'
      refine ⟨π', pinned₁, hExtends₁.trans hEndures hExtends, hEndures.trans hEndures', ?_, ?_, ?_⟩
      · rw [hNext]
        exact h'
      · rw [hNext, hKeys]
      · rw [hLingering, hLingering₂, h₁.lingering]

/-! ## Following a list -/

theorem placed_ofItems (items : List Series.Item) :
    Placed items (Series.Pass.ofItems items).pool := by
  intro e he i hi
  obtain ⟨⟨item, place⟩, hIn, rfl⟩ := List.mem_map.mp he
  have hItem : items[place]? = some item := List.mem_zipIdx_iff_getElem?.mp hIn
  obtain ⟨-, hPlace⟩ := Option.ite_none_left_eq_some.mp hi
  exact ⟨item, Option.some.inj hPlace ▸ hItem, rfl⟩

section Series

variable (h : Maintained π (P.behind u) l) (hu : Keeper l u s (.series c) (.container y.box))
variable (hy : l.series[c]? = some y) (hUnder : P.Under π u)
include h hu hy hUnder

theorem Maintained.takeInHand (hDeep : 3 * π.cap (l.dom.key (.container y.box)) + 1 ≤ n) :
    Matched π P (l.withSeries c { y with items := [] }) u s c y.box y.factory n y.items
        (.ofItems y.items) (y.items.map (·.node)) P.pinned ∧
      Endures (fun _ => False) l (l.withSeries c { y with items := [] }) := by
  obtain ⟨hHand, hRow, -⟩ := hUnder.idle
  have hHand' : (P.behind u).hand u = [] := hHand
  have hRow' : (P.behind u).row u = none := hRow
  have hPool : (Series.Pass.ofItems y.items).pool.map (·.2) = y.items :=
    (Series.pool_map y.items id).trans (List.map_id _)
  have hNone : (Series.Pass.ofItems y.items).next.map (·.2) = [] := rfl
  have hRefits : l.dom.Refits l.dom (.container y.box) := .refl h.rooted.sound _
  have hPend : (P.behind u).Elsewhere (P.busy u y.items (y.items.map (·.node)) P.pinned) l
      (.container y.box) :=
    .of_follower hu (fun _ => id) rfl rfl rfl rfl fun _ hw => ⟨if_neg hw, if_neg hw, rfl, id⟩
  have hR := restocked_withSeries (x := { y with items := [] }) hy rfl hRefits rfl
  have hAt := refilled_withSeries (x := { y with items := [] })
    hu hy rfl hRefits (P.busy u y.items (y.items.map (·.node)) P.pinned) h
    (fun item hIn => .inl ⟨item, by
      rw [List.nil_append, Pending.hand_busy] at hIn
      exact List.mem_append_left _ hIn, rfl, rfl, rfl⟩)
    ⟨List.nodup_nil, List.nodup_nil⟩ (fun _ => rfl)
    (fun hAlive => by
      have hShape := h.shelves.shape _ _ _ _ hu hAlive
      rw [hRow', Sink.shown, hy] at hShape
      rw [Pending.row_busy]
      exact hShape) fun _ => .inl (.inr rfl)
  have h₁ := h.refilled hu hR hPend hAt rfl
  have hB : Busy π P l u s c y.box y.factory n := ⟨hu, ⟨y, hy, rfl, rfl⟩, hUnder, hDeep⟩
  refine ⟨⟨⟨?_, hB.led h (fun _ _ => id) (.refl π l) (hR.endures hu), ?_, ?_, ?_⟩, ?_, ?_, rfl⟩,
    (hR.endures hu)⟩
  · rw [hPool, hNone, List.append_nil]
    exact h₁
  · rw [hNone]
    exact ⟨fun _ _ => id, (fun _ _ he => by cases he), fun _ _ => .inl⟩
  · rw [hPool, hNone, List.append_nil]
    exact h.shelves.cursors _ _ _ _ y hu hy
  · rw [hPool, hNone, List.append_nil]
    exact h.shelves.nodes _ _ _ _ y hu hy
  · rw [show (Series.Pass.ofItems y.items).next = [] from rfl, List.append_nil]
    exact placed_ofItems y.items
  · rw [hPool, hNone, List.append_nil]
    exact fun item hItem => List.mem_map_of_mem hItem

end Series

/-- All items are put back, in the order of a list. -/
theorem InHand.putBack {values : List Value}
    (h : InHand π P l u s c b factory n [] next (next.map (·.node)) pinned)
    (hKeys : next.map (·.key) = values.map Value.key) (hValue : (l.valueOf s).items = values)
    (hy : l.series[c]? = some y) (hItems : x.items = next) (hBox : x.box = y.box)
    (hFactory : x.factory = y.factory) : Leads π P l (l.withSeries c x) := by
  obtain ⟨hHand, hRow, -⟩ := h.busy.under.idle
  have hM := h.maintained
  obtain ⟨y', hy', hBox', -, hNone⟩ := h.busy.exists_record hM
  cases hy.symm.trans hy'
  have hu := h.busy.keeper
  rw [← hBox'] at hu
  have hNumbered : x.items.map (fun item => (item.key, l.valueOf item.cursor)) =
      (l.valueOf s).items.zipIdx.map fun x => (x.1.key, .nat x.2) := by
    rw [hItems, hValue]
    refine List.ext_getElem? fun i => ?_
    have hKey : (next.map (·.key))[i]? = (values.map Value.key)[i]? := by rw [hKeys]
    rw [List.getElem?_map, List.getElem?_map] at hKey
    rw [List.getElem?_map, List.getElem?_map, List.getElem?_zipIdx]
    cases hNext : next[i]? with
    | none =>
      rw [hNext] at hKey
      rw [Option.map_eq_none_iff.mp hKey.symm]
      rfl
    | some item =>
      rw [hNext] at hKey
      obtain ⟨value, hAt, hEq⟩ := Option.map_eq_some_iff.mp hKey.symm
      rw [hAt, Option.map_some, Option.map_some, Option.map_some, Nat.zero_add,
        hM.valueOf_pinned (h.pins.item i item hNext)]
      exact congrArg (fun key => some (key, Value.nat i)) hEq.symm
  have hFree : Maintained π (P.busy u ([] ++ next) (next.map (·.node)) P.pinned) l :=
    hM.relax (fun _ => id) (fun _ => id) (fun _ => id) (fun _ => id) rfl rfl rfl rfl h.pins.old
  have hRefits : l.dom.Refits l.dom (.container y.box) := .refl hM.rooted.sound _
  have hR := restocked_withSeries hy hFactory hRefits hBox
  have hAt := refilled_withSeries hu hy hFactory hRefits P hFree
    (fun item hIn => .inl ⟨item, by
      rw [hHand, List.append_nil, hItems] at hIn
      rw [hNone, Pending.hand_busy]
      exact hIn, rfl, rfl, rfl⟩)
    ⟨hItems ▸ h.cursors, hItems ▸ h.nodes⟩ (fun hNe => absurd hRow hNe)
    (fun hAlive => by
      rw [hRow, hItems]
      rw [hBox'] at hAlive ⊢
      exact h.busy.kin_eq hM hAlive) fun _ => .inr hNumbered
  have hPend : (P.busy u ([] ++ next) (next.map (·.node)) P.pinned).Elsewhere P l
      (.container y.box) :=
    .of_follower hu (fun _ => id) rfl rfl rfl rfl fun _ hw =>
      ⟨(if_neg hw).symm, (if_neg hw).symm, rfl, fun hLag => hLag.resolve_right hw⟩
  exact Leads.trans (.refl π l) (hR.endures hu) (hFree.refilled hu hR hPend hAt rfl).leads

/-- A series follows its list. -/
theorem reconcile_leads (h : Maintained π (P.behind u) l)
    (hu : Keeper l u s (.series c) (.container y.box)) (hy : l.series[c]? = some y)
    (hUnder : P.Under π u) (hReceives : Receives (Calls.upTo client k) k)
    (hSets : Sets client (k + 1)) (hv : P.pinned s = some v)
    (hDeep : 3 * π.cap (l.dom.key (.container y.box)) + 1 ≤ k + 1) :
    After (reconcile (Calls.upTo client (k + 1)) c v.items).run l fun _ l' => Leads π P l l' := by
  obtain ⟨h₁, hEndures₁⟩ := h.takeInHand hu hy hUnder hDeep
  have hValues : π.values v := by
    obtain ⟨g, hg, rfl⟩ := h.wires.pinned s v hv
    exact h.wires.value s g hg
  unfold reconcile
  refine After.get_act ?_
  rw [show l.series? c = some y from hy]
  dsimp only
  refine After.sure_bind (m := fun _ l₁ => l₁ = l.withSeries c { y with items := [] })
    (withSeries_modify hy _) ?_
  rintro _ _ rfl
  refine After.sure_bind (h₁.passOver hReceives hSets fun item hItem =>
    h.closed.item v hValues item hItem) ?_
  rintro p l₂ ⟨π₂, pinned₂, hExtends₂, hEndures₂, h₂, hKeys, hLingering⟩
  obtain ⟨y₂, hy₂, -⟩ := h₂.busy.record
  have hRow : p.next.map (·.2.node) = (p.next.map (·.2)).map (·.node) := by rw [List.map_map]; rfl
  rw [hRow] at h₂
  refine After.sure_bind (m := fun _ l₃ => Leads π P l l₃) ?_ fun _ l₃ hLeads => ?_
  · have hDone := h₂.putBack (y := y₂) (x := { y₂ with items := p.items, stats := p.stats })
      (by rw [List.map_map]; exact hKeys)
      (by rw [h₂.maintained.valueOf_pinned (h₂.pins.old s v hv)]) hy₂
      (by rw [Series.Pass.items, hLingering, List.append_nil]) rfl rfl
    have hRun : ((modifySeries c fun x => { x with items := p.items, stats := p.stats }).run l₂).2 =
        l₂.withSeries c { y₂ with items := p.items, stats := p.stats } := withSeries_modify hy₂ _
    unfold After
    rw [hRun]
    exact Leads.trans (.refl π l) hEndures₁ (Leads.trans hExtends₂ hEndures₂ hDone)
  · split
    · exact hLeads
    · exact hLeads

end LiveMarkup.Live
