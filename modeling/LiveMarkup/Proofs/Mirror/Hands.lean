import LiveMarkup.Proofs.Live.Claiming
import LiveMarkup.Proofs.Live.Arranging
import LiveMarkup.Proofs.Mirror.Conditions
import LiveMarkup.Proofs.Mirror.Arms

/-!
# Series with items in hand

While a series is brought in line with a list its items are in hand: those that no value has
claimed yet, and those that were found or made. The cursors of the latter keep their values.

* `Pending.busy`: what is under way meanwhile;
* `InHand`: a document with a series at work;
* `InHand.reuse`, `InHand.make`: an item is found, or made;
* `Matched.matchAll`: all values of a list find their items.
-/

namespace LiveMarkup.Live

variable {κ σ : Type} {π π₁ π' : Live.Plan} {P P₁ P' : Pending} {l l₁ l' : Live κ σ}
variable {u w : BindingId} {s t : SignalId} {r q node : NodeRef} {c : SeriesId} {b : ContainerId}
variable {x y : Series κ} {v : Value} {d : Dom} {client : Client κ σ} {n m : Nat}
variable {factory : ItemFactory κ} {hand hand' pool next : List Series.Item}
variable {row row' : List NodeRef} {pinned pinned' : SignalId → Option Value}

/-! ## Records of series -/

def withSeries (l : Live κ σ) (c : SeriesId) (x : Series κ) : Live κ σ :=
  { l with series := l.series.modify c fun _ => x }

theorem series_withSeries (hy : l.series[c]? = some y) :
    (l.withSeries c x).series[c]? = some x := by
  change (l.series.modify c fun _ => x)[c]? = _
  rw [Array.getElem?_modify, if_pos rfl, hy]
  rfl

theorem withSeries_modify (hy : l.series[c]? = some y) (f : Series κ → Series κ) :
    { l with series := l.series.modify c f } = l.withSeries c (f y) := by
  have hSame : l.series.modify c f = l.series.modify c fun _ => f y := by
    refine Array.ext_getElem? fun i => ?_
    rw [Array.getElem?_modify, Array.getElem?_modify]
    split
    · rename_i hEq
      rw [← hEq, hy]
      rfl
    · rfl
  rw [hSame, withSeries]

theorem withSeries_self (hy : l.series[c]? = some y) : l.withSeries c y = l := by
  have hSame : (l.series.modify c fun _ => y) = l.series := by
    refine Array.ext_getElem? fun i => ?_
    rw [Array.getElem?_modify]
    split
    · rename_i hEq
      rw [← hEq, hy]
      rfl
    · rfl
  rw [withSeries, hSame]

/-- An item that was just made for a series, and that nobody keeps yet. -/
structure Novel (π : Plan) (P : Pending) (l : Live κ σ) (u : BindingId) (b : ContainerId)
    (factory : ItemFactory κ) (item : Series.Item) : Prop where
  fit : Fit π P l (.container b) item.node
  off : l.dom.isPlaced item.node = false
  made : ItemMade π l factory item
  lt : item.cursor < l.signals.size
  role : π.role item.cursor = { owner := u + 1, room := π.cap (l.dom.key (.container b)) }

/-- The same item, whether it lingers or not. -/
def Series.Item.Same (item old : Series.Item) : Prop :=
  old.node = item.node ∧ old.cursor = item.cursor ∧ old.key = item.key

theorem ItemMade.same {item old : Series.Item} (h : ItemMade π l factory old)
    (hSame : item.Same old) : ItemMade π l factory item := by
  obtain ⟨hNode, hCursor, hKey⟩ := hSame
  rw [ItemMade, hNode, hCursor, hKey] at h
  exact h

theorem mem_stock_series (hy : l.series[c]? = some y) :
    node ∈ (Sink.series c).stock l hand ↔ ∃ item ∈ y.items ++ hand, item.node = node := by
  rw [Sink.stock, hy, Option.map_some, Option.getD_some, List.mem_map]

section Records

variable (hu : Keeper l u s (.series c) (.container y.box)) (hy : l.series[c]? = some y)
variable (hFactory : x.factory = y.factory) (hRefits : l.dom.Refits d (.container y.box))
include hy hFactory hRefits

theorem restocked_withSeries (hBox : x.box = y.box) :
    Restocked l ((l.withSeries c x).withDom d) (.container y.box) :=
  Restocked.of_series (f := fun _ => x) hRefits.toSameParts hRefits.sound hRefits.kin hy hBox
    hFactory rfl

include hu in
/-- The new record says of the series what it has to. -/
theorem refilled_withSeries (P' : Pending) (h : Maintained π P₁ l)
    (hItems : ∀ item ∈ x.items ++ P'.hand u, (∃ old ∈ y.items ++ P₁.hand u, item.Same old) ∨
      Novel π P₁ l u y.box y.factory item)
    (hNodup : (x.items.map (·.cursor)).Nodup ∧ (x.items.map (·.node)).Nodup)
    (hRow : P'.row u ≠ none → x.items = [])
    (hShape : ¬ Dead P₁.dying l.trackedOf (l.dom.key (.container y.box)) →
      d.kin (.container y.box) = (P'.row u).getD (x.items.map (·.node)))
    (hCurrent : l.statusOf u = .connected → P'.lagging u ∨
      x.items.map (fun item => (item.key, l.valueOf item.cursor)) =
        (l.valueOf s).items.zipIdx.map fun (item, index) => (item.key, .nat index)) :
    Refilled π P₁ P' l ((l.withSeries c x).withDom d) (.container y.box) u s (.series c) := by
  have hx : ((l.withSeries c x).withDom d).series[c]? = some x := series_withSeries hy
  have hp := h.rigs.known _ _ _ _ hu
  refine ⟨fun n hn => ?_, fun n hn => ?_, fun b hb hAlive => ?_, fun x' hx' => ?_, fun hOn => ?_⟩
  · obtain ⟨item, hIn, rfl⟩ := (mem_stock_series hx).mp hn
    refine (hItems item hIn).imp (fun ⟨old, hOld, hNode, _⟩ => ?_) Novel.fit
    exact (mem_stock_series hy).mpr ⟨old, hOld, hNode⟩
  · obtain ⟨item, hIn, rfl⟩ := (mem_stock_series hx).mp hn
    rcases hItems item hIn with ⟨old, hOld, hNode, -⟩ | hNew
    · have hStock := (mem_stock_series hy).mpr ⟨old, hOld, hNode⟩
      exact hRefits.mem_kin_of_isPlaced h.rooted.sound hp (h.shelves.known _ _ _ _ _ hu hStock).1
        (h.shelves.placed _ _ _ _ _ hu hStock)
    · exact hRefits.mem_kin_of_isPlaced h.rooted.sound hp hNew.fit.known fun hOn =>
        absurd hOn (by rw [hNew.off]; exact Bool.false_ne_true)
  · rw [Sink.shown, hx]
    exact hShape hAlive
  · cases hx.symm.trans hx'
    refine ⟨fun item hIn => ?_, hNodup.1, hNodup.2, hRow⟩
    rw [hFactory]
    rcases hItems item hIn with ⟨old, hOld, hSame⟩ | hNew
    · obtain ⟨hNode, hCursor, -⟩ := id hSame
      have hRole := h.shelves.cursor u s c _ y old hu hy hOld
      rw [hCursor] at hRole
      refine ⟨fun hAlive => (h.shelves.item u s c _ y old hu hy hOld ?_).same hSame, hRole⟩
      rwa [hNode]
    · exact ⟨fun _ => hNew.made, hNew.lt, hNew.role⟩
  · refine (hCurrent hOn).imp_right fun hSame => .inr (.inr fun x' hx' => ?_)
    cases hx.symm.trans hx'
    exact hSame

end Records

/-! ## What is under way -/

/-- A series has items in hand, and a row that it shows meanwhile. -/
def Pending.busy (P : Pending) (u : BindingId) (hand : List Series.Item) (row : List NodeRef)
    (pinned : SignalId → Option Value) : Pending :=
  { P.behind u with
    hand := fun w => if w = u then hand else P.hand w
    row := fun w => if w = u then some row else P.row w
    pinned }

namespace Pending

theorem hand_busy : (P.busy u hand row pinned).hand u = hand := if_pos rfl

theorem row_busy : (P.busy u hand row pinned).row u = some row := if_pos rfl

theorem busy_elsewhere (hu : Keeper l u s (.series c) r) :
    (P.busy u hand row pinned).Elsewhere (P.busy u hand' row' pinned) l r :=
  .of_follower hu (fun _ => id) rfl rfl rfl rfl fun _ hw =>
    ⟨(if_neg hw).trans (if_neg hw).symm, (if_neg hw).trans (if_neg hw).symm, rfl, id⟩

end Pending

/-- The cursors of items that were found or made keep their values, which count the items. -/
structure Pins (P : Pending) (next : List Series.Item) (pinned : SignalId → Option Value) :
    Prop where
  old : ∀ t v, P.pinned t = some v → pinned t = some v
  item : ∀ (i : Nat) (e : Series.Item), next[i]? = some e → pinned e.cursor = some (.nat i)
  only : ∀ t v, pinned t = some v → P.pinned t = some v ∨ ∃ e ∈ next, e.cursor = t

/-- One more item is found, whose cursor keeps its number. -/
theorem Pins.snoc (h : Pins P next pinned) (item : Series.Item)
    (hOld : P.pinned item.cursor = none) (hNew : ∀ e ∈ next, e.cursor ≠ item.cursor) :
    Pins P (next ++ [item]) fun t =>
      if t = item.cursor then some (.nat next.length) else pinned t := by
  refine ⟨fun t v hv => ?_, fun i e he => ?_, fun t v hv => ?_⟩
  · rw [if_neg]
    · exact h.old t v hv
    · rintro rfl
      rw [hOld] at hv
      cases hv
  · rcases Nat.lt_or_ge i next.length with hLt | hGe
    · rw [List.getElem?_append_left hLt] at he
      rw [if_neg (hNew e (List.mem_of_getElem? he))]
      exact h.item i e he
    · rw [List.getElem?_append_right hGe, List.getElem?_singleton] at he
      obtain ⟨hEq, hItem⟩ := Option.ite_none_right_eq_some.mp he
      obtain rfl := Option.some.inj hItem
      rw [if_pos rfl, show i = next.length by omega]
  · by_cases hEq : t = item.cursor
    · exact .inr ⟨item, by simp, hEq.symm⟩
    · rw [if_neg hEq] at hv
      exact (h.only t v hv).imp_right fun ⟨e, he, hEq⟩ => ⟨e, List.mem_append_left _ he, hEq⟩

/-- A series that calls can be nested deep enough for. -/
structure Busy (π : Plan) (P : Pending) (l : Live κ σ) (u : BindingId) (s : SignalId)
    (c : SeriesId) (b : ContainerId) (factory : ItemFactory κ) (n : Nat) : Prop where
  keeper : Keeper l u s (.series c) (.container b)
  record : ∃ y : Series κ, l.series[c]? = some y ∧ y.box = b ∧ y.factory = factory
  under : P.Under π u
  deep : 3 * π.cap (l.dom.key (.container b)) + 1 ≤ n

theorem Busy.led (h : Busy π P l u s c b factory n) (hMaintained : Maintained π P₁ l)
    (hPinned : ∀ t v, P.pinned t = some v → P₁.pinned t = some v) (hExtends : π.Extends π₁ l)
    (hEndures : Endures (fun _ => False) l l') : Busy π₁ P l' u s c b factory n where
  keeper := hEndures.follower h.keeper
  record := by
    obtain ⟨y, hy, hBox, hFactory⟩ := h.record
    obtain ⟨y', hy', hBox', hFactory'⟩ := hEndures.series c y hy
    exact ⟨y', hy', hBox'.trans hBox, hFactory'.trans hFactory⟩
  under := h.under.extended hMaintained hPinned hExtends
  deep := by
    rw [hExtends.cap_key hEndures hMaintained.rooted.sound
      (hMaintained.rigs.known _ _ _ _ h.keeper)]
    exact h.deep

namespace Busy

variable (hB : Busy π P l u s c b factory n) (h : Maintained π (P.busy u hand row pinned) l)
include hB h

theorem exists_record : ∃ y : Series κ, l.series[c]? = some y ∧ y.box = b ∧ y.factory = factory ∧
    y.items = [] := by
  obtain ⟨y, hy, hBox, hFactory⟩ := hB.record
  exact ⟨y, hy, hBox, hFactory, h.shelves.handed _ _ _ _ y hB.keeper hy (by
    rw [Pending.row_busy]
    exact nofun)⟩

theorem mem_stock : node ∈ (Sink.series c).stock l ((P.busy u hand row pinned).hand u) ↔
    ∃ item ∈ hand, item.node = node := by
  obtain ⟨y, hy, -, -, hNone⟩ := hB.exists_record h
  rw [Pending.hand_busy, mem_stock_series hy, hNone, List.nil_append]

theorem role {item : Series.Item} (hIn : item ∈ hand) : item.cursor < l.signals.size ∧
    π.role item.cursor = { owner := u + 1, room := π.cap (l.dom.key (.container b)) } := by
  obtain ⟨y, hy, -⟩ := hB.record
  refine h.shelves.cursor _ _ _ _ y item hB.keeper hy ?_
  rw [Pending.hand_busy]
  exact List.mem_append_right _ hIn

theorem kin_eq (hAlive : ¬ Dead P.dying l.trackedOf (l.dom.key (.container b))) :
    l.dom.kin (.container b) = row := by
  have hShape := h.shelves.shape _ _ _ _ hB.keeper hAlive
  rw [Sink.shown, Pending.row_busy] at hShape
  exact hShape

/-- What is in hand changes, and what is shown along with the tree. -/
theorem refits (hand' : List Series.Item) (row' : List NodeRef)
    (hRefits : l.dom.Refits d (.container b))
    (hItems : ∀ item ∈ hand', (∃ old ∈ hand, item.Same old) ∨
      Novel π (P.busy u hand row pinned) l u b factory item)
    (hShape : ¬ Dead P.dying l.trackedOf (l.dom.key (.container b)) →
      d.kin (.container b) = row') :
    Restocked l (l.withDom d) (.container b) ∧
      Refilled π (P.busy u hand row pinned) (P.busy u hand' row' pinned) l (l.withDom d)
        (.container b) u s (.series c) := by
  obtain ⟨y, hy, rfl, rfl, hNone⟩ := hB.exists_record h
  have hR := restocked_withSeries hy rfl hRefits rfl
  have hAt := refilled_withSeries (x := y) hB.keeper hy rfl hRefits
    (P.busy u hand' row' pinned) h (fun item hIn => by
      rw [hNone, Pending.hand_busy, List.nil_append] at hIn ⊢
      exact hItems item hIn)
    (by rw [hNone]; exact ⟨List.nodup_nil, List.nodup_nil⟩) (fun _ => hNone)
    (fun hAlive => by rw [Pending.row_busy]; exact hShape hAlive) fun _ => .inl (.inr rfl)
  rw [withSeries_self hy] at hR hAt
  exact ⟨hR, hAt⟩

/-- Items are taken in hand or let go. -/
theorem rehand (hItems : ∀ item ∈ hand', (∃ old ∈ hand, item.Same old) ∨
      Novel π (P.busy u hand row pinned) l u b factory item) :
    Maintained π (P.busy u hand' row pinned) l := by
  obtain ⟨hR, hAt⟩ := hB.refits h hand' row (.refl h.rooted.sound _) hItems (hB.kin_eq h)
  exact h.refilled hB.keeper hR (Pending.busy_elsewhere hB.keeper) hAt rfl

/-- The factory of the series makes items. -/
theorem able : ∃ loop body scope hosted, factory = .body loop body scope hosted ∧
    Makeable π l u (π.cap (l.dom.key (.container b))) scope
      (fun name => name ∈ loop.names ∨ scope.Knows name) body := by
  obtain ⟨y, hy, -, rfl⟩ := hB.record
  exact h.shelves.able _ _ _ _ hB.keeper y hy

end Busy

/-- A series has items in hand: those that are left in a pool, and those that were found or made,
whose cursors keep their values. -/
structure InHand (π : Plan) (P : Pending) (l : Live κ σ) (u : BindingId) (s : SignalId)
    (c : SeriesId) (b : ContainerId) (factory : ItemFactory κ) (n : Nat)
    (pool next : List Series.Item) (row : List NodeRef) (pinned : SignalId → Option Value) :
    Prop where
  maintained : Maintained π (P.busy u (pool ++ next) row pinned) l
  busy : Busy π P l u s c b factory n
  pins : Pins P next pinned
  cursors : ((pool ++ next).map (·.cursor)).Nodup
  nodes : ((pool ++ next).map (·.node)).Nodup

namespace InHand

variable (h : InHand π P l u s c b factory n pool next row pinned)
include h

theorem role {item : Series.Item} (hIn : item ∈ pool ++ next) : item.cursor < l.signals.size ∧
    π.role item.cursor = { owner := u + 1, room := π.cap (l.dom.key (.container b)) } :=
  h.busy.role h.maintained hIn

theorem under (hand : List Series.Item) (row' : List NodeRef) :
    (P.busy u hand row' pinned).Under π (u + 1) where
  busy w hw := by
    by_cases hEq : w = u
    · exact hEq ▸ Nat.lt_succ_self u
    · refine Nat.lt_succ_of_lt (h.busy.under.busy w ?_)
      simpa only [Pending.busy, Pending.behind, if_neg hEq] using hw
  pinned t v ht := by
    rcases h.pins.only t v ht with hOld | ⟨e, he, rfl⟩
    · exact Nat.le_succ_of_le (h.busy.under.pinned t v hOld)
    · rw [(h.role (List.mem_append_right _ he)).2]
  dying := h.busy.under.dying

theorem perm {left : List Series.Item} (hPerm : left.Perm pool) :
    InHand π P l u s c b factory n left next row pinned where
  maintained := h.busy.rehand h.maintained fun item hItem =>
    .inl ⟨item, (hPerm.append_right next).mem_iff.mp hItem, rfl, rfl, rfl⟩
  busy := h.busy
  pins := h.pins
  cursors := ((hPerm.append_right next).map _).nodup_iff.mpr h.cursors
  nodes := ((hPerm.append_right next).map _).nodup_iff.mpr h.nodes

end InHand

/-! ## Finding items -/

theorem claimed_perm {α : Type} {item item' : Series.Item} (f : Series.Item → α)
    (hPerm : pool.Perm (item :: hand)) (hf : f item' = f item) :
    ((hand ++ (next ++ [item'])).map f).Perm ((pool ++ next).map f) := by
  have hOld : ((pool ++ next).map f).Perm (f item :: (hand ++ next).map f) :=
    (hPerm.append_right next).map f
  refine List.Perm.trans ?_ hOld.symm
  rw [← List.append_assoc, List.map_append, List.map_singleton, hf]
  exact List.perm_append_singleton _ _

/-- A claimed item keeps its node, and its cursor gets its number in the list. -/
theorem InHand.reuse (h : InHand π P l u s c b factory n pool next row pinned)
    (hSets : Sets client n) {item item' : Series.Item} (hPerm : pool.Perm (item :: hand))
    (hSame : item'.Same item) :
    After (setIfChanged (Calls.upTo client n) item.cursor (.nat next.length)) l fun _ l' =>
      ∃ π' pinned', π.Extends π' l ∧ Endures (fun _ => False) l l' ∧
        InHand π' P l' u s c b factory n hand (next ++ [item']) row pinned' := by
  have hIn : item ∈ pool ++ next :=
    List.mem_append_left _ (hPerm.mem_iff.mpr List.mem_cons_self)
  obtain ⟨hLt, hRole⟩ := h.role hIn
  obtain ⟨hNode, hCursor, -⟩ := id hSame
  have hNew : ∀ e ∈ next, e.cursor ≠ item.cursor := fun e he hEq => by
    have hAll := ((hPerm.append_right next).map (·.cursor)).nodup_iff.mp h.cursors
    rw [List.cons_append, List.map_cons, List.nodup_cons] at hAll
    exact hAll.1 (hEq ▸ List.mem_map_of_mem (List.mem_append_right _ he))
  have hOld : P.pinned item.cursor = none := Option.eq_none_iff_forall_ne_some.mpr fun v hv => by
    have hOwner := h.busy.under.pinned _ v hv
    rw [hRole] at hOwner
    exact absurd hOwner (Nat.not_succ_le_self u)
  have hFree : pinned item.cursor = none := Option.eq_none_iff_forall_ne_some.mpr fun v hv => by
    rcases h.pins.only _ v hv with hv | ⟨e, he, hEq⟩
    · rw [hOld] at hv
      cases hv
    · exact hNew e he hEq
  have hPins := h.pins.snoc item' (hCursor ▸ hOld) (hCursor ▸ hNew)
  rw [← hCursor] at hPins
  have hDone : ∀ l', Leads π ((P.busy u (pool ++ next) row pinned).pin item.cursor
      (.nat next.length)) l l' → ∃ π' pinned', π.Extends π' l ∧ Endures (fun _ => False) l l' ∧
        InHand π' P l' u s c b factory n hand (next ++ [item']) row pinned' := by
    rintro l' ⟨π', hExtends, hEndures, h'⟩
    have hB := h.busy.led h.maintained h.pins.old hExtends hEndures
    refine ⟨π', _, hExtends, hEndures, Busy.rehand hB h' fun e he => .inl ?_, hB, hPins,
      (claimed_perm (·.cursor) hPerm hCursor.symm).nodup_iff.mpr h.cursors,
      (claimed_perm (·.node) hPerm hNode.symm).nodup_iff.mpr h.nodes⟩
    have hRefl : ∀ e : Series.Item, e.Same e := fun e => ⟨rfl, rfl, rfl⟩
    rcases List.mem_append.mp he with he | he
    · exact ⟨e, List.mem_append_left _ (hPerm.mem_iff.mpr (List.mem_cons_of_mem _ he)), hRefl e⟩
    · rcases List.mem_append.mp he with he | he
      · exact ⟨e, List.mem_append_right _ he, hRefl e⟩
      · obtain rfl := List.mem_singleton.mp he
        exact ⟨item, hIn, hSame⟩
  unfold setIfChanged
  rw [after_bind, after_get]
  split
  · rename_i hEq
    obtain ⟨g, hg⟩ : ∃ g, l.signals[item.cursor]? = some g := ⟨_, Array.getElem?_eq_getElem hLt⟩
    have hValue : g.value = .nat next.length := valueOf_eq hg ▸ eq_nat_of_same hEq
    exact hDone l (hValue ▸ h.maintained.pin hg).leads
  · refine After.bind (hSets π _ l item.cursor (.nat next.length) ?_ ?_) fun _ l' hLeads =>
      hDone l' hLeads
    · exact h.maintained.relax (fun _ => id) (fun _ => id) (fun _ => id) (fun _ => .inl) rfl rfl rfl
        rfl fun _ _ => id
    obtain ⟨_, _, _, _, _, hMakes⟩ := h.busy.able h.maintained
    have hLow := hMakes.low
    have hDeep := h.busy.deep
    exact {
      lt := hLt
      value := h.maintained.closed.nat _
      fixed := by rw [hRole]
      free := hFree
      frees := fun t v ht => by
        rcases h.pins.only t v ht with hOld | ⟨e, he, rfl⟩
        · rw [hRole]
          exact .inl (Nat.lt_succ_of_le (h.busy.under.pinned t v hOld))
        · rw [hRole, (h.role (List.mem_append_right _ he)).2]
          exact .inr ⟨rfl, Nat.le_refl 0⟩
      source := fun t k f hk => by
        obtain ⟨g, hg, hIn⟩ := mem_watchersOf.mp hk
        have hRank := congrArg Role.rank (h.maintained.wires.roles t g k _ f hg hIn).1
        rw [hRole] at hRank
        cases hRank
      owner := fun w hw => by
        rw [hRole] at hw
        exact .inr (Nat.succ.inj hw).symm
      under := by
        rw [hRole]
        exact h.under _ _
      deep := by
        rw [hRole]
        exact hDeep
      rank := by
        rw [hRole]
        exact ⟨by omega, Nat.zero_le 2⟩ }

/-- The document once an item was made that is in hand now. -/
theorem InHand.make (client : Client κ σ)
    (h : InHand π P l u s c b factory (n + 1) pool next row pinned) (hv : π.values v) :
    After (newSignal (.nat next.length)) l fun cursor l₁ =>
      After ((Calls.upTo client (n + 1)).buildItem factory v cursor).run l₁ fun out l' =>
        ∃ node π' pinned', out = .ok node ∧ π.Extends π' l ∧ Endures (fun _ => False) l l' ∧
          InHand π' P l' u s c b factory (n + 1) pool
            (next ++ [{ key := v.key, node, cursor }]) row pinned' := by
  refine (newSignal_adds h.maintained (h.maintained.closed.nat next.length)
    { owner := u + 1, room := π.cap (l.dom.key (.container b)) }
    (Nat.le_of_lt (h.maintained.rigs.reads _ _ _ _ h.busy.keeper).2.2) nofun).mono ?_
  rintro cursor l₁ ⟨π₁, rfl, rfl, hA, hLt, hRole, -⟩
  have hB₁ := h.busy.led h.maintained h.pins.old hA.plan hA.lasts
  have hOld : ∀ e ∈ pool ++ next, e.cursor ≠ l.signals.size := fun e he =>
    Nat.ne_of_lt (h.role he).1
  have hFree : P.pinned l.signals.size = none :=
    Option.eq_none_iff_forall_ne_some.mpr fun v hv => by
    obtain ⟨g, hg, -⟩ := h.maintained.wires.pinned _ v (h.pins.old _ v hv)
    exact absurd (Array.getElem?_eq_some_iff.mp hg).1 (Nat.lt_irrefl _)
  let cursor : Signal κ := { value := .nat next.length }
  have hSignal : (l.signals.push cursor)[l.signals.size]? = some cursor := Array.getElem?_push_size
  have h₁ := hA.maintained.pin hSignal
  have hUnder₁ := ((h.under (pool ++ next) row).extended h.maintained
    (fun _ _ => id) hA.plan).pin (s := l.signals.size) (v := .nat next.length) (by rw [hRole])
  obtain ⟨loop, body, scope, hosted, rfl, hMakes⟩ := hB₁.able hA.maintained
  have hCap := hA.plan.cap_key hA.lasts h.maintained.rooted.sound
    (h.maintained.rigs.known _ _ _ _ h.busy.keeper)
  have hLow := hMakes.low
  refine (renderItem_yields h₁ hUnder₁ hB₁.keeper.lt_size
    (fun name t ht => (hMakes.signals name t ht).imp_right (And.imp_right (And.imp_left
      Nat.le_succ_of_le))) hMakes.plain ⟨hLt, by rw [hRole], by rw [hRole], by
        rw [hRole, ← hCap]
        exact hLow⟩ (hA.plan.values ▸ hv)).mono ?_
  rintro out l' ⟨node, item, index, π', rfl, hY, hDerives, hFixed, hItem⟩
  have h' := hY.adds.maintained
  have hB' := hB₁.led h₁ (fun t v hv => (if_neg (by
    rintro rfl
    rw [hFree] at hv
    cases hv)).trans (h.pins.old t v hv)) hY.adds.plan hY.adds.lasts
  have hFit := hY.fit h₁ h.busy.under.dying hB₁.keeper hLow
  have hNovel : Novel π' ((P.busy u (pool ++ next) row pinned).pin l.signals.size
      (.nat next.length)) l' u b (.body loop body scope hosted)
      { key := v.key, node, cursor := l.signals.size } :=
    { fit := hFit
      off := hY.stray.off
      made := ⟨loop, body, scope, hosted, index, item, v, rfl, hFixed, hItem, rfl,
        hDerives, hY.made⟩
      lt := Nat.lt_of_lt_of_le hLt hY.adds.lasts.signals_size
      role := by
        rw [hY.adds.plan.role _ hLt, hRole, hY.adds.plan.cap_key hY.adds.lasts h₁.rooted.sound
          (h₁.rigs.known _ _ _ _ hB₁.keeper), hCap] }
  have hNode : ∀ e ∈ pool ++ next, e.node ≠ node := fun e he hEq =>
    hFit.free _ _ _ _ hB'.keeper ((hB'.mem_stock h').mpr ⟨e, he, hEq⟩)
  refine ⟨node, π', _, rfl, hA.plan.trans hA.lasts hY.adds.plan, hA.lasts.trans hY.adds.lasts,
    hB'.rehand h' fun e he => ?_, hB', h.pins.snoc _ hFree fun e he =>
      hOld e (List.mem_append_right _ he), ?_, ?_⟩
  · rw [← List.append_assoc] at he
    rcases List.mem_append.mp he with he | he
    · exact .inl ⟨e, he, rfl, rfl, rfl⟩
    · obtain rfl := List.mem_singleton.mp he
      exact .inr hNovel
  · rw [← List.append_assoc, List.map_append, List.nodup_append]
    refine ⟨h.cursors, List.nodup_singleton _, fun t ht t' ht' => ?_⟩
    obtain ⟨e, he, rfl⟩ := List.mem_map.mp ht
    obtain rfl := List.mem_singleton.mp ht'
    exact hOld e he
  · rw [← List.append_assoc, List.map_append, List.nodup_append]
    refine ⟨h.nodes, List.nodup_singleton _, fun t ht t' ht' => ?_⟩
    obtain ⟨e, he, rfl⟩ := List.mem_map.mp ht
    obtain rfl := List.mem_singleton.mp ht'
    exact hNode e he

/-- The places of items are those where their nodes were before. -/
def Placed (former : List Series.Item) (entries : List Series.Entry) : Prop :=
  ∀ e ∈ entries, ∀ i, e.1 = some i → ∃ item, former[i]? = some item ∧ item.node = e.2.node

/-- While values are looked at, the items of a pass are in hand. -/
structure Matched (π : Plan) (P : Pending) (l : Live κ σ) (u : BindingId) (s : SignalId)
    (c : SeriesId) (b : ContainerId) (factory : ItemFactory κ) (n : Nat)
    (former : List Series.Item) (p : Series.Pass) (row : List NodeRef)
    (pinned : SignalId → Option Value) : Prop where
  inHand : InHand π P l u s c b factory n (p.pool.map (·.2)) (p.next.map (·.2)) row pinned
  placed : Placed former (p.pool ++ p.next)
  covered : ∀ item ∈ former, item.node ∈ (p.pool.map (·.2) ++ p.next.map (·.2)).map (·.node)
  lingering : p.lingering = []

section Matching

variable {former : List Series.Item} {p : Series.Pass}

/-- A value finds its item, or one is made. -/
theorem Matched.matchItem (h : Matched π P l u s c b factory n former p row pinned)
    (hSets : Sets client n) (hv : π.values v) :
    After (matchItem (Calls.upTo client n) factory p v p.next.length) l fun p' l' =>
      ∃ π' pinned', π.Extends π' l ∧ Endures (fun _ => False) l l' ∧
        Matched π' P l' u s c b factory n former p' row pinned' ∧
          p'.next.map (·.2.key) = p.next.map (·.2.key) ++ [v.key] := by
  have hLength : (p.next.map (·.2)).length = p.next.length := List.length_map _
  unfold Live.matchItem
  cases hClaim : Series.claim? v.key p.pool with
  | some found =>
    obtain ⟨⟨place, item⟩, pool⟩ := found
    obtain ⟨hKey, hPerm⟩ := claim?_some hClaim
    refine After.bind (m := fun _ l' => ∃ π' pinned', π.Extends π' l ∧
      Endures (fun _ => False) l l' ∧ InHand π' P l' u s c b factory n (pool.map (·.2))
        (p.next.map (·.2) ++ [{ item with lingers := false }]) row pinned')
      (hLength ▸ h.inHand.reuse hSets (hPerm.map _) ⟨rfl, rfl, rfl⟩) ?_
    rintro _ l' ⟨π', pinned', hExtends, hEndures, h'⟩
    refine after_pure.mpr ⟨π', pinned', hExtends, hEndures,
      ⟨?_, fun e he i hi => ?_, fun e he => ?_, h.lingering⟩, ?_⟩
    · simpa only [Series.Pass.reuse, List.map_append, List.map_cons, List.map_nil] using h'
    · rcases List.mem_append.mp he with he | he
      · exact h.placed e (List.mem_append_left _
          (hPerm.mem_iff.mpr (List.mem_cons_of_mem _ he))) i hi
      · rcases List.mem_append.mp he with he | he
        · exact h.placed e (List.mem_append_right _ he) i hi
        · obtain rfl := List.mem_singleton.mp he
          exact h.placed (place, item) (List.mem_append_left _ (hPerm.mem_iff.mpr
            List.mem_cons_self)) i hi
    · have hSame : ((pool.map Prod.snd ++ (p.next.map Prod.snd ++
          [{ item with lingers := false }])).map Series.Item.node).Perm
            ((p.pool.map Prod.snd ++ p.next.map Prod.snd).map Series.Item.node) :=
        claimed_perm Series.Item.node (hPerm.map Prod.snd) rfl
      simpa [Series.Pass.reuse] using hSame.mem_iff.mpr (h.covered e he)
    · simpa [Series.Pass.reuse] using hKey
  | none =>
    obtain ⟨k, rfl⟩ : ∃ k, n = k + 1 := ⟨n - 1, by have := h.inHand.busy.deep; omega⟩
    refine After.bind (hLength ▸ h.inHand.make client hv) ?_
    intro cursor l₁ hMade
    refine After.bind hMade ?_
    rintro _ l' ⟨node, π', pinned', rfl, hExtends, hEndures, h'⟩
    refine after_pure.mpr ⟨π', pinned', hExtends, hEndures,
      ⟨?_, fun e he i hi => ?_, fun e he => ?_, h.lingering⟩, ?_⟩
    · simpa only [Series.Pass.add, List.map_append, List.map_cons, List.map_nil] using h'
    · change e ∈ p.pool ++ (p.next ++ [_]) at he
      rw [← List.append_assoc] at he
      rcases List.mem_append.mp he with he | he
      · exact h.placed e he i hi
      · obtain rfl := List.mem_singleton.mp he
        cases hi
    · change e.node ∈ (p.pool.map Prod.snd ++ (p.next ++ [_]).map Prod.snd).map Series.Item.node
      have hOld := h.covered e he
      rw [List.map_append, List.mem_append] at hOld ⊢
      refine hOld.imp_right fun hNext => ?_
      rw [List.map_append, List.map_append]
      exact List.mem_append_left _ hNext
    · simp [Series.Pass.add]

/-- All values of a list find their items. -/
theorem Matched.matchAll (h : Matched π P l u s c b factory n former p row pinned)
    (hSets : Sets client n) {values : List Value} (hNext : p.next = [])
    (hv : ∀ v ∈ values, π.values v) :
    After (values.zipIdx.foldlM
        (fun p (value, index) => Live.matchItem (Calls.upTo client n) factory p value index) p) l
      fun p' l' => ∃ π' pinned', π.Extends π' l ∧ Endures (fun _ => False) l l' ∧
        Matched π' P l' u s c b factory n former p' row pinned' ∧
          p'.next.map (·.2.key) = values.map Value.key := by
  refine (After.foldlM (k := fun rest p' l' => ∃ π' pinned', π.Extends π' l ∧
    Endures (fun _ => False) l l' ∧ Matched π' P l' u s c b factory n former p' row pinned' ∧
      p'.next.map (·.2.key) ++ rest.map (fun e => e.1.key) = values.map Value.key ∧
        rest = values.zipIdx.drop p'.next.length) ?_ ?_).mono ?_
  · refine ⟨π, pinned, .refl π l, .refl l, h, ?_, ?_⟩
    · rw [hNext]
      exact List.map_map.symm.trans (congrArg (List.map Value.key) (List.zipIdx_map_fst 0 values))
    · rw [hNext]
      rfl
  · rintro ⟨value, index⟩ rest p' l₁ ⟨π₁, pinned₁, hExtends, hEndures, h₁, hKeys, hRest⟩
    have hAt : values.zipIdx[p'.next.length]? = some (value, index) := by
      have hHead := congrArg List.head? hRest
      rw [List.head?_drop] at hHead
      exact hHead.symm
    obtain ⟨hIn, rfl⟩ : value ∈ values ∧ p'.next.length = index := by
      rw [List.getElem?_zipIdx] at hAt
      obtain ⟨_, hValue, hEq⟩ := Option.map_eq_some_iff.mp hAt
      cases hEq
      exact ⟨List.mem_of_getElem? hValue, (Nat.zero_add _).symm⟩
    refine (h₁.matchItem hSets (hExtends.values ▸ hv value hIn)).mono ?_
    rintro p₂ l₂ ⟨π₂, pinned₂, hExtends₂, hEndures₂, h₂, hKey₂⟩
    refine ⟨π₂, pinned₂, hExtends.trans hEndures hExtends₂, hEndures.trans hEndures₂, h₂, ?_, ?_⟩
    · rw [hKey₂, ← hKeys]
      simp
    · have hLength := congrArg List.length hKey₂
      simp only [List.length_map, List.length_append, List.length_singleton] at hLength
      rw [hLength, ← List.drop_drop, ← hRest]
      rfl
  · rintro p' l' ⟨π', pinned', hExtends, hEndures, h', hKeys, -⟩
    exact ⟨π', pinned', hExtends, hEndures, h', by simpa using hKeys⟩

end Matching

end LiveMarkup.Live
