import LiveMarkup.Proofs.Live.Arranging
import LiveMarkup.Proofs.Live.Claiming
import LiveMarkup.Proofs.Live.Longest

/-!
# Series in line with lists

A series is brought in line with one list after the other. However items fail to be made and
however attaching and detaching is cancelled, the items of the list come in its order, and what
stands in the container are the attached ones.

* `Aligned`: what a pass over the values of a list leaves, `passOver_aligned`: that it does;
* `Arranged`: what a call leaves, read off the items, their states and the tree;
* `Passes.arranged`: every call of a run that began with no items arranges its list.
-/

namespace LiveMarkup.Live

open Forest

variable {κ σ : Type} {client : Client κ σ} {l l₁ l' : Live κ σ} {m : Leeway κ}
variable {order : List NodeRef} {x x' : Series κ} {p : Series.Pass} {values : List Value}

/-! ## Between calls -/

/-- The items of a series, each with a node and a cursor of its own. Those that stand in the
container stand there in order, but for those that linger. -/
structure InLine (l : Live κ σ) (x : Series κ) (order : List NodeRef) (m : Leeway κ := .strict) :
    Prop where
  stock : l.Stock x.box x.items order m
  standing : Standing ((x.items.filter (!·.lingers)).map (·.node)) order

/-- Fewer items stand in order as well. -/
theorem Standing.sublist {rs rs' : List NodeRef} (h : Standing rs order) (hLess : rs'.Sublist rs) :
    Standing rs' order :=
  (hLess.filter _).trans h

theorem InLine.matching (h : l.InLine x order m) : l.Matching x order (.ofItems x.items) m := by
  have hPool : (Series.Pass.ofItems x.items).pool.map Prod.snd = x.items :=
    (Series.pool_map x.items id).trans (List.map_id _)
  have hMem : ∀ e ∈ (Series.Pass.ofItems x.items).pool, e.2 ∈ x.items ∧
      ∀ i, e.1 = some i → x.items[i]? = some e.2 ∧ e.2.lingers = false := by
    intro e he
    obtain ⟨⟨item, place⟩, hIn, rfl⟩ := List.mem_map.mp he
    have hItem : x.items[place]? = some item := List.mem_zipIdx_iff_getElem?.mp hIn
    refine ⟨List.mem_of_getElem? hItem, fun i hi => ?_⟩
    by_cases hLingers : item.lingers = true
    · simp [hLingers] at hi
    · rw [Bool.not_eq_true] at hLingers
      obtain rfl : place = i := by simpa [hLingers] using hi
      exact ⟨hItem, hLingers⟩
  have hNone : (Series.Pass.ofItems x.items).next = [] := rfl
  refine ⟨?_, fun e he i hi => ?_, fun e he => ⟨e.2, (hMem e he).1, rfl⟩, fun item hItem => ?_,
    fun e he => absurd he List.not_mem_nil, rfl⟩
  · rw [hNone, List.append_nil, hPool]
    exact h.stock
  · rw [hNone, List.append_nil] at he
    obtain ⟨hItem, hLingers⟩ := (hMem e he).2 i hi
    exact ⟨e.2, hItem, rfl, hLingers⟩
  · rw [← hPool] at hItem
    obtain ⟨e, he, rfl⟩ := List.mem_map.mp hItem
    exact ⟨e, List.mem_append_left _ he, rfl⟩

/-! ## Items that keep their places -/

namespace Matching

variable (h : l.Matching x order p m)
include h

theorem exists_former : ∀ e ∈ p.next, ∀ i, e.1 = some i →
    ∃ item, x.items[i]? = some item ∧ item.node = e.2.node := by
  intro e he i hi
  obtain ⟨item, hItem, hNode, _⟩ := h.placed e (List.mem_append_right _ he) i hi
  exact ⟨item, hItem, hNode⟩

theorem places_nodup : (p.next.filterMap (·.1)).Nodup := by
  refine Series.places_nodup h.exists_former ?_
  have hAll := h.stock.nodup
  rw [List.map_map, List.map_append] at hAll
  exact (List.nodup_append.mp hAll).2.1

/-- The items that keep their places are those at some of the former places. -/
theorem stays_eq (stable : List Nat) : stays stable p.next =
    (((p.next.filterMap (·.1)).filter stable.contains).filterMap fun i => x.items[i]?).map
      (·.node) :=
  Series.map_node_filter h.exists_former stable.contains

/-- The items that keep their places stand in the order of the list. -/
theorem stays_standing
    (hStanding : Standing ((x.items.filter (!·.lingers)).map (·.node)) order) :
    Standing (stays p.stable p.next) order := by
  refine hStanding.sublist ?_
  rw [h.stays_eq]
  refine List.Sublist.map _ ?_
  have hPlace : ∀ i ∈ p.next.filterMap (·.1),
      ∃ item, x.items[i]? = some item ∧ item.lingers = false := by
    intro i hi
    obtain ⟨e, he, hEq⟩ := List.mem_filterMap.mp hi
    obtain ⟨item, hItem, _, hLingers⟩ := h.placed e (List.mem_append_right _ he) i hEq
    exact ⟨item, hItem, hLingers⟩
  have hRises := pairwise_filter_longestRun h.places_nodup
  have hSub := (sublist_of_rising x.items hRises fun i hi => by
    obtain ⟨item, hItem, _⟩ := hPlace i (List.mem_of_mem_filter hi)
    exact (List.getElem?_eq_some_iff.mp hItem).1).filter (!·.lingers)
  rwa [List.filter_eq_self.mpr] at hSub
  intro item hItem
  obtain ⟨i, hi, hEq⟩ := List.mem_filterMap.mp hItem
  obtain ⟨item', hItem', hLingers⟩ := hPlace i (List.mem_of_mem_filter hi)
  rw [hEq] at hItem'
  rw [Option.some.inj hItem', hLingers]
  rfl

theorem clearing (hStanding : Standing ((x.items.filter (!·.lingers)).map (·.node)) order)
    {left : List Series.Item} (hLeft : left.Perm (p.pool.map (·.2))) :
    Clearing x p (stays p.stable p.next) left p order l m := by
  refine ⟨rfl, ?_, h.stays_standing hStanding, fun j hj => ?_,
    fun e he => .inl (hLeft.mem_iff.mpr (List.mem_map_of_mem he))⟩
  · rw [h.lingering, List.append_nil]
    exact h.stock.perm (List.map_append ▸ hLeft.append_right _)
  · rw [h.lingering] at hj
    cases hj

end Matching

/-! ## A pass -/

theorem leftOver_perm (calls : Calls κ σ) (p : Series.Pass) (l : Live κ σ) :
    (leftOver calls p l).Perm (p.pool.map (·.2)) :=
  calls.shuffle.perm l _

/-- What there is once all values of a list were looked at. -/
def matched (calls : Calls κ σ) (x : Series κ) (values : List Value) (l : Live κ σ) :
    Series.Pass × Live κ σ :=
  (values.zipIdx.foldlM (fun p (value, index) => matchItem calls x.factory p value index)
    (Series.Pass.ofItems x.items)).run l

/-- The items that no value claims, each with the state when it is its turn to be destroyed. -/
def removals (calls : Calls κ σ) (x : Series κ) (values : List Value) (l : Live κ σ) :
    List (Series.Item × Live κ σ) :=
  let (p, l) := matched calls x values l
  turns (removeItem calls) p (leftOver calls p l) l

/-- The items for values, each with the state when it is its turn to be brought to its place. -/
def placements (calls : Calls κ σ) (x : Series κ) (values : List Value) (l : Live κ σ) :
    List (Series.Item × Live κ σ) :=
  let (p, l) := matched calls x values l
  let (p, l) := ((leftOver calls p l).foldlM (removeItem calls) p).run l
  if x.items.isEmpty then turns (appendItem calls (.container x.box)) p (p.next.map (·.2)) l
  else placeTurns calls (.container x.box) p.stable none p p.next.reverse l

/-- What a pass over values leaves: items for the values that got one, in their order, and those
former items that were retained. The items for values stand in the container, in order, but for
those that were barred from it. -/
structure Aligned (calls : Calls κ σ) (l l' : Live κ σ) (x : Series κ) (values : List Value)
    (current lingering : List Series.Item) (order : List NodeRef) (m : Leeway κ := .strict) :
    Prop where
  stock : l'.Stock x.box (current ++ lingering) order m
  numbered : current.map (fun item => (item.key, l'.valueOf item.cursor)) =
    (served calls x.factory (.ofItems x.items) values.zipIdx l).map
      fun (value, index) => (value.key, Value.nat index)
  listed : ∀ item ∈ current, item.lingers = false
  standing : Standing (current.map (·.node)) order
  whole : ∀ item ∈ current, item.node ∈ order ↔
    item.node ∉ barred calls x.box (placements calls x values l)
  left : lingering = retained calls (removals calls x values l)
  former : ∀ item ∈ lingering, item.lingers = true ∧ ∃ former ∈ x.items, former.node = item.node
  gone : ∀ former ∈ x.items, (∃ item ∈ current ++ lingering, item.node = former.node) ∨
    l'.stateOf former.node = .destroyed
  final : ∀ r, l.dom.Known r → l.stateOf r = .destroyed →
    l'.dom.Known r ∧ l'.stateOf r = .destroyed
  values : ∀ t < l.signals.size, ¬ m.Drives l t → t ∉ x.items.map (·.cursor) →
    l'.valueOf t = l.valueOf t
  drives : ∀ t < l.signals.size, m.Drives l' t ↔ m.Drives l t
  slight : ∀ sink : Sink κ, sink.Slight l m → sink.Slight l' m

namespace Aligned

variable {calls : Calls κ σ} {current lingering : List Series.Item}
variable (h : Aligned calls l l' x values current lingering order m)
include h

theorem filter_current : (current ++ lingering).filter (!·.lingers) = current := by
  have hCurrent : current.filter (!·.lingers) = current :=
    List.filter_eq_self.mpr fun item hItem => by simp [h.listed item hItem]
  have hLingering : lingering.filter (!·.lingers) = [] :=
    List.filter_eq_nil_iff.mpr fun item hItem => by simp [(h.former item hItem).1]
  rw [List.filter_append, hCurrent, hLingering, List.append_nil]

theorem filter_lingering : (current ++ lingering).filter (·.lingers) = lingering := by
  have hCurrent : current.filter (·.lingers) = [] :=
    List.filter_eq_nil_iff.mpr fun item hItem => by simp [h.listed item hItem]
  have hLingering : lingering.filter (·.lingers) = lingering :=
    List.filter_eq_self.mpr fun item hItem => (h.former item hItem).1
  rw [List.filter_append, hCurrent, hLingering, List.nil_append]

theorem inLine (hBox : x'.box = x.box) (hItems : x'.items = current ++ lingering) :
    l'.InLine x' order m := by
  refine ⟨by rw [hBox, hItems]; exact h.stock, ?_⟩
  rw [hItems, h.filter_current]
  exact h.standing

end Aligned

theorem Frame.numbering (h : Frame l l' m) {e : Option Nat × Series.Item}
    (he : ¬ m.Drives l e.2.cursor) : l'.numbering e = l.numbering e := by
  simp only [Live.numbering, h.kept _ he]

/-- Placing that is done leaves items in line. -/
theorem Clearing.aligned {calls : Calls κ σ} {p₀ : Series.Pass} {S order₁ order' : List NodeRef}
    {l₀ : Live κ σ} (hMatching : l₀.Matching x order p₀ m)
    (hNumbers : p₀.next.map l₀.numbering = (served calls x.factory (.ofItems x.items)
      values.zipIdx l).map fun (value, index) => (value.key, Value.nat index))
    (hValues : ∀ t < l.signals.size, ¬ m.Drives l t → t ∉ x.items.map (·.cursor) →
      l₀.valueOf t = l.valueOf t) (hP₀ : Passed l l₀ x.box m)
    {p₁ p : Series.Pass} (hFrame₁ : Frame l₀ l₁ m) (hClearing : Clearing x p₀ S [] p₁ order₁ l₁ m)
    (hP₁ : Passed l₀ l₁ x.box m) (hFrame : Frame l₁ l' m) (hP : Passed l₁ l' x.box m)
    (hNext : p.next = p₁.next) (hLingering : p.lingering = p₁.lingering)
    (hLeft : p₁.lingering = retained calls (removals calls x values l))
    (hPlacing : Placing x.box (p.next.map Prod.snd ++ p.lingering) [] (p.next.map (·.2.node))
      (barred calls x.box (placements calls x values l)) order' l' m) :
    Aligned calls l l' x values (p.next.map (·.2)) p.lingering order' m where
  stock := hPlacing.stock
  numbered := by
    have hCursor : ∀ e ∈ p₀.next, ¬ m.Drives l₀ e.2.cursor := fun e he =>
      hMatching.stock.cursors.undriven _
        (List.mem_map_of_mem (List.mem_map_of_mem (List.mem_append_right _ he)))
    rw [← hNumbers, hNext, hClearing.next, List.map_map]
    refine List.map_congr_left fun e he => ?_
    rw [← hFrame₁.numbering (hCursor e he),
      ← hFrame.numbering (mt (hFrame₁.drives_iff _).mp (hCursor e he))]
    rfl
  listed item hItem := by
    obtain ⟨e, he, rfl⟩ := List.mem_map.mp hItem
    rw [hNext, hClearing.next] at he
    exact hMatching.current e he
  standing := by
    rw [List.map_map]
    exact hPlacing.standing
  whole item hItem := by
    obtain ⟨e, he, rfl⟩ := List.mem_map.mp hItem
    exact hPlacing.whole _ (List.mem_map_of_mem he)
  left := hLingering.trans hLeft
  former item hItem := by
    rw [hLingering] at hItem
    obtain ⟨hLingers, e, he, hNode⟩ := hClearing.lingering item hItem
    obtain ⟨former, hFormer, hEq⟩ := hMatching.former e he
    exact ⟨hLingers, former, hFormer, hEq.trans hNode⟩
  gone former hFormer := by
    obtain ⟨e, he, hNode⟩ := hMatching.covered former hFormer
    rcases List.mem_append.mp he with hPool | hFound
    · rcases hClearing.gone e hPool with hLeft | ⟨item, hItem, hEq⟩ | ⟨hKnown, hGone⟩
      · cases hLeft
      · exact .inl ⟨item, List.mem_append_right _ (hLingering ▸ hItem), hEq.trans hNode⟩
      · exact .inr (hNode ▸ hP.destroyed _ hKnown hGone)
    · refine .inl ⟨e.2, List.mem_append_left _ (List.mem_map_of_mem ?_), hNode⟩
      rw [hNext, hClearing.next]
      exact hFound
  final r hr hState :=
    have hAll := (hP₀.trans hP₁).trans hP
    ⟨hAll.known r hr, hAll.destroyed r hr hState⟩
  values t ht hUndriven hOther := by
    have h₀ := mt (hP₀.drives t ht).mp hUndriven
    rw [hFrame.kept t (mt (hFrame₁.drives_iff t).mp h₀), hFrame₁.kept t h₀]
    exact hValues t ht hUndriven hOther
  drives t ht :=
    (hFrame.drives_iff t).trans ((hFrame₁.drives_iff t).trans (hP₀.drives t ht))
  slight _ h := hFrame.slight (hFrame₁.slight (hP₀.slight _ h))

section Passing

variable (hClient : client.Quiet) (depth : Nat)
variable (hCrafts : Crafts (Calls.upTo client (depth + 2)) x.factory m)
include hClient

/-- Placing in a series that had no items appends all of them, else it goes from the last to the
first. -/
theorem placeAll_placing {p₀ : Series.Pass} {order₁ : List NodeRef}
    (hClearing : Clearing x p₀ (stays p₀.stable p₀.next) [] p order₁ l m)
    (hEmpty : x.items = [] → order₁ = []) :
    After (if x.items.isEmpty then
        (p.next.map (·.2)).foldlM
          (appendItem (Calls.upTo client (depth + 2)) (.container x.box)) p
      else placeItems (Calls.upTo client (depth + 2)) (.container x.box) p.stable none p
        p.next.reverse) l fun p' l' =>
      Frame l l' m ∧ Passed l l' x.box m ∧ p'.next = p.next ∧ p'.lingering = p.lingering ∧
        ∃ order', Placing x.box (p.next.map Prod.snd ++ p.lingering) [] (p.next.map (·.2.node))
          (barred (Calls.upTo client (depth + 2)) x.box
            (if x.items.isEmpty then
              turns (appendItem (Calls.upTo client (depth + 2)) (.container x.box)) p
                (p.next.map (·.2)) l
            else placeTurns (Calls.upTo client (depth + 2)) (.container x.box) p.stable none p
              p.next.reverse l)) order' l' m := by
  have hStock : l.Stock x.box (p.next.map Prod.snd ++ p.lingering) order₁ m := hClearing.stock
  have hNodes : ((p.next.map (·.2)).map (·.node)).Nodup := by
    have hAll := hStock.nodup
    rw [List.map_append] at hAll
    exact (List.nodup_append.mp hAll).1
  have hItem : ∀ e ∈ p.next, e.2.node ∈ (p.next.map Prod.snd ++ p.lingering).map (·.node) :=
    fun e he => List.mem_map_of_mem (List.mem_append_left _ (List.mem_map_of_mem he))
  have hNone : ∀ r ∈ ([] : List NodeRef), r ∈ order₁ ↔ r ∉ ([] : List NodeRef) := fun r hr =>
    absurd hr List.not_mem_nil
  split
  · rename_i hEmptied
    have hOrder := hEmpty (List.isEmpty_iff.mp hEmptied)
    subst hOrder
    have hStart : Placing x.box (p.next.map Prod.snd ++ p.lingering) [] [] [] [] l m :=
      ⟨hStock, List.Sublist.refl [], fun _ hr => hr, hNone⟩
    refine (appendAll_placing hClient depth (fun item hIn => ?_) hNodes
      (fun _ _ => ⟨List.not_mem_nil, List.not_mem_nil⟩) hStart).mono ?_
    · obtain ⟨e, he, rfl⟩ := List.mem_map.mp hIn
      exact hItem e he
    · rintro p' l' ⟨hFrame, hP, hNext, hLingering, order', hPlacing⟩
      rw [List.nil_append, List.nil_append, List.map_map] at hPlacing
      exact ⟨hFrame, hP, hNext, hLingering, order', hPlacing⟩
  · have hStable : p.stable = p₀.stable := by
      simp only [Series.Pass.stable, hClearing.next]
    have hStart : Placing x.box (p.next.map Prod.snd ++ p.lingering)
        (stays p.stable p.next.reverse.reverse) [] [] order₁ l m := by
      refine ⟨hStock, ?_, fun _ hr => hr, hNone⟩
      rw [List.append_nil, List.reverse_reverse, hStable, hClearing.next]
      exact hClearing.standing
    refine (placeItems_placing hClient depth p.stable
      (fun e he => hItem e (List.mem_reverse.mp he)) ?_ hStart).mono ?_
    · rw [List.append_nil, List.map_reverse, List.nodup_reverse]
      rwa [List.map_map] at hNodes
    · rintro p' l' ⟨hFrame, hP, hNext, hLingering, order', hPlacing⟩
      rw [List.append_nil, List.reverse_reverse, List.nil_append] at hPlacing
      exact ⟨hFrame, hP, hNext, hLingering, order', hPlacing⟩

include hCrafts

/-- What a whole pass over values leaves. -/
theorem passOver_aligned (h : l.InLine x order m) (values : List Value) :
    After (passOver (Calls.upTo client (depth + 2)) x values) l fun p l' =>
      Passed l l' x.box m ∧ ∃ order', Aligned (Calls.upTo client (depth + 2)) l l' x values
        (p.next.map (·.2)) p.lingering order' m := by
  unfold passOver
  refine (matchAll_matching hClient depth hCrafts h.matching values.zipIdx).run_eq.bind ?_
  rintro p₀ l₀ ⟨hRun, hMatching, hP₀, hNumbers⟩
  have hMatched : matched (Calls.upTo client (depth + 2)) x values l = (p₀, l₀) := hRun
  have hValues : ∀ t < l.signals.size, ¬ m.Drives l t → t ∉ x.items.map (·.cursor) →
      l₀.valueOf t = l.valueOf t := by
    intro t ht hUndriven hOther
    have hSame := matchAll_values hClient depth hCrafts h.matching values.zipIdx ht hUndriven ?_
    · rwa [After, hRun] at hSame
    · rw [Series.pool_map]
      exact hOther
  have hStays : ∀ r ∈ stays p₀.stable p₀.next, r ∈ (p₀.next.map Prod.snd).map (·.node) := by
    intro r hr
    obtain ⟨e, he, rfl⟩ := List.mem_map.mp hr
    exact List.mem_map_of_mem (List.mem_map_of_mem (List.mem_of_mem_filter he))
  rw [after_bind, after_get]
  have hPerm := leftOver_perm (Calls.upTo client (depth + 2)) p₀ l₀
  refine (removeAll_clearing hClient depth (hMatching.clearing h.standing hPerm) hStays
    fun item hItem => ?_).run_eq.bind ?_
  · obtain ⟨e, he, rfl⟩ := List.mem_map.mp (hPerm.mem_iff.mp hItem)
    exact ⟨e, he, rfl⟩
  rintro p₁ l₁ ⟨hRun₁, hFrame₁, hP₁, hLeft, order₁, hLess, hClearing⟩
  refine (placeAll_placing hClient depth hClearing fun hNone => ?_).mono ?_
  · refine List.eq_nil_iff_forall_not_mem.mpr fun r hr => ?_
    have hItem := h.stock.lineup.shelf.subset r (hLess r hr)
    rw [hNone] at hItem
    cases hItem
  · rintro p l' ⟨hFrame, hP, hNext, hLingering, order', hPlacing⟩
    rw [← hNext, ← hLingering] at hPlacing
    refine ⟨(hP₀.trans hP₁).trans hP, order', hClearing.aligned hMatching hNumbers hValues hP₀
      hFrame₁ hP₁ hFrame hP hNext hLingering ?_ ?_⟩
    · rw [removals, hMatched, hLeft, hMatching.lingering, List.nil_append]
    · rw [placements, hMatched]
      dsimp only
      rw [hRun₁]
      rwa [hNext, hLingering] at hPlacing ⊢

end Passing

/-! ## Calls -/

/-- A series whose items are taken out, which is where a pass begins. -/
def emptied (l : Live κ σ) (s : SeriesId) : Live κ σ :=
  { l with series := l.series.modify s fun x => { x with items := [] } }

theorem series?_modify (l : Live κ σ) (s : SeriesId) (f : Series κ → Series κ) :
    ({ l with series := l.series.modify s f } : Live κ σ).series? s = (l.series? s).map f := by
  simp [series?, Array.getElem?_modify]

/-- What is recorded of series does not matter to items in line. -/
theorem Lineup.withSeries {box : ContainerId} {rs : List NodeRef} (h : l.Lineup box rs order m)
    (series : Array (Series κ)) : ({ l with series } : Live κ σ).Lineup box rs order m where
  sound := h.sound
  observers := h.observers
  untracked := h.untracked
  closed := h.closed
  ample := h.ample
  document := h.document
  shelf := h.shelf
  other := h.other
  idle := h.idle
  quiet r hr o ho x hx e he := by
    have hQuiet := h.quiet r hr o ho x hx e he
    refine ⟨?_, hQuiet.apart⟩
    have hSlight := hQuiet.slight
    cases hHook : e.hook <;> rw [hHook] at hSlight <;> exact hSlight
  live := h.live

theorem Stock.withSeries {box : ContainerId} {items : List Series.Item}
    (h : l.Stock box items order m) (series : Array (Series κ)) :
    ({ l with series } : Live κ σ).Stock box items order m :=
  ⟨h.lineup.withSeries series, h.nodup, h.cursors.nodup, h.cursors.lt_size, h.cursors.undriven,
    h.cursors.watchers⟩

theorem Aligned.withSeries {calls : Calls κ σ} {current lingering : List Series.Item}
    (h : Aligned calls l l' x values current lingering order m) (series : Array (Series κ)) :
    Aligned calls l { l' with series } x values current lingering order m :=
  { h with
    stock := h.stock.withSeries series
    slight := fun sink hSlight => by
      have hAfter := h.slight sink hSlight
      cases sink <;> exact hAfter }

/-- What a call leaves. -/
theorem reconcile_aligned (hClient : client.Quiet) (depth : Nat)
    (hCrafts : Crafts (Calls.upTo client (depth + 2)) x.factory m) {s : SeriesId}
    (hx : l.series? s = some x) (h : l.InLine x order m) (values : List Value) :
    After (reconcile (Calls.upTo client (depth + 2)) s values).run l fun _ l' =>
      ∃ current lingering stats order',
        l'.series? s = some { x with items := current ++ lingering, stats } ∧
        Aligned (Calls.upTo client (depth + 2)) (l.emptied s) l' x values current lingering
          order' m := by
  unfold reconcile
  refine After.get_act ?_
  rw [hx]
  have hStart : (l.emptied s).InLine x order m := ⟨h.stock.withSeries _, h.standing⟩
  have hPass := passOver_aligned hClient depth hCrafts hStart values
  refine After.sure_run (t := l.emptied s) rfl ?_
  refine After.lift_bind hPass ?_
  rintro p l₁ - ⟨hP, order', hAligned⟩
  have hSeries : l₁.series? s = some { x with items := [] } := by
    rw [series?, hP.series]
    exact (series?_modify l s _).trans (congrArg _ hx)
  let l₂ : Live κ σ := { l₁ with
    series := l₁.series.modify s fun x => { x with items := p.items, stats := p.stats } }
  have hDone : ∃ current lingering stats order',
      l₂.series? s = some { x with items := current ++ lingering, stats } ∧
      Aligned (Calls.upTo client (depth + 2)) (l.emptied s) l₂ x values current lingering
        order' m :=
    ⟨p.next.map (·.2), p.lingering, p.stats, order',
      (series?_modify l₁ s _).trans (congrArg _ hSeries), hAligned.withSeries l₂.series⟩
  refine After.sure_run (t := l₂) rfl ?_
  cases p.fault with
  | none => exact hDone
  | some fault => exact hDone

end LiveMarkup.Live
