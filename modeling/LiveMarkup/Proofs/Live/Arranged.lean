import LiveMarkup.Proofs.Live.Bodies

/-!
# Runs of a series

A series that shows nothing yet is brought in line with any lists, one after the other. What each
call leaves is read off the items, their states and the tree.

* `Arranged`: the items and what stands in the container;
* `Passes.arranged`: after every call of a run; `Passes.destroyed`: what is destroyed stays so.
-/

namespace LiveMarkup.Live

open Forest

variable {κ σ : Type} {client : Client κ σ} {l l₀ l' : Live κ σ} {m : Leeway κ}
variable {order : List NodeRef} {x x' : Series κ} {values : List Value}

/-- The items for the values of the list. -/
def Series.current (x : Series κ) : List Series.Item :=
  x.items.filter (!·.lingers)

/-- The items that are not in the list any more and could not be destroyed. -/
def Series.removed (x : Series κ) : List Series.Item :=
  x.items.filter (·.lingers)

/-- The nodes and containers of those items that are attached. -/
def attachedAmong (l : Live κ σ) (items : List Series.Item) : List NodeRef :=
  (items.map (·.node)).filter (l.stateOf · = .attached)

/-- A series has an item for each value that gets one, in the order of the list and numbered by
it; behind come those former items that are retained when it is their turn to be destroyed, and all
others are destroyed. In the container stand the attached items, each once and in one piece, and
those for values in the order of the list; these are all that are not barred when it is their turn
to be attached. If no value goes without an item and nothing is retained or barred, all items stand
there in that order and there are no others. -/
structure Arranged (calls : Calls κ σ) (l l' : Live κ σ) (x x' : Series κ) (values : List Value) :
    Prop where
  items : x'.items = x'.current ++ x'.removed
  numbered : x'.current.map (fun item => (item.key, l'.valueOf item.cursor)) =
    (served calls x.factory (.ofItems x.items) values.zipIdx l).map
      fun (value, index) => (value.key, Value.nat index)
  nodup : (x'.items.map (·.node)).Nodup
  settled : ∀ item ∈ x'.items,
    l'.stateOf item.node = .attached ∨ l'.stateOf item.node = .detached
  removed : x'.removed = retained calls (removals calls x values l)
  former : ∀ item ∈ x'.removed, ∃ former ∈ x.items, former.node = item.node
  gone : ∀ former ∈ x.items, (∃ item ∈ x'.items, item.node = former.node) ∨
    l'.stateOf former.node = .destroyed
  placed : ∀ item ∈ x'.current, l'.stateOf item.node = .attached ↔
    item.node ∉ barred calls x.box (placements calls x values l)
  row : ∃ order, order.Perm (l'.attachedAmong x'.items) ∧
    (l'.attachedAmong x'.current).Sublist order ∧ l'.dom.span x.box = order.flatMap l'.dom.runOf
  whole : retained calls (removals calls x values l) = [] →
    barred calls x.box (placements calls x values l) = [] →
    served calls x.factory (.ofItems x.items) values.zipIdx l = values.zipIdx →
      x'.items.map (·.key) = values.map Value.key ∧
        l'.dom.span x.box = (x'.items.map (·.node)).flatMap l'.dom.runOf

namespace Aligned

variable {calls : Calls κ σ} {current lingering : List Series.Item}
variable (h : Aligned calls l l' x values current lingering order m)
include h

/-- The attached items are those that stand in the row. -/
theorem attachedAmong_eq {items : List Series.Item}
    (hItems : ∀ item ∈ items, item ∈ current ++ lingering) :
    l'.attachedAmong items = (items.map (·.node)).filter (· ∈ order) := by
  refine List.filter_congr fun r hr => ?_
  obtain ⟨item, hItem, rfl⟩ := List.mem_map.mp hr
  have hState := h.stock.lineup.stateOf_attached_iff (List.mem_map_of_mem (hItems item hItem))
  simp only [hState]

omit h in
/-- If nothing lingers and all items for values stand in the row, no others do. -/
theorem order_eq_of_standing (h : Aligned calls l l' x values current [] order m)
    (hStands : ∀ item ∈ current, item.node ∈ order) : order = current.map (·.node) := by
  have hAll : (current.map (·.node)).filter (· ∈ order) = current.map (·.node) := by
    refine List.filter_eq_self.mpr fun r hr => ?_
    obtain ⟨item, hItem, rfl⟩ := List.mem_map.mp hr
    exact decide_eq_true (hStands item hItem)
  have hSub := h.standing
  rw [Standing, hAll] at hSub
  have hLess : order.Subperm (current.map (·.node)) := by
    refine List.subperm_of_subset h.stock.lineup.shelf.nodup fun r hr => ?_
    simpa using h.stock.lineup.shelf.subset r hr
  exact (hSub.eq_of_length_le hLess.length_le).symm

/-- If nothing is retained or barred all items for values stand in the row, and no others. -/
theorem order_eq (hRetained : retained calls (removals calls x values l) = [])
    (hBarred : barred calls x.box (placements calls x values l) = []) :
    lingering = [] ∧ order = current.map (·.node) := by
  obtain rfl : lingering = [] := h.left.trans hRetained
  refine ⟨rfl, h.order_eq_of_standing fun item hItem => ?_⟩
  simpa [hBarred] using h.whole item hItem

theorem toArranged (hItems : x'.items = current ++ lingering) : Arranged calls l l' x x' values := by
  have hCurrent : x'.current = current := by rw [Series.current, hItems, h.filter_current]
  have hRemoved : x'.removed = lingering := by rw [Series.removed, hItems, h.filter_lingering]
  have hLineup := h.stock.lineup
  have hNode : ∀ item ∈ x'.items, item.node ∈ (current ++ lingering).map (·.node) := fun item hItem =>
    List.mem_map_of_mem (hItems ▸ hItem)
  refine ⟨?_, ?_, ?_, fun item hItem => ?_, ?_, fun item hItem => ?_, fun former hFormer => ?_,
    fun item hItem => ?_, ⟨order, ?_, ?_, hLineup.shelf.row⟩, fun hRetained hBarred hServed => ?_⟩
  · rw [hCurrent, hRemoved, hItems]
  · rw [hCurrent]
    exact h.numbered
  · rw [hItems]
    exact h.stock.nodup
  · rw [hLineup.stateOf_eq (hNode item hItem)]
    split
    · exact .inl rfl
    · exact .inr rfl
  · exact hRemoved.trans h.left
  · rw [hRemoved] at hItem
    exact (h.former item hItem).2
  · rw [hItems]
    exact h.gone former hFormer
  · rw [hCurrent] at hItem
    rw [hLineup.stateOf_attached_iff (List.mem_map_of_mem (List.mem_append_left _ hItem))]
    exact h.whole item hItem
  · rw [hItems, h.attachedAmong_eq fun _ hItem => hItem]
    refine (List.perm_ext_iff_of_nodup hLineup.shelf.nodup (h.stock.nodup.filter _)).mpr fun r => ?_
    rw [List.mem_filter, decide_eq_true_iff]
    exact ⟨fun hr => ⟨hLineup.shelf.subset r hr, hr⟩, And.right⟩
  · rw [hCurrent, h.attachedAmong_eq fun _ hItem => List.mem_append_left _ hItem]
    exact h.standing
  · rw [hItems]
    obtain ⟨rfl, hOrder⟩ := h.order_eq hRetained hBarred
    rw [List.append_nil]
    refine ⟨?_, hOrder ▸ hLineup.shelf.row⟩
    have hKeys := congrArg (List.map Prod.fst) h.numbered
    rw [hServed, List.map_map, List.map_map] at hKeys
    refine hKeys.trans ?_
    change values.zipIdx.map (Value.key ∘ Prod.fst) = _
    rw [← List.map_map, List.zipIdx_map_fst]

end Aligned

/-! ## Runs -/

/-- Calls that bring a series in line with lists, one after the other. -/
inductive Passes (calls : Calls κ σ) (s : SeriesId) (l : Live κ σ) : Live κ σ → Prop
  | start : Passes calls s l l
  | call {l₁ : Live κ σ} (h : Passes calls s l l₁) (values : List Value) :
    Passes calls s l ((reconcile calls s values).run.run l₁).2

/-- A series that shows nothing yet. -/
structure Blank (l : Live κ σ) (s : SeriesId) (x : Series κ) (m : Leeway κ := .strict) : Prop
    extends Ready l m where
  document : l.document < l.dom.nodes.size
  there : l.series? s = some x
  box_lt : x.box < l.dom.containers.size
  items : x.items = []
  span : l.dom.span x.box = []

theorem Blank.inLine {s : SeriesId} (h : l.Blank s x m) : l.InLine x [] m := by
  have hNone : ∀ {α : Type} {P : α → Prop}, ∀ r ∈ ([] : List α), P r := fun r hr =>
    absurd hr List.not_mem_nil
  refine ⟨?_, by rw [h.items]; exact List.Sublist.refl []⟩
  rw [h.items]
  refine ⟨⟨h.toReady, h.document, ⟨h.box_lt, hNone, hNone, hNone, List.nodup_nil, hNone, h.span⟩,
    hNone, hNone, hNone, fun hNe => absurd rfl hNe⟩, List.nodup_nil, List.nodup_nil, hNone, hNone,
    hNone⟩

section Running

variable (hClient : client.Quiet) (depth : Nat) {s : SeriesId} {x₀ : Series κ}
variable (hCrafts : Crafts (Calls.upTo client (depth + 2)) x₀.factory m)
include hClient hCrafts

/-- Items are in line after every call of a run. -/
theorem Passes.inLine (h : Passes (Calls.upTo client (depth + 2)) s l₀ l)
    (h₀ : l₀.series? s = some x₀) (hStart : l₀.InLine x₀ order m) : ∃ x order,
      l.series? s = some x ∧ x.box = x₀.box ∧ x.factory = x₀.factory ∧ l.InLine x order m := by
  induction h with
  | start => exact ⟨x₀, order, h₀, rfl, rfl, hStart⟩
  | call _ values ih =>
    obtain ⟨x, order, hx, hBox, hFactory, hInLine⟩ := ih
    obtain ⟨current, lingering, stats, order', hx', hAligned⟩ :=
      reconcile_aligned hClient depth (hFactory ▸ hCrafts) hx hInLine values
    exact ⟨_, order', hx', hBox, hFactory, hAligned.inLine rfl rfl⟩

/-- Nodes and containers that are destroyed stay so whatever is listed. -/
theorem Passes.destroyed (h : Passes (Calls.upTo client (depth + 2)) s l₀ l)
    (hBlank : l₀.Blank s x₀ m) {r : NodeRef} (hr : l₀.dom.Known r)
    (hState : l₀.stateOf r = .destroyed) : l.dom.Known r ∧ l.stateOf r = .destroyed := by
  induction h with
  | start => exact ⟨hr, hState⟩
  | call h values ih =>
    obtain ⟨x, order, hx, -, hFactory, hInLine⟩ :=
      h.inLine hClient depth hCrafts hBlank.there hBlank.inLine
    obtain ⟨_, _, _, _, -, hAligned⟩ :=
      reconcile_aligned hClient depth (hFactory ▸ hCrafts) hx hInLine values
    exact hAligned.final r ih.1 ih.2

/-- A series that showed nothing is brought in line with lists, one after the other. Each call
arranges the items for its list, whether it reports a fault or not. -/
theorem Passes.arranged (hBlank : l₀.Blank s x₀ m)
    (h : Passes (Calls.upTo client (depth + 2)) s l₀ l) (values : List Value) :
    After (reconcile (Calls.upTo client (depth + 2)) s values).run l fun _ l' =>
      ∃ x x', l.series? s = some x ∧ l'.series? s = some x' ∧ x.box = x₀.box ∧ x'.box = x₀.box ∧
        x.factory = x₀.factory ∧
        Arranged (Calls.upTo client (depth + 2)) (l.emptied s) l' x x' values := by
  obtain ⟨x, order, hx, hBox, hFactory, hInLine⟩ :=
    h.inLine hClient depth hCrafts hBlank.there hBlank.inLine
  refine (reconcile_aligned hClient depth (hFactory ▸ hCrafts) hx hInLine values).mono ?_
  rintro _ l' ⟨current, lingering, stats, order', hx', hAligned⟩
  exact ⟨x, _, hx, hx', hBox, hBox, hFactory, hAligned.toArranged rfl⟩

end Running

/-! ## Lists of elements -/

/-- A client that makes an item of a list for each value, and does nothing else. -/
def Client.listing : Client Unit σ :=
  { Client.still with
    buildItem := fun _ _ _ _ => do
      let n ← sure (makeInDom fun d => d.createElement "li")
      pure (.node n) }

theorem Client.listing_quiet : (Client.listing : Client Unit σ).Quiet :=
  ⟨fun _ _ _ l => ⟨l.client, rfl⟩, fun _ _ _ l => ⟨l.client, rfl⟩⟩

theorem Client.listing_makes (depth : Nat) {m : Leeway Unit} :
    Makes (Calls.upTo (Client.listing : Client Unit σ) (depth + 1)) (.client ()) m :=
  .of_grows (K := fun _ => True) fun _ _ _ hReady _ =>
    have hMade := createElement_budded hReady "li"
    ⟨hMade.1, _, rfl, Nat.le_of_eq hMade.2.1.symm, hMade.2.2⟩

/-- There is no item for one value, a container for another, and elements with a hook for all
others. -/
def sortedItem (strict : Bool) (value : Value) : Act Unit σ NodeRef :=
  if strict && value.string? == some "none" then throw .missingHost
  else if value.string? == some "box" then do
    let c ← sure (makeInDom Dom.createContainer)
    pure (.container c)
  else do
    let n ← sure (makeInDom fun d => d.createElement "li")
    let o ← observe (.node n)
    let kind := if value.string? == some "shy" then .beforeAttach else .beforeDetach
    let _ ← sure (addHook o kind (.client ()))
    pure (.node n)

/-- A client that makes such items. If it is strict it cancels whatever its hooks can cancel. -/
def Client.sorting (strict : Bool) : Client Unit σ :=
  { Client.still with
    hook := fun _ _ event => pure (strict && event.kind.isCancelable)
    buildItem := fun _ _ value _ => sortedItem strict value }

theorem Client.sorting_quiet (strict : Bool) : (Client.sorting strict : Client Unit σ).Quiet :=
  ⟨fun _ _ _ l => ⟨l.client, rfl⟩, fun _ _ _ l => ⟨l.client, rfl⟩⟩

theorem sortedItem_made {l : Live Unit σ} {m : Leeway Unit} (hReady : l.Ready m)
    (hDocument : l.document < l.dom.nodes.size) (strict : Bool) (value : Value) :
    After (sortedItem strict value).run l fun out l' => Spared l l' m ∧
      (∀ s < l.signals.size, l'.valueOf s = l.valueOf s) ∧
      (∀ r, out = .ok r → Fresh l l' r m ∧ l'.Posted r) ∧
      (strict = false → l.tornDown = false → ∃ r, out = .ok r) := by
  unfold sortedItem
  split
  · rename_i hNone
    refine (show After _ l fun out l' => out = .error .missingHost ∧ l' = l from ⟨rfl, rfl⟩).mono ?_
    rintro _ _ ⟨rfl, rfl⟩
    refine ⟨.of_calm (Calm.refl _) hReady, fun _ _ => rfl, fun _ hOut => (by cases hOut), ?_⟩
    rintro rfl
    cases hNone
  split
  · refine After.sure_bind (m := fun c l' => c = l.dom.containers.size ∧
      l' = l.withDom l.dom.createContainer.1) ⟨rfl, rfl⟩ ?_
    rintro _ l' ⟨rfl, hl'⟩
    obtain ⟨hSpared, hFresh, hPosted⟩ := createContainer_fresh hReady hl'
    refine ⟨hSpared, fun s _ => by rw [hl']; rfl, fun r hOut => ?_, fun _ _ => ⟨_, rfl⟩⟩
    obtain rfl := Except.ok.inj hOut
    exact ⟨hFresh, hPosted⟩
  · refine (hookElement_grows (K := fun _ => True) hReady hDocument "li" trivial ()).mono
      fun out l' h => ⟨h.1.toSpared, h.1.values, fun r => h.fresh hReady.sound, fun _ hUp => ?_⟩
    obtain ⟨r, hOut, -⟩ := h.built hReady.sound hUp
    exact ⟨r, hOut⟩

theorem Client.sorting_crafts (strict : Bool) (depth : Nat) {m : Leeway Unit} :
    Crafts (Calls.upTo (Client.sorting strict : Client Unit σ) (depth + 1)) (.client ()) m :=
  fun _ value _ hReady hDocument _ _ => (sortedItem_made hReady hDocument strict value).mono
    fun _ _ ⟨hSpared, hValues, hMade, _⟩ => ⟨hSpared, fun s hs _ => hValues s hs, fun r hOut =>
      (hMade r hOut).1⟩

/-- A fresh document with a series that nothing was listed in. -/
def blankList : Live Unit Unit :=
  let l : Live Unit Unit := create {} ()
  { l with dom := l.dom.createContainer.1, series := #[{ box := 0, factory := .client () }] }

theorem blankList_tabled : blankList.Tabled where
  sound := (create_unobserved (κ := Unit) {} ()).sound.createContainer
  observers _ _ ho := nomatch ho
  untracked _ _ := rfl

theorem blankList_blank : blankList.Blank 0 { box := 0, factory := .client () } where
  toReady := blankList_tabled.ready
  document := by decide +kernel
  there := rfl
  box_lt := by decide +kernel
  items := rfl
  span := by decide +kernel

/-- The same document with a series of rendered items. -/
def numberedList : Live Unit Unit :=
  { blankList with series := #[{ box := 0, factory := .numbered }] }

theorem numberedList_blank :
    numberedList.Blank 0 { box := 0, factory := .numbered } (.lax fun _ => True) where
  sound := blankList_tabled.sound
  observers := blankList_tabled.observers
  untracked := blankList_tabled.untracked
  closed s _ w hw := by
    have hNone : numberedList.watchersOf s = [] := rfl
    rw [hNone] at hw
    cases hw
  ample _ _ _ := trivial
  document := blankList_blank.document
  there := rfl
  box_lt := blankList_blank.box_lt
  items := rfl
  span := blankList_blank.span

/-- A run that lists four values and then three in another order. One has no item, and one has a
container. Another item is never attached, and one cannot be removed and stays where it is. In the
other run the items are rendered. -/
theorem blankList_arranged :
    (let calls := Calls.upTo (Client.sorting true) 2
    let l := ((reconcile calls 0
      [.string "a", .string "none", .string "box", .string "shy"]).run.run blankList).2
    l.dom.span 0 = [6, 7, 8] ∧
    ((reconcile calls 0 [.string "shy", .string "box", .string "b"]).run.run l).2.dom.span 0 =
      [6, 7, 8, 11] ∧
    After (reconcile calls 0 [.string "shy", .string "box", .string "b"]).run l fun _ l' =>
      ∃ x x', l.series? 0 = some x ∧ l'.series? 0 = some x' ∧ x.box = 0 ∧ x'.box = 0 ∧
        x.factory = .client () ∧
        Arranged calls (l.emptied 0) l' x x' [.string "shy", .string "box", .string "b"]) ∧
    (let calls := Calls.upTo Client.still 2
    let l := ((reconcile calls 0 [.string "a", .string "b"]).run.run numberedList).2
    After (reconcile calls 0 [.string "b", .string "c"]).run l fun _ l' =>
      ∃ x x', l.series? 0 = some x ∧ l'.series? 0 = some x' ∧ x.box = 0 ∧ x'.box = 0 ∧
        x.factory = .numbered ∧
        Arranged calls (l.emptied 0) l' x x' [.string "b", .string "c"]) :=
  ⟨⟨by decide +kernel, by decide +kernel, Passes.arranged (Client.sorting_quiet true) 0
      (Client.sorting_crafts true 1) blankList_blank (Passes.start.call _) _⟩,
    Passes.arranged Client.still_quiet 0 (numbered_makes Client.still 1 rfl fun _ h => h).crafts
      numberedList_blank (Passes.start.call _) _⟩

end LiveMarkup.Live
