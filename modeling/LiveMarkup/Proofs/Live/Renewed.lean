import LiveMarkup.Proofs.Live.Arranged
import LiveMarkup.Proofs.Live.Deeds

/-!
# Series that are renewed

A series is brought in line with one list after the other, with factories that make what they are
asked for and hooks that cancel nothing. What each call does follows the plan for its list: values
keep their nodes, and of these as few as possible are shifted.

* `Tidy`: a series between calls;
* `Renewed`: what a call does, `reconcile_renewed`: that it does it;
* `Passes.renewed`: every call of a run that began with no items renews the series.
-/

namespace LiveMarkup.Live

open Series

variable {κ σ : Type} {client : Client κ σ} {calls : Calls κ σ} {l l₀ l₁ l' : Live κ σ}
variable {x x' : Series κ} {values : List Value} {m : Leeway κ}

/-! ## Between calls -/

/-- The items of a series all stand in its container, in order and numbered. -/
structure Tidy (l : Live κ σ) (x : Series κ) (m : Leeway κ := .strict) : Prop where
  inLine : l.InLine x (x.items.map (·.node)) m
  row : l.Unhindered x.box (x.items.map (·.node)) (x.items.map (·.node)) m
  listed : ∀ item ∈ x.items, item.lingers = false
  numbered : ∀ i item, x.items[i]? = some item → l.valueOf item.cursor = .nat i

theorem Unhindered.withSeries {box : ContainerId} {rs order : List NodeRef}
    (h : l.Unhindered box rs order m) (series : Array (Series κ)) :
    ({ l with series } : Live κ σ).Unhindered box rs order m :=
  ⟨h.toLineup.withSeries series, h.up, h.takes, h.posted⟩

namespace Tidy

theorem withSeries (h : l.Tidy x m) (series : Array (Series κ)) :
    ({ l with series } : Live κ σ).Tidy x m :=
  ⟨⟨h.inLine.stock.withSeries series, h.inLine.standing⟩, h.row.withSeries series, h.listed,
    h.numbered⟩

theorem gathering (h : l.Tidy x m) : l.Gathering x (.ofItems x.items) m := by
  refine ⟨h.inLine.matching, ?_, fun e he => ?_⟩
  · change l.Unhindered x.box ((((Pass.ofItems x.items).pool ++ []).map Prod.snd).map Item.node) _ m
    rw [List.append_nil, List.map_map]
    have hNodes : (Pass.ofItems x.items).pool.map (Item.node ∘ Prod.snd) = x.items.map (·.node) :=
      pool_map _ _
    rw [hNodes]
    exact h.row
  · obtain ⟨place, hPlace, hItem⟩ := mem_pool h.listed he
    exact ⟨place, hPlace, hItem, h.numbered place e.2 hItem⟩

end Tidy

/-! ## A pass -/

namespace Series

/-- The nodes that the values of a list keep. -/
def reusedOf (items : List Item) (values : List Value) : List NodeRef :=
  ((claims (Pass.ofItems items).pool values).filterMap id).map (·.2.node)

theorem reusedOf_eq {items : List Item} {found : List Entry} (h : Found items values found) :
    reusedOf items values = (found.filter (·.1.isSome)).map (·.2.node) := by
  rw [reusedOf, h.filter_eq]

end Series

/-- What is left once all values were looked at: entries that were found for them. -/
theorem Gathering.found {p : Pass} {found : List Entry} (h : l.Gathering x p m)
    (hListed : ∀ item ∈ x.items, item.lingers = false)
    (hPass : p = (Pass.ofItems x.items).collect
      (unclaimed (Pass.ofItems x.items).pool values) found)
    (hKeys : found.map (·.2.key) = values.map Value.key)
    (hGets : List.Forall₂ Gets (claims (Pass.ofItems x.items).pool values) found) :
    Found x.items values found := by
  have hNodup := h.matching.stock.nodup
  rw [hPass, List.map_map] at hNodup
  exact ⟨hListed, hKeys, hGets, hNodup⟩

section Passing

variable (hClient : client.Quiet) (hConsents : client.Consents) (depth : Nat)
include hClient hConsents

/-- What is done to bring all items to their places, once those that are left are removed. -/
theorem settle_does {found : List Entry} {p : Pass} {order : List NodeRef}
    (hFound : Found x.items values found)
    (hNext : p.next = found) (h : l.Unhindered x.box (found.map (·.2.node)) order m)
    (hOrder : ∀ r, r ∈ order ↔ r ∈ x.items.map (·.node) ∧ r ∈ found.map (·.2.node))
    {hook : Hook κ → Event → LiveM κ σ Bool} {reused : List NodeRef}
    (hOther : AgreesBut (Calls.upTo client (depth + 2)) hook reused) :
    Alongside
      (if x.items.isEmpty then (p.next.map (·.2)).foldlM
          (appendItem ((Calls.upTo client (depth + 2)).withHook hook) (.container x.box)) p
        else placeItems ((Calls.upTo client (depth + 2)).withHook hook) (.container x.box) p.stable
          none p p.next.reverse)
      (if x.items.isEmpty then (p.next.map (·.2)).foldlM
          (appendItem (Calls.upTo client (depth + 2)) (.container x.box)) p
        else placeItems (Calls.upTo client (depth + 2)) (.container x.box) p.stable none p
          p.next.reverse) l fun p' l' =>
      p' = p.countShifted (settling x.items found) ∧ Passed l l' x.box m ∧
        Deeds (Calls.upTo client (depth + 2)) x (settling x.items found) l l' ∧
        ∃ order', l'.Unhindered x.box (found.map (·.2.node)) order' m ∧
          ∀ r ∈ found.map (·.2.node), r ∈ order' := by
  have hStable : p.stable = keptPlaces found := by
    rw [Pass.stable, hNext]
    rfl
  have hNodup := hFound.nodup_found
  rw [hStable, hNext, settling]
  split
  · rename_i hEmpty
    have hNone : order = [] := List.eq_nil_iff_forall_not_mem.mpr fun r hr => by
      have hIn := ((hOrder r).mp hr).1
      rw [List.isEmpty_iff.mp hEmpty] at hIn
      cases hIn
    refine (appendAll_does hClient hConsents depth hOther h (fun item hItem => ?_) ?_).mono ?_
    · obtain ⟨e, he, rfl⟩ := List.mem_map.mp hItem
      exact ⟨List.mem_map_of_mem he, hNone ▸ List.not_mem_nil⟩
    · rwa [List.map_map]
    · rintro _ l' ⟨rfl, hP, -, hDeeds, order', hRow, hMem⟩
      refine ⟨?_, hP, ?_, order', hRow, fun r hr => (hMem r).mpr (.inr ?_)⟩
      · refine (countShifted_of_none ?_ _).symm
        rw [List.filterMap_map]
        exact List.filterMap_eq_nil_iff.mpr fun _ _ => rfl
      · rwa [List.map_map] at hDeeds
      · rwa [List.map_map]
  · refine (placeItems_does hClient hConsents depth hOther h (fun e he => ?_) ?_
      fun a (ha : none = some a) => by cases ha).mono ?_
    · have he := List.mem_reverse.mp he
      have hNode := List.mem_map_of_mem (f := fun e : Entry => e.2.node) he
      refine ⟨hNode, ?_⟩
      rw [hOrder, ← hFound.isSome_iff he, not_and_or, Option.not_isSome_iff_eq_none]
      exact ⟨.inl, fun hOr => hOr.resolve_right (not_not_intro hNode)⟩
    · rwa [List.map_reverse, List.nodup_reverse]
    · rintro _ l' ⟨rfl, hP, -, hDeeds, order', hRow, hMem⟩
      refine ⟨rfl, hP, hDeeds, order', hRow, fun r hr => (hMem r).mpr (.inr ?_)⟩
      rwa [List.map_reverse, List.mem_reverse]

variable (hMakes : Makes (Calls.upTo client (depth + 2)) x.factory m)
include hMakes

/-- What a whole pass does, and would do with other hooks. -/
theorem passOver_does (h : l.Tidy x m) (values : List Value)
    {hook : Hook κ → Event → LiveM κ σ Bool}
    (hOther : AgreesBut (Calls.upTo client (depth + 2)) hook (reusedOf x.items values)) :
    Alongside (passOver ((Calls.upTo client (depth + 2)).withHook hook) x values)
      (passOver (Calls.upTo client (depth + 2)) x values) l fun p l' =>
        Passed l l' x.box m ∧ ∃ found left, Found x.items values found ∧
          left.Perm ((unclaimed (Pass.ofItems x.items).pool values).map Prod.snd) ∧
          p.next = found ∧ p.lingering = [] ∧ p.fault = none ∧
          p.stats =
            { created := found.countP (·.1.isNone)
              reused := found.countP (·.1.isSome)
              destroyed := left.length
              moved := ((deedsOf x.items values left found).filterMap Deed.shifted?).length } ∧
          Deeds (Calls.upTo client (depth + 2)) x (deedsOf x.items values left found) l l' ∧
          (∀ r ∈ x.items.map (·.node), r ∉ found.map (·.2.node) → l'.stateOf r = .destroyed) ∧
          ∃ order, l'.Unhindered x.box (found.map (·.2.node)) order m ∧
            ∀ r ∈ found.map (·.2.node), r ∈ order := by
  unfold passOver
  refine Alongside.bind (.same (matchAll_does hClient depth hMakes h.gathering values 0)) ?_
  rintro p₁ l₁ ⟨hGathering, hP₁, found, rfl, hKeys, hGets, hDeeds₁⟩
  have hFound := hGathering.found h.listed rfl hKeys hGets
  refine Alongside.get_bind ?_
  let pool := unclaimed (Pass.ofItems x.items).pool values
  let left := leftOver (Calls.upTo client (depth + 2)) ((Pass.ofItems x.items).collect pool found) l₁
  have hPerm : left.Perm (pool.map Prod.snd) := leftOver_perm _ _ _
  have hLeft : (left.map (·.node)).Perm
      ((x.items.map (·.node)).filter (· ∉ found.map (·.2.node))) := by
    rw [← hFound.left_eq]
    exact (hPerm.map _).trans (List.Perm.of_eq List.map_map)
  have hMemLeft : ∀ r, r ∈ left.map (·.node) ↔
      r ∈ x.items.map (·.node) ∧ r ∉ found.map (·.2.node) := fun r => by
    rw [hLeft.mem_iff, List.mem_filter, decide_eq_true_iff]
  have hRow : l₁.Unhindered x.box (((pool ++ found).map Prod.snd).map (·.node))
      (x.items.map (·.node)) m := hGathering.row
  have hFoundIn : ∀ r ∈ found.map (·.2.node),
      r ∈ ((pool ++ found).map Prod.snd).map (·.node) ∧ r ∉ left.map (·.node) := by
    intro r hr
    refine ⟨?_, fun hIn => ((hMemLeft r).mp hIn).2 hr⟩
    rw [List.map_append, List.map_append, List.map_map (l := found)]
    exact List.mem_append_right _ hr
  refine Alongside.bind (removeAll_does hClient hConsents depth hOther left hRow
    (fun item hItem => ?_) ?_ fun r hr => ?_) ?_
  · exact ((hMemLeft _).mp (List.mem_map_of_mem hItem)).1
  · exact hLeft.nodup_iff.mpr (hFound.nodes_nodup.filter _)
  · rw [reusedOf_eq hFound] at hr
    exact hFoundIn r ((List.filter_sublist.map _).subset hr)
  rintro _ l₂ ⟨rfl, hP₂, -, hGone, hDeeds₂, h₂⟩
  have hRow₂ : l₂.Unhindered x.box (found.map (·.2.node)) _ m :=
    h₂.mono (fun r hr => ?_) fun r hr => ?_
  · refine (settle_does hClient hConsents depth hFound (by rfl) hRow₂ (fun r => ?_)
      hOther).mono ?_
    · rw [List.mem_filter, decide_eq_true_iff, hMemLeft, not_and, not_not]
      exact and_congr_right fun hr => forall_prop_of_true hr
    · rintro _ l' ⟨rfl, hP₃, hDeeds₃, hRow₃⟩
      refine ⟨(hP₁.trans hP₂).trans hP₃, found, left, hFound, hPerm, rfl, rfl, rfl, ?_,
        hDeeds₁.append (hDeeds₂.append hDeeds₃), fun r hr hOut => ?_, hRow₃⟩
      · rw [shifted_deedsOf]
        simp [Pass.countShifted, Pass.collect, Pass.ofItems]
      · have hLeftIn := (hMemLeft r).mpr ⟨hr, hOut⟩
        obtain ⟨item, hItem, rfl⟩ := List.mem_map.mp hLeftIn
        refine hP₃.destroyed _ (hP₂.known _ ?_) (hGone item hItem)
        exact hRow.shelf.known _ (hRow.shelf.subset _ hr)
  · obtain ⟨hIn, hOff⟩ := hFoundIn r hr
    exact List.mem_filter.mpr ⟨hIn, decide_eq_true hOff⟩
  · obtain ⟨hIn, hOff⟩ := List.mem_filter.mp hr
    rw [decide_eq_true_iff, hMemLeft, not_and, not_not] at hOff
    exact hOff hIn

/-- What a whole pass leaves. -/
theorem passOver_tidy (h : l.Tidy x m) (values : List Value) :
    After (passOver (Calls.upTo client (depth + 2)) x values) l fun p l' =>
      l'.Tidy { x with items := p.items, stats := p.stats } m := by
  have hAgrees : AgreesBut (Calls.upTo client (depth + 2)) (Calls.upTo client (depth + 2)).hook
      (reusedOf x.items values) := fun _ _ _ => rfl
  have hDoes := (passOver_does hClient hConsents depth hMakes h values hAgrees).2
  have hAligned := passOver_aligned hClient depth hMakes.crafts h.inLine values
  refine (hDoes.and hAligned).mono ?_
  rintro p l' ⟨⟨hP, found, _, hFound, -, hNext, hLingering, -, -, -, -, _, hRow, hAll⟩, -, order,
    hAligned⟩
  have hItems : p.items = found.map Prod.snd := by
    rw [Pass.items, hNext, hLingering, List.append_nil]
  have hCurrent : p.next.map (·.2) = p.items := by rw [hNext, hItems]
  rw [hCurrent, hLingering] at hAligned
  have hLength : p.items.length = values.length := by
    rw [hItems, List.length_map, hFound.length_eq]
  have hNodes : p.items.map (·.node) = found.map (·.2.node) := by rw [hItems, List.map_map]; rfl
  have hOrder := hAligned.order_eq_of_standing fun item hItem => by
    have hNode : item.node ∈ found.map (·.2.node) := hNodes ▸ List.mem_map_of_mem hItem
    rw [← hAligned.stock.lineup.stateOf_attached_iff (by simpa using ⟨item, hItem, rfl⟩)]
    exact (hRow.stateOf_attached_iff hNode).mpr (hAll _ hNode)
  have hServed : served (Calls.upTo client (depth + 2)) x.factory (.ofItems x.items) values.zipIdx l =
      values.zipIdx := by
    refine (served_sublist _ _ _ _ _).eq_of_length ?_
    have hSame := congrArg List.length hAligned.numbered
    rw [List.length_map, List.length_map] at hSame
    rw [← hSame, hLength, List.length_zipIdx]
  have hNumbered := hAligned.numbered
  rw [hServed] at hNumbered
  refine ⟨?_, ?_, hAligned.listed, fun i item hItem => ?_⟩
  · rw [← hOrder]
    exact hAligned.inLine rfl (List.append_nil _).symm
  · refine ⟨?_, hRow.up, hRow.takes, fun r hr => hRow.posted r ?_⟩
    · have hLineup := hAligned.stock.lineup
      rwa [List.append_nil, hOrder] at hLineup
    · rw [hItems, List.map_map] at hr
      exact hr
  · have hAt := congrArg (·[i]?) hNumbered
    have hItem : p.items[i]? = some item := hItem
    simp only [List.getElem?_map, hItem, Option.map_some, List.getElem?_zipIdx, Nat.zero_add] at hAt
    obtain ⟨_, hAt, hEq⟩ := Option.map_eq_some_iff.mp hAt.symm
    obtain ⟨_, -, rfl⟩ := Option.map_eq_some_iff.mp hAt
    exact (congrArg Prod.snd hEq).symm

end Passing

/-! ## Calls -/

/-- What a call does to a series: deeds that follow a plan lead from the emptied series to a state in
which the new items are written down. All items stand in the container in the order of the list and
are numbered by it, those that were not kept are destroyed, and it makes no difference what hooks do
when the nodes that were kept are told that they are disconnected. -/
structure Renewed (calls : Calls κ σ) (s : SeriesId) (values : List Value) (l l' : Live κ σ)
    (x x' : Series κ) : Prop where
  done : ∃ deeds, Series.Plan x.items x'.items values deeds x'.stats ∧
    ∃ l₁, Deeds calls x deeds (l.emptied s) l₁ ∧
      ((modifySeries s fun x => { x with items := x'.items, stats := x'.stats }).run l₁).2 = l'
  numbered : ∀ i item, x'.items[i]? = some item → l'.valueOf item.cursor = .nat i
  nodup : (x'.items.map (·.node)).Nodup
  row : l'.dom.span x.box = (x'.items.map (·.node)).flatMap l'.dom.runOf
  destroyed : ∀ former ∈ x.items,
    l'.stateOf former.node = .destroyed ↔ former.node ∉ x'.items.map (·.node)
  unheard : ∀ hook, AgreesBut calls hook ((x'.items.map (·.node)).filter (· ∈ x.items.map (·.node))) →
    (reconcile (calls.withHook hook) s values).run.run l = (reconcile calls s values).run.run l

section Calling

variable (hClient : client.Quiet) (hConsents : client.Consents) (depth : Nat)
variable (hMakes : Makes (Calls.upTo client (depth + 2)) x.factory m)
include hClient hConsents hMakes

/-- A call does the same with other hooks that only differ when a node is disconnected that is
kept. -/
theorem reconcile_withHook {s : SeriesId} (hx : l.series? s = some x) (h : l.Tidy x m)
    (values : List Value) {hook : Hook κ → Event → LiveM κ σ Bool}
    (hOther : AgreesBut (Calls.upTo client (depth + 2)) hook (reusedOf x.items values)) :
    (reconcile ((Calls.upTo client (depth + 2)).withHook hook) s values).run.run l =
      (reconcile (Calls.upTo client (depth + 2)) s values).run.run l := by
  obtain ⟨hSame, hAfter⟩ := passOver_does hClient hConsents depth hMakes
    (h.withSeries (l.emptied s).series) values hOther
  unfold reconcile
  refine get_bind_congr_run ?_
  rw [hx]
  refine sure_bind_congr_run (m := fun _ l₁ => l₁ = l.emptied s) rfl rfl ?_
  rintro _ _ rfl
  exact sure_bind_congr_run hSame hAfter fun _ _ _ => rfl

/-- A call renews the series, and leaves it ready for the next one. -/
theorem reconcile_renewed {s : SeriesId} (hx : l.series? s = some x) (h : l.Tidy x m)
    (values : List Value) :
    After (reconcile (Calls.upTo client (depth + 2)) s values).run l fun out l' =>
      ∃ x', l'.series? s = some x' ∧ x'.box = x.box ∧ x'.factory = x.factory ∧ l'.Tidy x' m ∧
        out = .ok x'.stats ∧
        Renewed (Calls.upTo client (depth + 2)) s values l l' x x' := by
  have hAgrees : AgreesBut (Calls.upTo client (depth + 2)) (Calls.upTo client (depth + 2)).hook
      (reusedOf x.items values) := fun _ _ _ => rfl
  have hStart : (l.emptied s).Tidy x m := h.withSeries _
  have hPass := (passOver_does hClient hConsents depth hMakes hStart values hAgrees).2.and
    (passOver_tidy hClient hConsents depth hMakes hStart values)
  unfold reconcile
  refine After.get_act ?_
  rw [hx]
  refine After.sure_run (t := l.emptied s) rfl ?_
  refine After.lift_bind hPass ?_
  rintro p l₁ - ⟨⟨hP, found, left, hFound, hLeft, hNext, hLingering, hFault, hStats, hDeeds, hGone, -⟩,
    hTidy⟩
  have hItems : p.items = found.map Prod.snd := by
    rw [Pass.items, hNext, hLingering, List.append_nil]
  have hNodes : p.items.map (·.node) = found.map (·.2.node) := by rw [hItems, List.map_map]; rfl
  have hSeries : l₁.series? s = some { x with items := [] } := by
    rw [series?, hP.series]
    exact (series?_modify l s _).trans (congrArg _ hx)
  let x' : Series κ := { x with items := p.items, stats := p.stats }
  let l₂ : Live κ σ := { l₁ with
    series := l₁.series.modify s fun x => { x with items := p.items, stats := p.stats } }
  have hTidy₂ : l₂.Tidy x' m := hTidy.withSeries _
  have hPlan : Series.Plan x.items x'.items values (deedsOf x.items values left found)
      x'.stats := by
    change Series.Plan x.items p.items values _ p.stats
    rw [hItems, hStats]
    exact hFound.plan hLeft
  refine After.sure_run (t := l₂) rfl ?_
  rw [hFault]
  refine ⟨x', (series?_modify l₁ s _).trans (congrArg _ hSeries), rfl, rfl, hTidy₂, rfl,
    ⟨_, hPlan, l₁, hDeeds, rfl⟩, hTidy₂.numbered, hTidy₂.inLine.stock.nodup,
    hTidy₂.row.shelf.row, fun former hFormer => ⟨fun hDestroyed hIn => ?_, fun hOut => ?_⟩,
    fun hook hOther => ?_⟩
  · have hAttached := (hTidy₂.row.stateOf_attached_iff hIn).mpr hIn
    cases (show NodeState.attached = .destroyed from hAttached.symm.trans hDestroyed)
  · exact hGone _ (List.mem_map_of_mem hFormer) (hNodes ▸ hOut)
  · refine reconcile_withHook hClient hConsents depth hMakes hx h values ?_
    rw [reusedOf_eq hFound, ← hFound.reused_eq, ← hNodes]
    exact hOther

end Calling

/-! ## Runs -/

theorem Blank.tidy {s : SeriesId} (h : l.Blank s x m) (hUp : l.tornDown = false)
    (hTakes : (l.stateOf (.container x.box)).isEnding = false) : l.Tidy x m := by
  have hInLine : l.InLine x (x.items.map (·.node)) m := by
    rw [h.items]
    exact h.inLine
  refine ⟨hInLine, ⟨hInLine.stock.lineup, hUp, hTakes, fun r hr => ?_⟩, fun item hItem => ?_,
    fun i item hItem => ?_⟩
  · rw [h.items] at hr
    cases hr
  · rw [h.items] at hItem
    cases hItem
  · rw [h.items] at hItem
    cases hItem

section Running

variable (hClient : client.Quiet) (hConsents : client.Consents) (depth : Nat)
include hClient hConsents

/-- A series is tidy after every call of a run. -/
theorem Passes.tidy {s : SeriesId} {x₀ : Series κ}
    (hMakes : Makes (Calls.upTo client (depth + 2)) x₀.factory m)
    (h : Passes (Calls.upTo client (depth + 2)) s l₀ l) (h₀ : l₀.series? s = some x₀)
    (hStart : l₀.Tidy x₀ m) :
    ∃ x, l.series? s = some x ∧ x.box = x₀.box ∧ x.factory = x₀.factory ∧ l.Tidy x m := by
  induction h with
  | start => exact ⟨x₀, h₀, rfl, rfl, hStart⟩
  | call _ values ih =>
    obtain ⟨x, hx, hBox, hFactory, hTidy⟩ := ih
    obtain ⟨x', hx', hBox', hFactory', hTidy', -⟩ :=
      reconcile_renewed hClient hConsents depth (hFactory ▸ hMakes) hx hTidy values
    exact ⟨x', hx', hBox'.trans hBox, hFactory'.trans hFactory, hTidy'⟩

end Running

/-! ## Lists of elements -/

end LiveMarkup.Live
