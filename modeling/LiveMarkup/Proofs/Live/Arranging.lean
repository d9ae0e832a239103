import LiveMarkup.Proofs.Live.Lineup
import LiveMarkup.Live.Reconciling

/-!
# Matching, removing and placing items

A pass over a list first finds or makes an item for each value. What it works with are the former
items that are not claimed yet and those found or made so far; no item is lost or there twice.

Once the items of a list are matched, those that are left over are destroyed, unless that is
prevented, and the others are brought to their places. Items that keep their places stand in order
already; what is placed goes in front of what was placed before.

* `Stock`: items with nodes and cursors of their own;
* `served`: the values that get an item;
* `retained`, `barred`: the items that could not be destroyed, and those that could not be attached;
* `matchAll_matching`: what there is once all values were looked at;
* `removeAll_clearing`: what is left of the items that are not in the list;
* `appendAll_placing`, `placeItems_placing`: the items of the list stand in its order.
-/

/-! ## Matching items -/

namespace LiveMarkup.Live

variable {κ σ : Type} {client : Client κ σ} {l l₁ l' : Live κ σ} {m : Leeway κ}
variable {box : ContainerId} {order : List NodeRef} {items items' : List Series.Item}

/-! ### Items with their cursors -/

/-- Cursors that are different signals and follow none, with slight watchers. -/
structure Numbered (l : Live κ σ) (cursors : List SignalId) (m : Leeway κ := .strict) : Prop where
  nodup : cursors.Nodup
  lt_size : ∀ c ∈ cursors, c < l.signals.size
  undriven : ∀ c ∈ cursors, ¬ m.Drives l c
  watchers : ∀ c ∈ cursors, ∀ w ∈ l.watchersOf c, w.sink.Slight l m

theorem Numbered.passed {cursors : List SignalId} (h : l.Numbered cursors m)
    (hP : Passed l l' box m) : l'.Numbered cursors m where
  nodup := h.nodup
  lt_size c hc := Nat.lt_of_lt_of_le (h.lt_size c hc) hP.signals_size
  undriven c hc := mt (hP.drives c (h.lt_size c hc)).mp (h.undriven c hc)
  watchers c hc w hw := by
    rcases hP.watchers c (h.lt_size c hc) w hw with hOld | hNew
    · exact hP.slight _ (h.watchers c hc w hOld)
    · exact hNew

/-- Items of a container, each with a node and a cursor of its own. -/
structure Stock (l : Live κ σ) (box : ContainerId) (items : List Series.Item)
    (order : List NodeRef) (m : Leeway κ := .strict) : Prop where
  lineup : l.Lineup box (items.map (·.node)) order m
  nodup : (items.map (·.node)).Nodup
  cursors : l.Numbered (items.map (·.cursor)) m

namespace Stock

theorem of_perm (h : l.Stock box items order m)
    (hNodes : (items'.map (·.node)).Perm (items.map (·.node)))
    (hCursors : (items'.map (·.cursor)).Perm (items.map (·.cursor))) : l.Stock box items' order m where
  lineup := h.lineup.mono (fun _ hr => hNodes.mem_iff.mp hr)
    fun r hr => hNodes.mem_iff.mpr (h.lineup.shelf.subset r hr)
  nodup := hNodes.nodup_iff.mpr h.nodup
  cursors :=
    { nodup := hCursors.nodup_iff.mpr h.cursors.nodup
      lt_size := fun c hc => h.cursors.lt_size c (hCursors.mem_iff.mp hc)
      undriven := fun c hc => h.cursors.undriven c (hCursors.mem_iff.mp hc)
      watchers := fun c hc => h.cursors.watchers c (hCursors.mem_iff.mp hc) }

theorem perm (h : l.Stock box items order m) (hPerm : items'.Perm items) :
    l.Stock box items' order m :=
  h.of_perm (hPerm.map _) (hPerm.map _)

theorem spared (h : l.Stock box items order m) (hS : Spared l l' m) :
    l'.Stock box items order m :=
  ⟨h.lineup.spared hS, h.nodup, h.cursors.passed (h.lineup.passed hS)⟩

/-- A new cursor and then a fresh node make a new item. -/
theorem add (h : l.Stock box items order m) (hCursor : Spared l l₁ m)
    (hLt : l.signals.size < l₁.signals.size) (hUndriven : ¬ m.Drives l₁ l.signals.size)
    (hUnwatched : l₁.watchersOf l.signals.size = []) (hSpared : Spared l₁ l' m) {node : NodeRef}
    (hFresh : Fresh l₁ l' node m) (key : String) :
    l'.Stock box ({ key, node, cursor := l.signals.size } :: items) order m := by
  have h₁ := h.spared hCursor
  have hPassed := h₁.lineup.passed hSpared
  have hOld := h₁.cursors.passed hPassed
  refine ⟨h₁.lineup.add hSpared hFresh, List.nodup_cons.mpr ⟨?_, h.nodup⟩,
    List.nodup_cons.mpr ⟨fun hMem => ?_, hOld.nodup⟩,
    List.forall_mem_cons.mpr ⟨Nat.lt_of_lt_of_le hLt hPassed.signals_size, hOld.lt_size⟩,
    List.forall_mem_cons.mpr ⟨mt (hPassed.drives _ hLt).mp hUndriven, hOld.undriven⟩,
    List.forall_mem_cons.mpr ⟨fun w hw => ?_, hOld.watchers⟩⟩
  · exact hFresh.not_mem h₁.lineup hSpared
  · exact Nat.lt_irrefl _ (h.cursors.lt_size _ hMem)
  · rcases hPassed.watchers _ hLt w hw with hIn | hSlight
    · rw [hUnwatched] at hIn
      cases hIn
    · exact hSlight

end Stock

/-! ### Matching -/

theorem claim?_some {key : String} {pool rest : List (Option Nat × Series.Item)}
    {found : Option Nat × Series.Item} (h : Series.claim? key pool = some (found, rest)) :
    found.2.key = key ∧ pool.Perm (found :: rest) := by
  induction pool generalizing rest with
  | nil => cases h
  | cons first pool ih =>
    obtain ⟨place, item⟩ := first
    rw [Series.claim?] at h
    split at h
    · rename_i hKey
      obtain ⟨rfl, rfl⟩ := Prod.mk.inj (Option.some.inj h)
      exact ⟨beq_iff_eq.mp hKey, List.Perm.refl _⟩
    · obtain ⟨⟨found', others⟩, hClaim, hEq⟩ := Option.map_eq_some_iff.mp h
      obtain ⟨rfl, rfl⟩ := Prod.mk.inj hEq
      obtain ⟨hKey, hPerm⟩ := ih hClaim
      exact ⟨hKey, (hPerm.cons _).trans (List.Perm.swap _ _ _)⟩

variable (calls : Calls κ σ) (factory : ItemFactory κ)

/-- Whether a value gets an item: there is one of its key, or the factory makes one. -/
def gets (p : Series.Pass) (value : Value) (index : Nat) (l : Live κ σ) : Bool :=
  (Series.claim? value.key p.pool).isSome ||
    let (cursor, l₁) := (newSignal (.nat index)).run l
    ((calls.buildItem factory value cursor).run.run l₁).1.isOk

/-- The values of a list, with their places in it, that get an item in a pass over it. -/
def served : Series.Pass → List (Value × Nat) → Live κ σ → List (Value × Nat)
  | _, [], _ => []
  | p, (value, index) :: rest, l =>
    let after := (matchItem calls factory p value index).run l
    (if gets calls factory p value index l then [(value, index)] else []) ++
      served after.1 rest after.2

theorem served_sublist (p : Series.Pass) (values : List (Value × Nat)) (l : Live κ σ) :
    (served calls factory p values l).Sublist values := by
  induction values generalizing p l with
  | nil => exact List.Sublist.refl []
  | cons first values ih =>
    rw [served]
    have hFirst : (if gets calls factory p first.1 first.2 l then [first] else []).Sublist [first] := by
      split
      · exact List.Sublist.refl _
      · exact List.nil_sublist _
    exact hFirst.append (ih _ _)

/-- The key of an item of a pass and the number that its cursor is at. -/
def numbering (l : Live κ σ) (e : Option Nat × Series.Item) : String × Value :=
  (e.2.key, l.valueOf e.2.cursor)

/-- While items are matched none is lost. Places are those of former items in the list, unless
they lingered. -/
structure Matching (l : Live κ σ) (x : Series κ) (order : List NodeRef) (p : Series.Pass)
    (m : Leeway κ := .strict) : Prop where
  stock : l.Stock x.box ((p.pool ++ p.next).map Prod.snd) order m
  placed : ∀ e ∈ p.pool ++ p.next, ∀ i, e.1 = some i →
    ∃ item, x.items[i]? = some item ∧ item.node = e.2.node ∧ item.lingers = false
  former : ∀ e ∈ p.pool, ∃ item ∈ x.items, item.node = e.2.node
  covered : ∀ item ∈ x.items, ∃ e ∈ p.pool ++ p.next, e.2.node = item.node
  current : ∀ e ∈ p.next, e.2.lingers = false
  lingering : p.lingering = []

namespace Matching

variable {x : Series κ} {p : Series.Pass}

/-- An item that is claimed goes from the pool to those that are found. -/
theorem reuse (h : l.Matching x order p m) {place : Option Nat} {item : Series.Item}
    {pool : List (Option Nat × Series.Item)} (hPerm : p.pool.Perm ((place, item) :: pool))
    (hStock : l'.Stock x.box ((p.pool ++ p.next).map Prod.snd) order m) :
    l'.Matching x order (p.reuse pool place item) m := by
  have hOld : (place, item) ∈ p.pool := hPerm.mem_iff.mpr List.mem_cons_self
  have hLess : ∀ e ∈ pool, e ∈ p.pool := fun e he => hPerm.mem_iff.mpr (List.mem_cons_of_mem _ he)
  have hMem : ∀ e, e ∈ pool ++ (p.next ++ [(place, { item with lingers := false })]) →
      e ∈ p.pool ++ p.next ∨ e = (place, { item with lingers := false }) := by
    intro e he
    simp only [List.mem_append, List.mem_singleton] at he ⊢
    rcases he with he | he | he
    · exact .inl (.inl (hLess e he))
    · exact .inl (.inr he)
    · exact .inr he
  -- nodes and cursors are the same as before, in another order
  have hSame : ∀ {α : Type} (f : Series.Item → α), f { item with lingers := false } = f item →
      (((pool ++ (p.next ++ [(place, { item with lingers := false })])).map Prod.snd).map f).Perm
        (((p.pool ++ p.next).map Prod.snd).map f) := by
    intro α f hf
    have hAll : (p.pool ++ p.next).Perm ((place, item) :: (pool ++ p.next)) := hPerm.append_right _
    have hEnd : (pool ++ (p.next ++ [(place, { item with lingers := false })])).Perm
        ((place, { item with lingers := false }) :: (pool ++ p.next)) := by
      rw [← List.append_assoc]
      exact List.perm_append_singleton _ _
    refine ((hEnd.map _).map f).trans ?_
    refine List.Perm.trans (List.Perm.of_eq ?_) ((hAll.map Prod.snd).map f).symm
    simp [hf]
  refine ⟨hStock.of_perm (hSame (·.node) rfl) (hSame (·.cursor) rfl), fun e he i hi => ?_,
    fun e he => h.former e (hLess e he), fun old ho => ?_, fun e he => ?_, h.lingering⟩
  · rcases hMem e he with hIn | rfl
    · exact h.placed e hIn i hi
    · exact h.placed (place, item) (List.mem_append_left _ hOld) i hi
  · obtain ⟨e, he, hNode⟩ := h.covered old ho
    rcases List.mem_append.mp he with hIn | hIn
    · rcases List.mem_cons.mp (hPerm.mem_iff.mp hIn) with rfl | hIn
      · exact ⟨(place, { item with lingers := false }), by simp [Series.Pass.reuse], hNode⟩
      · exact ⟨e, List.mem_append_left _ hIn, hNode⟩
    · exact ⟨e, by simp [Series.Pass.reuse, hIn], hNode⟩
  · rcases List.mem_append.mp he with hIn | hIn
    · exact h.current e hIn
    · rw [List.mem_singleton.mp hIn]

/-- An item that was made is added to those that are found. -/
theorem add (h : l.Matching x order p m) {item : Series.Item} (hNew : item.lingers = false)
    (hStock : l'.Stock x.box (item :: (p.pool ++ p.next).map Prod.snd) order m) :
    l'.Matching x order (p.add item) m := by
  refine ⟨hStock.perm ?_, fun e he i hi => ?_, h.former, fun old ho => ?_, fun e he => ?_,
    h.lingering⟩
  · have hEnd : (p.pool ++ (p.next ++ [(none, item)])).Perm ((none, item) :: (p.pool ++ p.next)) := by
      rw [← List.append_assoc]
      exact List.perm_append_singleton _ _
    exact hEnd.map _
  · have hIn : e ∈ p.pool ++ (p.next ++ [(none, item)]) := he
    rw [← List.append_assoc] at hIn
    rcases List.mem_append.mp hIn with hIn | hIn
    · exact h.placed e hIn i hi
    · rw [List.mem_singleton.mp hIn] at hi
      cases hi
  · obtain ⟨e, he, hNode⟩ := h.covered old ho
    refine ⟨e, ?_, hNode⟩
    change e ∈ p.pool ++ (p.next ++ [(none, item)])
    rw [← List.append_assoc]
    exact List.mem_append_left _ he
  · rcases List.mem_append.mp he with hIn | hIn
    · exact h.current e hIn
    · rw [List.mem_singleton.mp hIn]
      exact hNew

theorem fail (h : l.Matching x order p m) (fault : Fault)
    (hStock : l'.Stock x.box ((p.pool ++ p.next).map Prod.snd) order m) :
    l'.Matching x order (p.fail fault) m :=
  ⟨hStock, h.placed, h.former, h.covered, h.current, h.lingering⟩

end Matching

/-! ### One value and all values -/

variable {calls factory} {x : Series κ} {p : Series.Pass}
variable (hClient : client.Quiet) (depth : Nat)
variable (hCrafts : Crafts (Calls.upTo client (depth + 2)) x.factory m)
include hClient hCrafts

/-- What looking at one value does. -/
theorem matchItem_matching (h : l.Matching x order p m) (value : Value) (index : Nat) :
    After (matchItem (Calls.upTo client (depth + 2)) x.factory p value index) l fun p' l' =>
      l'.Matching x order p' m ∧ Passed l l' x.box m ∧
        p'.next.map l'.numbering = p.next.map l.numbering ++
          (if gets (Calls.upTo client (depth + 2)) x.factory p value index l
            then [(value.key, Value.nat index)] else []) := by
  have hReady := h.stock.lineup.toReady
  have hCursor : ∀ e ∈ p.pool ++ p.next,
      e.2.cursor ∈ ((p.pool ++ p.next).map Prod.snd).map (·.cursor) := fun e he =>
    List.mem_map_of_mem (List.mem_map_of_mem he)
  unfold matchItem
  cases hClaim : Series.claim? value.key p.pool with
  | some claimed =>
    obtain ⟨⟨place, item⟩, pool⟩ := claimed
    obtain ⟨hKey, hPerm⟩ := claim?_some hClaim
    have hItem : (place, item) ∈ p.pool ++ p.next :=
      List.mem_append_left _ (hPerm.mem_iff.mpr List.mem_cons_self)
    have hGets : gets (Calls.upTo client (depth + 2)) x.factory p value index l = true := by
      simp [gets, hClaim]
    rw [if_pos hGets]
    refine (setIfChanged_tuned hClient (depth + 1) hReady (h.stock.cursors.lt_size _ (hCursor _ hItem))
      (h.stock.cursors.undriven _ (hCursor _ hItem))
      (h.stock.cursors.watchers _ (hCursor _ hItem)) index).bind ?_
    rintro _ l₁ ⟨hSpared, hValue, hOthers⟩
    refine ⟨h.reuse hPerm (h.stock.spared hSpared), h.stock.lineup.passed hSpared, ?_⟩
    -- the cursors of the items found before are other signals
    have hNodup : (item.cursor :: (pool ++ p.next).map fun e => e.2.cursor).Nodup := by
      have hAll := (hPerm.append_right p.next).map fun e => e.2.cursor
      have hOld := h.stock.cursors.nodup
      rw [List.map_map] at hOld
      exact hAll.nodup_iff.mp hOld
    have hNext : p.next.map l₁.numbering = p.next.map l.numbering := by
      refine List.map_congr_left fun e he => ?_
      have hNe : e.2.cursor ≠ item.cursor := fun hEq =>
        (List.nodup_cons.mp hNodup).1 (hEq ▸ List.mem_map_of_mem (List.mem_append_right _ he))
      have hUndriven := h.stock.cursors.undriven _ (hCursor e (List.mem_append_right _ he))
      simp only [numbering, hOthers _ hNe hUndriven]
    change (p.next ++ [(place, { item with lingers := false })]).map l₁.numbering = _
    rw [List.map_append, hNext]
    simp only [List.map_cons, List.map_nil, numbering, hValue]
    rw [show item.key = value.key from hKey]
  | none =>
    refine (newSignal_spared hReady (Value.nat index)).run_eq.bind ?_
    rintro cursor l₁ ⟨hRun₁, hSpared₁, rfl, hSize₁, hValue₁, hWatchers₁, hUndriven₁, hKeep₁⟩
    have hLt : l.signals.size < l₁.signals.size := hSize₁ ▸ Nat.lt_succ_self _
    refine (hCrafts l₁ value l.signals.size hSpared₁.toReady
      (hSpared₁.document_lt h.stock.lineup.document) hLt hUndriven₁).run_eq.bind ?_
    rintro out l₂ ⟨hRun₂, hSpared₂, hKeep₂, hFresh⟩
    have hSpared := hSpared₁.trans hSpared₂
    have hGets : gets (Calls.upTo client (depth + 2)) x.factory p value index l = out.isOk := by
      simp only [gets, hClaim, hRun₁, hRun₂, Option.isSome_none, Bool.false_or]
    have hNext : p.next.map l₂.numbering = p.next.map l.numbering := by
      refine List.map_congr_left fun e he => ?_
      have hOld := h.stock.cursors.lt_size _ (hCursor e (List.mem_append_right _ he))
      have hUndriven := h.stock.cursors.undriven _ (hCursor e (List.mem_append_right _ he))
      simp only [numbering, hKeep₂ _ (Nat.lt_trans hOld hLt) (mt (hSpared₁.drives _ hOld).mp hUndriven),
        hKeep₁ _ hOld]
    rw [hGets]
    cases out with
    | error fault =>
      refine ⟨h.fail fault (h.stock.spared hSpared), h.stock.lineup.passed hSpared, ?_⟩
      change p.next.map l₂.numbering = _
      rw [hNext]
      simp [Except.isOk, Except.toBool]
    | ok node =>
      have hNode := hFresh node rfl
      refine ⟨h.add rfl (h.stock.add hSpared₁ hLt hUndriven₁ hWatchers₁ hSpared₂ hNode value.key),
        h.stock.lineup.passed hSpared, ?_⟩
      let item : Series.Item := { key := value.key, node, cursor := l.signals.size }
      change (p.next ++ [(none, item)]).map l₂.numbering = _
      rw [List.map_append, hNext]
      simp [item, numbering, hKeep₂ _ hLt hUndriven₁, hValue₁, Except.isOk, Except.toBool]

/-- What looking at all values of a list does. -/
theorem matchAll_matching (h : l.Matching x order p m) (values : List (Value × Nat)) :
    After (values.foldlM (fun p (value, index) =>
        matchItem (Calls.upTo client (depth + 2)) x.factory p value index) p) l fun p' l' =>
      l'.Matching x order p' m ∧ Passed l l' x.box m ∧
        p'.next.map l'.numbering = p.next.map l.numbering ++
          (served (Calls.upTo client (depth + 2)) x.factory p values l).map
            fun (value, index) => (value.key, Value.nat index) := by
  induction values generalizing p l with
  | nil =>
    refine ⟨h, Passed.refl l x.box, ?_⟩
    change p.next.map l.numbering = p.next.map l.numbering ++ []
    rw [List.append_nil]
  | cons first values ih =>
    obtain ⟨value, index⟩ := first
    rw [List.foldlM_cons]
    refine (matchItem_matching hClient depth hCrafts h value index).run_eq.bind ?_
    rintro p₁ l₁ ⟨hRun, h₁, hPassed₁, hNext₁⟩
    refine (ih h₁).mono ?_
    rintro p' l' ⟨h', hPassed, hNext⟩
    refine ⟨h', hPassed₁.trans hPassed, ?_⟩
    rw [hNext, hNext₁, served, hRun, List.map_append, List.append_assoc]
    congr 1
    split <;> simp

/-- Looking at one value sets no signal but the cursors of items. -/
theorem matchItem_values (h : l.Matching x order p m) (value : Value) (index : Nat) {t : SignalId}
    (ht : t < l.signals.size) (hUndriven : ¬ m.Drives l t)
    (hOther : t ∉ p.pool.map (·.2.cursor)) :
    After (matchItem (Calls.upTo client (depth + 2)) x.factory p value index) l fun p' l' =>
      l'.valueOf t = l.valueOf t ∧ ∀ e ∈ p'.pool, e ∈ p.pool := by
  have hReady := h.stock.lineup.toReady
  unfold matchItem
  cases hClaim : Series.claim? value.key p.pool with
  | some claimed =>
    obtain ⟨⟨place, item⟩, pool⟩ := claimed
    obtain ⟨-, hPerm⟩ := claim?_some hClaim
    have hItem : (place, item) ∈ p.pool := hPerm.mem_iff.mpr List.mem_cons_self
    have hCursor : item.cursor ∈ ((p.pool ++ p.next).map Prod.snd).map (·.cursor) :=
      List.mem_map_of_mem (List.mem_map_of_mem (List.mem_append_left _ hItem))
    refine (setIfChanged_tuned hClient (depth + 1) hReady (h.stock.cursors.lt_size _ hCursor)
      (h.stock.cursors.undriven _ hCursor) (h.stock.cursors.watchers _ hCursor) index).bind ?_
    rintro _ l₁ ⟨-, -, hOthers⟩
    refine ⟨hOthers t (fun hEq => hOther ?_) hUndriven, fun e he => ?_⟩
    · rw [hEq]
      exact List.mem_map_of_mem (f := fun e : Option Nat × Series.Item => e.2.cursor) hItem
    · exact hPerm.mem_iff.mpr (List.mem_cons_of_mem _ he)
  | none =>
    refine (newSignal_spared hReady (Value.nat index)).bind ?_
    rintro cursor l₁ ⟨hSpared₁, rfl, hSize₁, -, -, hCursor, hKeep₁⟩
    have hLt : l.signals.size < l₁.signals.size := hSize₁ ▸ Nat.lt_succ_self _
    refine (hCrafts l₁ value l.signals.size hSpared₁.toReady
      (hSpared₁.document_lt h.stock.lineup.document) hLt hCursor).bind ?_
    rintro out l₂ ⟨-, hKeep₂, -⟩
    have hSame : l₂.valueOf t = l.valueOf t := by
      rw [hKeep₂ t (Nat.lt_trans ht hLt) (mt (hSpared₁.drives t ht).mp hUndriven), hKeep₁ t ht]
    cases out with
    | error fault => exact ⟨hSame, fun e he => he⟩
    | ok node => exact ⟨hSame, fun e he => he⟩

/-- Looking at all values of a list sets no signal but the cursors of items. -/
theorem matchAll_values (h : l.Matching x order p m) (values : List (Value × Nat)) {t : SignalId}
    (ht : t < l.signals.size) (hUndriven : ¬ m.Drives l t)
    (hOther : t ∉ p.pool.map (·.2.cursor)) :
    After (values.foldlM (fun p (value, index) =>
        matchItem (Calls.upTo client (depth + 2)) x.factory p value index) p) l fun _ l' =>
      l'.valueOf t = l.valueOf t := by
  induction values generalizing p l with
  | nil => rfl
  | cons first values ih =>
    obtain ⟨value, index⟩ := first
    rw [List.foldlM_cons]
    refine ((matchItem_matching hClient depth hCrafts h value index).and
      (matchItem_values hClient depth hCrafts h value index ht hUndriven hOther)).bind ?_
    rintro p₁ l₁ ⟨⟨h₁, hPassed₁, -⟩, hSame₁, hLess⟩
    refine (ih h₁ (Nat.lt_of_lt_of_le ht hPassed₁.signals_size)
      (mt (hPassed₁.drives t ht).mp hUndriven) fun hIn => hOther ?_).mono ?_
    · obtain ⟨e, he, hEq⟩ := List.mem_map.mp hIn
      exact List.mem_map.mpr ⟨e, hLess e he, hEq⟩
    · exact fun _ _ hSame => hSame.trans hSame₁

end LiveMarkup.Live

/-! ## Removing and placing items -/

namespace LiveMarkup.Live

open Forest

variable {κ σ : Type} {client : Client κ σ} {l l₁ l' : Live κ σ} {m : Leeway κ}
variable {box : ContainerId} {order : List NodeRef} {items : List Series.Item}
variable {item : Series.Item} {p : Series.Pass}

/-! ### Rows in order -/

theorem cons_sublist_of_append {α : Type} {b : α} {B u v : List α}
    (h : (b :: B).Sublist (u ++ b :: v)) (hNot : b ∉ u) : (b :: B).Sublist (b :: v) := by
  induction u with
  | nil => exact h
  | cons x u ih =>
    rw [List.mem_cons, not_or] at hNot
    rcases List.sublist_cons_iff.mp h with hRest | ⟨rest, hEq, -⟩
    · exact ih hRest hNot.2
    · exact absurd (List.cons.inj hEq).1 hNot.1

/-- What stands in order still does with a new one in front of what is behind it. -/
theorem sublist_splice {A B : List NodeRef} {r : NodeRef} (h : (A ++ B).Sublist order)
    (hNodup : order.Nodup) : (A ++ r :: B).Sublist (splice B.head? [r] order) := by
  cases B with
  | nil =>
    rw [List.append_nil] at h
    exact h.append_right [r]
  | cons b B =>
    obtain ⟨s, t, rfl, hA, hB⟩ := List.append_sublist_iff.mp h
    obtain ⟨u, v, rfl, hu⟩ := List.eq_append_cons_of_mem (hB.subset List.mem_cons_self)
    have hNot : b ∉ s ++ u := by
      rw [← List.append_assoc] at hNodup
      exact fun hMem => (List.nodup_append.mp hNodup).2.2 b hMem b List.mem_cons_self rfl
    have hAll : splice (some b) [r] (s ++ (u ++ b :: v)) = (s ++ u) ++ (r :: b :: v) := by
      rw [← List.append_assoc, splice_append hNot]
      simp
    rw [List.head?_cons, hAll]
    refine (hA.trans (List.sublist_append_left _ _)).append ?_
    exact (cons_sublist_of_append hB hu).cons_cons r

/-- Those of a list that stand in the row stand there in the order of the list. -/
def Standing (rs order : List NodeRef) : Prop :=
  (rs.filter (· ∈ order)).Sublist order

/-- They still do once one more is put in front of those behind it that stand in the row. -/
theorem Standing.splice {A B : List NodeRef} {r : NodeRef} (h : Standing (A ++ B) order)
    (hNodup : order.Nodup) (hA : r ∉ A) (hB : r ∉ B) : Standing (A ++ r :: B)
      (Forest.splice (B.filter (· ∈ order)).head? [r] (order.filter (· ≠ r))) := by
  have hSame : ∀ rs : List NodeRef, r ∉ rs → rs.filter (· ∈ Forest.splice
      (B.filter (· ∈ order)).head? [r] (order.filter (· ≠ r))) = rs.filter (· ∈ order) := by
    intro rs hrs
    refine List.filter_congr fun x hx => ?_
    have hNe : x ≠ r := fun he => hrs (he ▸ hx)
    simp [mem_splice, hNe]
  have hOff : ((A ++ B).filter (· ∈ order)).filter (· ≠ r) =
      A.filter (· ∈ order) ++ B.filter (· ∈ order) := by
    rw [← List.filter_append]
    refine List.filter_eq_self.mpr fun x hx => ?_
    have hNe : x ≠ r := by
      rintro rfl
      exact (List.mem_append.mp (List.mem_of_mem_filter hx)).elim hA hB
    simpa using hNe
  rw [Standing, List.filter_append, List.filter_cons_of_pos (by simp [mem_splice]), hSame A hA,
    hSame B hB]
  refine sublist_splice ?_ (hNodup.filter _)
  rw [← hOff]
  exact h.filter _

theorem Standing.skip {A B : List NodeRef} {r : NodeRef} (h : Standing (A ++ B) order)
    (hr : r ∉ order) : Standing (A ++ r :: B) order := by
  rw [Standing, List.filter_append, List.filter_cons_of_neg (by simpa using hr),
    ← List.filter_append]
  exact h

/-! ### Bookkeeping -/

@[simp]
theorem next_note {α : Type} (p : Series.Pass) (outcome : Except Fault α) :
    (p.note outcome).next = p.next := by
  cases outcome <;> rfl

@[simp]
theorem lingering_note {α : Type} (p : Series.Pass) (outcome : Except Fault α) :
    (p.note outcome).lingering = p.lingering := by
  cases outcome <;> rfl

namespace Stock

theorem passed (h : l.Stock box items order m) {order' : List NodeRef} (hP : Passed l l' box m)
    (hLineup : l'.Lineup box (items.map (·.node)) order' m) : l'.Stock box items order' m :=
  ⟨hLineup, h.nodup, h.cursors.passed hP⟩

/-- An item that was destroyed is one of the stock no more. -/
theorem remove (h : l.Stock box (item :: items) order m) {order' : List NodeRef}
    (hP : Passed l l' box m) (hLineup : l'.Lineup box
      (((item :: items).map (·.node)).filter (· ≠ item.node)) order' m) :
    l'.Stock box items order' m := by
  obtain ⟨hNot, hNodup⟩ := List.nodup_cons.mp h.nodup
  have hSame : ((item :: items).map (·.node)).filter (· ≠ item.node) = items.map (·.node) := by
    rw [List.map_cons, List.filter_cons_of_neg (by simp)]
    refine List.filter_eq_self.mpr fun r hr => ?_
    have hNe : r ≠ item.node := fun he => hNot (show item.node ∈ _ from he ▸ hr)
    simpa using hNe
  rw [hSame] at hLineup
  have hCursors := h.cursors.passed hP
  exact ⟨hLineup, hNodup, (List.nodup_cons.mp hCursors.nodup).2,
    fun c hc => hCursors.lt_size c (List.mem_cons_of_mem _ hc),
    fun c hc => hCursors.undriven c (List.mem_cons_of_mem _ hc),
    fun c hc => hCursors.watchers c (List.mem_cons_of_mem _ hc)⟩

end Stock

/-! ### Items at their turns -/

/-- What a loop goes over, each with the state that there is at its turn. -/
def turns {α β : Type} (step : β → α → LiveM κ σ β) : β → List α → Live κ σ → List (α × Live κ σ)
  | _, [], _ => []
  | b, a :: rest, l => (a, l) :: turns step ((step b a).run l).1 rest ((step b a).run l).2

/-- The items that are brought to their places, the last first, each with the state at its turn. -/
def placeTurns (calls : Calls κ σ) (parent : NodeRef) (stable : List Nat) : Option NodeRef →
    Series.Pass → List (Option Nat × Series.Item) → Live κ σ → List (Series.Item × Live κ σ)
  | _, _, [], _ => []
  | anchor, p, (place, item) :: rest, l =>
    let after := (placeItem calls parent anchor (place.any stable.contains) p item).run l
    (item, l) :: placeTurns calls parent stable
      (if after.2.stateOf item.node = .attached then some item.node else anchor) after.1 rest after.2

/-- Those items that are retained at their turns. They linger. -/
def retained (calls : Calls κ σ) (ts : List (Series.Item × Live κ σ)) : List Series.Item :=
  (ts.filter fun (item, l) => l.retains calls item.node).map fun (item, _) =>
    { item with lingers := true }

/-- The nodes and containers of those items that are barred at their turns. -/
def barred (calls : Calls κ σ) (box : ContainerId) (ts : List (Series.Item × Live κ σ)) :
    List NodeRef :=
  (ts.filter fun (item, l) => l.bars calls box item.node).map fun (item, _) => item.node

theorem retained_cons (calls : Calls κ σ) (item : Series.Item) (l : Live κ σ)
    (ts : List (Series.Item × Live κ σ)) : retained calls ((item, l) :: ts) =
      (if l.retains calls item.node then [{ item with lingers := true }] else []) ++
        retained calls ts := by
  cases h : l.retains calls item.node <;> simp [retained, h]

theorem barred_cons (calls : Calls κ σ) (box : ContainerId) (item : Series.Item) (l : Live κ σ)
    (ts : List (Series.Item × Live κ σ)) : barred calls box ((item, l) :: ts) =
      (if l.bars calls box item.node then [item.node] else []) ++ barred calls box ts := by
  cases h : l.bars calls box item.node <;> simp [barred, h]

/-! ### Removing -/

/-- While items are removed, `left` are still to be. Some keep standing where they are. -/
structure Clearing (x : Series κ) (p₀ : Series.Pass) (S : List NodeRef) (left : List Series.Item)
    (p : Series.Pass) (order : List NodeRef) (l : Live κ σ) (m : Leeway κ := .strict) : Prop where
  next : p.next = p₀.next
  stock : l.Stock x.box (left ++ (p.next.map Prod.snd ++ p.lingering)) order m
  standing : Standing S order
  lingering : ∀ j ∈ p.lingering, j.lingers = true ∧ ∃ e ∈ p₀.pool, e.2.node = j.node
  gone : ∀ e ∈ p₀.pool, e.2 ∈ left ∨ (∃ j ∈ p.lingering, j.node = e.2.node) ∨
    l.dom.Known e.2.node ∧ l.stateOf e.2.node = .destroyed

variable {x : Series κ} {p₀ : Series.Pass} {S : List NodeRef}
variable {left : List Series.Item}

namespace Clearing

/-- An item is destroyed. -/
theorem destroyed (h : Clearing x p₀ S (item :: left) p order l m)
    (hS : ∀ r ∈ S, r ∈ (p₀.next.map Prod.snd).map (·.node)) {p' : Series.Pass}
    (hNext : p'.next = p.next) (hLingering : p'.lingering = p.lingering) (hP : Passed l l' x.box m)
    (hState : l'.stateOf item.node = .destroyed)
    (hLineup : l'.Lineup x.box (((item :: left ++ (p.next.map Prod.snd ++ p.lingering)).map
      (·.node)).filter (· ≠ item.node)) (order.filter (· ≠ item.node)) m) :
    Clearing x p₀ S left p' (order.filter (· ≠ item.node)) l' m := by
  have hKnown : l.dom.Known item.node := h.stock.lineup.shelf.known _ (by simp)
  refine ⟨hNext.trans h.next, ?_, ?_, fun j hj => ?_, fun e he => ?_⟩
  · rw [hNext, hLingering]
    exact h.stock.remove hP hLineup
  · have hNe : ∀ r ∈ S, r ≠ item.node := by
      rintro r hr rfl
      refine (List.nodup_cons.mp h.stock.nodup).1 ?_
      change item.node ∈ (left ++ (p.next.map Prod.snd ++ p.lingering)).map (·.node)
      rw [h.next, List.map_append, List.map_append]
      exact List.mem_append_right _ (List.mem_append_left _ (hS _ hr))
    have hSame : (S.filter (· ∈ order)).filter (· ≠ item.node) =
        S.filter (· ∈ order.filter (· ≠ item.node)) := by
      rw [List.filter_filter]
      refine List.filter_congr fun r hr => ?_
      simp [hNe r hr]
    rw [Standing, ← hSame]
    exact h.standing.filter _
  · exact h.lingering j (hLingering ▸ hj)
  · rcases h.gone e he with hLeft | ⟨j, hj, hNode⟩ | ⟨hKnown, hGone⟩
    · rcases List.mem_cons.mp hLeft with hEq | hLeft
      · rw [hEq]
        exact .inr (.inr ⟨hP.known _ hKnown, hState⟩)
      · exact .inl hLeft
    · exact .inr (.inl ⟨j, hLingering ▸ hj, hNode⟩)
    · exact .inr (.inr ⟨hP.known _ hKnown, hP.destroyed _ hKnown hGone⟩)

theorem linger (h : Clearing x p₀ S (item :: left) p order l m)
    (hItem : ∃ e ∈ p₀.pool, e.2.node = item.node) {p' : Series.Pass} (hNext : p'.next = p.next)
    (hLingering : p'.lingering = p.lingering ++ [{ item with lingers := true }])
    (hP : Passed l l' x.box m)
    (hLineup : l'.Lineup x.box ((item :: left ++ (p.next.map Prod.snd ++ p.lingering)).map
      (·.node)) order m) : Clearing x p₀ S left p' order l' m := by
  refine ⟨hNext.trans h.next, ?_, h.standing, fun j hj => ?_, fun e he => ?_⟩
  · have hSame : ∀ {α : Type} (f : Series.Item → α), f { item with lingers := true } = f item →
        ((left ++ (p'.next.map Prod.snd ++ p'.lingering)).map f).Perm
          ((item :: left ++ (p.next.map Prod.snd ++ p.lingering)).map f) := by
      intro α f hf
      rw [hNext, hLingering, ← List.append_assoc, ← List.append_assoc, List.map_append,
        List.map_singleton, hf, List.append_assoc left, List.cons_append, List.map_cons]
      exact List.perm_append_singleton _ _
    exact (h.stock.passed hP hLineup).of_perm (hSame _ rfl) (hSame _ rfl)
  · rw [hLingering] at hj
    rcases List.mem_append.mp hj with hOld | hNew
    · exact h.lingering j hOld
    · rw [List.mem_singleton.mp hNew]
      exact ⟨rfl, hItem⟩
  · rcases h.gone e he with hLeft | ⟨j, hj, hNode⟩ | ⟨hKnown, hGone⟩
    · rcases List.mem_cons.mp hLeft with hEq | hLeft
      · rw [hEq]
        exact .inr (.inl ⟨{ item with lingers := true }, by rw [hLingering]; simp, rfl⟩)
      · exact .inl hLeft
    · exact .inr (.inl ⟨j, by rw [hLingering]; exact List.mem_append_left _ hj, hNode⟩)
    · exact .inr (.inr ⟨hP.known _ hKnown, hP.destroyed _ hKnown hGone⟩)

end Clearing

section Removing

variable (hClient : client.Quiet) (depth : Nat)
include hClient

/-- What removing one item does. -/
theorem removeItem_clearing (h : Clearing x p₀ S (item :: left) p order l m)
    (hS : ∀ r ∈ S, r ∈ (p₀.next.map Prod.snd).map (·.node))
    (hItem : ∃ e ∈ p₀.pool, e.2.node = item.node) :
    After (removeItem (Calls.upTo client (depth + 2)) p item) l fun p' l' =>
      Frame l l' m ∧ Passed l l' x.box m ∧ p'.lingering = p.lingering ++
          (if l.retains (Calls.upTo client (depth + 2)) item.node
            then [{ item with lingers := true }] else []) ∧
        ∃ order', (∀ r ∈ order', r ∈ order) ∧ Clearing x p₀ S left p' order' l' m := by
  have hr : item.node ∈ (item :: left ++ (p.next.map Prod.snd ++ p.lingering)).map (·.node) := by
    simp
  unfold removeItem
  refine (h.stock.lineup.destroyFully hClient depth hr).bind ?_
  rintro outcome l₁ ⟨hFrame, hP, ⟨hLineup, hRetains⟩ | ⟨hRetains, hState, hLineup⟩⟩
  · rw [after_bind, after_get, if_neg, after_pure, hRetains, if_pos rfl]
    · exact ⟨hFrame, hP, by simp [Series.Pass.linger], order, fun _ hx => hx,
        h.linger hItem (by simp [Series.Pass.linger]) (by simp [Series.Pass.linger]) hP hLineup⟩
    · rw [hLineup.stateOf_eq hr]
      split <;> decide
  · rw [after_bind, after_get, if_pos hState, after_pure, hRetains, if_neg Bool.false_ne_true,
      List.append_nil]
    exact ⟨hFrame, hP, by simp [Series.Pass.countDestroyed], _,
      fun _ hx => List.mem_of_mem_filter hx, h.destroyed hS (by simp [Series.Pass.countDestroyed])
        (by simp [Series.Pass.countDestroyed]) hP hState hLineup⟩

/-- What removing all items does that are not in the list. Those linger that are retained. -/
theorem removeAll_clearing (h : Clearing x p₀ S left p order l m)
    (hS : ∀ r ∈ S, r ∈ (p₀.next.map Prod.snd).map (·.node))
    (hLeft : ∀ item ∈ left, ∃ e ∈ p₀.pool, e.2.node = item.node) :
    After (left.foldlM (removeItem (Calls.upTo client (depth + 2))) p) l fun p' l' =>
      Frame l l' m ∧ Passed l l' x.box m ∧
        p'.lingering = p.lingering ++ retained (Calls.upTo client (depth + 2))
          (turns (removeItem (Calls.upTo client (depth + 2))) p left l) ∧
        ∃ order', (∀ r ∈ order', r ∈ order) ∧ Clearing x p₀ S [] p' order' l' m := by
  induction left generalizing p order l with
  | nil => exact ⟨Frame.refl l, Passed.refl l x.box, (List.append_nil _).symm, order,
      fun _ hx => hx, h⟩
  | cons item left ih =>
    rw [List.foldlM_cons]
    obtain ⟨hItem, hRest⟩ := List.forall_mem_cons.mp hLeft
    refine (removeItem_clearing hClient depth h hS hItem).run_eq.bind ?_
    rintro p₁ l₁ ⟨hRun, hFrame₁, hP₁, hLingering₁, order₁, hLess₁, h₁⟩
    refine (ih h₁ hRest).mono ?_
    rintro p' l' ⟨hFrame, hP, hLingering, order', hLess, h'⟩
    refine ⟨hFrame₁.trans hFrame, hP₁.trans hP, ?_, order', fun r hr => hLess₁ r (hLess r hr), h'⟩
    rw [hLingering, hLingering₁, turns, hRun, retained_cons, List.append_assoc]

end Removing

/-! ### Placing -/

/-- While items are placed, those behind are at their places but for those that were barred, and
those ahead that stay where they are stand in order as well. -/
structure Placing (box : ContainerId) (items : List Series.Item)
    (ahead behind bars order : List NodeRef) (l : Live κ σ) (m : Leeway κ := .strict) : Prop where
  stock : l.Stock box items order m
  standing : Standing (ahead ++ behind) order
  within : ∀ r ∈ bars, r ∈ behind
  whole : ∀ r ∈ behind, r ∈ order ↔ r ∉ bars

variable {ahead behind bars : List NodeRef} {r : NodeRef}

namespace Placing

theorem skip (h : Placing box items ahead behind bars order l m) (hP : Passed l l' box m)
    (hLineup : l'.Lineup box (items.map (·.node)) order m) (hr : r ∉ order) :
    Placing box items ahead (r :: behind) (bars ++ [r]) order l' m := by
  refine ⟨h.stock.passed hP hLineup, h.standing.skip hr, fun x hx => ?_,
    List.forall_mem_cons.mpr ⟨iff_of_false hr (by simp), fun x hx => ?_⟩⟩
  · rcases List.mem_append.mp hx with hx | hx
    · exact List.mem_cons_of_mem _ (h.within x hx)
    · exact List.mem_singleton.mp hx ▸ List.mem_cons_self
  · by_cases hxr : x = r
    · exact iff_of_false (hxr ▸ hr) (by simp [hxr])
    · simp [h.whole x hx, hxr]

theorem whole_of (h : Placing box items ahead behind bars order l m) {order' : List NodeRef}
    (hBehind : r ∉ behind) (hSelf : r ∈ order') (hSame : ∀ x, x ≠ r → (x ∈ order' ↔ x ∈ order)) :
    ∀ x ∈ r :: behind, x ∈ order' ↔ x ∉ bars := by
  refine List.forall_mem_cons.mpr ⟨iff_of_true hSelf fun hx => hBehind (h.within r hx), ?_⟩
  intro x hx
  rw [hSame x fun he => hBehind (he ▸ hx)]
  exact h.whole x hx

/-- An item was put where it is to be. -/
theorem put (h : Placing box items ahead behind bars order l m) (hP : Passed l l' box m)
    (hAhead : r ∉ ahead) (hBehind : r ∉ behind)
    (hLineup : l'.Lineup box (items.map (·.node))
      (splice (behind.filter (· ∈ order)).head? [r] (order.filter (· ≠ r))) m) :
    Placing box items ahead (r :: behind) bars
      (splice (behind.filter (· ∈ order)).head? [r] (order.filter (· ≠ r))) l' m := by
  refine ⟨h.stock.passed hP hLineup,
    h.standing.splice h.stock.lineup.shelf.nodup hAhead hBehind,
    fun x hx => List.mem_cons_of_mem _ (h.within x hx),
    h.whole_of hBehind (mem_splice.mpr (.inl List.mem_cons_self)) fun x hx => ?_⟩
  simp [mem_splice, hx]

end Placing

theorem anchor_of_placing (hBehind : r ∉ behind) {a : NodeRef}
    (ha : (behind.filter (· ∈ order)).head? = some a) : a ∈ order ∧ a ≠ r := by
  have hMem := List.mem_filter.mp (List.mem_of_head? ha)
  exact ⟨by simpa using hMem.2, fun he => hBehind (he ▸ hMem.1)⟩

/-- The items that keep their places, in the order of the list. -/
def stays (stable : List Nat) (items : List (Option Nat × Series.Item)) : List NodeRef :=
  (items.filter fun e => e.1.any stable.contains).map (·.2.node)

/-- The last of the items is not among those that stay before it, and not behind itself. -/
theorem stays_reverse_cons (stable : List Nat) {place : Option Nat} {item : Series.Item}
    {todo : List (Option Nat × Series.Item)} {behind : List NodeRef}
    (hNodup : (((place, item) :: todo).map (·.2.node) ++ behind).Nodup) :
    stays stable ((place, item) :: todo).reverse =
        stays stable todo.reverse ++ (if place.any stable.contains then [item.node] else []) ∧
      item.node ∉ stays stable todo.reverse ∧ item.node ∉ behind ∧
        (todo.map (·.2.node) ++ item.node :: behind).Nodup := by
  rw [List.map_cons, List.cons_append] at hNodup
  obtain ⟨hNot, -⟩ := List.nodup_cons.mp hNodup
  rw [List.mem_append, not_or] at hNot
  refine ⟨?_, fun hMem => ?_, hNot.2, List.perm_middle.nodup_iff.mpr hNodup⟩
  · rw [List.reverse_cons, stays, List.filter_append, List.map_append]
    cases hStay : place.any stable.contains <;> simp [stays, hStay]
  · obtain ⟨e, he, hEq⟩ := List.mem_map.mp hMem
    exact hNot.1 (hEq ▸ List.mem_map_of_mem (List.mem_reverse.mp (List.mem_of_mem_filter he)))

section Placing

variable (hClient : client.Quiet) (depth : Nat)
include hClient

/-- What bringing one item to its place does. -/
theorem placeItem_placing {inPlace : Bool} (hItem : item.node ∈ items.map (·.node))
    (h : Placing box items (ahead ++ if inPlace then [item.node] else []) behind bars order l m)
    (hAhead : item.node ∉ ahead) (hBehind : item.node ∉ behind) :
    After (placeItem (Calls.upTo client (depth + 2)) (.container box)
        (behind.filter (· ∈ order)).head? inPlace p item) l fun p' l' =>
      Frame l l' m ∧ Passed l l' box m ∧ p'.next = p.next ∧ p'.lingering = p.lingering ∧
        ∃ order', Placing box items ahead (item.node :: behind)
            (bars ++ if l.bars (Calls.upTo client (depth + 2)) box item.node
              then [item.node] else []) order' l' m ∧
          (item.node ∉ order' → order' = order) := by
  have hAnchor : ∀ a, (behind.filter (· ∈ order)).head? = some a → a ∈ order ∧ a ≠ item.node :=
    fun a => anchor_of_placing hBehind
  have hLineup := h.stock.lineup
  have hMoved : item.node ∈ splice (behind.filter (· ∈ order)).head? [item.node]
      (order.filter (· ≠ item.node)) := mem_splice.mpr (.inl List.mem_cons_self)
  -- those ahead of it stand in order as they did with it
  have hOpen : Placing box items ahead behind bars order l m := by
    refine ⟨h.stock, List.Sublist.trans ?_ h.standing, h.within, h.whole⟩
    exact ((List.sublist_append_left _ _).append_right _).filter _
  unfold placeItem
  rw [after_bind, after_get]
  by_cases hIn : item.node ∈ order
  · have hState := (hLineup.stateOf_attached_iff hItem).mpr hIn
    have hFree : l.bars (Calls.upTo client (depth + 2)) box item.node = false := by
      simp [Live.bars, hState]
    rw [hState, hFree, if_neg Bool.false_ne_true, List.append_nil]
    dsimp only
    split
    · rename_i hInPlace
      have hStanding := h.standing
      rw [if_pos hInPlace, List.append_assoc] at hStanding
      refine ⟨Frame.refl l, Passed.refl l box, rfl, rfl, order, ⟨h.stock, hStanding,
        fun x hx => List.mem_cons_of_mem _ (h.within x hx), ?_⟩, fun _ => rfl⟩
      exact h.whole_of hBehind hIn fun _ _ => Iff.rfl
    · refine (hLineup.moveTo hClient depth hIn hAnchor).bind ?_
      rintro outcome l₁ ⟨hFrame, hP, hLineup₁⟩
      have hPut := hOpen.put hP hAhead hBehind hLineup₁
      cases outcome with
      | ok _ => exact ⟨hFrame, hP, rfl, rfl, _, hPut, fun hNot => absurd hMoved hNot⟩
      | error _ => exact ⟨hFrame, hP, rfl, rfl, _, hPut, fun hNot => absurd hMoved hNot⟩
  · rw [(hLineup.stateOf_detached_iff hItem).mpr hIn]
    refine (hLineup.attach hClient depth hItem hAnchor).bind ?_
    rintro outcome l₁ ⟨hFrame, hP, ⟨hLineup₁, hWhy⟩ | ⟨-, hFree, hLineup₁⟩⟩
    · rw [hWhy.resolve_left hIn, if_pos rfl]
      exact ⟨hFrame, hP, next_note _ _, lingering_note _ _, order, hOpen.skip hP hLineup₁ hIn,
        fun _ => rfl⟩
    · have hSame : order.filter (· ≠ item.node) = order := List.filter_eq_self.mpr fun x hx => by
        have hNe : x ≠ item.node := fun he => hIn (he ▸ hx)
        simpa using hNe
      have hPut := hOpen.put hP hAhead hBehind (hSame.symm ▸ hLineup₁)
      rw [hFree, if_neg Bool.false_ne_true, List.append_nil]
      exact ⟨hFrame, hP, next_note _ _, lingering_note _ _, _, hPut, fun hNot => absurd hMoved hNot⟩

/-- What bringing all items to their places does, the last first. -/
theorem placeItems_placing (stable : List Nat) {todo : List (Option Nat × Series.Item)}
    (hItems : ∀ e ∈ todo, e.2.node ∈ items.map (·.node))
    (hNodup : (todo.map (·.2.node) ++ behind).Nodup)
    (h : Placing box items (stays stable todo.reverse) behind bars order l m) :
    After (placeItems (Calls.upTo client (depth + 2)) (.container box) stable
        (behind.filter (· ∈ order)).head? p todo) l fun p' l' =>
      Frame l l' m ∧ Passed l l' box m ∧ p'.next = p.next ∧ p'.lingering = p.lingering ∧
        ∃ order', Placing box items [] (todo.reverse.map (·.2.node) ++ behind)
          (bars ++ barred (Calls.upTo client (depth + 2)) box
            (placeTurns (Calls.upTo client (depth + 2)) (.container box) stable
              (behind.filter (· ∈ order)).head? p todo l)) order' l' m := by
  induction todo generalizing behind bars order p l with
  | nil =>
    refine ⟨Frame.refl l, Passed.refl l box, rfl, rfl, order, ?_⟩
    change Placing box items _ _ (bars ++ []) order l m
    rw [List.append_nil]
    exact h
  | cons first todo ih =>
    obtain ⟨place, item⟩ := first
    obtain ⟨hItem, hRest⟩ := List.forall_mem_cons.mp hItems
    obtain ⟨hStays, hAhead, hNot, hNodup₁⟩ := stays_reverse_cons stable hNodup
    rw [hStays] at h
    rw [placeItems]
    refine (placeItem_placing hClient depth hItem h hAhead hNot).run_eq.bind ?_
    rintro p₁ l₁ ⟨hRun, hFrame₁, hP₁, hNext₁, hLingering₁, order₁, h₁, hSame⟩
    -- the next goes in front of this one if it stands in the row
    have hAnchor : (if l₁.stateOf item.node = .attached then some item.node
        else (behind.filter (· ∈ order)).head?) =
          ((item.node :: behind).filter (· ∈ order₁)).head? := by
      by_cases hIn : item.node ∈ order₁
      · rw [if_pos ((h₁.stock.lineup.stateOf_attached_iff hItem).mpr hIn),
          List.filter_cons_of_pos (by simpa using hIn), List.head?_cons]
      · rw [if_neg (mt (h₁.stock.lineup.stateOf_attached_iff hItem).mp hIn),
          List.filter_cons_of_neg (by simpa using hIn), hSame hIn]
    have hTurns : barred (Calls.upTo client (depth + 2)) box
        (placeTurns (Calls.upTo client (depth + 2)) (.container box) stable
          (behind.filter (· ∈ order)).head? p ((place, item) :: todo) l) =
        (if l.bars (Calls.upTo client (depth + 2)) box item.node then [item.node] else []) ++
          barred (Calls.upTo client (depth + 2)) box
            (placeTurns (Calls.upTo client (depth + 2)) (.container box) stable
              ((item.node :: behind).filter (· ∈ order₁)).head? p₁ todo l₁) := by
      rw [placeTurns, barred_cons, hRun]
      simp only [hAnchor]
    rw [after_bind, after_get]
    simp only [hAnchor]
    refine (ih hRest hNodup₁ h₁).mono ?_
    rintro p' l' ⟨hFrame, hP, hNext, hLingering, order', h'⟩
    refine ⟨hFrame₁.trans hFrame, hP₁.trans hP, hNext.trans hNext₁, hLingering.trans hLingering₁,
      order', ?_⟩
    rw [hTurns, ← List.append_assoc bars, List.reverse_cons, List.map_append, List.append_assoc]
    exact h'

/-- What attaching one new item does. -/
theorem appendItem_placing (hItem : item.node ∈ items.map (·.node)) (hOut : item.node ∉ order)
    (hBehind : item.node ∉ behind) (h : Placing box items [] behind bars order l m) :
    After (appendItem (Calls.upTo client (depth + 2)) (.container box) p item) l fun p' l' =>
      Frame l l' m ∧ Passed l l' box m ∧ p'.next = p.next ∧ p'.lingering = p.lingering ∧
        ∃ order', (∀ x ∈ order', x = item.node ∨ x ∈ order) ∧
          Placing box items [] (behind ++ [item.node])
            (bars ++ if l.bars (Calls.upTo client (depth + 2)) box item.node
              then [item.node] else []) order' l' m := by
  have hStanding : Standing (behind ++ []) order := by
    rw [List.append_nil]
    exact h.standing
  -- what is behind may come in another order
  have hTurn {bars' order' : List NodeRef} {l₁ : Live κ σ} (hStock : l₁.Stock box items order' m)
      (hLast : Standing (behind ++ [item.node]) order')
      (hWithin : ∀ x ∈ bars', x ∈ item.node :: behind)
      (hWhole : ∀ x ∈ item.node :: behind, x ∈ order' ↔ x ∉ bars') :
      Placing box items [] (behind ++ [item.node]) bars' order' l₁ m :=
    have hPerm := List.perm_append_singleton item.node behind
    ⟨hStock, hLast, fun x hx => hPerm.mem_iff.mpr (hWithin x hx),
      fun x hx => hWhole x (hPerm.mem_iff.mp hx)⟩
  unfold appendItem
  refine (h.stock.lineup.attach hClient depth hItem
    fun a (ha : none = some a) => by cases ha).bind ?_
  rintro outcome l₁ ⟨hFrame, hP, ⟨hLineup, hWhy⟩ | ⟨-, hFree, hLineup⟩⟩
  · rw [hWhy.resolve_left hOut, if_pos rfl]
    have hSkip := h.skip hP hLineup hOut
    exact ⟨hFrame, hP, next_note _ _, lingering_note _ _, order, fun x hx => .inr hx,
      hTurn hSkip.stock (hStanding.skip hOut) hSkip.within hSkip.whole⟩
  · have hSame : order.filter (· ≠ item.node) = order := List.filter_eq_self.mpr fun x hx => by
      have hNe : x ≠ item.node := fun he => hOut (he ▸ hx)
      simpa using hNe
    have hLast := hStanding.splice h.stock.lineup.shelf.nodup hBehind List.not_mem_nil
    rw [hSame] at hLast
    rw [hFree, if_neg Bool.false_ne_true, List.append_nil]
    refine ⟨hFrame, hP, next_note _ _, lingering_note _ _, _, fun x hx => ?_,
      hTurn (h.stock.passed hP hLineup) hLast (fun x hx => List.mem_cons_of_mem _ (h.within x hx))
        (h.whole_of hBehind (mem_splice.mpr (.inl List.mem_cons_self)) fun x hx => ?_)⟩
    · rcases mem_splice.mp hx with hx | hx
      · exact .inl (List.mem_singleton.mp hx)
      · exact .inr hx
    · simp [mem_splice, hx]

/-- What attaching new items one after the other does. -/
theorem appendAll_placing {todo : List Series.Item}
    (hItems : ∀ item ∈ todo, item.node ∈ items.map (·.node)) (hNodup : (todo.map (·.node)).Nodup)
    (hOut : ∀ item ∈ todo, item.node ∉ order ∧ item.node ∉ behind)
    (h : Placing box items [] behind bars order l m) :
    After (todo.foldlM (appendItem (Calls.upTo client (depth + 2)) (.container box)) p) l
      fun p' l' => Frame l l' m ∧ Passed l l' box m ∧ p'.next = p.next ∧
        p'.lingering = p.lingering ∧ ∃ order', Placing box items [] (behind ++ todo.map (·.node))
          (bars ++ barred (Calls.upTo client (depth + 2)) box (turns
            (appendItem (Calls.upTo client (depth + 2)) (.container box)) p todo l)) order' l' m := by
  induction todo generalizing behind bars order p l with
  | nil =>
    refine ⟨Frame.refl l, Passed.refl l box, rfl, rfl, order, ?_⟩
    change Placing box items [] (behind ++ []) (bars ++ []) order l m
    rw [List.append_nil, List.append_nil]
    exact h
  | cons item todo ih =>
    obtain ⟨hItem, hRest⟩ := List.forall_mem_cons.mp hItems
    obtain ⟨hNot, hNodup'⟩ := List.nodup_cons.mp hNodup
    obtain ⟨⟨hFirst, hBehind⟩, hOthers⟩ := List.forall_mem_cons.mp hOut
    rw [List.foldlM_cons]
    refine (appendItem_placing hClient depth hItem hFirst hBehind h).run_eq.bind ?_
    rintro p₁ l₁ ⟨hRun, hFrame₁, hP₁, hNext₁, hLingering₁, order₁, hOrder₁, h₁⟩
    have hOut₁ : ∀ x ∈ todo, x.node ∉ order₁ ∧ x.node ∉ behind ++ [item.node] := by
      intro x hx
      have hNe : x.node ≠ item.node := fun he =>
        hNot (show item.node ∈ _ from he ▸ List.mem_map_of_mem hx)
      obtain ⟨hx₁, hx₂⟩ := hOthers x hx
      exact ⟨fun hMem => (hOrder₁ _ hMem).elim hNe hx₁, by simp [hx₂, hNe]⟩
    refine (ih hRest hNodup' hOut₁ h₁).mono ?_
    rintro p' l' ⟨hFrame, hP, hNext, hLingering, order', h'⟩
    refine ⟨hFrame₁.trans hFrame, hP₁.trans hP, hNext.trans hNext₁, hLingering.trans hLingering₁,
      order', ?_⟩
    rw [List.append_assoc, List.append_assoc] at h'
    rw [turns, hRun, barred_cons]
    exact h'

end Placing

end LiveMarkup.Live
