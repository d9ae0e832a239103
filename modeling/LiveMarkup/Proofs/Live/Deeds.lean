import LiveMarkup.Proofs.Live.Aligned
import LiveMarkup.Proofs.Live.Plan
import LiveMarkup.Proofs.Live.Unhindered
import Mathlib.Tactic.Tauto

/-!
# What a pass does

A pass over the items of a series is a sequence of deeds: a cursor is brought to its index, an item
is made, an item is destroyed, a new item is attached, an item is shifted. If factories make what
they are asked for and nothing is cancelled, the deeds are given by what the values claim.

* `Series.Deed`, `Deeds`: deeds, and what they lead to;
* `matchAll_does`, `removeAll_does`, `placeItems_does`, `appendAll_does`: the deeds of a pass.
-/

namespace LiveMarkup.Live

open Series

variable {κ σ : Type} {client : Client κ σ} {calls : Calls κ σ} {l l₁ l' : Live κ σ} {m : Leeway κ}
variable {x : Series κ} {p : Series.Pass} {item : Series.Item}

/-- What a deed leads to. An item is made from a new cursor by one call of the factory. To shift an
item is to change the tree; who is in it reaches the document as before and is not told. -/
def Series.Deed.Does (calls : Calls κ σ) (x : Series κ) : Deed → Live κ σ → Live κ σ → Prop
  | .tune cursor index, l, l' => ((setSignal calls cursor (.nat index)).run l).2 = l'
  | .make value index item, l, l' => item.key = value.key ∧
    ∃ l₁, (newSignal (.nat index)).run l = (item.cursor, l₁) ∧
      (calls.buildItem x.factory value item.cursor).run.run l₁ = (.ok item.node, l')
  | .remove node, l, l' => (destroyFully calls node).run.run l = (.ok (), l')
  | .attach node before, l, l' =>
    (Live.attach calls node (.container x.box) before).run.run l = (.ok (), l')
  | .shift node before, l, l' => ∃ d, l.dom.move node (.container x.box) before = .ok d ∧
    (l.withDom d).isConnected node = l.isConnected node ∧
      ((noteMoves node).run (l.withDom d)).2 = l'

/-- What deeds lead to, one after the other. -/
inductive Deeds (calls : Calls κ σ) (x : Series κ) : List Deed → Live κ σ → Live κ σ → Prop
  | nil (l : Live κ σ) : Deeds calls x [] l l
  | cons {deed : Deed} {deeds : List Deed} {l l₁ l' : Live κ σ} (h : deed.Does calls x l l₁)
    (hRest : Deeds calls x deeds l₁ l') : Deeds calls x (deed :: deeds) l l'

theorem Deeds.append {deeds deeds' : List Deed} (h : Deeds calls x deeds l l₁)
    (h' : Deeds calls x deeds' l₁ l') : Deeds calls x (deeds ++ deeds') l l' := by
  induction h with
  | nil => exact h'
  | cons hFirst _ ih => exact .cons hFirst (ih h')

theorem Deeds.single {deed : Deed} (h : deed.Does calls x l l') : Deeds calls x [deed] l l' :=
  .cons h (.nil l')

/-- A factory always makes a new item, with observers that are posted. -/
structure Makes (calls : Calls κ σ) (factory : ItemFactory κ) (m : Leeway κ := .strict) : Prop
    where
  crafts : Crafts calls factory m
  succeeds : ∀ l value cursor, l.Ready m → l.document < l.dom.nodes.size → l.tornDown = false →
    cursor < l.signals.size → ¬ m.Drives l cursor →
      After (calls.buildItem factory value cursor).run l fun out l' => ∃ r, out = .ok r ∧ l'.Posted r

/-! ## Matching -/

namespace Series

/-- Adds what was found for values to a pass. -/
def Pass.collect (p : Pass) (pool found : List Entry) : Pass :=
  { p with
    pool
    next := p.next ++ found
    stats :=
      { p.stats with
        created := p.stats.created + found.countP (·.1.isNone)
        reused := p.stats.reused + found.countP (·.1.isSome) } }

theorem collect_nil (p : Pass) : p.collect p.pool [] = p := by
  simp [Pass.collect]

theorem collect_reuse (p : Pass) (rest pool found : List Entry) (place : Nat) (item : Item) :
    (p.reuse rest (some place) item).collect pool found =
      p.collect pool ((some place, { item with lingers := false }) :: found) := by
  simp [Pass.collect, Pass.reuse, Nat.add_assoc, Nat.add_comm 1]

theorem collect_add (p : Pass) (pool found : List Entry) (item : Item) :
    (p.add item).collect pool found = p.collect pool ((none, item) :: found) := by
  simp [Pass.collect, Pass.add, Nat.add_assoc, Nat.add_comm 1]

end Series

/-- While items are matched in a series in which all items stand in order and are numbered, those
that are not claimed yet have their old numbers. -/
structure Gathering (l : Live κ σ) (x : Series κ) (p : Series.Pass) (m : Leeway κ := .strict) :
    Prop where
  matching : l.Matching x (x.items.map (·.node)) p m
  row : l.Unhindered x.box (((p.pool ++ p.next).map Prod.snd).map (·.node)) (x.items.map (·.node)) m
  numbered : ∀ e ∈ p.pool, ∃ i, e.1 = some i ∧ x.items[i]? = some e.2 ∧
    l.valueOf e.2.cursor = .nat i

theorem same_nat_iff {m n : Nat} : (Value.nat m == Value.nat n) = true ↔ m = n := by
  change (((m : Int) == (n : Int)) = true) ↔ m = n
  rw [beq_iff_eq, Int.ofNat_inj]

/-- A cursor is brought to its index if it has another one. -/
theorem setIfChanged_does {cursor : SignalId} {i : Nat} (h : l.valueOf cursor = .nat i)
    (value : Value) (item : Item) (hCursor : item.cursor = cursor) (index : Nat) :
    After (setIfChanged calls cursor (.nat index)) l fun _ l' =>
      Deeds calls x (tasks ((value, (some i, item)), index)) l l' := by
  subst hCursor
  unfold setIfChanged
  rw [after_bind, after_get, h, tasks_some]
  by_cases hSame : i = index
  · rw [if_pos (same_nat_iff.mpr hSame), if_pos hSame]
    exact .nil l
  · rw [if_neg (mt same_nat_iff.mp hSame), if_neg hSame]
    exact .single rfl

namespace Gathering

/-- An entry that is claimed goes from the pool to those that are found. -/
theorem reuse (h : l.Gathering x p m) {front back : List Entry} {place : Option Nat}
    (hPool : p.pool = front ++ (place, item) :: back) (hSpared : Spared l l' m)
    (hValues : ∀ t, t ≠ item.cursor → ¬ m.Drives l t → l'.valueOf t = l.valueOf t)
    (hMatching : l'.Matching x (x.items.map (·.node)) (p.reuse (front ++ back) place item) m) :
    l'.Gathering x (p.reuse (front ++ back) place item) m := by
  refine ⟨hMatching, (h.row.spared hSpared).mono (fun r hr => ?_) fun r hr => ?_, fun e he => ?_⟩
  · rw [hPool]
    simp only [Pass.reuse, List.map_append, List.map_cons, List.map_nil, List.mem_append,
      List.mem_cons, List.not_mem_nil, or_false] at hr ⊢
    tauto
  · exact hMatching.stock.lineup.shelf.subset r hr
  · have hOld : e ∈ p.pool := by
      rw [hPool]
      rcases List.mem_append.mp he with hIn | hIn
      · exact List.mem_append_left _ hIn
      · exact List.mem_append_right _ (List.mem_cons_of_mem _ hIn)
    obtain ⟨i, hPlace, hAt, hNumber⟩ := h.numbered e hOld
    refine ⟨i, hPlace, hAt, ?_⟩
    rw [hValues _ (fun hEq => ?_) (h.matching.stock.cursors.undriven _ (List.mem_map_of_mem
      (List.mem_map_of_mem (List.mem_append_left _ hOld)))), hNumber]
    -- the cursors of the other entries are other signals
    have hNodup := h.matching.stock.cursors.nodup
    rw [hPool, List.map_map, List.append_assoc, List.map_append, List.cons_append, List.map_cons,
      List.nodup_append, List.nodup_cons] at hNodup
    rcases List.mem_append.mp he with hIn | hIn
    · exact hNodup.2.2 _ (List.mem_map_of_mem hIn) _ List.mem_cons_self hEq
    · refine hNodup.2.1.1 ?_
      rw [Function.comp_apply, ← hEq]
      exact List.mem_map_of_mem (f := (·.cursor) ∘ Prod.snd) (List.mem_append_left _ hIn)

/-- An item that was made is added to those that are found. -/
theorem add (h : l.Gathering x p m) (hRow : l'.Unhindered x.box
      (item.node :: ((p.pool ++ p.next).map Prod.snd).map (·.node)) (x.items.map (·.node)) m)
    (hValues : ∀ t < l.signals.size, ¬ m.Drives l t → l'.valueOf t = l.valueOf t)
    (hMatching : l'.Matching x (x.items.map (·.node)) (p.add item) m) :
    l'.Gathering x (p.add item) m := by
  refine ⟨hMatching, hRow.mono (fun r hr => ?_) hMatching.stock.lineup.shelf.subset, fun e he => ?_⟩
  · simp only [Pass.add, List.map_append, List.map_cons, List.map_nil, List.mem_append,
      List.mem_cons, List.not_mem_nil, or_false] at hr ⊢
    tauto
  · obtain ⟨i, hPlace, hAt, hNumber⟩ := h.numbered e he
    refine ⟨i, hPlace, hAt, ?_⟩
    have hCursor : e.2.cursor ∈ ((p.pool ++ p.next).map Prod.snd).map (·.cursor) :=
      List.mem_map_of_mem (List.mem_map_of_mem (List.mem_append_left _ he))
    have hCursors := h.matching.stock.cursors
    rw [hValues _ (hCursors.lt_size _ hCursor) (hCursors.undriven _ hCursor), hNumber]

end Gathering

section Matching

variable (hClient : client.Quiet) (depth : Nat)
variable (hMakes : Makes (Calls.upTo client (depth + 2)) x.factory m)
include hClient hMakes

/-- What is done for one value. -/
theorem matchItem_does (h : l.Gathering x p m) (value : Value) (index : Nat) :
    After (matchItem (Calls.upTo client (depth + 2)) x.factory p value index) l fun p' l' =>
      l'.Gathering x p' m ∧ Passed l l' x.box m ∧
        ((∃ place item pool, claim? value.key p.pool = some ((some place, item), pool) ∧
            p' = p.reuse pool (some place) item ∧
            Deeds (Calls.upTo client (depth + 2)) x
              (tasks ((value, (some place, item)), index)) l l') ∨
          claim? value.key p.pool = none ∧ ∃ item, p' = p.add item ∧ item.key = value.key ∧
            Deeds (Calls.upTo client (depth + 2)) x (tasks ((value, (none, item)), index)) l l') := by
  have hMatching := matchItem_matching hClient depth hMakes.crafts h.matching value index
  have hReady := h.row.toReady
  unfold matchItem at hMatching ⊢
  cases hClaim : claim? value.key p.pool with
  | some claimed =>
    obtain ⟨⟨place, item⟩, pool⟩ := claimed
    obtain ⟨front, back, hPool, rfl, hKey, -⟩ := claim?_eq_some hClaim
    have hItem : (place, item) ∈ p.pool := by rw [hPool]; simp
    have hCursor : item.cursor ∈ ((p.pool ++ p.next).map Prod.snd).map (·.cursor) :=
      List.mem_map_of_mem (List.mem_map_of_mem (List.mem_append_left _ hItem))
    obtain ⟨i, rfl, hAt, hNumber⟩ := h.numbered _ hItem
    rw [hClaim] at hMatching
    have hCursors := h.matching.stock.cursors
    have hTuned := setIfChanged_tuned hClient (depth + 1) hReady (hCursors.lt_size _ hCursor)
      (hCursors.undriven _ hCursor) (hCursors.watchers _ hCursor) index
    have hDoes : After (setIfChanged (Calls.upTo client (depth + 2)) item.cursor (.nat index)) l
        fun _ l' => Deeds (Calls.upTo client (depth + 2)) x
          (tasks ((value, (some i, item)), index)) l l' :=
      setIfChanged_does hNumber value item rfl index
    refine ⟨h.reuse hPool hTuned.1 hTuned.2.2 hMatching.1, hMatching.2.1, .inl ?_⟩
    exact ⟨i, item, _, rfl, rfl, hDoes⟩
  | none =>
    rw [hClaim] at hMatching
    refine (After.and (Q := fun p' l' => ∃ item, p' = p.add item ∧ item.key = value.key ∧
      l'.Unhindered x.box (item.node :: ((p.pool ++ p.next).map Prod.snd).map (·.node))
        (x.items.map (·.node)) m ∧
      (∀ t < l.signals.size, ¬ m.Drives l t → l'.valueOf t = l.valueOf t) ∧
      Deeds (Calls.upTo client (depth + 2)) x [.make value index item] l l') hMatching ?_).mono ?_
    · refine (newSignal_spared hReady (Value.nat index)).run_eq.bind ?_
      rintro cursor l₁ ⟨hRun₁, hSpared₁, rfl, hSize₁, -, -, hNew, hKeep₁⟩
      have hLt : l.signals.size < l₁.signals.size := hSize₁ ▸ Nat.lt_succ_self _
      have hRow₁ := h.row.spared hSpared₁
      have hCrafts := hMakes.crafts l₁ value l.signals.size hSpared₁.toReady hRow₁.document hLt hNew
      have hSucceeds := hMakes.succeeds l₁ value l.signals.size hSpared₁.toReady hRow₁.document
        hRow₁.up hLt hNew
      refine (hCrafts.and hSucceeds).run_eq.bind ?_
      rintro out l₂ ⟨hRun₂, ⟨hSpared₂, hKeep₂, hFresh⟩, node, rfl, hPosted⟩
      refine ⟨{ key := value.key, node, cursor := l.signals.size }, rfl, rfl,
        hRow₁.add hSpared₂ (hFresh node rfl) hPosted, fun t ht hUndriven => ?_,
        .single ⟨rfl, l₁, hRun₁, hRun₂⟩⟩
      change l₂.valueOf t = l.valueOf t
      rw [hKeep₂ t (Nat.lt_trans ht hLt) (mt (hSpared₁.drives t ht).mp hUndriven), hKeep₁ t ht]
    · rintro _ l' ⟨⟨hMatching, hP, -⟩, item, rfl, hKey, hRow, hValues, hDeeds⟩
      exact ⟨h.add hRow hValues hMatching, hP, .inr ⟨rfl, item, rfl, hKey, hDeeds⟩⟩

/-- What is done for all values of a list, from an index on. -/
theorem matchAll_does (h : l.Gathering x p m) (values : List Value) (k : Nat) :
    After ((values.zipIdx k).foldlM (fun p (value, index) =>
        matchItem (Calls.upTo client (depth + 2)) x.factory p value index) p) l fun p' l' =>
      l'.Gathering x p' m ∧ Passed l l' x.box m ∧ ∃ found,
        p' = p.collect (unclaimed p.pool values) found ∧
        found.map (·.2.key) = values.map Value.key ∧ List.Forall₂ Gets (claims p.pool values) found ∧
        Deeds (Calls.upTo client (depth + 2)) x (((values.zip found).zipIdx k).flatMap tasks) l l' := by
  induction values generalizing p l k with
  | nil => exact ⟨h, Passed.refl l x.box, [], (collect_nil p).symm, rfl, .nil, .nil l⟩
  | cons value values ih =>
    rw [List.zipIdx_cons, List.foldlM_cons]
    refine (matchItem_does hClient depth hMakes h value k).bind ?_
    rintro p₁ l₁ ⟨h₁, hP₁, hOne⟩
    refine (ih h₁ (k + 1)).mono ?_
    rintro p' l' ⟨h', hP, found, hPass, hKeys, hGets, hRest⟩
    refine ⟨h', hP₁.trans hP, ?_⟩
    rcases hOne with ⟨place, item, pool, hClaim, rfl, hFirst⟩ | ⟨hClaim, item, rfl, hKey, hFirst⟩
    · obtain ⟨hClaims, hUnclaimed⟩ := claims_some hClaim rfl
      obtain ⟨_, _, _, _, hKey, _⟩ := claim?_eq_some hClaim
      refine ⟨(some place, { item with lingers := false }) :: found, ?_, ?_, ?_, ?_⟩
      · rw [hPass, collect_reuse, hUnclaimed]
        rfl
      · rw [List.map_cons, List.map_cons, hKeys]
        exact congrArg (· :: _) hKey
      · rw [hClaims]
        exact .cons rfl hGets
      · exact hFirst.append hRest
    · obtain ⟨hClaims, hUnclaimed⟩ := claims_none hClaim
      refine ⟨(none, item) :: found, ?_, ?_, ?_, ?_⟩
      · rw [hPass, collect_add, hUnclaimed]
        rfl
      · rw [List.map_cons, List.map_cons, hKeys, hKey]
      · rw [hClaims]
        exact .cons rfl hGets
      · exact hFirst.append hRest

end Matching

/-! ## Removing and placing -/

namespace Series

def Pass.countShifted (p : Pass) (deeds : List Deed) : Pass :=
  { p with stats :=
    { p.stats with moved := p.stats.moved + (deeds.filterMap Deed.shifted?).length } }

theorem countShifted_of_none {deeds : List Deed} (h : deeds.filterMap Deed.shifted? = [])
    (p : Pass) : p.countShifted deeds = p := by
  simp [Pass.countShifted, h]

theorem countShifted_append (p : Pass) (deeds deeds' : List Deed) :
    (p.countShifted deeds).countShifted deeds' = p.countShifted (deeds ++ deeds') := by
  simp [Pass.countShifted, Nat.add_assoc]

end Series

/-- Other hooks, which may only differ when one of some nodes is told that it is disconnected. -/
def AgreesBut (calls : Calls κ σ) (hook : Hook κ → Event → LiveM κ σ Bool) (reused : List NodeRef) :
    Prop :=
  ∀ k event, (event.kind = .disconnect → event.target ∉ reused) →
    hook k event = calls.hook k event

section Placing

variable {rs order reused : List NodeRef} {hook : Hook κ → Event → LiveM κ σ Bool}
variable (hClient : client.Quiet) (hConsents : client.Consents) (depth : Nat)
variable (hOther : AgreesBut (Calls.upTo client (depth + 2)) hook reused)
include hClient hConsents hOther

/-- What is done for an item that no value claimed. -/
theorem removeItem_does (h : l.Unhindered x.box rs order m) (hIn : item.node ∈ order)
    (hReused : ∀ r ∈ reused, r ∈ rs ∧ r ≠ item.node) :
    Alongside (removeItem ((Calls.upTo client (depth + 2)).withHook hook) p item)
      (removeItem (Calls.upTo client (depth + 2)) p item) l fun p' l' =>
        p' = p.countDestroyed ∧ Passed l l' x.box m ∧ Frame l l' m ∧ l'.stateOf item.node = .destroyed ∧
          Deeds (Calls.upTo client (depth + 2)) x [.remove item.node] l l' ∧
          l'.Unhindered x.box (rs.filter (· ≠ item.node)) (order.filter (· ≠ item.node)) m := by
  have hSame := h.destroyFully_withHook hClient depth hConsents hIn fun k event hEvent => by
    refine hOther k event fun hKind hTarget => ?_
    obtain ⟨hr, hNe⟩ := hReused _ hTarget
    rcases hEvent with hNot | hInside
    · exact hNot hKind
    · refine h.shelf.disjoint h.sound hr (h.shelf.subset _ hIn) hNe (Dom.inside_key _) ?_
      exact ((h.sound.mem_subtree (h.shelf.known _ (h.shelf.subset _ hIn))).mp hInside).1
  unfold removeItem
  refine Alongside.bind ⟨hSame, (h.destroyFully hClient hConsents depth hIn).run_eq⟩ ?_
  rintro _ l₁ ⟨hRun, rfl, hFrame, hP, hGone, h₁⟩
  refine Alongside.get_bind ?_
  rw [if_pos hGone]
  exact .same ⟨rfl, hP, hFrame, hGone, .single hRun, h₁⟩

/-- What is done for all items that no value claimed. -/
theorem removeAll_does (items : List Item) (h : l.Unhindered x.box rs order m)
    (hIn : ∀ item ∈ items, item.node ∈ order) (hNodup : (items.map (·.node)).Nodup)
    (hReused : ∀ r ∈ reused, r ∈ rs ∧ r ∉ items.map (·.node)) :
    Alongside (items.foldlM (removeItem ((Calls.upTo client (depth + 2)).withHook hook)) p)
      (items.foldlM (removeItem (Calls.upTo client (depth + 2))) p) l fun p' l' =>
        p' = { p with stats := { p.stats with destroyed := p.stats.destroyed + items.length } } ∧
          Passed l l' x.box m ∧ Frame l l' m ∧ (∀ item ∈ items, l'.stateOf item.node = .destroyed) ∧
          Deeds (Calls.upTo client (depth + 2)) x (items.map fun item => .remove item.node) l l' ∧
          l'.Unhindered x.box (rs.filter (· ∉ items.map (·.node)))
            (order.filter (· ∉ items.map (·.node))) m := by
  induction items generalizing p l rs order with
  | nil =>
    rw [List.foldlM_nil, List.foldlM_nil]
    refine .same ⟨rfl, Passed.refl l x.box, Frame.refl l, fun _ hItem => absurd hItem List.not_mem_nil,
      .nil l, ?_⟩
    have hAll : ∀ s : List NodeRef, s.filter (· ∉ ([] : List Item).map (·.node)) = s := fun s =>
      List.filter_eq_self.mpr fun _ _ => by simp
    rw [hAll, hAll]
    exact h
  | cons item items ih =>
    obtain ⟨hFirst, hRest⟩ := List.forall_mem_cons.mp hIn
    rw [List.map_cons, List.nodup_cons] at hNodup
    rw [List.foldlM_cons, List.foldlM_cons]
    refine (removeItem_does hClient hConsents depth hOther h hFirst fun r hr => ?_).bind ?_
    · exact (hReused r hr).imp_right fun hNot he => hNot (by simp [he])
    rintro _ l₁ ⟨rfl, hP₁, hFrame₁, hGone₁, hDeeds₁, h₁⟩
    refine (ih h₁ (fun other hOther => ?_) hNodup.2 fun r hr => ?_).mono ?_
    · refine List.mem_filter.mpr ⟨hRest other hOther, decide_eq_true fun he => hNodup.1 ?_⟩
      exact he ▸ List.mem_map_of_mem hOther
    · obtain ⟨hr, hNot⟩ := hReused r hr
      rw [List.map_cons, List.mem_cons, not_or] at hNot
      exact ⟨List.mem_filter.mpr ⟨hr, decide_eq_true hNot.1⟩, hNot.2⟩
    · rintro _ l' ⟨rfl, hP, hFrame, hGone, hDeeds, h'⟩
      have hTwice : ∀ s : List NodeRef,
          (s.filter (· ≠ item.node)).filter (· ∉ items.map (·.node)) =
            s.filter (· ∉ (item :: items).map (·.node)) := by
        intro s
        rw [List.filter_filter]
        refine List.filter_congr fun r _ => ?_
        rw [List.map_cons, ← Bool.decide_and, decide_eq_decide, List.mem_cons, not_or, and_comm]
      rw [hTwice, hTwice] at h'
      refine ⟨?_, hP₁.trans hP, hFrame₁.trans hFrame, List.forall_mem_cons.mpr ⟨?_, hGone⟩,
        hDeeds₁.append hDeeds, h'⟩
      · simp [Pass.countDestroyed, Nat.add_assoc, Nat.add_comm 1]
      · exact hP.destroyed _ (hP₁.known _ (h.shelf.known _ (h.shelf.subset _ hFirst))) hGone₁

/-- What is done to bring one item to its place. -/
theorem placeItem_does {e : Entry} {anchor : Option NodeRef} {stable : List Nat}
    (h : l.Unhindered x.box rs order m) (hr : e.2.node ∈ rs) (hNew : e.1 = none ↔ e.2.node ∉ order)
    (hAnchor : ∀ a, anchor = some a → a ∈ order ∧ a ≠ e.2.node) :
    Alongside (placeItem ((Calls.upTo client (depth + 2)).withHook hook) (.container x.box) anchor
        (e.1.any stable.contains) p e.2)
      (placeItem (Calls.upTo client (depth + 2)) (.container x.box) anchor
        (e.1.any stable.contains) p e.2) l fun p' l' =>
          p' = p.countShifted (putting stable anchor e) ∧ Passed l l' x.box m ∧ Frame l l' m ∧
            Deeds (Calls.upTo client (depth + 2)) x (putting stable anchor e) l l' ∧
            ∃ order', l'.Unhindered x.box rs order' m ∧
              ∀ r, r ∈ order' ↔ r = e.2.node ∨ r ∈ order := by
  obtain ⟨place, item⟩ := e
  unfold placeItem
  refine Alongside.get_bind ?_
  cases place with
  | none =>
    have hOut : item.node ∉ order := hNew.mp rfl
    rw [(h.stateOf_detached_iff hr).mpr hOut]
    refine Alongside.bind ⟨?_, (h.attach hClient hConsents depth hr hOut fun a ha =>
      (hAnchor a ha).1).run_eq⟩ ?_
    · exact h.attach_withHook hClient depth hr hOut (fun a ha => (hAnchor a ha).1)
        fun k event hKind => hOther k event fun hEq => absurd hEq hKind
    · rintro _ l₁ ⟨hRun, rfl, hFrame, hP, h₁⟩
      refine .same ⟨rfl, hP, hFrame, .single hRun, _, h₁, fun r => ?_⟩
      rw [Forest.mem_splice, List.mem_singleton]
  | some place =>
    have hIn : item.node ∈ order := Decidable.not_not.mp fun hOut => nomatch hNew.mpr hOut
    rw [(h.stateOf_attached_iff hr).mpr hIn]
    dsimp only [Option.any_some, putting]
    by_cases hStays : stable.contains place = true
    · rw [if_pos hStays, if_pos hStays, if_pos hStays]
      refine .same ⟨rfl, Passed.refl l x.box, Frame.refl l, .nil l, order, h, fun r => ?_⟩
      exact ⟨.inr, fun hMem => hMem.elim (fun he => he ▸ hIn) id⟩
    · rw [if_neg hStays, if_neg hStays, if_neg hStays]
      -- whoever is told, a shift tells nobody
      have hRun : ∀ calls : Calls κ σ, (moveTo calls item.node (.container x.box) anchor).run.run l =
          (moveTo (Calls.upTo client (depth + 2)) item.node (.container x.box) anchor).run.run l := by
        have hOne : ∀ calls : Calls κ σ, ∃ d', l.dom.move item.node (.container x.box) anchor = .ok d' ∧
            (moveTo calls item.node (.container x.box) anchor).run.run l =
              (.ok (), ((noteMoves item.node).run (l.withDom d')).2) := by
          intro calls
          obtain ⟨hOk, -, -, -, d', hMove, -, hState⟩ := h.shift calls hIn hAnchor
          exact ⟨d', hMove, Prod.ext hOk hState⟩
        intro calls
        obtain ⟨d₁, hMove₁, hRun₁⟩ := hOne calls
        obtain ⟨d₂, hMove₂, hRun₂⟩ := hOne (Calls.upTo client (depth + 2))
        obtain rfl := Except.ok.inj (hMove₁.symm.trans hMove₂)
        exact hRun₁.trans hRun₂.symm
      refine Alongside.bind ⟨hRun _, h.shift _ hIn hAnchor⟩ ?_
      rintro _ l₁ ⟨rfl, hFrame, hP, h₁, d', hMove, hSame, hState⟩
      refine .same ⟨rfl, hP, hFrame, .single ⟨d', hMove, hSame, hState.symm⟩, _, h₁, fun r => ?_⟩
      rw [Forest.mem_splice, List.mem_singleton, List.mem_filter, decide_eq_true_iff]
      tauto

/-- What is done to bring items to their places. -/
theorem placeItems_does {todo : List Entry} {anchor : Option NodeRef} {stable : List Nat}
    (h : l.Unhindered x.box rs order m)
    (hTodo : ∀ e ∈ todo, e.2.node ∈ rs ∧ (e.1 = none ↔ e.2.node ∉ order))
    (hNodup : (todo.map (·.2.node)).Nodup)
    (hAnchor : ∀ a, anchor = some a → a ∈ order ∧ a ∉ todo.map (·.2.node)) :
    Alongside (placeItems ((Calls.upTo client (depth + 2)).withHook hook) (.container x.box) stable
        anchor p todo)
      (placeItems (Calls.upTo client (depth + 2)) (.container x.box) stable anchor p todo) l
        fun p' l' => p' = p.countShifted (placing stable anchor todo) ∧ Passed l l' x.box m ∧
          Frame l l' m ∧
            Deeds (Calls.upTo client (depth + 2)) x (placing stable anchor todo) l l' ∧
            ∃ order', l'.Unhindered x.box rs order' m ∧
              ∀ r, r ∈ order' ↔ r ∈ order ∨ r ∈ todo.map (·.2.node) := by
  induction todo generalizing p l order anchor with
  | nil => exact .same ⟨rfl, Passed.refl l x.box, Frame.refl l, .nil l, order, h, by simp⟩
  | cons e todo ih =>
    obtain ⟨⟨hr, hNew⟩, hRest⟩ := List.forall_mem_cons.mp hTodo
    rw [List.map_cons, List.nodup_cons] at hNodup
    rw [placeItems, placeItems]
    refine (placeItem_does hClient hConsents depth hOther h hr hNew fun a ha => ?_).bind ?_
    · exact (hAnchor a ha).imp_right fun hNot he => hNot (by simp [he])
    rintro _ l₁ ⟨rfl, hP₁, hFrame₁, hDeeds₁, order₁, h₁, hOrder₁⟩
    refine Alongside.get_bind ?_
    rw [(h₁.stateOf_attached_iff hr).mpr ((hOrder₁ _).mpr (.inl rfl))]
    simp only [if_true]
    refine (ih h₁ (fun e' he' => ?_) hNodup.2 fun a ha => ?_).mono ?_
    · have hNe : e'.2.node ≠ e.2.node := fun he => hNodup.1 (he ▸ List.mem_map_of_mem he')
      refine (hRest e' he').imp_right fun hNew' => ?_
      rw [hNew', hOrder₁, not_or]
      exact ⟨fun hOut => ⟨hNe, hOut⟩, And.right⟩
    · obtain rfl := Option.some.inj ha
      exact ⟨(hOrder₁ _).mpr (.inl rfl), hNodup.1⟩
    · rintro _ l' ⟨rfl, hP, hFrame, hDeeds, order', h', hOrder'⟩
      refine ⟨countShifted_append _ _ _, hP₁.trans hP, hFrame₁.trans hFrame, hDeeds₁.append hDeeds,
        order', h', fun r => ?_⟩
      rw [hOrder', hOrder₁, List.map_cons, List.mem_cons]
      tauto

/-- What is done to put new items at the end of a series that had none. -/
theorem appendAll_does {items : List Item} (h : l.Unhindered x.box rs order m)
    (hItems : ∀ item ∈ items, item.node ∈ rs ∧ item.node ∉ order)
    (hNodup : (items.map (·.node)).Nodup) :
    Alongside (items.foldlM
        (appendItem ((Calls.upTo client (depth + 2)).withHook hook) (.container x.box)) p)
      (items.foldlM (appendItem (Calls.upTo client (depth + 2)) (.container x.box)) p) l
        fun p' l' => p' = p ∧ Passed l l' x.box m ∧ Frame l l' m ∧
          Deeds (Calls.upTo client (depth + 2)) x
            (items.map fun item => .attach item.node none) l l' ∧
          ∃ order', l'.Unhindered x.box rs order' m ∧
            ∀ r, r ∈ order' ↔ r ∈ order ∨ r ∈ items.map (·.node) := by
  induction items generalizing p l order with
  | nil =>
    rw [List.foldlM_nil, List.foldlM_nil]
    exact .same ⟨rfl, Passed.refl l x.box, Frame.refl l, .nil l, order, h, by simp⟩
  | cons item items ih =>
    obtain ⟨⟨hr, hOut⟩, hRest⟩ := List.forall_mem_cons.mp hItems
    rw [List.map_cons, List.nodup_cons] at hNodup
    rw [List.foldlM_cons, List.foldlM_cons]
    unfold appendItem
    have hNone : ∀ a, (none : Option NodeRef) = some a → a ∈ order := fun _ ha => nomatch ha
    refine Alongside.bind (m := fun p₁ l₁ => p₁ = p ∧ Passed l l₁ x.box m ∧ Frame l l₁ m ∧
      Deeds (Calls.upTo client (depth + 2)) x [.attach item.node none] l l₁ ∧
        l₁.Unhindered x.box rs (order ++ [item.node]) m) ?_ ?_
    · refine Alongside.bind ⟨?_, (h.attach hClient hConsents depth hr hOut hNone).run_eq⟩ ?_
      · exact h.attach_withHook hClient depth hr hOut hNone
          fun k event hKind => hOther k event fun hEq => absurd hEq hKind
      · rintro _ l₁ ⟨hRun, rfl, hFrame, hP, h₁⟩
        exact .same ⟨rfl, hP, hFrame, .single hRun, h₁⟩
    · rintro _ l₁ ⟨rfl, hP₁, hFrame₁, hDeeds₁, h₁⟩
      refine (ih h₁ (fun other hIn => ?_) hNodup.2).mono ?_
      · have hNe : other.node ≠ item.node := fun he => hNodup.1 (he ▸ List.mem_map_of_mem hIn)
        refine (hRest other hIn).imp_right fun hOff => ?_
        rw [List.mem_append, List.mem_singleton, not_or]
        exact ⟨hOff, hNe⟩
      · rintro _ l' ⟨rfl, hP, hFrame, hDeeds, order', h', hOrder'⟩
        refine ⟨rfl, hP₁.trans hP, hFrame₁.trans hFrame, hDeeds₁.append hDeeds, order', h',
          fun r => ?_⟩
        rw [hOrder', List.mem_append, List.mem_singleton, List.map_cons, List.mem_cons, or_assoc]

end Placing

end LiveMarkup.Live
