import LiveMarkup.Proofs.Live.Claiming
import LiveMarkup.Proofs.Live.Longest
import Mathlib.Data.List.Forall2
import Mathlib.Data.List.Nodup

/-!
# Plans

What a pass over the items of a series has to do is given by what the values of the list claim: the
cursor of a former item is brought to its index, an item is made, a former item is removed, a new
item is attached, a former item is shifted. As few as possible are shifted.

* `Deed`: one thing that is done, `deedsOf`: all that is done in a pass;
* `Plan`: what there is to do between former and new items;
* `Found.plan`: that a pass does it.
-/

namespace LiveMarkup.Live.Series

variable {items items' left : List Item} {values : List Value} {found : List Entry}

/-- One thing that is done in a pass. -/
inductive Deed where
  | tune (cursor : SignalId) (index : Nat)
  | make (value : Value) (index : Nat) (item : Item)
  | remove (node : NodeRef)
  | attach (node : NodeRef) (before : Option NodeRef)
  | shift (node : NodeRef) (before : Option NodeRef)

namespace Deed

def tuned? : Deed → Option (SignalId × Nat)
  | tune cursor index => some (cursor, index)
  | _ => none

def made? : Deed → Option (Value × Nat × Item)
  | make value index item => some (value, index, item)
  | _ => none

def removed? : Deed → Option NodeRef
  | remove node => some node
  | _ => none

def attached? : Deed → Option NodeRef
  | attach node _ => some node
  | _ => none

def shifted? : Deed → Option NodeRef
  | shift node _ => some node
  | _ => none

/-- The node or container that a deed takes from a place or puts in one. -/
def placed? : Deed → Option NodeRef
  | remove node | attach node _ | shift node _ => some node
  | _ => none

end Deed

/-! ## What is done -/

/-- What is done for a value that claimed an item or got a new one. -/
def tasks : (Value × Entry) × Nat → List Deed
  | ((_, (some place, item)), index) => if place = index then [] else [.tune item.cursor index]
  | ((value, (none, item)), index) => [.make value index item]

@[simp]
theorem tasks_some (value : Value) (place : Nat) (item : Item) (index : Nat) :
    tasks ((value, (some place, item)), index) =
      if place = index then [] else [.tune item.cursor index] := rfl

/-- What is done to bring an item to its place: it is attached if it is new, and shifted if its
former place cannot be kept. -/
def putting (stable : List Nat) (anchor : Option NodeRef) : Entry → List Deed
  | (none, item) => [.attach item.node anchor]
  | (some place, item) => if stable.contains place then [] else [.shift item.node anchor]

/-- What is done to bring items to their places, the last first. -/
def placing (stable : List Nat) : Option NodeRef → List Entry → List Deed
  | _, [] => []
  | anchor, e :: rest => putting stable anchor e ++ placing stable (some e.2.node) rest

/-- The former places that are kept if entries were found for the values. -/
def keptPlaces (found : List Entry) : List Nat :=
  Pass.stable { pool := [], next := found }

/-- What is done to bring all items to their places. -/
def settling (items : List Item) (found : List Entry) : List Deed :=
  if items.isEmpty then found.map fun e => .attach e.2.node none
  else placing (keptPlaces found) none found.reverse

/-- What is done to find entries for all values. -/
def finding (values : List Value) (found : List Entry) : List Deed :=
  (values.zip found).zipIdx.flatMap tasks

/-- What is done with the items that are left. -/
def clearing (left : List Item) : List Deed :=
  left.map fun item => .remove item.node

/-- All that is done in a pass over items in which entries were found for the values. -/
def deedsOf (items : List Item) (values : List Value) (left : List Item) (found : List Entry) :
    List Deed :=
  finding values found ++ (clearing left ++ settling items found)

/-- What a value gets: the item that it claimed, or one without a former place. -/
def Gets : Option Entry → Entry → Prop
  | some claimed, found => found = (claimed.1, { claimed.2 with lingers := false })
  | none, found => found.1 = none

/-- Entries that were found for values: those that they claimed and new ones. -/
structure Found (items : List Item) (values : List Value) (found : List Entry) : Prop where
  listed : ∀ item ∈ items, item.lingers = false
  keys : found.map (·.2.key) = values.map Value.key
  gets : List.Forall₂ Gets (claims (Pass.ofItems items).pool values) found
  nodup : ((unclaimed (Pass.ofItems items).pool values ++ found).map (·.2.node)).Nodup

/-! ## What there is to do -/

/-- A plan brings former items in line with a list. Values keep their former items; items for the
others are made in order. The cursors of those that are kept are brought to their indices, those
that are not kept are removed and the new ones attached. Of those that are kept as few as possible
are shifted, once each, and the others are left where they are. -/
structure Plan (items items' : List Item) (values : List Value) (deeds : List Deed)
    (stats : Stats) : Prop where
  keys : items'.map (·.key) = values.map Value.key
  kept : ∀ i former place, former? items values i = some (former, place) →
    items'[i]? = some former
  made : deeds.filterMap Deed.made? =
    (values.zip items').zipIdx.filterMap fun ((value, item), i) =>
      if (former? items values i).isNone then some (value, i, item) else none
  tuned : deeds.filterMap Deed.tuned? =
    (values.zip items').zipIdx.filterMap fun ((_, item), i) =>
      (former? items values i).bind fun (_, place) =>
        if place = i then none else some (item.cursor, i)
  removed : (deeds.filterMap Deed.removed?).Perm
    ((items.map (·.node)).filter (· ∉ items'.map (·.node)))
  attached : (deeds.filterMap Deed.attached?).Perm
    ((items'.map (·.node)).filter (· ∉ items.map (·.node)))
  shifted : (deeds.filterMap Deed.shifted?).reverse.Sublist
    ((items'.map (·.node)).filter (· ∈ items.map (·.node)))
  counted : stats =
    { created := (deeds.filterMap Deed.made?).length
      reused := ((items'.map (·.node)).filter (· ∈ items.map (·.node))).length
      destroyed := (deeds.filterMap Deed.removed?).length
      moved := (deeds.filterMap Deed.shifted?).length }
  stays : ∃ w : List NodeRef, w.Sublist (items.map (·.node)) ∧ w.Sublist (items'.map (·.node)) ∧
    w.length + stats.moved = stats.reused ∧ ∀ r ∈ w, ∀ deed ∈ deeds, deed.placed? ≠ some r
  longest : ∀ w : List NodeRef, w.Sublist (items.map (·.node)) → w.Sublist (items'.map (·.node)) →
    w.length + stats.moved ≤ stats.reused
  fewest : ∀ out : List NodeRef,
    ((items.map (·.node)).filter (· ∈ items'.map (·.node))).filter (· ∉ out) =
      ((items'.map (·.node)).filter (· ∈ items.map (·.node))).filter (· ∉ out) →
    stats.moved ≤ out.length
  unchanged : values.map Value.key = items.map (·.key) → deeds = []

/-- If no more can keep their order no fewer can be taken out and put back. -/
theorem fewest_of_longest {old new out : List NodeRef} {moved : Nat} (hNew : new.Nodup)
    (hLongest : ∀ w : List NodeRef, w.Sublist old → w.Sublist new →
      w.length + moved ≤ (new.filter (· ∈ old)).length)
    (hOut : (old.filter (· ∈ new)).filter (· ∉ out) = (new.filter (· ∈ old)).filter (· ∉ out)) :
    moved ≤ out.length := by
  let reused := new.filter (· ∈ old)
  have hRest : (reused.filter (· ∉ out)).length + moved ≤ reused.length := by
    refine hLongest _ ?_ (List.filter_sublist.trans List.filter_sublist)
    rw [← hOut]
    exact List.filter_sublist.trans List.filter_sublist
  have hTaken : (reused.filter (· ∈ out)).length ≤ out.length := by
    refine (List.subperm_of_subset ((hNew.filter _).filter _) fun r hr => ?_).length_le
    simpa using (List.mem_filter.mp hr).2
  have hAll : reused.length = (reused.filter (· ∈ out)).length + (reused.filter (· ∉ out)).length := by
    simpa using List.length_eq_length_filter_add (l := reused) (· ∈ out)
  omega

/-! ## Entries that were found -/

/-- What values with a claim get is what they claimed. -/
theorem filter_of_gets {claimed : List (Option Entry)} (h : List.Forall₂ Gets claimed found)
    (hClaimed : ∀ e, some e ∈ claimed → e.1.isSome ∧ e.2.lingers = false) :
    found.filter (·.1.isSome) = claimed.filterMap id := by
  induction h with
  | nil => rfl
  | @cons c e claimed found hFirst _ ih =>
    have hRest := ih fun e he => hClaimed e (List.mem_cons_of_mem _ he)
    cases c with
    | none =>
      rw [List.filter_cons_of_neg (by rw [show e.1 = none from hFirst]; simp), hRest]
      rfl
    | some claim =>
      obtain ⟨hPlace, hListed⟩ := hClaimed claim List.mem_cons_self
      have hSame : e = claim := by
        rw [show e = _ from hFirst, ← hListed]
      rw [hSame, List.filter_cons_of_pos (p := fun e : Entry => e.1.isSome) hPlace, hRest]
      rfl

/-- A part of a list without doubles is told by what is in it. -/
theorem eq_filter_of_sublist {α : Type} {s t : List α} (h : s.Sublist t) (hNodup : t.Nodup)
    (p : α → Bool) (hMem : ∀ a ∈ t, p a = true ↔ a ∈ s) : s = t.filter p := by
  refine (hNodup.perm_iff_eq_of_sublist h List.filter_sublist).mp ?_
  refine (List.perm_ext_iff_of_nodup (hNodup.sublist h) (hNodup.filter _)).mpr fun a => ?_
  rw [List.mem_filter]
  exact ⟨fun ha => ⟨h.subset ha, (hMem a (h.subset ha)).mpr ha⟩, fun ⟨ha, hp⟩ => (hMem a ha).mp hp⟩

theorem mem_pool (hListed : ∀ item ∈ items, item.lingers = false) {e : Entry}
    (he : e ∈ (Pass.ofItems items).pool) :
    ∃ place, e.1 = some place ∧ items[place]? = some e.2 := by
  rw [pool_ofItems hListed] at he
  obtain ⟨⟨item, place⟩, hIn, rfl⟩ := List.mem_map.mp he
  exact ⟨place, rfl, List.mem_zipIdx_iff_getElem?.mp hIn⟩

namespace Found

variable (h : Found items values found)
include h

theorem nodup_found : (found.map (·.2.node)).Nodup := by
  have hNodup := h.nodup
  rw [List.map_append] at hNodup
  exact (List.nodup_append.mp hNodup).2.1

theorem not_left {e e' : Entry} (he : e ∈ found)
    (he' : e' ∈ unclaimed (Pass.ofItems items).pool values) : e'.2.node ≠ e.2.node := by
  have hNodup := h.nodup
  rw [List.map_append, List.nodup_append] at hNodup
  exact hNodup.2.2 _ (List.mem_map_of_mem he') _ (List.mem_map_of_mem he)

/-- What was found with a place is what the values claimed. -/
theorem filter_eq : found.filter (·.1.isSome) =
    (claims (Pass.ofItems items).pool values).filterMap id := by
  refine filter_of_gets h.gets fun e he => ?_
  have hIn : e ∈ (Pass.ofItems items).pool := by
    refine (claims_perm _ values).mem_iff.mpr (List.mem_append_left _ ?_)
    exact List.mem_filterMap.mpr ⟨some e, he, rfl⟩
  obtain ⟨place, hPlace, hItem⟩ := mem_pool h.listed hIn
  exact ⟨by rw [hPlace]; rfl, h.listed _ (List.mem_of_getElem? hItem)⟩

theorem perm : (Pass.ofItems items).pool.Perm
    (found.filter (·.1.isSome) ++ unclaimed (Pass.ofItems items).pool values) := by
  rw [h.filter_eq]
  exact claims_perm _ _

theorem getElem?_place {e : Entry} (he : e ∈ found) {place : Nat} (hPlace : e.1 = some place) :
    items[place]? = some e.2 := by
  have hIn : e ∈ (Pass.ofItems items).pool := by
    refine (h.perm).mem_iff.mpr (List.mem_append_left _ (List.mem_filter.mpr ⟨he, ?_⟩))
    rw [hPlace]
    rfl
  obtain ⟨place', hPlace', hItem⟩ := mem_pool h.listed hIn
  rw [hPlace, Option.some.injEq] at hPlace'
  rwa [hPlace']

theorem isSome_iff {e : Entry} (he : e ∈ found) :
    e.1.isSome = true ↔ e.2.node ∈ items.map (·.node) := by
  constructor
  · intro hSome
    obtain ⟨place, hPlace⟩ := Option.isSome_iff_exists.mp hSome
    exact List.mem_map_of_mem (List.mem_of_getElem? (h.getElem?_place he hPlace))
  · intro hNode
    rw [← pool_map] at hNode
    obtain ⟨e', he', hSame⟩ := List.mem_map.mp hNode
    have hInj := List.inj_on_of_nodup_map h.nodup
    rcases List.mem_append.mp ((h.perm).mem_iff.mp he') with hFound | hLeft
    · obtain ⟨hFound, hSome⟩ := List.mem_filter.mp hFound
      rwa [← hInj (List.mem_append_right _ hFound) (List.mem_append_right _ he) hSame]
    · exact absurd hSame (h.not_left he hLeft)

theorem length_eq : values.length = found.length := by
  have hLength := congrArg List.length h.keys
  rw [List.length_map, List.length_map] at hLength
  exact hLength.symm

/-- What a value got is its former item with its place, or has no place. -/
theorem getElem?_former {e : Entry} {i : Nat} (he : found[i]? = some e) :
    (∀ former place, former? items values i = some (former, place) → e = (some place, former)) ∧
      (former? items values i = none → e.1 = none) := by
  obtain ⟨hLt, rfl⟩ := List.getElem?_eq_some_iff.mp he
  have hValues : i < values.length := h.length_eq ▸ hLt
  have hClaim : (claims (Pass.ofItems items).pool values)[i]? =
      some ((former? items values i).map fun (item, place) => (some place, item)) := by
    rw [claims_ofItems h.listed, List.getElem?_map, List.getElem?_range hValues]
    rfl
  obtain ⟨hLt', hEq⟩ := List.getElem?_eq_some_iff.mp hClaim
  have hGets := h.gets.get hLt' hLt
  rw [List.get_eq_getElem, hEq] at hGets
  constructor
  · intro former place hFormer
    rw [hFormer] at hGets
    have hStays : former.lingers = false := by
      obtain ⟨_, _, hItem, _⟩ := former?_eq_some hFormer
      exact h.listed _ (List.mem_of_getElem? hItem)
    rw [show found[i] = _ from hGets, ← hStays]
  · intro hNone
    rw [hNone] at hGets
    exact hGets

theorem reused_eq : (found.map (·.2.node)).filter (· ∈ items.map (·.node)) =
    (found.filter (·.1.isSome)).map (·.2.node) := by
  rw [List.filter_map]
  refine congrArg _ (List.filter_congr fun e he => ?_)
  rw [Function.comp_apply, Bool.eq_iff_iff, decide_eq_true_iff]
  exact (h.isSome_iff he).symm

theorem new_eq : (found.map (·.2.node)).filter (· ∉ items.map (·.node)) =
    (found.filter (·.1.isNone)).map (·.2.node) := by
  rw [List.filter_map]
  refine congrArg _ (List.filter_congr fun e he => ?_)
  rw [Function.comp_apply, Bool.eq_iff_iff, decide_eq_true_iff, ← h.isSome_iff he]
  cases e.1 <;> simp

theorem nodes_nodup : (items.map (·.node)).Nodup := by
  rw [← pool_map, ((h.perm).map _).nodup_iff]
  refine ((List.perm_append_comm.map _).nodup_iff).mpr (h.nodup.sublist ?_)
  exact ((List.filter_sublist).append_left _).map _

theorem left_eq : (unclaimed (Pass.ofItems items).pool values).map (·.2.node) =
    (items.map (·.node)).filter (· ∉ found.map (·.2.node)) := by
  refine eq_filter_of_sublist ?_ (h.nodes_nodup) _ fun r hr => ?_
  · rw [← pool_map]
    exact (unclaimed_sublist _ _).map _
  · rw [decide_eq_true_iff]
    constructor
    · intro hNot
      rw [← pool_map] at hr
      obtain ⟨e, he, rfl⟩ := List.mem_map.mp hr
      rcases List.mem_append.mp ((h.perm).mem_iff.mp he) with hFound | hLeft
      · exact absurd (List.mem_map_of_mem (List.mem_of_mem_filter hFound)) hNot
      · exact List.mem_map_of_mem hLeft
    · intro hLeft hFound
      obtain ⟨e, he, rfl⟩ := List.mem_map.mp hLeft
      obtain ⟨e', he', hSame⟩ := List.mem_map.mp hFound
      exact h.not_left he' he hSame.symm

end Found

/-! ## What the deeds are about -/

/-- Deeds are picked from what is done for one entry after the other. -/
theorem filterMap_flatMap_of {α β γ : Type} {as : List α} {f : α → List β} {g : β → Option γ}
    {k : α → Option γ} (h : ∀ a ∈ as, (f a).filterMap g = (k a).toList) :
    (as.flatMap f).filterMap g = as.filterMap k := by
  rw [List.filterMap_flatMap, List.filterMap_eq_flatMap_toList]
  induction as with
  | nil => rfl
  | cons a as ih =>
    rw [List.flatMap_cons, List.flatMap_cons, h a List.mem_cons_self,
      ih fun a ha => h a (List.mem_cons_of_mem _ ha)]

section Picking

variable (stable : List Nat) (anchor : Option NodeRef) (todo : List Entry)

theorem attached_placing : (placing stable anchor todo).filterMap Deed.attached? =
    (todo.filter (·.1.isNone)).map (·.2.node) := by
  induction todo generalizing anchor with
  | nil => rfl
  | cons e todo ih =>
    obtain ⟨place, item⟩ := e
    rw [placing, List.filterMap_append, ih]
    cases place with
    | none => rfl
    | some place =>
      rw [putting]
      split <;> rfl

theorem shifted_placing : (placing stable anchor todo).filterMap Deed.shifted? =
    (todo.filter fun e => e.1.any fun place => !stable.contains place).map (·.2.node) := by
  induction todo generalizing anchor with
  | nil => rfl
  | cons e todo ih =>
    obtain ⟨place, item⟩ := e
    rw [placing, List.filterMap_append, ih]
    cases place with
    | none => rfl
    | some place =>
      rw [putting]
      by_cases hStays : stable.contains place = true
      · rw [if_pos hStays, List.filter_cons_of_neg (by simpa using hStays)]
        rfl
      · rw [if_neg hStays, List.filter_cons_of_pos (by simpa using hStays)]
        rfl

/-- Items whose places are kept are left where they are. -/
theorem placing_eq_nil (h : ∀ e ∈ todo, e.1.any stable.contains = true) :
    placing stable anchor todo = [] := by
  induction todo generalizing anchor with
  | nil => rfl
  | cons e todo ih =>
    obtain ⟨hFirst, hRest⟩ := List.forall_mem_cons.mp h
    obtain ⟨_ | place, item⟩ := e
    · cases hFirst
    · have hStays : stable.contains place = true := hFirst
      rw [placing, putting, if_pos hStays, ih _ hRest]
      rfl

end Picking

theorem mem_settling {deed : Deed} (h : deed ∈ settling items found) :
    ∃ node before, deed = .attach node before ∨ deed = .shift node before := by
  have hPlacing : ∀ (stable : List Nat) (todo : List Entry) (anchor : Option NodeRef),
      deed ∈ placing stable anchor todo →
        ∃ node before, deed = .attach node before ∨ deed = .shift node before := by
    intro stable todo
    induction todo with
    | nil => exact fun _ hIn => absurd hIn List.not_mem_nil
    | cons e todo ih =>
      intro anchor hIn
      rcases List.mem_append.mp hIn with hFirst | hRest
      · obtain ⟨_ | place, item⟩ := e
        · exact ⟨_, _, .inl (List.mem_singleton.mp hFirst)⟩
        · rw [putting] at hFirst
          split at hFirst
          · cases hFirst
          · exact ⟨_, _, .inr (List.mem_singleton.mp hFirst)⟩
      · exact ih _ hRest
  unfold settling at h
  split at h
  · obtain ⟨e, -, rfl⟩ := List.mem_map.mp h
    exact ⟨_, _, .inl rfl⟩
  · exact hPlacing _ _ _ h

/-- To find entries is to tune and to make. -/
theorem mem_finding {deed : Deed} (h : deed ∈ finding values found) :
    (∃ cursor index, deed = .tune cursor index) ∨
      ∃ value index item, deed = .make value index item := by
  obtain ⟨⟨⟨value, _ | place, item⟩, index⟩, -, hIn⟩ := List.mem_flatMap.mp h
  · exact .inr ⟨_, _, _, List.mem_singleton.mp hIn⟩
  · rw [tasks_some] at hIn
    split at hIn
    · cases hIn
    · exact .inl ⟨_, _, List.mem_singleton.mp hIn⟩

section Deeds

variable (items values left found) {γ : Type} {g : Deed → Option γ}

/-- What is picked from entries that are found alone. -/
theorem filterMap_finding (hRemove : ∀ node, g (.remove node) = none)
    (hAttach : ∀ node before, g (.attach node before) = none)
    (hShift : ∀ node before, g (.shift node before) = none) :
    (deedsOf items values left found).filterMap g = (finding values found).filterMap g := by
  have hRest : (clearing left ++ settling items found).filterMap g = [] := by
    refine List.filterMap_eq_nil_iff.mpr fun deed hIn => ?_
    rcases List.mem_append.mp hIn with hClearing | hSettling
    · obtain ⟨e, -, rfl⟩ := List.mem_map.mp hClearing
      exact hRemove _
    · obtain ⟨node, before, rfl | rfl⟩ := mem_settling hSettling
      · exact hAttach _ _
      · exact hShift _ _
  rw [deedsOf, List.filterMap_append, hRest, List.append_nil]

/-- What is picked from what is left and what is settled. -/
theorem filterMap_settling (hTune : ∀ cursor index, g (.tune cursor index) = none)
    (hMake : ∀ value index item, g (.make value index item) = none) :
    (deedsOf items values left found).filterMap g =
      (clearing left).filterMap g ++ (settling items found).filterMap g := by
  have hFirst : (finding values found).filterMap g = [] := by
    refine List.filterMap_eq_nil_iff.mpr fun deed hIn => ?_
    rcases mem_finding hIn with ⟨cursor, index, rfl⟩ | ⟨value, index, item, rfl⟩
    · exact hTune _ _
    · exact hMake _ _ _
  rw [deedsOf, List.filterMap_append, List.filterMap_append, hFirst, List.nil_append]

theorem made_deedsOf : (deedsOf items values left found).filterMap Deed.made? =
    (values.zip found).zipIdx.filterMap fun ((value, e), i) =>
      if e.1.isNone then some (value, i, e.2) else none := by
  rw [filterMap_finding _ _ _ _ (fun _ => rfl) (fun _ _ => rfl) fun _ _ => rfl]
  refine filterMap_flatMap_of ?_
  rintro ⟨⟨value, _ | place, item⟩, i⟩ -
  · rfl
  · rw [tasks_some]
    split <;> rfl

theorem tuned_deedsOf : (deedsOf items values left found).filterMap Deed.tuned? =
    (values.zip found).zipIdx.filterMap fun ((_, e), i) =>
      e.1.bind fun place => if place = i then none else some (e.2.cursor, i) := by
  rw [filterMap_finding _ _ _ _ (fun _ => rfl) (fun _ _ => rfl) fun _ _ => rfl]
  refine filterMap_flatMap_of ?_
  rintro ⟨⟨value, _ | place, item⟩, i⟩ -
  · rfl
  · rw [tasks_some]
    by_cases hSame : place = i
    · simp [hSame]
    · simp [hSame, Deed.tuned?]

theorem removed_deedsOf : (deedsOf items values left found).filterMap Deed.removed? =
    left.map (·.node) := by
  have hNone : (settling items found).filterMap Deed.removed? = [] := by
    refine List.filterMap_eq_nil_iff.mpr fun deed hIn => ?_
    obtain ⟨node, before, rfl | rfl⟩ := mem_settling hIn <;> rfl
  rw [filterMap_settling _ _ _ _ (fun _ _ => rfl) fun _ _ _ => rfl, hNone, List.append_nil, clearing,
    List.filterMap_map]
  exact List.filterMap_eq_map ▸ rfl

theorem shifted_deedsOf : (deedsOf items values left found).filterMap Deed.shifted? =
    (settling items found).filterMap Deed.shifted? := by
  have hNone : (clearing left).filterMap Deed.shifted? = [] := by
    rw [clearing, List.filterMap_map]
    exact List.filterMap_eq_nil_iff.mpr fun _ _ => rfl
  rw [filterMap_settling _ _ _ _ (fun _ _ => rfl) fun _ _ _ => rfl, hNone, List.nil_append]

end Deeds

namespace Found

variable (h : Found items values found)
include h

theorem isNone_of_nil (hNone : items = []) {e : Entry} (he : e ∈ found) : e.1 = none := by
  refine Option.not_isSome_iff_eq_none.mp fun hSome => ?_
  have hIn := (h.isSome_iff he).mp hSome
  rw [hNone] at hIn
  cases hIn

theorem attached_perm (left : List Item) :
    ((deedsOf items values left found).filterMap Deed.attached?).Perm
      ((found.filter (·.1.isNone)).map (·.2.node)) := by
  have hNone : (clearing left).filterMap Deed.attached? = [] := by
    rw [clearing, List.filterMap_map]
    exact List.filterMap_eq_nil_iff.mpr fun _ _ => rfl
  rw [filterMap_settling _ _ _ _ (fun _ _ => rfl) fun _ _ _ => rfl, hNone, List.nil_append, settling]
  split
  · rename_i hEmpty
    have hAll : found.filter (·.1.isNone) = found := List.filter_eq_self.mpr fun e he => by
      rw [h.isNone_of_nil (List.isEmpty_iff.mp hEmpty) he]
      rfl
    rw [hAll, List.filterMap_map]
    exact List.Perm.of_eq (List.filterMap_eq_map ▸ rfl)
  · rw [attached_placing, List.filter_reverse, List.map_reverse]
    exact List.reverse_perm _

/-- What is shifted had a place that is not kept. -/
theorem shifted_eq (left : List Item) :
    ((deedsOf items values left found).filterMap Deed.shifted?).reverse =
      (found.filter fun e => e.1.any fun place => !(keptPlaces found).contains place).map
        (·.2.node) := by
  rw [shifted_deedsOf, settling]
  split
  · rename_i hEmpty
    rw [List.filterMap_map, List.filter_eq_nil_iff.mpr fun e he => ?_]
    · exact congrArg List.reverse (List.filterMap_eq_nil_iff.mpr fun _ _ => rfl)
    · rw [h.isNone_of_nil (List.isEmpty_iff.mp hEmpty) he]
      exact Bool.false_ne_true
  · rw [shifted_placing, List.filter_reverse, List.map_reverse, List.reverse_reverse]

/-! ## Places that are kept -/

theorem sublist_kept : ((found.filter (·.1.any (keptPlaces found).contains)).map (·.2.node)).Sublist
    (items.map (·.node)) := by
  have hPlaced : ∀ e ∈ found, ∀ i, e.1 = some i →
      ∃ item, items[i]? = some item ∧ item.node = e.2.node :=
    fun e he i hi => ⟨e.2, h.getElem?_place he hi, rfl⟩
  rw [map_node_filter hPlaced]
  refine List.Sublist.map _ (sublist_of_rising items
    (pairwise_filter_longestRun (places_nodup hPlaced h.nodup_found)) fun i hi => ?_)
  obtain ⟨e, he, hPlace⟩ := List.mem_filterMap.mp (List.mem_of_mem_filter hi)
  exact (List.getElem?_eq_some_iff.mp (h.getElem?_place he hPlace)).1

/-- Those that are reused are shifted or keep their places. -/
theorem length_kept (left : List Item) :
    (found.filter (·.1.any (keptPlaces found).contains)).length +
      ((deedsOf items values left found).filterMap Deed.shifted?).length =
      (found.filter (·.1.isSome)).length := by
  have hShifted := congrArg List.length (h.shifted_eq left)
  rw [List.length_reverse, List.length_map] at hShifted
  rw [hShifted, List.length_eq_length_filter_add (l := found.filter (·.1.isSome))
    (·.1.any (keptPlaces found).contains), List.filter_filter, List.filter_filter]
  refine congrArg₂ (· + ·) (congrArg _ (List.filter_congr fun e _ => ?_))
    (congrArg _ (List.filter_congr fun e _ => ?_))
  · cases e.1 <;> simp
  · cases e.1 <;> simp

theorem idxOf_node {e : Entry} (he : e ∈ found) {place : Nat} (hPlace : e.1 = some place) :
    (items.map (·.node)).idxOf e.2.node = place := by
  obtain ⟨hLt, hItem⟩ := List.getElem?_eq_some_iff.mp (h.getElem?_place he hPlace)
  have hIndex := (h.nodes_nodup).idxOf_getElem place (by rwa [List.length_map])
  rwa [List.getElem_map, hItem] at hIndex

/-- Those that are reused have rising places if and only if they are in their former order. So no
more of them can be than a longest run has. -/
theorem length_le_kept {w : List NodeRef} (hOld : w.Sublist (items.map (·.node)))
    (hNew : w.Sublist (found.map (·.2.node))) :
    w.length ≤ (found.filter (·.1.any (keptPlaces found).contains)).length := by
  let index := fun r => (items.map (·.node)).idxOf r
  have hRises : (w.map index).Pairwise (· < ·) := by
    have hRange : (items.map (·.node)).map index = List.range (items.map (·.node)).length := by
      refine List.ext_getElem (by simp) fun i hi hi' => ?_
      rw [List.getElem_map, List.getElem_range]
      exact (h.nodes_nodup).idxOf_getElem i _
    refine List.Pairwise.sublist (hOld.map index) ?_
    rw [hRange]
    exact List.pairwise_lt_range
  have hPlaces : (w.map index).Sublist (found.filterMap (·.1)) := by
    have hReused : w.Sublist ((found.filter (·.1.isSome)).map (·.2.node)) := by
      rw [← h.reused_eq]
      have hSub := hNew.filter (· ∈ items.map (·.node))
      rwa [List.filter_eq_self.mpr fun r hr => by simpa using hOld.subset hr] at hSub
    have hSame : ((found.filter (·.1.isSome)).map (·.2.node)).map index =
        found.filterMap (·.1) := by
      have hAll : ∀ e ∈ found, ∀ place, e.1 = some place → index e.2.node = place :=
        fun e he place => h.idxOf_node he
      clear hReused hNew h
      induction found with
      | nil => rfl
      | cons e found ih =>
        obtain ⟨hFirst, hRest⟩ := List.forall_mem_cons.mp hAll
        obtain ⟨_ | place, item⟩ := e
        · exact ih hRest
        · rw [List.filter_cons_of_pos (by rfl), List.map_cons, List.map_cons, hFirst place rfl,
            ih hRest]
          rfl
    rw [← hSame]
    exact hReused.map index
  have hLongest := length_le_longestRun hPlaces hRises
  rw [List.length_map] at hLongest
  have hKept : (found.filterMap (·.1)).filter (keptPlaces found).contains =
      (found.filter (·.1.any (keptPlaces found).contains)).filterMap (·.1) := by
    rw [List.filter_filterMap, List.filterMap_filter]
    refine List.filterMap_congr fun e _ => ?_
    cases e.1 <;> rfl
  refine hLongest.trans (length_longestRun_le.trans ?_)
  exact (congrArg List.length hKept).le.trans (List.length_filterMap_le _ _)

/-! ## The whole plan -/

variable (hLeft : left.Perm ((unclaimed (Pass.ofItems items).pool values).map Prod.snd))

/-- A list with the keys of all items finds them at their places. -/
theorem eq_pool (hKeys : values.map Value.key = items.map (·.key)) :
    found = (Pass.ofItems items).pool := by
  have hPool : values.map Value.key = (Pass.ofItems items).pool.map (·.2.key) :=
    hKeys.trans (pool_map _ _).symm
  have hFound := h.filter_eq
  rw [(claims_of_keys hPool).1, List.filterMap_map, Function.id_comp, List.filterMap_some] at hFound
  rw [← hFound]
  refine (List.filter_sublist.eq_of_length ?_).symm
  rw [hFound, ← h.length_eq]
  simpa using (congrArg List.length hPool).symm

include hLeft in
theorem deedsOf_eq_nil (hKeys : values.map Value.key = items.map (·.key)) :
    deedsOf items values left found = [] := by
  have hPool := h.eq_pool hKeys
  have hNodes : found.map (·.2.node) = items.map (·.node) := by rw [hPool, pool_map]
  have hFinding : finding values found = [] := by
    refine List.flatMap_eq_nil_iff.mpr ?_
    rintro ⟨⟨value, e⟩, i⟩ hIn
    have hAt := (List.getElem?_zip_eq_some.mp (List.mem_zipIdx_iff_getElem?.mp hIn)).2
    rw [hPool, pool_ofItems h.listed, List.getElem?_map] at hAt
    obtain ⟨⟨item, place⟩, hItem, rfl⟩ := Option.map_eq_some_iff.mp hAt
    rw [List.getElem?_zipIdx, Nat.zero_add] at hItem
    obtain ⟨_, _, hEq⟩ := Option.map_eq_some_iff.mp hItem
    rw [tasks_some, if_pos (congrArg Prod.snd hEq).symm]
  have hClearing : clearing left = [] := by
    rw [(claims_of_keys (hKeys.trans (pool_map _ _).symm)).2] at hLeft
    rw [hLeft.eq_nil]
    rfl
  have hKept : found.filter (·.1.any (keptPlaces found).contains) = found := by
    refine List.filter_sublist.eq_of_length_le ?_
    have hAll := h.length_le_kept (List.Sublist.refl _)
      (by rw [hNodes])
    rwa [← hNodes, List.length_map] at hAll
  rw [deedsOf, hFinding, hClearing, List.nil_append, List.nil_append, settling]
  split
  · rename_i hEmpty
    rw [List.isEmpty_iff.mp hEmpty] at hNodes
    rw [List.map_eq_nil_iff.mp hNodes]
    rfl
  · refine placing_eq_nil _ _ _ fun e he => ?_
    exact List.filter_eq_self.mp hKept e (List.mem_reverse.mp he)

theorem inj {e e' : Entry} (he : e ∈ found) (he' : e' ∈ found) (hNode : e.2.node = e'.2.node) :
    e = e' :=
  List.inj_on_of_nodup_map h.nodup (List.mem_append_right _ he) (List.mem_append_right _ he') hNode

include hLeft in
/-- Nothing is done with what keeps its place. -/
theorem placed?_ne {e : Entry} (he : e ∈ found)
    (hKept : e.1.any (keptPlaces found).contains = true) {deed : Deed}
    (hDeed : deed ∈ deedsOf items values left found) : deed.placed? ≠ some e.2.node := by
  intro hPlaced
  cases deed with
  | tune | make => cases hPlaced
  | remove node =>
    obtain rfl := Option.some.inj hPlaced
    have hRemoved := List.mem_filterMap.mpr ⟨_, hDeed, (rfl : Deed.removed? _ = some e.2.node)⟩
    rw [removed_deedsOf] at hRemoved
    obtain ⟨item, hItem, hNode⟩ := List.mem_map.mp hRemoved
    obtain ⟨e', he', rfl⟩ := List.mem_map.mp (hLeft.mem_iff.mp hItem)
    exact h.not_left he he' hNode
  | attach node before =>
    obtain rfl := Option.some.inj hPlaced
    have hAttached := List.mem_filterMap.mpr ⟨_, hDeed, (rfl : Deed.attached? _ = some e.2.node)⟩
    rw [(h.attached_perm left).mem_iff] at hAttached
    obtain ⟨e', he', hNode⟩ := List.mem_map.mp hAttached
    obtain ⟨he', hNew⟩ := List.mem_filter.mp he'
    rw [h.inj he' he hNode] at hNew
    cases hPlace : e.1 with
    | none => simp [hPlace] at hKept
    | some place => simp [hPlace] at hNew
  | shift node before =>
    obtain rfl := Option.some.inj hPlaced
    have hShifted := List.mem_filterMap.mpr ⟨_, hDeed, (rfl : Deed.shifted? _ = some e.2.node)⟩
    rw [← List.mem_reverse, h.shifted_eq left] at hShifted
    obtain ⟨e', he', hNode⟩ := List.mem_map.mp hShifted
    obtain ⟨he', hMoves⟩ := List.mem_filter.mp he'
    rw [h.inj he' he hNode] at hMoves
    cases hPlace : e.1 with
    | none => simp [hPlace] at hKept
    | some place =>
      rw [hPlace, Option.any_some] at hMoves hKept
      rw [hKept] at hMoves
      cases hMoves

theorem length_made (left : List Item) :
    ((deedsOf items values left found).filterMap Deed.made?).length = found.countP (·.1.isNone) := by
  have hEntries : (values.zip found).zipIdx.map (·.1.2) = found := by
    change (values.zip found).zipIdx.map (Prod.snd ∘ Prod.fst) = _
    rw [← List.map_map, List.zipIdx_map_fst, List.map_snd_zip h.length_eq.ge]
  rw [made_deedsOf, List.length_filterMap_eq_countP]
  conv_rhs => rw [← hEntries, List.countP_map]
  refine List.countP_congr ?_
  rintro ⟨⟨value, e⟩, i⟩ -
  cases hPlace : e.1 <;> simp [hPlace]

include hLeft in
/-- What is done in a pass is what there is to do. -/
theorem plan : Plan items (found.map Prod.snd) values (deedsOf items values left found)
    { created := found.countP (·.1.isNone)
      reused := found.countP (·.1.isSome)
      destroyed := left.length
      moved := ((deedsOf items values left found).filterMap Deed.shifted?).length } := by
  have hNodes : (found.map Prod.snd).map (·.node) = found.map (·.2.node) := List.map_map
  have hZip : (values.zip (found.map Prod.snd)).zipIdx =
      (values.zip found).zipIdx.map (Prod.map (Prod.map id Prod.snd) id) := by
    rw [List.zip_map_right, List.zipIdx_map]
  have hAt : ∀ value e i, ((value, e), i) ∈ (values.zip found).zipIdx → found[i]? = some e := by
    intro value e i hIn
    exact (List.getElem?_zip_eq_some.mp (List.mem_zipIdx_iff_getElem?.mp hIn)).2
  have hReused := List.countP_eq_length_filter (p := fun e : Entry => e.1.isSome) (l := found)
  have hLongest : ∀ w : List NodeRef, w.Sublist (items.map (·.node)) →
      w.Sublist (found.map (·.2.node)) →
        w.length + ((deedsOf items values left found).filterMap Deed.shifted?).length ≤
          (found.filter (·.1.isSome)).length := fun w hOld hNew => by
    rw [← h.length_kept left]
    exact Nat.add_le_add_right (h.length_le_kept hOld hNew) _
  refine ⟨?_, fun i former place hFormer => ?_, ?_, ?_, ?_, ?_, ?_, ?_,
    ⟨(found.filter (·.1.any (keptPlaces found).contains)).map (·.2.node), h.sublist_kept,
      ?_, ?_, ?_⟩, fun w hOld hNew => ?_, fun out hOut => ?_, h.deedsOf_eq_nil hLeft⟩
  · rw [List.map_map]
    exact h.keys
  · obtain ⟨value, hValue, -⟩ := former?_eq_some hFormer
    have hLt : i < found.length := h.length_eq ▸ (List.getElem?_eq_some_iff.mp hValue).1
    have hEntry := (h.getElem?_former (List.getElem?_eq_getElem hLt)).1 former place hFormer
    rw [List.getElem?_map, List.getElem?_eq_getElem hLt, hEntry]
    rfl
  · rw [made_deedsOf, hZip, List.filterMap_map]
    refine List.filterMap_congr ?_
    rintro ⟨⟨value, e⟩, i⟩ hIn
    obtain ⟨hSome, hNone⟩ := h.getElem?_former (hAt value e i hIn)
    cases hFormer : former? items values i with
    | none => simp [hNone hFormer, hFormer]
    | some former =>
      obtain rfl := hSome _ _ hFormer
      simp [hFormer]
  · rw [tuned_deedsOf, hZip, List.filterMap_map]
    refine List.filterMap_congr ?_
    rintro ⟨⟨value, e⟩, i⟩ hIn
    obtain ⟨hSome, hNone⟩ := h.getElem?_former (hAt value e i hIn)
    cases hFormer : former? items values i with
    | none => simp [hNone hFormer, hFormer]
    | some former =>
      obtain rfl := hSome _ _ hFormer
      simp [hFormer]
  · rw [removed_deedsOf, hNodes, ← h.left_eq]
    exact (hLeft.map _).trans (List.Perm.of_eq List.map_map)
  · rw [hNodes, h.new_eq]
    exact h.attached_perm left
  · rw [h.shifted_eq left, hNodes, h.reused_eq]
    refine List.Sublist.map _ (List.monotone_filter_right _ fun e hAny => ?_)
    cases hPlace : e.1 with
    | none => simp [hPlace] at hAny
    | some place => rfl
  · rw [h.length_made left, hNodes, h.reused_eq, List.length_map, ← hReused, removed_deedsOf,
      List.length_map]
  · rw [hNodes]
    exact List.filter_sublist.map _
  · rw [List.length_map, h.length_kept left, hReused]
  · intro r hr deed hDeed
    obtain ⟨e, he, rfl⟩ := List.mem_map.mp hr
    obtain ⟨he, hKept⟩ := List.mem_filter.mp he
    exact h.placed?_ne hLeft he hKept hDeed
  · rw [hReused]
    exact hLongest w hOld (hNodes ▸ hNew)
  · rw [hNodes] at hOut
    refine fewest_of_longest h.nodup_found (fun w hOld hNew => ?_) hOut
    rw [h.reused_eq, List.length_map]
    exact hLongest w hOld hNew

end Found

end LiveMarkup.Live.Series
