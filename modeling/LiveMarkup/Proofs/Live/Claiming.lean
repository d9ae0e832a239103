import LiveMarkup.Live.Reconciling
import Mathlib.Data.List.Basic

/-!
# Claiming former items

The values of a list claim former items, one after the other, each the first of its key that is
left. So the items of a key are claimed in order, and what is claimed by the values of a key in the
end depends only on how many there are.

* `Series.claims`, `Series.unclaimed`: what a list claims, and what it leaves;
* `Series.former?`: the item that a value of a list claims, `claims_getElem?_ofKey`: that it does;
* `Series.claims_of_keys`: a list with the keys of all items claims them in order.
-/

namespace LiveMarkup.Live.Series

/-- An item with its former place. -/
abbrev Entry := Option Nat × Item

variable {pool rest : List Entry} {found : Entry} {key : String} {values : List Value}

/-! ## One claim -/

/-- What is claimed is the first of its key. -/
theorem claim?_eq_some (h : claim? key pool = some (found, rest)) : ∃ front back,
    pool = front ++ found :: back ∧ rest = front ++ back ∧ found.2.key = key ∧
      ∀ e ∈ front, e.2.key ≠ key := by
  induction pool generalizing rest with
  | nil => cases h
  | cons first pool ih =>
    obtain ⟨place, item⟩ := first
    rw [claim?] at h
    split at h
    · rename_i hKey
      obtain ⟨rfl, rfl⟩ := Prod.mk.inj (Option.some.inj h)
      exact ⟨[], pool, rfl, rfl, beq_iff_eq.mp hKey, fun _ he => absurd he List.not_mem_nil⟩
    · rename_i hKey
      obtain ⟨⟨found', others⟩, hClaim, hEq⟩ := Option.map_eq_some_iff.mp h
      obtain ⟨rfl, rfl⟩ := Prod.mk.inj hEq
      obtain ⟨front, back, rfl, rfl, hFound, hFront⟩ := ih hClaim
      refine ⟨(place, item) :: front, back, rfl, rfl, hFound, ?_⟩
      exact List.forall_mem_cons.mpr ⟨fun hEq => hKey (beq_iff_eq.mpr hEq), hFront⟩

theorem claim?_eq_none (h : claim? key pool = none) : ∀ e ∈ pool, e.2.key ≠ key := by
  induction pool with
  | nil => exact fun _ he => absurd he List.not_mem_nil
  | cons first pool ih =>
    obtain ⟨place, item⟩ := first
    rw [claim?] at h
    split at h
    · cases h
    · rename_i hKey
      refine List.forall_mem_cons.mpr ⟨fun hEq => hKey (beq_iff_eq.mpr hEq), ih ?_⟩
      exact Option.map_eq_none_iff.mp h

/-! ## Entries with former places -/

section Placed

variable {items : List Item} {entries : List Entry}
variable (hPlaced : ∀ e ∈ entries, ∀ i, e.1 = some i →
  ∃ item, items[i]? = some item ∧ item.node = e.2.node)
include hPlaced

theorem places_nodup (hNodes : (entries.map (·.2.node)).Nodup) :
    (entries.filterMap (·.1)).Nodup := by
  refine List.pairwise_filterMap.mpr ((List.pairwise_map.mp hNodes).imp_of_mem ?_)
  rintro e e' he he' hNe i hi i' hi' rfl
  obtain ⟨item, hItem, hNode⟩ := hPlaced e he i hi
  obtain ⟨item', hItem', hNode'⟩ := hPlaced e' he' i hi'
  rw [hItem] at hItem'
  obtain rfl := Option.some.inj hItem'
  exact hNe (hNode.symm.trans hNode')

theorem map_node_filter (keeps : Nat → Bool) : (entries.filter (·.1.any keeps)).map (·.2.node) =
    (((entries.filterMap (·.1)).filter keeps).filterMap fun i => items[i]?).map (·.node) := by
  induction entries with
  | nil => rfl
  | cons e entries ih =>
    obtain ⟨hFirst, hRest⟩ := List.forall_mem_cons.mp hPlaced
    have ih := ih hRest
    obtain ⟨_ | place, item⟩ := e
    · exact ih
    · obtain ⟨former, hFormer, hNode⟩ := hFirst place rfl
      rw [List.filterMap_cons_some (f := Prod.fst) (b := place) rfl]
      by_cases hStay : keeps place = true
      · rw [List.filter_cons_of_pos (by simpa using hStay), List.filter_cons_of_pos hStay,
          List.filterMap_cons_some hFormer, List.map_cons, List.map_cons, ih, hNode]
      · rw [List.filter_cons_of_neg (by simpa using hStay), List.filter_cons_of_neg hStay, ih]

end Placed

/-! ## All claims -/

/-- What the values of a list claim from a pool. -/
def claims : List Entry → List Value → List (Option Entry)
  | _, [] => []
  | pool, value :: values =>
    match claim? value.key pool with
    | some (found, rest) => some found :: claims rest values
    | none => none :: claims pool values

/-- What the values of a list leave of a pool. -/
def unclaimed : List Entry → List Value → List Entry
  | pool, [] => pool
  | pool, value :: values =>
    match claim? value.key pool with
    | some (_, rest) => unclaimed rest values
    | none => unclaimed pool values

theorem claims_some (h : claim? key pool = some (found, rest)) {value : Value}
    (hKey : value.key = key) : claims pool (value :: values) = some found :: claims rest values ∧
      unclaimed pool (value :: values) = unclaimed rest values := by
  subst hKey
  constructor
  · rw [claims, h]
  · rw [unclaimed, h]

theorem claims_none {value : Value} (h : claim? value.key pool = none) :
    claims pool (value :: values) = none :: claims pool values ∧
      unclaimed pool (value :: values) = unclaimed pool values := by
  constructor
  · rw [claims, h]
  · rw [unclaimed, h]

theorem unclaimed_sublist (pool : List Entry) (values : List Value) :
    (unclaimed pool values).Sublist pool := by
  induction values generalizing pool with
  | nil => exact List.Sublist.refl _
  | cons value values ih =>
    rw [unclaimed]
    split
    · rename_i found rest hClaim
      obtain ⟨front, back, rfl, rfl, -⟩ := claim?_eq_some hClaim
      exact (ih _).trans ((List.sublist_cons_self found back).append_left front)
    · exact ih _

theorem claims_perm (pool : List Entry) (values : List Value) :
    pool.Perm ((claims pool values).filterMap id ++ unclaimed pool values) := by
  induction values generalizing pool with
  | nil => exact List.Perm.refl _
  | cons value values ih =>
    cases hClaim : claim? value.key pool with
    | none =>
      rw [(claims_none hClaim).1, (claims_none hClaim).2]
      exact ih pool
    | some claimed =>
      obtain ⟨found, rest⟩ := claimed
      rw [(claims_some hClaim rfl).1, (claims_some hClaim rfl).2]
      obtain ⟨front, back, rfl, rfl, -⟩ := claim?_eq_some hClaim
      exact List.perm_middle.trans ((ih _).cons found)

/-! ## First come, first served -/

/-- The entries of a key. -/
abbrev ofKey (key : String) (pool : List Entry) : List Entry :=
  pool.filter fun e => e.2.key == key

theorem ofKey_of_none (h : claim? key pool = none) : ofKey key pool = [] :=
  List.filter_eq_nil_iff.mpr fun e he => by simpa using claim?_eq_none h e he

theorem ofKey_self (h : claim? key pool = some (found, rest)) :
    ofKey key pool = found :: ofKey key rest := by
  obtain ⟨front, back, rfl, rfl, hFound, hFront⟩ := claim?_eq_some h
  have hNone : ofKey key front = [] := List.filter_eq_nil_iff.mpr fun e he => by
    simpa using hFront e he
  simp only [ofKey, List.filter_append] at hNone ⊢
  rw [hNone, List.filter_cons_of_pos (by simpa using hFound)]
  rfl

theorem ofKey_of_ne (h : claim? key pool = some (found, rest)) {other : String}
    (hNe : other ≠ key) : ofKey other pool = ofKey other rest := by
  obtain ⟨front, back, rfl, rfl, hFound, -⟩ := claim?_eq_some h
  have hOff : ¬ (found.2.key == other) = true := fun hEq =>
    hNe ((beq_iff_eq.mp hEq).symm.trans hFound)
  simp only [ofKey, List.filter_append]
  rw [List.filter_cons_of_neg (p := fun e : Entry => e.2.key == other) hOff]

/-- The values of a key claim the entries of that key in order. -/
theorem claims_getElem?_ofKey (pool : List Entry) (values : List Value) (i : Nat) :
    (claims pool values)[i]? = values[i]?.map fun value =>
      (ofKey value.key pool)[(values.take i).countP (·.key == value.key)]? := by
  induction values generalizing pool i with
  | nil => rfl
  | cons first values ih =>
    cases hClaim : claim? first.key pool with
    | none =>
      rw [(claims_none hClaim).1]
      cases i with
      | zero => simp [ofKey_of_none hClaim]
      | succ i =>
        rw [List.getElem?_cons_succ, List.getElem?_cons_succ, ih]
        refine Option.map_congr fun value _ => ?_
        rw [List.take_succ_cons, List.countP_cons]
        by_cases hSame : first.key = value.key
        · rw [← hSame, ofKey_of_none hClaim]
          rfl
        · rw [if_neg (by simpa using hSame), Nat.add_zero]
    | some claimed =>
      obtain ⟨found, rest⟩ := claimed
      rw [(claims_some hClaim rfl).1]
      cases i with
      | zero => simp [ofKey_self hClaim]
      | succ i =>
        rw [List.getElem?_cons_succ, List.getElem?_cons_succ, ih]
        refine Option.map_congr fun value _ => ?_
        rw [List.take_succ_cons, List.countP_cons]
        by_cases hSame : first.key = value.key
        · rw [if_pos (by simpa using hSame), ← hSame, ofKey_self hClaim]
          rfl
        · rw [if_neg (by simpa using hSame), Nat.add_zero, ofKey_of_ne hClaim (Ne.symm hSame)]

/-- The former item for a value of a list, with its place: as many values of its key come before the
one as items come before the other. -/
def former? (items : List Item) (values : List Value) (i : Nat) : Option (Item × Nat) :=
  values[i]?.bind fun value =>
    (items.zipIdx.filter (·.1.key == value.key))[(values.take i).countP (·.key == value.key)]?

theorem pool_map {α : Type} (items : List Item) (f : Item → α) :
    (Pass.ofItems items).pool.map (fun e => f e.2) = items.map f := by
  rw [Pass.ofItems, List.map_map]
  change items.zipIdx.map (f ∘ Prod.fst) = _
  rw [← List.map_map, List.zipIdx_map_fst]

theorem pool_ofItems {items : List Item} (h : ∀ item ∈ items, item.lingers = false) :
    (Pass.ofItems items).pool = items.zipIdx.map fun (item, place) => (some place, item) := by
  refine List.map_congr_left fun e he => ?_
  have hStays : e.1.lingers = false := h e.1 (List.fst_mem_of_mem_zipIdx he)
  simp [hStays]

/-- The values of a list claim their former items. -/
theorem claims_ofItems {items : List Item} (h : ∀ item ∈ items, item.lingers = false)
    (values : List Value) : claims (Pass.ofItems items).pool values =
      (List.range values.length).map fun i =>
        (former? items values i).map fun (item, place) => (some place, item) := by
  refine List.ext_getElem? fun i => ?_
  rw [claims_getElem?_ofKey, List.getElem?_map]
  by_cases hLt : i < values.length
  · rw [List.getElem?_range hLt, Option.map_some, former?, List.getElem?_eq_getElem hLt,
      Option.map_some, Option.bind_some, pool_ofItems h, ofKey, List.filter_map, List.getElem?_map]
    rfl
  · rw [List.getElem?_eq_none (Nat.le_of_not_lt hLt),
      List.getElem?_eq_none (by simpa using Nat.le_of_not_lt hLt)]
    rfl

theorem former?_eq_some {items : List Item} {i place : Nat} {item : Item}
    (h : former? items values i = some (item, place)) : ∃ value, values[i]? = some value ∧
      items[place]? = some item ∧ item.key = value.key := by
  obtain ⟨value, hValue, hAt⟩ := Option.bind_eq_some_iff.mp h
  obtain ⟨hMem, hKey⟩ := List.mem_filter.mp (List.mem_of_getElem? hAt)
  exact ⟨value, hValue, List.mem_zipIdx_iff_getElem?.mp hMem, beq_iff_eq.mp hKey⟩

/-- A list with the keys of a whole pool claims its entries in order. -/
theorem claims_of_keys (h : values.map Value.key = pool.map (·.2.key)) :
    claims pool values = pool.map some ∧ unclaimed pool values = [] := by
  induction pool generalizing values with
  | nil =>
    obtain rfl := List.map_eq_nil_iff.mp h
    exact ⟨rfl, rfl⟩
  | cons first pool ih =>
    obtain ⟨place, item⟩ := first
    cases values with
    | nil => cases h
    | cons value values =>
      rw [List.map_cons, List.map_cons] at h
      obtain ⟨hFirst, hRest⟩ := List.cons.inj h
      have hClaim : claim? value.key ((place, item) :: pool) = some ((place, item), pool) := by
        rw [claim?, if_pos (beq_iff_eq.mpr hFirst.symm)]
      obtain ⟨hClaims, hNone⟩ := ih hRest
      rw [(claims_some hClaim rfl).1, (claims_some hClaim rfl).2, hClaims]
      exact ⟨rfl, hNone⟩

end LiveMarkup.Live.Series
