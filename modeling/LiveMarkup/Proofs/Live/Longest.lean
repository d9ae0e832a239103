import LiveMarkup.Live.LongestRun
import Mathlib.Data.List.Pairwise
import Mathlib.Data.List.Sort
import Mathlib.Order.Basic

/-!
# Longest runs

The positions that make a longest run rise, and so do the numbers at these positions. If no number
is there twice, those of the run rise in the whole list.

No part of a list that rises is longer than its longest run. For each length the run that is kept
ends with the least number with which any rising part of that length ends.

* `longestRun_rises`: positions and numbers of the longest run;
* `pairwise_filter_longestRun`: the numbers of the run in the list;
* `Run.Best`: what the runs over the first numbers of a list are;
* `length_le_longestRun`: the longest run is the longest rising part.
-/

/-! ## Rising runs -/

namespace LiveMarkup

namespace Run

variable {values : List Nat} {position value : Nat}

/-- Positions and the numbers there fall. -/
abbrev Falls (values : List Nat) (positions : List Nat) : Prop :=
  positions.Pairwise fun i j => j < i ∧ values.getD j 0 < values.getD i 0

/-- The positions of a run come before another one and fall from the last, where its value is. -/
structure Rises (values : List Nat) (position : Nat) (run : Run) : Prop where
  below : ∀ i ∈ run.positions, i < position ∧ values.getD i 0 ≤ run.value
  falls : Falls values run.positions

/-- A run that is prolonged by a greater number. -/
theorem rises_cons {before : List Nat} (hValue : values[position]? = some value)
    (hBefore : ∀ i ∈ before, i < position ∧ values.getD i 0 < value)
    (hFalls : Falls values before) : Rises values (position + 1) ⟨value, position :: before⟩ := by
  have hSelf : values.getD position 0 = value := by
    rw [List.getD_eq_getElem?_getD, hValue]
    rfl
  refine ⟨List.forall_mem_cons.mpr ⟨⟨Nat.lt_succ_self _, Nat.le_of_eq hSelf⟩, fun i hi => ?_⟩,
    List.pairwise_cons.mpr ⟨fun i hi => ?_, hFalls⟩⟩
  · exact ⟨Nat.lt_succ_of_lt (hBefore i hi).1, Nat.le_of_lt (hBefore i hi).2⟩
  · rw [hSelf]
    exact hBefore i hi

theorem Rises.succ {run : Run} (h : Rises values position run) : Rises values (position + 1) run :=
  ⟨fun i hi => ⟨Nat.lt_succ_of_lt (h.below i hi).1, (h.below i hi).2⟩, h.falls⟩

theorem rises_extend {runs : List Run} {before : List Nat}
    (hRuns : ∀ run ∈ runs, Rises values position run) (hValue : values[position]? = some value)
    (hBefore : ∀ i ∈ before, i < position ∧ values.getD i 0 < value)
    (hFalls : Falls values before) :
    ∀ run ∈ extend position value before runs, Rises values (position + 1) run := by
  induction runs generalizing before with
  | nil =>
    intro run hrun
    rw [List.mem_singleton.mp hrun]
    exact rises_cons hValue hBefore hFalls
  | cons first runs ih =>
    obtain ⟨hFirst, hRest⟩ := List.forall_mem_cons.mp hRuns
    rw [extend]
    split
    · rename_i hLess
      refine List.forall_mem_cons.mpr ⟨hFirst.succ, ih hRest (fun i hi => ?_) hFirst.falls⟩
      exact ⟨(hFirst.below i hi).1, Nat.lt_of_le_of_lt (hFirst.below i hi).2 hLess⟩
    · exact List.forall_mem_cons.mpr
        ⟨rises_cons hValue hBefore hFalls, fun run hrun => (hRest run hrun).succ⟩

theorem rises_runsFrom {runs : List Run} {rest : List Nat} (hDrop : values.drop position = rest)
    (hRuns : ∀ run ∈ runs, Rises values position run) :
    ∀ run ∈ runsFrom position runs rest, ∃ p, Rises values p run := by
  induction rest generalizing position runs with
  | nil => exact fun run hrun => ⟨position, hRuns run hrun⟩
  | cons value rest ih =>
    have hValue : values[position]? = some value := by
      rw [← List.head?_drop, hDrop]
      rfl
    have hDrop' : values.drop (position + 1) = rest := by
      rw [← List.tail_drop, hDrop]
      rfl
    exact ih hDrop' (rises_extend hRuns hValue (by simp) List.Pairwise.nil)

end Run

/-- The positions of the longest run rise, and so do the numbers there. -/
theorem longestRun_rises (values : List Nat) :
    (longestRun values).Pairwise fun i j => i < j ∧ values.getD i 0 < values.getD j 0 := by
  unfold longestRun
  split
  · exact List.Pairwise.nil
  · rename_i run hLast
    have hNone : ∀ run ∈ ([] : List Run), Run.Rises values 0 run :=
      fun run hrun => absurd hrun List.not_mem_nil
    obtain ⟨p, hRises⟩ := Run.rises_runsFrom List.drop_zero hNone run (List.mem_of_getLast? hLast)
    exact List.pairwise_reverse.mpr hRises.falls

/-- The numbers of the longest run rise where they stand in the list. -/
theorem pairwise_filter_longestRun {values : List Nat} (hNodup : values.Nodup) :
    (values.filter fun v => ((longestRun values).filterMap fun i => values[i]?).contains v).Pairwise
      (· < ·) := by
  have hRises : ∀ i ∈ longestRun values, ∀ j ∈ longestRun values, i < j →
      values.getD i 0 < values.getD j 0 := by
    have hAll := (longestRun_rises values).imp (S := fun i j =>
      (i < j → values.getD i 0 < values.getD j 0) ∧ (j < i → values.getD j 0 < values.getD i 0))
      fun {i j} h => ⟨fun _ => h.2, fun hji => absurd hji (Nat.lt_asymm h.1)⟩
    have : Std.Symm fun i j : Nat => (i < j → values.getD i 0 < values.getD j 0) ∧
        (j < i → values.getD j 0 < values.getD i 0) := ⟨fun _ _ h => h.symm⟩
    exact fun i hi j hj hij => (hAll.forall hi hj (Nat.ne_of_lt hij)).1 hij
  have hIn : ∀ (i : Nat) (hi : i < values.length),
      ((longestRun values).filterMap fun i => values[i]?).contains values[i] = true →
        i ∈ longestRun values := by
    intro i hi hMem
    obtain ⟨j, hj, hEq⟩ := List.mem_filterMap.mp (List.contains_iff_mem.mp hMem)
    obtain ⟨hLt, hEq⟩ := List.getElem?_eq_some_iff.mp hEq
    rwa [(hNodup.getElem_inj_iff).mp hEq] at hj
  rw [List.pairwise_filter, List.pairwise_iff_getElem]
  intro i j hi hj hij hMem hMem'
  have hLess := hRises i (hIn i hi hMem) j (hIn j hj hMem') hij
  simpa [List.getD_eq_getElem?_getD, hi, hj] using hLess

theorem filterMap_range_getElem? {α : Type} (items : List α) :
    (List.range items.length).filterMap (fun i => items[i]?) = items := by
  induction items with
  | nil => rfl
  | cons x items ih =>
    rw [List.length_cons, List.range_succ_eq_map, List.filterMap_cons, List.filterMap_map]
    simpa using ih

/-- What stands at rising places of a list, in order. -/
theorem sublist_of_rising {α : Type} (items : List α) {places : List Nat}
    (hRises : places.Pairwise (· < ·)) (hIn : ∀ i ∈ places, i < items.length) :
    (places.filterMap fun i => items[i]?).Sublist items := by
  have hPlaces : places.Sublist (List.range items.length) := by
    refine List.sublist_of_subperm_of_pairwise ?_ hRises List.pairwise_lt_range
    exact List.subperm_of_subset hRises.nodup fun i hi => List.mem_range.mpr (hIn i hi)
  have hSub := hPlaces.filterMap fun i => items[i]?
  rwa [filterMap_range_getElem?] at hSub

end LiveMarkup

namespace LiveMarkup

namespace Run

variable {position value : Nat} {before seen : List Nat} {runs : List Run} {run : Run}

/-! ## One more number -/

theorem value_of_mem_extend (h : run ∈ extend position value before runs) :
    run.value = value ∨ ∃ old ∈ runs, old.value = run.value := by
  induction runs generalizing before with
  | nil =>
    rw [List.mem_singleton.mp h]
    exact .inl rfl
  | cons first runs ih =>
    rw [extend] at h
    split at h
    · rcases List.mem_cons.mp h with rfl | hRest
      · exact .inr ⟨run, List.mem_cons_self, rfl⟩
      · obtain hValue | ⟨old, hOld, hEq⟩ := ih hRest
        · exact .inl hValue
        · exact .inr ⟨old, List.mem_cons_of_mem _ hOld, hEq⟩
    · rcases List.mem_cons.mp h with rfl | hRest
      · exact .inl rfl
      · exact .inr ⟨run, List.mem_cons_of_mem _ hRest, rfl⟩

theorem sorted_extend (h : runs.Pairwise (·.value < ·.value)) :
    (extend position value before runs).Pairwise (·.value < ·.value) := by
  induction runs generalizing before with
  | nil => exact List.pairwise_singleton _ _
  | cons first runs ih =>
    obtain ⟨hFirst, hRest⟩ := List.pairwise_cons.mp h
    rw [extend]
    split
    · rename_i hLess
      refine List.pairwise_cons.mpr ⟨fun run hRun => ?_, ih hRest⟩
      rcases value_of_mem_extend hRun with hEq | ⟨old, hOld, hEq⟩
      · rwa [hEq]
      · exact hEq ▸ hFirst old hOld
    · rename_i hNot
      refine List.pairwise_cons.mpr ⟨fun run hRun => ?_, hRest⟩
      exact Nat.lt_of_le_of_lt (Nat.le_of_not_lt hNot) (hFirst run hRun)

/-- A run is replaced by one that ends no higher. -/
theorem exists_extend_le {k : Nat} (h : runs[k]? = some run) :
    ∃ run', (extend position value before runs)[k]? = some run' ∧ run'.value ≤ run.value := by
  induction runs generalizing before k with
  | nil => cases h
  | cons first runs ih =>
    rw [extend]
    split
    · cases k with
      | zero => exact ⟨run, h, Nat.le_refl _⟩
      | succ k => exact ih h
    · rename_i hNot
      cases k with
      | zero =>
        obtain rfl : first = run := by simpa using h
        exact ⟨_, rfl, Nat.le_of_not_lt hNot⟩
      | succ k => exact ⟨run, h, Nat.le_refl _⟩

/-- If the number is greater than where the shorter runs end, it ends one that is longer. -/
theorem exists_extend_value {m : Nat}
    (h : ∀ k < m, ∃ run, runs[k]? = some run ∧ run.value < value) :
    ∃ run', (extend position value before runs)[m]? = some run' ∧ run'.value ≤ value := by
  induction runs generalizing before m with
  | nil =>
    cases m with
    | zero => exact ⟨_, rfl, Nat.le_refl _⟩
    | succ m =>
      obtain ⟨run, hRun, -⟩ := h 0 (Nat.succ_pos m)
      cases hRun
  | cons first runs ih =>
    rw [extend]
    split
    · rename_i hLess
      cases m with
      | zero => exact ⟨first, rfl, Nat.le_of_lt hLess⟩
      | succ m => exact ih fun k hk => h (k + 1) (Nat.succ_lt_succ hk)
    · rename_i hNot
      cases m with
      | zero => exact ⟨_, rfl, Nat.le_refl _⟩
      | succ m =>
        obtain ⟨run, hRun, hLess⟩ := h 0 (Nat.succ_pos m)
        obtain rfl : first = run := by simpa using hRun
        exact absurd hLess hNot

theorem length_extend
    (h : ∀ k run, runs[k]? = some run → run.positions.length = before.length + k + 1) {k : Nat}
    (hRun : (extend position value before runs)[k]? = some run) :
    run.positions.length = before.length + k + 1 := by
  induction runs generalizing before k with
  | nil =>
    cases k with
    | zero =>
      obtain rfl : _ = run := by simpa [extend] using hRun
      rfl
    | succ k => simp [extend] at hRun
  | cons first runs ih =>
    rw [extend] at hRun
    split at hRun
    · cases k with
      | zero => exact h 0 run hRun
      | succ k =>
        have hFirst := h 0 first rfl
        have hLonger : run.positions.length = first.positions.length + k + 1 :=
          ih (fun j later hLater => by
          rw [h (j + 1) later hLater, hFirst]
          omega) hRun
        omega
    · cases k with
      | zero =>
        obtain rfl : _ = run := by simpa using hRun
        rfl
      | succ k => exact h (k + 1) run hRun

theorem lt_of_mem_extend (hRuns : ∀ run ∈ runs, ∀ i ∈ run.positions, i < position)
    (hBefore : ∀ i ∈ before, i < position) :
    ∀ run ∈ extend position value before runs, ∀ i ∈ run.positions, i < position + 1 := by
  have hNew : ∀ i ∈ position :: before, i < position + 1 :=
    List.forall_mem_cons.mpr ⟨Nat.lt_succ_self _, fun i hi => Nat.lt_succ_of_lt (hBefore i hi)⟩
  induction runs generalizing before with
  | nil =>
    intro run hRun
    rw [List.mem_singleton.mp hRun]
    exact hNew
  | cons first runs ih =>
    obtain ⟨hFirst, hRest⟩ := List.forall_mem_cons.mp hRuns
    rw [extend]
    split
    · refine List.forall_mem_cons.mpr ⟨fun i hi => Nat.lt_succ_of_lt (hFirst i hi), ih hRest hFirst ?_⟩
      exact List.forall_mem_cons.mpr
        ⟨Nat.lt_succ_self _, fun i hi => Nat.lt_succ_of_lt (hFirst i hi)⟩
    · exact List.forall_mem_cons.mpr
        ⟨hNew, fun run hRun i hi => Nat.lt_succ_of_lt (hRest run hRun i hi)⟩

theorem lt_of_mem_runsFrom {rest : List Nat}
    (hRuns : ∀ run ∈ runs, ∀ i ∈ run.positions, i < position) :
    ∀ run ∈ runsFrom position runs rest, ∀ i ∈ run.positions, i < position + rest.length := by
  induction rest generalizing position runs with
  | nil => exact hRuns
  | cons value rest ih =>
    intro run hRun i hi
    have hLt := ih (lt_of_mem_extend hRuns fun _ hi => absurd hi List.not_mem_nil) run hRun i hi
    rw [List.length_cons]
    omega

/-! ## The best runs -/

/-- For each length there is a run over the numbers seen so far if any part of that length rises,
and it ends no higher than that part. -/
structure Best (seen : List Nat) (runs : List Run) : Prop where
  sorted : runs.Pairwise (·.value < ·.value)
  lengths : ∀ k run, runs[k]? = some run → run.positions.length = k + 1
  best : ∀ w last, (w ++ [last]).Sublist seen → (w ++ [last]).Pairwise (· < ·) →
    ∃ run, runs[w.length]? = some run ∧ run.value ≤ last

theorem best_nil : Best [] [] :=
  ⟨List.Pairwise.nil, fun _ _ h => (nomatch h), fun w last hSub _ => by simp at hSub⟩

/-- A rising part that ends with the new number goes on from one that ends below it. -/
theorem Best.extend (h : Best seen runs) :
    Best (seen ++ [value]) (extend position value [] runs) := by
  refine ⟨sorted_extend h.sorted, fun k run hRun => ?_, fun w last hSub hRises => ?_⟩
  · have hLength : run.positions.length = ([] : List Nat).length + k + 1 :=
      length_extend (fun k run hRun => by
      simpa using h.lengths k run hRun) hRun
    simpa using hLength
  · obtain ⟨hFirst, -, hBelow⟩ := List.pairwise_append.mp hRises
    obtain ⟨w₁, w₂, hEq, hSeen, hNew⟩ := List.sublist_append_iff.mp hSub
    rcases List.sublist_cons_iff.mp hNew with hNone | ⟨w₃, rfl, hNone⟩
    · rw [List.sublist_nil.mp hNone, List.append_nil] at hEq
      subst hEq
      obtain ⟨run, hRun, hLe⟩ := h.best w last hSeen hRises
      obtain ⟨run', hRun', hLe'⟩ : ∃ run', (Run.extend position value [] runs)[w.length]? = some run' ∧
          run'.value ≤ run.value := exists_extend_le hRun
      exact ⟨run', hRun', Nat.le_trans hLe' hLe⟩
    · rw [List.sublist_nil.mp hNone] at hEq
      obtain ⟨rfl, hLast⟩ := List.append_inj' hEq rfl
      obtain rfl : last = value := by simpa using hLast
      refine exists_extend_value fun k hk => ?_
      -- the first numbers of the part rise as well, up to one that is less
      have hPart : w.take k ++ [w[k]] = w.take (k + 1) := (List.take_append_getElem hk)
      have hTake : (w.take k ++ [w[k]]).Sublist w := hPart ▸ List.take_sublist _ _
      obtain ⟨run, hRun, hLe⟩ := h.best (w.take k) w[k] (hTake.trans hSeen) (hFirst.sublist hTake)
      rw [List.length_take, Nat.min_eq_left (Nat.le_of_lt hk)] at hRun
      refine ⟨run, hRun, Nat.lt_of_le_of_lt hLe ?_⟩
      exact hBelow _ (List.getElem_mem hk) _ List.mem_cons_self

theorem Best.runsFrom (h : Best seen runs) (rest : List Nat) :
    Best (seen ++ rest) (runsFrom position runs rest) := by
  induction rest generalizing position seen runs with
  | nil => rwa [List.append_nil]
  | cons value rest ih =>
    have hNext : Best (seen ++ [value] ++ rest)
        (Run.runsFrom (position + 1) (Run.extend position value [] runs) rest) := ih h.extend
    rwa [List.append_assoc, List.singleton_append] at hNext

end Run

/-- The longest run is at least as long as any part of the list that rises. -/
theorem length_le_longestRun {values w : List Nat} (hSub : w.Sublist values)
    (hRises : w.Pairwise (· < ·)) : w.length ≤ (longestRun values).length := by
  have hBest : Run.Best ([] ++ values) (Run.runsFrom 0 [] values) := Run.best_nil.runsFrom values
  rw [List.nil_append] at hBest
  rcases List.eq_nil_or_concat w with rfl | ⟨w, last, rfl⟩
  · exact Nat.zero_le _
  · rw [List.concat_eq_append] at hSub hRises ⊢
    obtain ⟨run, hRun, -⟩ := hBest.best w last hSub hRises
    obtain ⟨hLt, -⟩ := List.getElem?_eq_some_iff.mp hRun
    obtain ⟨longest, hLongest⟩ : ∃ longest, (Run.runsFrom 0 [] values)[
        (Run.runsFrom 0 [] values).length - 1]? = some longest :=
      ⟨_, List.getElem?_eq_getElem (by omega)⟩
    have hLength := hBest.lengths _ longest hLongest
    unfold longestRun
    rw [List.getLast?_eq_getElem?]
    simp only [hLongest, List.length_reverse, hLength, List.length_append, List.length_singleton]
    omega

theorem lt_length_of_mem_longestRun {values : List Nat} {i : Nat} (h : i ∈ longestRun values) :
    i < values.length := by
  unfold longestRun at h
  split at h
  · exact absurd h List.not_mem_nil
  · rename_i run hLast
    have hLt : i < 0 + values.length :=
      Run.lt_of_mem_runsFrom (fun _ hRun => absurd hRun List.not_mem_nil) run
        (List.mem_of_getLast? hLast) i (List.mem_reverse.mp h)
    rwa [Nat.zero_add] at hLt

theorem length_longestRun_le {values : List Nat} : (longestRun values).length ≤
    (values.filter fun v => ((longestRun values).filterMap fun i => values[i]?).contains v).length := by
  have hRises : (longestRun values).Pairwise (· < ·) := (longestRun_rises values).imp And.left
  have hSub := sublist_of_rising values hRises fun i hi => lt_length_of_mem_longestRun hi
  have hLength : ((longestRun values).filterMap fun i => values[i]?).length =
      (longestRun values).length := by
    refine List.filterMap_length_eq_length.mpr fun i hi => ?_
    rw [List.getElem?_eq_getElem (lt_length_of_mem_longestRun hi)]
    rfl
  have hAll := hSub.filter fun v => ((longestRun values).filterMap fun i => values[i]?).contains v
  rw [List.filter_eq_self.mpr fun v hv => List.contains_iff_mem.mpr hv] at hAll
  rw [← hLength]
  exact hAll.length_le

end LiveMarkup
