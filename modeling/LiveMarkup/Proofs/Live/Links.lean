import LiveMarkup.Proofs.Live.Longest

/-!
# Longest runs by links

The runs need not be written out while they grow. It is enough to know where the best run of each
length ends, and to keep a link from each place to the one before it in its run. As the longer runs
end with the greater numbers, the run that a new number follows is found by bisection. Every look-up
of this search is checked here and none of them fails, so all places are in range; and the links
lead from the end of the longest run to its beginning, in no more rounds than there are numbers.

* `Links.bisect?_eq`: bisection finds where a test ceases to hold;
* `Links.Mirrors`: what the links have to do with the runs, and that one more number keeps it;
* `Links.run?_eq`: the search by links finds the longest run;
* `longestRun_longest`: the longest run rises, and nothing that rises is longer.
-/

namespace LiveMarkup

/-- The runs over the first numbers of a list: the place where the best run of each length ends,
and for each place of the list the one before it in its run. -/
structure Links where
  tails : List Nat
  previous : List (Option Nat)

namespace Links

/-! ## The search -/

/-- Writes at a place of a list, if it has that place. -/
def write? {α : Type} (items : List α) (place : Nat) (item : α) : Option (List α) :=
  if place < items.length then some (items.set place item) else none

/-- Halves a window of places until nothing is left of it: the first place where a test fails, if
it fails from there on. -/
def bisect? (test : Nat → Option Bool) (low size : Nat) : Option Nat :=
  if h : size = 0 then some low
  else do
    if ← test (low + size / 2) then
      bisect? test (low + size / 2 + 1) (size - size / 2 - 1)
    else bisect? test low (size / 2)
termination_by size
decreasing_by all_goals omega

/-- The number of runs that end below a value. -/
def slot? (values : List Nat) (value : Nat) (s : Links) : Option Nat :=
  bisect? (fun k => (s.tails[k]?.bind (values[·]?)).map (decide <| · < value)) 0 s.tails.length

/-- Links a place to the end of the run before a slot; there is none before the first. -/
def link? (position slot : Nat) (s : Links) : Option (List (Option Nat)) :=
  if slot = 0 then some s.previous
  else s.tails[slot - 1]?.bind fun tail => write? s.previous position (some tail)

/-- Lets the run of a slot end at a place; after the last slot it is a new one. -/
def tails? (position slot : Nat) (s : Links) : Option (List Nat) :=
  if slot = s.tails.length then some (s.tails ++ [position])
  else write? s.tails slot position

/-- Lets a new number follow the longest run that ends below it. -/
def extend? (values : List Nat) (position value : Nat) (s : Links) : Option Links := do
  let slot ← slot? values value s
  let previous ← link? position slot s
  let tails ← tails? position slot s
  return ⟨tails, previous⟩

/-- Takes all numbers of a list whose first one has a position. -/
def extendAll? (values : List Nat) : Nat → List Nat → Links → Option Links
  | _, [], s => some s
  | position, value :: rest, s => do
    extendAll? values (position + 1) rest (← extend? values position value s)

/-- Follows the links from a place until there is none, in at most `n` rounds. -/
def follow? (previous : List (Option Nat)) : Nat → Option Nat → Option (List Nat)
  | _, none => some []
  | 0, some _ => none
  | n + 1, some place => do
    let before ← follow? previous n (← previous[place]?)
    return place :: before

/-- The positions of a longest increasing part of a list, found by links. -/
def run? (values : List Nat) : Option (List Nat) := do
  let s ← extendAll? values 0 values ⟨[], List.replicate values.length none⟩
  let run ← follow? s.previous values.length s.tails.getLast?
  return run.reverse

/-! ## Bisection -/

/-- If a test holds up to a place in the window and not from there on, that place is found. -/
theorem bisect?_eq {test : Nat → Option Bool} {low size m : Nat} (hLow : low ≤ m)
    (hHigh : m ≤ low + size)
    (h : ∀ k, low ≤ k → k < low + size → test k = some (decide (k < m))) :
    bisect? test low size = some m := by
  fun_induction bisect? test low size with
  | case1 low =>
    have : low = m := by omega
    rw [this]
  | case2 low size hSize ihUpper ihLower =>
    rw [h _ (by omega) (by omega)]
    by_cases hMid : low + size / 2 < m
    · simp only [hMid, decide_true, Option.bind_eq_bind, Option.bind_some, if_true]
      apply ihUpper
      · omega
      · omega
      · intro k hk hk'
        exact h k (by omega) (by omega)
    · simp only [hMid, decide_false, Option.bind_eq_bind, Option.bind_some]
      apply ihLower
      · omega
      · omega
      · intro k hk hk'
        exact h k (by omega) (by omega)

/-! ## One more number among the runs -/

section

variable {position value : Nat} {before : List Nat} {runs : List Run}

/-- The runs that end below a number. -/
def front (value : Nat) (runs : List Run) : List Run :=
  runs.takeWhile fun run => run.value < value

/-- The positions of the last of them, from which a run with the number goes on. -/
def base (value : Nat) (before : List Nat) (runs : List Run) : List Nat :=
  (front value runs).getLast?.elim before Run.positions

theorem front_cons_of_lt {first : Run} (h : first.value < value) :
    front value (first :: runs) = first :: front value runs := by
  simp [front, h]

theorem front_cons_of_not_lt {first : Run} (h : ¬ first.value < value) :
    front value (first :: runs) = [] := by
  simp [front, h]

theorem extend_eq (position value : Nat) (before : List Nat) (runs : List Run) :
    Run.extend position value before runs = front value runs ++
      ⟨value, position :: base value before runs⟩ :: runs.drop ((front value runs).length + 1) := by
  induction runs generalizing before with
  | nil => rfl
  | cons first runs ih =>
    rw [Run.extend, base]
    by_cases hLess : first.value < value
    · rw [if_pos hLess, ih, front_cons_of_lt hLess, List.getLast?_cons, base]
      cases (front value runs).getLast? <;> simp
    · rw [if_neg hLess, front_cons_of_not_lt hLess]
      rfl

theorem front_eq_take (value : Nat) (runs : List Run) :
    front value runs = runs.take (front value runs).length :=
  List.prefix_iff_eq_take.mp (List.takeWhile_prefix _)

theorem length_front_le (value : Nat) (runs : List Run) :
    (front value runs).length ≤ runs.length :=
  (List.takeWhile_sublist _).length_le

theorem base_cases (value : Nat) (runs : List Run) :
    base value [] runs = [] ∨ ∃ run ∈ runs, base value [] runs = run.positions := by
  rw [base]
  cases hLast : (front value runs).getLast? with
  | none => exact Or.inl rfl
  | some run =>
    have hMem : run ∈ front value runs := List.mem_of_getLast? hLast
    exact Or.inr ⟨run, (List.takeWhile_sublist _).subset hMem, rfl⟩

theorem mem_extend {run : Run} (h : run ∈ Run.extend position value [] runs) :
    run ∈ runs ∨ run = ⟨value, position :: base value [] runs⟩ := by
  rw [extend_eq, List.mem_append, List.mem_cons] at h
  rcases h with hFront | hNew | hRest
  · exact Or.inl ((List.takeWhile_sublist _).subset hFront)
  · exact Or.inr hNew
  · exact Or.inl (List.mem_of_mem_drop hRest)

/-- As the longer runs end with the greater numbers, those that end below a number come first. -/
theorem lt_length_front_iff (h : runs.Pairwise (·.value < ·.value)) {k : Nat}
    (hk : k < runs.length) : runs[k].value < value ↔ k < (front value runs).length := by
  induction runs generalizing k with
  | nil => simp at hk
  | cons first runs ih =>
    obtain ⟨hFirst, hRest⟩ := List.pairwise_cons.mp h
    by_cases hLess : first.value < value
    · rw [front_cons_of_lt hLess, List.length_cons]
      cases k with
      | zero => simp [hLess]
      | succ k =>
        rw [List.getElem_cons_succ, ih hRest (by simpa using hk)]
        omega
    · rw [front_cons_of_not_lt hLess, List.length_nil]
      constructor
      · intro hk'
        have : first.value ≤ (first :: runs)[k].value := by
          cases k with
          | zero => simp
          | succ k => exact Nat.le_of_lt (hFirst _ (List.getElem_mem _))
        omega
      · intro hk'
        omega

end

/-! ## What the links say -/

/-- The links lead from each place of a run to the one before it, and from the first nowhere. -/
def Chained (previous : List (Option Nat)) : List Nat → Prop
  | [] => True
  | place :: before => previous[place]? = some before.head? ∧ Chained previous before

theorem Chained.congr {previous previous' : List (Option Nat)} {places : List Nat}
    (h : Chained previous places) (hSame : ∀ i ∈ places, previous'[i]? = previous[i]?) :
    Chained previous' places := by
  induction places with
  | nil => trivial
  | cons place before ih =>
    constructor
    · rw [hSame place List.mem_cons_self, h.1]
    · apply ih h.2
      intro i hi
      exact hSame i (List.mem_cons_of_mem _ hi)

/-- Where links lead from place to place, they are followed to the end. -/
theorem Chained.follow?_eq {previous : List (Option Nat)} {places : List Nat}
    (h : Chained previous places) {n : Nat} (hLength : places.length ≤ n) :
    follow? previous n places.head? = some places := by
  induction places generalizing n with
  | nil => cases n <;> rfl
  | cons place before ih =>
    cases n with
    | zero => simp at hLength
    | succ n =>
      have hRest : follow? previous n before.head? = some before :=
        ih h.2 (by simpa using hLength)
      simp [follow?, h.1, hRest]

/-- The tails are where the runs end, and the links lead back along each of them. What comes from
a position on has no link yet. -/
structure Mirrors (values : List Nat) (position : Nat) (runs : List Run) (s : Links) : Prop where
  heads : runs.map (·.positions.head?) = s.tails.map some
  ends : ∀ run ∈ runs, run.positions.head?.bind (values[·]?) = some run.value
  chained : ∀ run ∈ runs, Chained s.previous run.positions
  below : ∀ run ∈ runs, ∀ i ∈ run.positions, i < position
  fresh : ∀ i, position ≤ i → i < values.length → s.previous[i]? = some none

namespace Mirrors

variable {values : List Nat} {position value : Nat} {runs : List Run} {s : Links}

theorem length_tails (h : Mirrors values position runs s) : s.tails.length = runs.length := by
  simpa using (congrArg List.length h.heads).symm

theorem getElem?_tails (h : Mirrors values position runs s) (k : Nat) :
    s.tails[k]? = runs[k]?.bind (·.positions.head?) := by
  have hHead : (runs.map (·.positions.head?))[k]? = (s.tails.map some)[k]? := by rw [h.heads]
  rw [List.getElem?_map, List.getElem?_map] at hHead
  cases hTail : s.tails[k]? <;> cases hRun : runs[k]? <;> simp_all

/-- The tests of the bisection are about the numbers with which the runs end. -/
theorem test_eq (h : Mirrors values position runs s) (hSorted : runs.Pairwise (·.value < ·.value))
    {k : Nat} (hk : k < s.tails.length) :
    (s.tails[k]?.bind (values[·]?)).map (decide <| · < value) =
      some (decide (k < (front value runs).length)) := by
  have hk' : k < runs.length := h.length_tails ▸ hk
  rw [h.getElem?_tails, List.getElem?_eq_getElem hk', Option.bind_some,
    h.ends _ (List.getElem_mem hk'), Option.map_some]
  simp only [lt_length_front_iff hSorted hk']

theorem slot_eq (h : Mirrors values position runs s)
    (hSorted : runs.Pairwise (·.value < ·.value)) :
    slot? values value s = some (front value runs).length := by
  apply bisect?_eq
  · omega
  · rw [h.length_tails, Nat.zero_add]
    exact length_front_le value runs
  · intro k _ hk
    exact h.test_eq hSorted (by simpa using hk)

/-- The new place gets a link to the end of the run that it follows. -/
theorem exists_link (h : Mirrors values position runs s) (hPosition : position < values.length)
    (value : Nat) :
    ∃ previous', link? position (front value runs).length s = some previous' ∧
      previous'[position]? = some (base value [] runs).head? ∧
      ∀ i, i ≠ position → previous'[i]? = s.previous[i]? := by
  have hFresh : s.previous[position]? = some none := h.fresh position (Nat.le_refl _) hPosition
  have hSize : position < s.previous.length := (List.getElem?_eq_some_iff.mp hFresh).1
  rw [base]
  cases hLast : (front value runs).getLast? with
  | none =>
    rw [List.getLast?_eq_none_iff.mp hLast]
    exact ⟨s.previous, rfl, hFresh, fun _ _ => rfl⟩
  | some last =>
    have hPos : (front value runs).length ≠ 0 := by
      intro hZero
      rw [List.length_eq_zero_iff.mp hZero] at hLast
      cases hLast
    have hRun : runs[(front value runs).length - 1]? = some last := by
      calc runs[(front value runs).length - 1]?
          _ = (runs.take (front value runs).length)[(front value runs).length - 1]? :=
            (List.getElem?_take_of_lt (by omega)).symm
          _ = some last := by rw [← front_eq_take, ← List.getLast?_eq_getElem?, hLast]
    have hMem : last ∈ runs := List.mem_of_getElem? hRun
    cases hHead : last.positions.head? with
    | none =>
      have hEnds := h.ends last hMem
      rw [hHead] at hEnds
      cases hEnds
    | some tail =>
      refine ⟨s.previous.set position (some tail), ?_, ?_, ?_⟩
      · rw [link?, if_neg hPos, h.getElem?_tails, hRun, Option.bind_some, hHead, Option.bind_some,
          write?, if_pos hSize]
      · simp [hSize, hHead]
      · intro i hi
        exact List.getElem?_set_ne (Ne.symm hi)

/-- The new run takes the place of the next longer one, or comes last. -/
theorem tails?_eq (h : Mirrors values position runs s) :
    tails? position (front value runs).length s =
      some (s.tails.take (front value runs).length ++
        position :: s.tails.drop ((front value runs).length + 1)) := by
  rw [tails?]
  split
  · rename_i hAll
    simp [hAll]
  · rename_i hSome
    have hLt : (front value runs).length < s.tails.length := by
      have hFront := length_front_le value runs
      rw [h.length_tails] at hSome ⊢
      omega
    rw [write?, if_pos hLt, List.set_eq_take_append_cons_drop, if_pos hLt]

/-- One more number: every look-up succeeds, and the links are those of the new runs. -/
theorem exists_extend (h : Mirrors values position runs s)
    (hSorted : runs.Pairwise (·.value < ·.value)) (hValue : values[position]? = some value) :
    ∃ s', extend? values position value s = some s' ∧
      Mirrors values (position + 1) (Run.extend position value [] runs) s' := by
  have hPosition : position < values.length := (List.getElem?_eq_some_iff.mp hValue).1
  obtain ⟨previous', hLink, hNew, hOld⟩ := h.exists_link hPosition value
  have hBase : Chained s.previous (base value [] runs) ∧
      ∀ i ∈ base value [] runs, i < position := by
    rcases base_cases value runs with hNone | ⟨run, hRun, hEq⟩
    · rw [hNone]
      exact ⟨trivial, fun i hi => absurd hi List.not_mem_nil⟩
    · rw [hEq]
      exact ⟨h.chained run hRun, h.below run hRun⟩
  -- the only place that gets a link is above all places of the runs
  have hKeep : ∀ {places : List Nat}, Chained s.previous places → (∀ i ∈ places, i < position) →
      Chained previous' places := by
    intro places hChained hBelow
    apply hChained.congr
    intro i hi
    exact hOld i (Nat.ne_of_lt (hBelow i hi))
  refine ⟨⟨s.tails.take (front value runs).length ++
    position :: s.tails.drop ((front value runs).length + 1), previous'⟩, ?_, ?_, ?_, ?_, ?_, ?_⟩
  · simp [extend?, h.slot_eq hSorted, hLink, h.tails?_eq]
  · have hFront : (front value runs).map (·.positions.head?) =
        (s.tails.take (front value runs).length).map some := by
      conv_lhs => rw [front_eq_take]
      rw [List.map_take, List.map_take, h.heads]
    rw [extend_eq, List.map_append, List.map_cons, hFront, List.map_drop, h.heads]
    simp
  · intro run hRun
    rcases mem_extend hRun with hRun | rfl
    · exact h.ends run hRun
    · simpa using hValue
  · intro run hRun
    rcases mem_extend hRun with hRun | rfl
    · exact hKeep (h.chained run hRun) (h.below run hRun)
    · exact ⟨hNew, hKeep hBase.1 hBase.2⟩
  · intro run hRun i hi
    rcases mem_extend hRun with hRun | rfl
    · exact Nat.lt_succ_of_lt (h.below run hRun i hi)
    · rcases List.mem_cons.mp hi with rfl | hi
      · omega
      · exact Nat.lt_succ_of_lt (hBase.2 i hi)
  · intro i hi hi'
    rw [hOld i (by omega)]
    exact h.fresh i (by omega) hi'

/-- All numbers: the induction is on the numbers that are left. -/
theorem exists_extendAll (h : Mirrors values position runs s)
    (hSorted : runs.Pairwise (·.value < ·.value)) {rest : List Nat}
    (hRest : values.drop position = rest) :
    ∃ s', extendAll? values position rest s = some s' ∧
      Mirrors values (position + rest.length) (Run.runsFrom position runs rest) s' := by
  induction rest generalizing position runs s with
  | nil => exact ⟨s, rfl, h⟩
  | cons value rest ih =>
    have hValue : values[position]? = some value := by
      rw [← List.head?_drop, hRest]
      rfl
    have hTail : values.drop (position + 1) = rest := by
      rw [← List.tail_drop, hRest]
      rfl
    obtain ⟨s₁, hFirst, h₁⟩ := h.exists_extend hSorted hValue
    obtain ⟨s', hOthers, h'⟩ := ih h₁ (Run.sorted_extend hSorted) hTail
    refine ⟨s', ?_, ?_⟩
    · simp [extendAll?, hFirst, hOthers]
    · rw [List.length_cons, Nat.add_comm rest.length, ← Nat.add_assoc]
      exact h'

end Mirrors

theorem mirrors_nil (values : List Nat) :
    Mirrors values 0 [] ⟨[], List.replicate values.length none⟩ where
  heads := rfl
  ends _ hRun := absurd hRun List.not_mem_nil
  chained _ hRun := absurd hRun List.not_mem_nil
  below _ hRun := absurd hRun List.not_mem_nil
  fresh i _ hi := by simp [hi]

/-- The search by links looks nothing up that is not there, comes to an end, and finds the longest
run. -/
theorem run?_eq (values : List Nat) : run? values = some (longestRun values) := by
  obtain ⟨s, hAll, h⟩ := (mirrors_nil values).exists_extendAll List.Pairwise.nil List.drop_zero
  rw [run?, hAll, longestRun]
  cases hLast : (Run.runsFrom 0 [] values).getLast? with
  | none =>
    have hNone : s.tails = [] := by
      have hHeads := h.heads
      rw [List.getLast?_eq_none_iff.mp hLast] at hHeads
      simpa using hHeads.symm
    simp [hNone, follow?]
  | some run =>
    have hRun : run ∈ Run.runsFrom 0 [] values := List.mem_of_getLast? hLast
    have hTail : s.tails.getLast? = run.positions.head? := by
      rw [List.getLast?_eq_getElem?, h.getElem?_tails, h.length_tails, ← List.getLast?_eq_getElem?,
        hLast, Option.bind_some]
    have hLength : run.positions.length ≤ values.length := by
      have hLongest := length_longestRun_le.trans (List.length_filter_le _ values)
      simpa [longestRun, hLast] using hLongest
    simp [hTail, (h.chained run hRun).follow?_eq hLength]

end Links

/-- The positions of the longest run rise, and so do the numbers there; no part of the list that
rises is longer. The search by links finds this run, which is to say that it stays in range and
comes to an end. -/
theorem longestRun_longest (values : List Nat) :
    (longestRun values).Pairwise (· < ·) ∧
      (∃ numbers : List Nat, (longestRun values).map (values[·]?) = numbers.map some ∧
        numbers.Pairwise (· < ·)) ∧
      (∀ part : List Nat, part.Sublist values → part.Pairwise (· < ·) →
        part.length ≤ (longestRun values).length) ∧
      Links.run? values = some (longestRun values) := by
  have hRises := longestRun_rises values
  refine ⟨hRises.imp And.left, ⟨(longestRun values).map (values.getD · 0), ?_, ?_⟩, ?_,
    Links.run?_eq values⟩
  · rw [List.map_map]
    apply List.map_congr_left
    intro i hi
    simp [lt_length_of_mem_longestRun hi]
  · rw [List.pairwise_map]
    exact hRises.imp And.right
  · intro part hSub hPart
    exact length_le_longestRun hSub hPart

example : longestRun [3, 0, 1, 4, 2] = [1, 2, 4] := by decide

end LiveMarkup
