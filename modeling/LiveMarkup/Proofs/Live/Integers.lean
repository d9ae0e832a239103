import LiveMarkup.Proofs.Json.Floats
import LiveMarkup.Proofs.Json.Scalars
import LiveMarkup.Proofs.Live.Selected

/-!
# Switches over integers

The cases of a switch and the values that it is given are integers of 64 bits. They are compared as
floating-point numbers, so a case is selected by all integers that are rounded like its own. Below
`2 ^ 53` that is the integer itself; from there on two integers can select the same case.

* `selects_int`: when an integer selects a case;
* `Switch.findIdx?_cases`: the number of the first case that an integer selects;
* `Choices.selects_rounded`: what a switch over integers shows after a run.
-/

namespace LiveMarkup

theorem Value.eq_int_of_beq {v : Value} {i : Int} (h : (v == .int i) = true) : v = .int i := by
  cases v with
  | number n =>
    cases n with
    | int j => exact congrArg Value.int (beq_iff_eq.mp h)
    | float x => exact absurd h Bool.false_ne_true
  | _ => exact absurd h Bool.false_ne_true

namespace Live

variable {κ σ : Type} {client : Client κ σ} {l₀ l l' : Live κ σ} {f : Follower κ} {s : SwitchId}
variable {w : Leeway κ} {x₀ x : Switch κ} {literals : List Int} {i j : Int}

/-! ## Cases -/

instance (i : Int) : Decidable (Number.int i).Faithful :=
  inferInstanceAs (Decidable (_ ∧ _))

theorem log2_le_of_faithful (h : (Number.int i).Faithful) : i.natAbs.log2 ≤ 1022 := by
  obtain ⟨hLow, hHigh⟩ := h
  have hSize : UInt64.size = 2 ^ 64 := rfl
  have hMax : Numeral.maxWord = 2 ^ 64 - 1 := rfl
  rw [hSize] at hLow
  rw [hMax] at hHigh
  by_cases hZero : i.natAbs = 0
  · rw [hZero, Nat.log2_zero]
    exact Nat.zero_le _
  · have hLog : i.natAbs.log2 < 64 := (Nat.log2_lt hZero).mpr (by omega)
    omega

/-- An integer selects the cases that are rounded like it. -/
theorem selects_int (hi : (Number.int i).Faithful) (hj : (Number.int j).Faithful) :
    selects (.int j) (.int i) = true ↔ Number.rounded j = Number.rounded i :=
  Number.ofInt_beq_iff (log2_le_of_faithful hj) (log2_le_of_faithful hi)

/-- A switch whose cases are integers of 64 bits. -/
structure Switch.Integral (x : Switch κ) (literals : List Int) : Prop where
  cases : x.cases.map (·.1) = literals.map .int
  faithful : ∀ j ∈ literals, (Number.int j).Faithful

/-- The first case that an integer selects is the first that is rounded like it. -/
theorem Switch.Integral.findIdx?_cases (h : x.Integral literals) (hi : (Number.int i).Faithful) :
    (x.cases.findIdx? fun (case, _) => selects case (.int i)) =
      literals.findIdx? fun j => Number.rounded j == Number.rounded i := by
  have hMap := congrArg (List.findIdx? fun case => selects case (.int i)) h.cases
  rw [List.findIdx?_map, List.findIdx?_map] at hMap
  refine hMap.trans ?_
  have hFaithful := h.faithful
  clear hMap h
  induction literals with
  | nil => rfl
  | cons j literals ih =>
    have hHead : selects (.int j) (.int i) = (Number.rounded j == Number.rounded i) := by
      rw [Bool.eq_iff_iff, beq_iff_eq, selects_int hi (hFaithful j List.mem_cons_self)]
    rw [List.findIdx?_cons, List.findIdx?_cons, Function.comp_apply, hHead,
      ih fun k hk => hFaithful k (List.mem_cons_of_mem _ hk)]

/-- Nothing is rounded if the integer or all cases are below `2 ^ 53`: the first case that is
rounded like the integer is the first one that is the integer. -/
theorem findIdx?_rounded (h : i.natAbs < 2 ^ 53 ∨ ∀ j ∈ literals, j.natAbs < 2 ^ 53) :
    (literals.findIdx? fun j => Number.rounded j == Number.rounded i) =
      literals.findIdx? fun j => j == i := by
  induction literals with
  | nil => rfl
  | cons j literals ih =>
    have hHead : (Number.rounded j == Number.rounded i) = (j == i) := by
      rw [Bool.eq_iff_iff, beq_iff_eq, beq_iff_eq]
      rcases h with hi | hAll
      · rw [eq_comm, Number.rounded_eq_iff hi, eq_comm]
      · exact Number.rounded_eq_iff (hAll j List.mem_cons_self)
    rw [List.findIdx?_cons, List.findIdx?_cons, hHead,
      ih (h.imp_right fun hAll k hk => hAll k (List.mem_cons_of_mem _ hk))]

/-- An integer that selects a case is rounded like the integer of the case. -/
theorem Switch.Integral.rounded_getElem (h : x.Integral literals) (hi : (Number.int i).Faithful)
    {arm : Nat} (hArm : arm < x.cases.length) (hSome : x.armFor? (.int i) = some arm) :
    ∃ hLt : arm < literals.length, Number.rounded literals[arm] = Number.rounded i := by
  have hFirst : literals.findIdx? (fun j => Number.rounded j == Number.rounded i) = some arm := by
    rw [← h.findIdx?_cases hi, ← x.armFor?_filter, hSome]
    exact Option.filter_some_pos (decide_eq_true hArm)
  obtain ⟨hLt, hSame, -⟩ := List.findIdx?_eq_some_iff_getElem.mp hFirst
  exact ⟨hLt, beq_iff_eq.mp hSame⟩

/-! ## Runs -/

/-- A switch over integers shows the first case that is rounded like its value, else the default,
else nothing, and says so. -/
structure ShowsRounded (l : Live κ σ) (f : Follower κ) (x₀ x : Switch κ)
    (makings : List (Making Nat κ σ)) (literals : List Int) (i : Int) : Prop where
  activeCase : x.activeCase? = literals.findIdx? fun j => Number.rounded j == Number.rounded i
  showsDefault : x.showsDefault = true ↔
    x₀.default.isSome = true ∧ ∀ j ∈ literals, Number.rounded j ≠ Number.rounded i
  case : ∀ arm, x.activeCase? = some arm →
    ∃ m ∈ makings, m.tag = arm ∧ l.dom.span f.box = l.dom.runOf m.node
  default : x.showsDefault = true →
    ∃ m ∈ makings, m.tag = literals.length ∧ l.dom.span f.box = l.dom.runOf m.node
  nothing : x.activeCase? = none → x.showsDefault = false → l.dom.span f.box = []

theorem Selected.showsRounded {makings : List (Making Nat κ σ)}
    (h : Selected client l₀ l f s x₀ x makings) (hIntegral : x₀.Integral literals)
    (hConnected : l.isConnected (.container f.box) = true) (hValue : l.valueOf f.signal = .int i)
    (hi : (Number.int i).Faithful) : ShowsRounded l f x₀ x makings literals i := by
  have hCase := h.activeCase hConnected
  have hDefault := h.showsDefault hConnected
  have hShows := h.shows hConnected
  have hEmpty := h.empty hConnected
  rw [hValue] at hCase hDefault hShows hEmpty
  have hLength : x₀.cases.length = literals.length := by
    simpa using congrArg List.length hIntegral.cases
  have hNone : (∀ case ∈ x₀.cases, selects case.1 (.int i) = false) ↔
      ∀ j ∈ literals, Number.rounded j ≠ Number.rounded i := by
    refine List.findIdx?_eq_none_iff.symm.trans ?_
    change (x₀.cases.findIdx? fun (case, _) => selects case (.int i)) = none ↔ _
    rw [hIntegral.findIdx?_cases hi, List.findIdx?_eq_none_iff]
    simp only [beq_eq_false_iff_ne]
  refine ⟨hCase.trans (hIntegral.findIdx?_cases hi),
    hDefault.trans (Iff.and Iff.rfl hNone), fun arm hArm => ?_, fun hOn => ?_,
    fun hNoCase hOff => hEmpty ?_⟩
  · rw [hCase, ← x₀.armFor?_filter, Option.filter_eq_some_iff] at hArm
    exact hShows arm hArm.1
  · rw [← hLength]
    exact hShows _ ((x₀.armFor?_eq_length _).mpr (hDefault.mp hOn))
  · have hNoDefault : x₀.default = none := by
      rw [← Option.not_isSome_iff_eq_none]
      intro hSome
      have hOn := hDefault.mpr ⟨hSome, List.findIdx?_eq_none_iff.mp (hCase.symm.trans hNoCase)⟩
      exact absurd (hOn.symm.trans hOff) Bool.true_eq_false.mp
    rw [Switch.armFor?, ← hCase, hNoCase, hNoDefault]
    rfl

section Running

variable (hClient : client.Quiet) (hConsents : client.Consents) (depth : Nat)
variable (hBuilds : ∀ n arm factory, x₀.factory? arm = some factory →
  Builds (Calls.upTo client (depth + 2 + n)) factory w)
include hClient hConsents hBuilds

/-- A switch over integers that was given no value yet goes through a run, after which its container
is in the document and its value is an integer. It shows the first case that is rounded like the
value, else the default, else nothing. Another integer selects the same case only if it is rounded
alike. If the value or all cases are below `2 ^ 53` the first case that is the value is shown, and no
other integer selects it. -/
theorem Choices.selects_rounded (h₀ : l₀.Unset f s x₀ w)
    (h : Choices (Calls.upTo client (depth + 4)) f s l₀ l) (hIntegral : x₀.Integral literals)
    (hConnected : l.isConnected (.container f.box) = true)
    (hi : (Number.int i).Faithful) (hValue : l.valueOf f.signal = .int i) :
    (∃ x makings, l.switch? s = some x ∧ Made client x₀.factory? l₀ makings l ∧
      ShowsRounded l f x₀ x makings literals i ∧
      ((i.natAbs < 2 ^ 53 ∨ ∀ j ∈ literals, j.natAbs < 2 ^ 53) →
        x.activeCase? = literals.findIdx? fun j => j == i)) ∧
    ∀ i' : Int, (Number.int i').Faithful → ∀ arm < x₀.cases.length,
      x₀.armFor? (.int i) = some arm → x₀.armFor? (.int i') = some arm →
        Number.rounded i = Number.rounded i' ∧
          ((i.natAbs < 2 ^ 53 ∨ ∀ j ∈ literals, j.natAbs < 2 ^ 53) → i = i') := by
  obtain ⟨-, _, x, _, makings, hChosen, hCollected, -⟩ :=
    h.chosen hClient (hConsents.letsGo f.box) depth hBuilds h₀.sink (h₀.chosen client)
      (h₀.collected client)
  have hSelected := hChosen.selected hConsents hCollected
  have hShows := hSelected.showsRounded hIntegral hConnected hValue hi
  refine ⟨⟨x, makings, hSelected.there, hSelected.made, hShows, fun hSmall => ?_⟩,
    fun i' hi' arm hArm hSome hSome' => ?_⟩
  · exact hShows.activeCase.trans (findIdx?_rounded hSmall)
  · obtain ⟨hLt, hLike⟩ := hIntegral.rounded_getElem hi hArm hSome
    obtain ⟨_, hLike'⟩ := hIntegral.rounded_getElem hi' hArm hSome'
    have hSame := hLike.symm.trans hLike'
    refine ⟨hSame, fun hSmall => ?_⟩
    rcases hSmall with hSmall | hAll
    · exact (Number.rounded_eq_iff hSmall).mp hSame
    · have hExact {k : Int} : Number.rounded literals[arm] = Number.rounded k → literals[arm] = k :=
        (Number.rounded_eq_iff (hAll _ (List.getElem_mem hLt))).mp
      exact (hExact hLike).symm.trans (hExact hLike')

end Running

/-- The first integer that is rounded, after the one that it is rounded to. -/
def roundedCases : List (Value × NodeFactory String) :=
  [(.int (2 ^ 53), .client "p"), (.int (2 ^ 53 + 1), .client "q")]

/-- A switch over these cases in a new document. -/
def unsetSwitch : Live String Unit :=
  ((newSwitch (Calls.upTo Client.drawing 4) 0 roundedCases none).run.run
    { create {} () with signals := #[{ value := .int (2 ^ 53 + 1) }] }).2

/-- The switch after its container was put into the body. -/
def roundedSwitch : Live String Unit :=
  let f := (create {} () : Live String Unit).nextFollower 0 (.switch 0)
  (((Motion.mount (.node 2) none).run (Calls.upTo Client.drawing 4) f).run unsetSwitch).2

/-- The first case that is rounded like the value of the switch is shown. -/
theorem roundedSwitch_selects_rounded :
    let f := (create {} () : Live String Unit).nextFollower 0 (.switch 0)
    let x₀ : Switch String := { box := 0, cases := roundedCases, default := none }
    ∃ x makings, roundedSwitch.switch? 0 = some x ∧
      Made Client.drawing x₀.factory? unsetSwitch makings roundedSwitch ∧
      ShowsRounded roundedSwitch f x₀ x makings [2 ^ 53, 2 ^ 53 + 1] (2 ^ 53 + 1) := by
  intro f x₀
  let w : Leeway String := .around f 1
  have hUnset : unsetSwitch.Unset f 0 x₀ w :=
    (newSwitch_unset (create_prepared _ _ _ (fun _ _ hs => hs) (Nat.not_succ_le_zero 0))
      (fun _ => Iff.rfl) _ _).2
  have hProper := hUnset.proper_mount (r := .node 2) (by decide +kernel)
    (hUnset.sound.not_inside (by decide +kernel)) none
  have hBuilds : ∀ n arm factory, x₀.factory? arm = some factory →
      Builds (σ := Unit) (Calls.upTo Client.drawing (0 + 2 + n)) factory w := by
    intro n arm factory hFactory
    have hTag : ∃ tag, factory = .client tag := by
      rcases x₀.mem_of_factory? hFactory with hCase | hDefault
      · simp only [x₀, roundedCases, List.map_cons, List.map_nil, List.mem_cons, List.not_mem_nil,
          or_false] at hCase
        rcases hCase with rfl | rfl
        · exact ⟨"p", rfl⟩
        · exact ⟨"q", rfl⟩
      · cases hDefault
    obtain ⟨tag, rfl⟩ := hTag
    rw [Nat.add_comm]
    exact Client.drawing_builds (n + 1) tag
  have hRun : Choices (Calls.upTo Client.drawing (0 + 4)) f 0 unsetSwitch roundedSwitch :=
    Choices.start.step _ hProper
  have hIntegral : x₀.Integral [2 ^ 53, 2 ^ 53 + 1] := ⟨rfl, by decide⟩
  have hConnected : roundedSwitch.isConnected (.container 0) = true := by decide +kernel
  have hValue : roundedSwitch.valueOf 0 = .int (2 ^ 53 + 1) :=
    Value.eq_int_of_beq (by decide +kernel)
  obtain ⟨⟨x, makings, hThere, hMade, hShows, -⟩, -⟩ :=
    Choices.selects_rounded Client.drawing_quiet Client.drawing_consents 0 hBuilds hUnset hRun
      hIntegral hConnected (by decide) hValue
  exact ⟨x, makings, hThere, hMade, hShows⟩

/-- That is not the case which is the value: that one stands behind it. -/
theorem roundedSwitch_misled :
    roundedSwitch.isConnected (.container 0) = true ∧
    (roundedSwitch.switch? 0).map (fun x => x.cases.map fun (case, _) =>
      case == roundedSwitch.valueOf 0) = some [false, true] ∧
    (roundedSwitch.switch? 0).bind (·.activeCase?) = some 0 := by
  decide +kernel

end Live

end LiveMarkup
