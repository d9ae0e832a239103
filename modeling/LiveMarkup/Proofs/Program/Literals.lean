import LiveMarkup.Program.Compile
import LiveMarkup.Proofs.Program.Written

/-!
# The cases of a compiled program

The values of the cases of a compiled program are those that its registry reads from attributes;
compilation neither changes them nor adds any. The parser of cases takes a text for JSON, or else
for itself, so that its values are in order and their integers have 64 bits.

* `Registry.Gives`: what all values of cases fulfil that a registry reads;
* `Program.caseValues_of_compileWith`: so do all values of cases of a compiled program;
* `Program.ofValue?_of_compile`: a compiled program is read as it was written;
* `Program.faithful_of_compile`: its text is faithful if its floating-point literals are;
* `Program.of_isNest`: a program of elements in each other has no literals, and how deep it is.
-/

namespace LiveMarkup

theorem Except.bind_eq_ok {ε α β : Type} {x : Except ε α} {f : α → Except ε β} {b : β} :
    x >>= f = .ok b ↔ ∃ a, x = .ok a ∧ f a = .ok b := by
  cases x with
  | error e => simp [bind, Except.bind]
  | ok a => simp [bind, Except.bind]

variable {P : Value → Prop}

/-- The value of a command that is a case, if there is one, fulfils a condition. -/
def Command.Gives (P : Value → Prop) (c : Command) : Prop :=
  ∀ v, c.arm? = some (.case v) → P v

/-- Every case that a registry reads has a value that fulfils a condition. -/
def Registry.Gives (P : Value → Prop) (r : Registry) : Prop :=
  ∀ p ∈ r.parsers, ∀ a origin c, p.read a origin = .ok c → c.Gives P

theorem Registry.Gives.read {r : Registry} (hGives : r.Gives P) {a : Attribute} {origin : Origin}
    {c : Command} (h : r.read a origin = .ok c) : c.Gives P := by
  rw [Registry.read] at h
  cases hFind : r.find? a.name with
  | none => simp [hFind] at h
  | some p =>
    rw [hFind] at h
    exact hGives p (List.mem_of_find?_eq_some hFind) a origin c h

namespace Compile

variable {ctx : Context}

/-! ## Attributes -/

theorem gives_of_classified (hGives : ctx.registry.Gives P) {a : Template.Attribute}
    {c : Command} (h : Classified.ofAttribute ctx.registry ctx.origin a = .ok (.command c)) :
    c.Gives P := by
  rw [Classified.ofAttribute] at h
  split at h
  · rename_i s _
    cases hRead : Directive.read (s.apply a) ctx.origin with
    | error e => simp [hRead, Except.map] at h
    | ok d => simp [hRead, Except.map] at h
  · split at h
    · rename_i s _
      cases hRead : ctx.registry.read (s.apply a) ctx.origin with
      | error e => simp [hRead, Except.map] at h
      | ok command =>
        simp only [hRead, Except.map, Except.ok.injEq, Classified.command.injEq] at h
        rw [← h]
        exact hGives.read hRead
    · split at h
      · rw [Classified.readEvent] at h
        split at h <;> simp at h
      · simp at h

theorem Sorted.gives_of_ofAttributes (hGives : ctx.registry.Gives P) {s : Sorted} :
    ∀ {attributes : List Template.Attribute}, ofAttributes ctx attributes = .ok s →
      ∀ c ∈ s.commands, c.Gives P := by
  intro attributes h
  induction attributes generalizing s with
  | nil =>
    intro c hc
    obtain rfl := Except.ok.inj h
    cases hc
  | cons a rest ih =>
    obtain ⟨first, hFirst, h⟩ := Except.bind_eq_ok.mp h
    obtain ⟨others, hOthers, h⟩ := Except.bind_eq_ok.mp h
    obtain rfl := Except.ok.inj h
    intro c hc
    cases first with
    | command d =>
      rcases List.mem_cons.mp hc with rfl | hc
      · exact gives_of_classified hGives hFirst
      · exact ih hOthers c hc
    | plain _ => exact ih hOthers c hc
    | directive _ => exact ih hOthers c hc
    | event _ => exact ih hOthers c hc

theorem caseValues_wrap (c : Command) (inner : Instruction) :
    (c.wrap inner).caseValues = inner.caseValues := by
  rw [Command.wrap]
  split <;> simp [Instruction.caseValues]

theorem caseValues_wrappers (commands : List Command) (inner : Instruction) :
    (commands.foldl (fun inner c => c.wrap inner) inner).caseValues = inner.caseValues := by
  induction commands generalizing inner with
  | nil => rfl
  | cons c rest ih => rw [List.foldl_cons, ih, caseValues_wrap]

/-! ## Nodes -/

/-- The values of cases that a compiled node has or is fulfil a condition. -/
structure Compiled.Gives (P : Value → Prop) (c : Compiled) : Prop where
  inside : ∀ v ∈ c.instruction.caseValues, P v
  own : ∀ claim v, c.claim = some claim → claim.arm = .case v → P v

theorem Sorted.gives_claim {s : Sorted} (h : ∀ c ∈ s.commands, c.Gives P) {claim : ArmClaim}
    {v : Value} (hClaim : s.claim? = some claim) (hArm : claim.arm = .case v) : P v := by
  obtain ⟨c, hc, hOwn⟩ := List.exists_of_findSome?_eq_some hClaim
  obtain ⟨arm, hArm', rfl⟩ := Option.map_eq_some_iff.mp hOwn
  exact h c hc v (hArm'.trans (congrArg some hArm))

theorem withoutArms_eq {compiled : List Compiled} {is : List Instruction}
    (h : withoutArms ctx compiled = .ok is) : is = compiled.map (·.instruction) := by
  induction compiled generalizing is with
  | nil => exact (Except.ok.inj h).symm
  | cons c rest ih =>
    rw [withoutArms] at h
    split at h
    · cases h
    · obtain ⟨others, hOthers, h⟩ := Except.bind_eq_ok.mp h
      rw [← Except.ok.inj h, ih hOthers, List.map_cons]

/-- The values of cases in the children of a switch fulfil a condition. -/
structure Arms.Give (P : Value → Prop) (arms : Arms) : Prop where
  before : ∀ i ∈ arms.before, ∀ v ∈ i.caseValues, P v
  after : ∀ i ∈ arms.after, ∀ v ∈ i.caseValues, P v
  cases : ∀ x ∈ arms.cases, P x.1 ∧ ∀ v ∈ x.2.caseValues, P v
  default : ∀ i ∈ arms.default, ∀ v ∈ i.caseValues, P v

theorem Arms.Give.add {arms new : Arms} {c : Compiled} (hArms : arms.Give P) (hc : c.Gives P)
    (h : arms.add ctx c = .ok new) : new.Give P := by
  have hLast : ∀ {is : List Instruction}, (∀ i ∈ is, ∀ v ∈ i.caseValues, P v) →
      ∀ i ∈ is ++ [c.instruction], ∀ v ∈ i.caseValues, P v := by
    intro is hAll i hi
    rcases List.mem_append.mp hi with hi | hi
    · exact hAll i hi
    · obtain rfl := List.mem_singleton.mp hi
      exact hc.inside
  rw [Arms.add.eq_def] at h
  split at h
  · split at h
    · obtain rfl := Except.ok.inj h
      exact { hArms with after := hLast hArms.after }
    · obtain rfl := Except.ok.inj h
      exact { hArms with before := hLast hArms.before }
  · rename_i v _ hClaim
    obtain rfl := Except.ok.inj h
    refine { hArms with cases := ?_ }
    intro x hx
    rcases List.mem_append.mp hx with hx | hx
    · exact hArms.cases x hx
    · obtain rfl := List.mem_singleton.mp hx
      exact ⟨hc.own _ v hClaim rfl, hc.inside⟩
  · split at h
    · cases h
    · obtain rfl := Except.ok.inj h
      refine { hArms with default := ?_ }
      intro i hi
      obtain rfl := Option.some.inj hi
      exact hc.inside

theorem Arms.Give.addAll {compiled : List Compiled} (hAll : ∀ c ∈ compiled, c.Gives P) :
    ∀ {arms new : Arms}, arms.Give P → compiled.foldlM (Arms.add ctx) arms = .ok new →
      new.Give P := by
  induction compiled with
  | nil =>
    intro arms new hArms h
    rwa [← Except.ok.inj h]
  | cons c rest ih =>
    intro arms new hArms h
    rw [List.foldlM_cons] at h
    obtain ⟨next, hNext, h⟩ := Except.bind_eq_ok.mp h
    have hStep := hArms.add (hAll c List.mem_cons_self) hNext
    exact ih (fun d hd => hAll d (List.mem_cons_of_mem _ hd)) hStep h

theorem Arms.Give.instructions {arms : Arms} (hArms : arms.Give P) (value : ValueSource) :
    ∀ i ∈ arms.instructions value, ∀ v ∈ i.caseValues, P v := by
  intro i hi v hv
  rcases List.mem_append.mp hi with hi | hi
  · exact hArms.before i hi v hv
  · rcases List.mem_cons.mp hi with rfl | hi
    · rw [Instruction.caseValues, Instruction.caseValuesOfCases_eq,
        Instruction.caseValuesOfDefault_eq] at hv
      rcases List.mem_append.mp hv with hv | hv
      · obtain ⟨x, hx, hv⟩ := List.mem_flatMap.mp hv
        rcases List.mem_cons.mp hv with rfl | hv
        · exact (hArms.cases x hx).1
        · exact (hArms.cases x hx).2 v hv
      · obtain ⟨body, hBody, hv⟩ := List.mem_flatMap.mp hv
        exact hArms.default body (Option.mem_toList.mp hBody) v hv
    · exact hArms.after i hi v hv

theorem gives_childrenOf {switched : Option ValueSource} {compiled : List Compiled}
    {is : List Instruction} (hAll : ∀ c ∈ compiled, c.Gives P)
    (h : childrenOf ctx switched compiled = .ok is) : ∀ i ∈ is, ∀ v ∈ i.caseValues, P v := by
  cases switched with
  | none =>
    obtain rfl := withoutArms_eq h
    intro i hi
    obtain ⟨c, hc, rfl⟩ := List.mem_map.mp hi
    exact (hAll c hc).inside
  | some value =>
    obtain ⟨arms, hArms, h⟩ := Except.bind_eq_ok.mp h
    obtain rfl := Except.ok.inj h
    have hEmpty : Arms.Give P {} := ⟨by simp, by simp, by simp, by simp⟩
    exact (hEmpty.addAll hAll hArms).instructions value

mutual

/-- Compilation of a node only passes on the values that the registry reads. -/
theorem gives_compileNode (hGives : ctx.registry.Gives P) : ∀ (node : Template.Node)
    (c : Compiled), compileNode ctx node = .ok c → c.Gives P
  | .text value, c, h => by
    rw [compileNode] at h
    obtain rfl := Except.ok.inj h
    exact ⟨by simp [Instruction.caseValues], by simp⟩
  | .interpolation code raw, c, h => by
    rw [compileNode] at h
    obtain rfl := Except.ok.inj h
    exact ⟨by simp [Instruction.caseValues], by simp⟩
  | .element tag attributes children range, c, h => by
    rw [compileNode] at h
    obtain ⟨sorted, hSorted, h⟩ := Except.bind_eq_ok.mp h
    obtain ⟨_, _, h⟩ := Except.bind_eq_ok.mp h
    obtain ⟨compiled, hCompiled, h⟩ := Except.bind_eq_ok.mp h
    obtain ⟨inside, hInside, h⟩ := Except.bind_eq_ok.mp h
    obtain rfl := Except.ok.inj h
    have hCommands := Sorted.gives_of_ofAttributes hGives hSorted
    have hChildren := gives_childrenOf (gives_compileNodes hGives children _ hCompiled) hInside
    constructor
    · intro v hv
      rw [caseValues_wrappers, Instruction.caseValues, Instruction.caseValuesOfAll_eq] at hv
      obtain ⟨i, hi, hv⟩ := List.mem_flatMap.mp hv
      exact hChildren i hi v hv
    · intro claim v hClaim hArm
      exact Sorted.gives_claim hCommands hClaim hArm

/-- `gives_compileNode` for a list of nodes. -/
theorem gives_compileNodes (hGives : ctx.registry.Gives P) : ∀ (nodes : List Template.Node)
    (compiled : List Compiled), compileNodes ctx nodes = .ok compiled → ∀ c ∈ compiled, c.Gives P
  | [], compiled, h => by
    rw [compileNodes] at h
    obtain rfl := Except.ok.inj h
    intro c hc
    cases hc
  | node :: rest, compiled, h => by
    rw [compileNodes] at h
    obtain ⟨first, hFirst, h⟩ := Except.bind_eq_ok.mp h
    obtain ⟨others, hOthers, h⟩ := Except.bind_eq_ok.mp h
    obtain rfl := Except.ok.inj h
    intro c hc
    rcases List.mem_cons.mp hc with rfl | hc
    · exact gives_compileNode hGives node _ hFirst
    · exact gives_compileNodes hGives rest others hOthers c hc

end

end Compile

/-! ## The registry of the language -/

/-- What is read as the value of a case is in order, and its integers have 64 bits. -/
def Value.Literal (v : Value) : Prop :=
  v.ordered = v ∧ v.Fits

theorem CommandParser.caseValue_literal (text : String) : (caseValue text).Literal := by
  rw [caseValue, Json.parse?]
  cases h : Json.read? (Text.trimmed text) with
  | none => exact ⟨rfl, by simp [Value.Fits, Value.numbers]⟩
  | some v =>
    constructor
    · exact v.ordered_ordered
    · exact (Json.fits_of_read? h).ordered

theorem Registry.standard_gives : standard.Gives Value.Literal := by
  intro p hp a origin c h v hArm
  simp only [standard, List.mem_cons, List.not_mem_nil, or_false] at hp
  rcases hp with rfl | rfl | rfl | rfl | rfl
  · obtain rfl := Except.ok.inj h
    cases hArm
  · simp only [CommandParser.loop] at h
    split at h
    · obtain rfl := Except.ok.inj h
      cases hArm
    · cases h
  · obtain rfl := Except.ok.inj h
    have hValue : CommandParser.caseValue a.value = v := Arm.case.inj (Option.some.inj hArm)
    rw [← hValue]
    exact CommandParser.caseValue_literal a.value
  · obtain rfl := Except.ok.inj h
    cases hArm
  · obtain rfl := Except.ok.inj h
    cases hArm

namespace Program

variable {registry : Registry} {markup : String} {options : Options} {p : Program}

/-- All values of cases of a compiled program are read by the registry. -/
theorem caseValues_of_compileWith (hGives : registry.Gives P)
    (h : compileWith registry markup options = .ok p) : ∀ v ∈ p.caseValues, P v := by
  obtain ⟨compiled, hCompiled, h⟩ := Except.bind_eq_ok.mp h
  obtain ⟨instructions, hInstructions, h⟩ := Except.bind_eq_ok.mp h
  obtain rfl := Except.ok.inj h
  obtain rfl := Compile.withoutArms_eq hInstructions
  intro v hv
  obtain ⟨i, hi, hv⟩ := List.mem_flatMap.mp hv
  obtain ⟨c, hc, rfl⟩ := List.mem_map.mp hi
  exact (Compile.gives_compileNodes hGives _ _ hCompiled c hc).inside v hv

theorem literals_of_compile (h : compile markup options = .ok p) :
    ∀ v ∈ p.caseValues, v.Literal :=
  caseValues_of_compileWith Registry.standard_gives h

/-- A compiled program is read as it was written. -/
theorem ofValue?_of_compile (h : compile markup options = .ok p) : ofValue? p.toValue = some p := by
  apply ofValue?_toValue
  · obtain ⟨instructions, rfl⟩ := compileWith_eq_ok h
    exact sortSymbols_sortSymbols _
  · intro v hv
    exact (literals_of_compile h v hv).1

/-- Every floating-point literal of a program is read back when it stands alone. -/
def FaithfulFloats (p : Program) : Prop :=
  ∀ v ∈ p.caseValues, ∀ x, .float x ∈ v.numbers → (Number.float x).Faithful

theorem faithfulFloats_of_caseValues (h : p.caseValues = []) : p.FaithfulFloats := by
  intro v hv
  rw [h] at hv
  cases hv

theorem faithful_of_compile (h : compile markup options = .ok p) (hFloats : p.FaithfulFloats) :
    p.toValue.Faithful := by
  apply faithful_toValue
  intro v hv n hn
  cases n with
  | int i => exact (literals_of_compile h v hv).2 i hn
  | float x => exact hFloats v hv x hn

end Program

/-! ## Elements in each other -/

namespace Instruction

/-- An instruction is an element in `n` more elements, each the only child of the next. -/
def nests : Nat → Instruction → Bool
  | 0, element _ [] [] => true
  | n + 1, element _ [] [child] => nests n child
  | _, _ => false

/-- Each element in another takes two levels of the written form. -/
theorem of_nests : ∀ {n : Nat} {i : Instruction}, nests n i = true →
    i.caseValues = [] ∧ i.toValue.depth = 2 * n + 2 := by
  intro n
  induction n with
  | zero =>
    intro i h
    unfold nests at h
    split at h
    · exact ⟨rfl, rfl⟩
    · omega
    · cases h
  | succ n ih =>
    intro i h
    unfold nests at h
    split at h
    · omega
    · rename_i m tag child hEq
      obtain rfl := Nat.succ.inj hEq
      obtain ⟨hCases, hDepth⟩ := ih h
      constructor
      · simp [caseValues, caseValuesOfAll, hCases]
      · simp [toValue, toValues, Value.tagged, Value.depth, Value.depth.itemDepth,
          Value.depth.fieldDepth, hDepth]
        omega
    · cases h

end Instruction

namespace Program

variable {markup : String} {options : Options}

/-- The result of a compilation is one element in `n` more elements. -/
def isNest (n : Nat) : Except Diagnostic Program → Bool
  | .ok ⟨_, [i], _, _⟩ => i.nests n
  | _ => false

theorem itemDepth_strings (names : List String) :
    Value.depth.itemDepth (names.map Value.string) = 0 := by
  induction names with
  | nil => rfl
  | cons name rest ih => simp [Value.depth.itemDepth, Value.depth, ih]

/-- A program of elements in each other has no literals, and its written form is as deep as they
are. -/
theorem of_isNest {n : Nat} (h : isNest n (compile markup options) = true) :
    ∃ p, compile markup options = .ok p ∧ p.FaithfulFloats ∧ p.toValue.depth = 2 * n + 4 := by
  unfold isNest at h
  split at h
  · rename_i file i symbols host hCompile
    obtain ⟨hCases, hDepth⟩ := Instruction.of_nests h
    refine ⟨_, hCompile, ?_, ?_⟩
    · apply faithfulFloats_of_caseValues
      simp [caseValues, hCases]
    · simp [toValue, Value.depth, Value.depth.fieldDepth, Value.depth.itemDepth, hDepth,
        itemDepth_strings]
  · cases h

end Program

end LiveMarkup
