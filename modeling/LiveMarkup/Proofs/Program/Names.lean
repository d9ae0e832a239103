import LiveMarkup.Program.Compile

/-!
# Free names and needs of a program

An instruction is made of parts, and each loop around a part gives names to it. What a program
takes from its data and whether it needs a host can be told from the instructions that stand in
it, each with the loops around it.

* `Instruction.Within`: an instruction stands in another one, inside some loops;
* `Instruction.mem_symbols_iff`: the free names are the roots that no loop around them binds;
* `Instruction.needsHost_iff`: a host is needed where some instruction asks for it itself;
* `Program.mem_sortSymbols`: sorting loses no name and adds none.
-/

namespace LiveMarkup

namespace Instruction

/-! ## Parts -/

/-- The instructions that an instruction is made of, with the loop that they are inside of if it
is one. -/
def parts : Instruction → List (Option Loop × Instruction)
  | element _ _ children => children.map (none, ·)
  | text _ => []
  | dynamicText _ => []
  | conditional _ body => [(none, body)]
  | forLoop loop body => [(some loop, body)]
  | switch _ cases default => cases.map (fun x => (none, x.2)) ++ default.toList.map (none, ·)

/-- What an instruction does to its element. -/
def operations : Instruction → List Operation
  | element _ operations _ => operations
  | _ => []

/-- The sources that an instruction reads itself, without those of its parts. The iterable of a
loop is read outside of the loop. -/
def ownSources : Instruction → List ValueSource
  | element _ operations _ => operations.flatMap fun op => op.source?.toList
  | text _ => []
  | dynamicText source => [source]
  | conditional condition _ => [condition]
  | forLoop loop _ => [loop.iterable]
  | switch value _ _ => [value]

/-- An instruction asks for the host itself if it reads an expression or listens to an event. -/
def AsksHost (i : Instruction) : Prop :=
  (∃ source ∈ i.ownSources, source.isExpression = true) ∨
    ∃ event handler, .listen event handler ∈ i.operations

theorem sizeOf_part_lt {i : Instruction} {x : Option Loop × Instruction} (h : x ∈ i.parts) :
    sizeOf x.2 < sizeOf i := by
  cases i with
  | element tag operations children =>
    obtain ⟨c, hc, rfl⟩ := List.mem_map.mp h
    have hLt := List.sizeOf_lt_of_mem hc
    simp only [element.sizeOf_spec]
    omega
  | text => cases h
  | dynamicText => cases h
  | conditional condition body =>
    obtain rfl := List.mem_singleton.mp h
    simp only [conditional.sizeOf_spec]
    omega
  | forLoop loop body =>
    obtain rfl := List.mem_singleton.mp h
    simp only [forLoop.sizeOf_spec]
    omega
  | switch value cases default =>
    simp only [switch.sizeOf_spec]
    rcases List.mem_append.mp h with h | h
    · obtain ⟨y, hy, rfl⟩ := List.mem_map.mp h
      have hLt := List.sizeOf_lt_of_mem hy
      obtain ⟨value, body⟩ := y
      simp only [Prod.mk.sizeOf_spec] at hLt
      dsimp only
      omega
    · obtain ⟨b, hb, rfl⟩ := List.mem_map.mp h
      cases default with
      | none => cases hb
      | some body =>
        obtain rfl := List.mem_singleton.mp hb
        simp only [Option.some.sizeOf_spec]
        omega

/-- Induction from the parts of an instruction to the instruction. -/
theorem parts_induction {motive : Instruction → Prop}
    (step : ∀ i : Instruction, (∀ x ∈ i.parts, motive x.2) → motive i) (i : Instruction) :
    motive i :=
  step i fun x h =>
    have := sizeOf_part_lt h
    parts_induction step x.2
termination_by sizeOf i

/-! ## Instructions in instructions -/

/-- An instruction stands in another one, inside some loops of it, the innermost first. -/
inductive Within : List Loop → Instruction → Instruction → Prop where
  | refl (i : Instruction) : Within [] i i
  | part {loops : List Loop} {i j k : Instruction} {loop : Option Loop} (h : Within loops i j)
      (hPart : (loop, k) ∈ j.parts) : Within (loop.toList ++ loops) i k

theorem Within.trans {inner outer : List Loop} {i j k : Instruction} (h : Within outer i j)
    (hInner : Within inner j k) : Within (inner ++ outer) i k := by
  induction hInner with
  | refl => exact h
  | part _ hPart ih =>
    rw [List.append_assoc]
    exact (ih h).part hPart

/-! ## Free names -/

/-- The names that a loop gives to its body, if there is one. -/
def namesOf (loop : Option Loop) : List String :=
  loop.toList.flatMap Loop.names

theorem symbolsOfAll_eq (bound : List String) (is : List Instruction) :
    symbolsOfAll bound is = is.flatMap (symbols bound) := by
  induction is with
  | nil => rfl
  | cons i rest ih => simp [symbolsOfAll, ih]

theorem symbolsOfCases_eq (bound : List String) (cases : List (Value × Instruction)) :
    symbolsOfCases bound cases = cases.flatMap fun x => x.2.symbols bound := by
  induction cases with
  | nil => rfl
  | cons x rest ih => simp [symbolsOfCases, ih]

theorem symbolsOfDefault_eq (bound : List String) (default : Option Instruction) :
    symbolsOfDefault bound default = default.toList.flatMap (symbols bound) := by
  cases default <;> simp [symbolsOfDefault]

/-- The free names are those of the sources of an instruction and then those of its parts. -/
theorem symbols_eq (bound : List String) (i : Instruction) :
    i.symbols bound = i.ownSources.flatMap (ValueSource.free bound) ++
      i.parts.flatMap fun x => x.2.symbols (namesOf x.1 ++ bound) := by
  have hOperation : Operation.symbols bound = fun op =>
      op.source?.toList.flatMap (ValueSource.free bound) := rfl
  cases i <;>
    simp [symbols, ownSources, parts, namesOf, symbolsOfAll_eq, symbolsOfCases_eq,
      symbolsOfDefault_eq, List.flatMap_map, List.flatMap_assoc, hOperation]

theorem mem_free_iff {bound : List String} {source : ValueSource} {name : String} :
    name ∈ source.free bound ↔ source.root? = some name ∧ name ∉ bound := by
  simp [ValueSource.free]

theorem mem_symbols_iff {bound : List String} {i : Instruction} {name : String} :
    name ∈ i.symbols bound ↔ ∃ loops j, Within loops i j ∧
      (∃ source ∈ j.ownSources, source.root? = some name) ∧
      name ∉ loops.flatMap Loop.names ∧ name ∉ bound := by
  constructor
  · -- A free name is that of a source of the instruction itself or of one of its parts.
    induction i using parts_induction generalizing bound with
    | step i ih =>
      intro h
      rw [symbols_eq, List.mem_append, List.mem_flatMap, List.mem_flatMap] at h
      rcases h with ⟨source, hSource, hFree⟩ | ⟨⟨loop, part⟩, hPart, hFree⟩
      · obtain ⟨hRoot, hBound⟩ := mem_free_iff.mp hFree
        exact ⟨[], i, .refl i, ⟨source, hSource, hRoot⟩, List.not_mem_nil, hBound⟩
      · obtain ⟨loops, j, hj, hSource, hLoops, hBound⟩ := ih _ hPart hFree
        rw [List.mem_append, not_or] at hBound
        refine ⟨loops ++ (loop.toList ++ []), j, ((Within.refl i).part hPart).trans hj, hSource, ?_,
          hBound.2⟩
        rw [List.append_nil, List.flatMap_append, List.mem_append, not_or]
        exact ⟨hLoops, hBound.1⟩
  · -- Going outwards from the source, each loop on the way binds other names.
    rintro ⟨loops, j, hj, ⟨source, hSource, hRoot⟩, hLoops, hBound⟩
    have hIn : name ∈ j.symbols (loops.flatMap Loop.names ++ bound) := by
      rw [symbols_eq, List.mem_append, List.mem_flatMap]
      refine .inl ⟨source, hSource, mem_free_iff.mpr ⟨hRoot, ?_⟩⟩
      rw [List.mem_append, not_or]
      exact ⟨hLoops, hBound⟩
    clear hSource hLoops
    induction hj with
    | refl => exact hIn
    | part _ hPart ih =>
      refine ih ?_
      rw [symbols_eq, List.mem_append]
      refine .inr (List.mem_flatMap.mpr ⟨_, hPart, ?_⟩)
      rwa [List.flatMap_append, List.append_assoc] at hIn

/-! ## Needs -/

theorem anyNeedsHost_eq (is : List Instruction) : anyNeedsHost is = is.any needsHost := by
  induction is with
  | nil => rfl
  | cons i rest ih => simp [anyNeedsHost, ih]

theorem caseNeedsHost_eq (cases : List (Value × Instruction)) :
    caseNeedsHost cases = cases.any fun x => x.2.needsHost := by
  induction cases with
  | nil => rfl
  | cons x rest ih => simp [caseNeedsHost, ih]

theorem defaultNeedsHost_eq (default : Option Instruction) :
    defaultNeedsHost default = default.toList.any needsHost := by
  cases default <;> simp [defaultNeedsHost]

theorem operation_needsHost_iff (op : Operation) : op.needsHost = true ↔
    (∃ source, op.source? = some source ∧ source.isExpression = true) ∨
      ∃ event handler, op = .listen event handler := by
  cases op <;> simp [Operation.needsHost, Operation.source?]

theorem asksHost_element {tag : String} {operations : List Operation}
    {children : List Instruction} : (element tag operations children).AsksHost ↔
      ∃ op ∈ operations, op.needsHost = true := by
  simp only [AsksHost, ownSources, Instruction.operations, operation_needsHost_iff, List.mem_flatMap,
    Option.mem_toList]
  constructor
  · rintro (⟨source, ⟨op, hOp, hSource⟩, hExpression⟩ | ⟨event, handler, hOp⟩)
    · exact ⟨op, hOp, .inl ⟨source, hSource, hExpression⟩⟩
    · exact ⟨_, hOp, .inr ⟨event, handler, rfl⟩⟩
  · rintro ⟨op, hOp, ⟨source, hSource, hExpression⟩ | ⟨event, handler, rfl⟩⟩
    · exact .inl ⟨source, ⟨op, hOp, hSource⟩, hExpression⟩
    · exact .inr ⟨event, handler, hOp⟩

theorem needsHost_step (i : Instruction) :
    i.needsHost = true ↔ i.AsksHost ∨ ∃ x ∈ i.parts, x.2.needsHost = true := by
  rw [← List.any_eq_true]
  cases i with
  | element =>
    simp only [asksHost_element, needsHost, parts, anyNeedsHost_eq, Bool.or_eq_true, List.any_map,
      Function.comp_def, List.any_eq_true]
  | text => simp [needsHost, AsksHost, ownSources, operations, parts]
  | dynamicText => simp [needsHost, AsksHost, ownSources, operations, parts]
  | conditional => simp [needsHost, AsksHost, ownSources, operations, parts]
  | forLoop => simp [needsHost, AsksHost, ownSources, operations, parts]
  | switch =>
    simp [needsHost, AsksHost, ownSources, operations, parts, caseNeedsHost_eq, defaultNeedsHost_eq,
      List.any_map, Function.comp_def, or_assoc]

theorem needsHost_iff {i : Instruction} :
    i.needsHost = true ↔ ∃ loops j, Within loops i j ∧ j.AsksHost := by
  constructor
  · induction i using parts_induction with
    | step i ih =>
      intro h
      rcases (needsHost_step i).mp h with hAsks | ⟨⟨loop, part⟩, hPart, hNeeds⟩
      · exact ⟨[], i, .refl i, hAsks⟩
      · obtain ⟨loops, j, hj, hAsks⟩ := ih _ hPart hNeeds
        exact ⟨_, j, ((Within.refl i).part hPart).trans hj, hAsks⟩
  · rintro ⟨loops, j, hj, hAsks⟩
    have hNeeds : j.needsHost = true := (needsHost_step j).mpr (.inl hAsks)
    clear hAsks
    induction hj with
    | refl => exact hNeeds
    | part _ hPart ih => exact ih ((needsHost_step _).mpr (.inr ⟨_, hPart, hNeeds⟩))

end Instruction

/-! ## Symbols of a program -/

namespace Program

theorem mem_insertSymbol {name other : String} {names : List String} :
    name ∈ insertSymbol other names ↔ name = other ∨ name ∈ names := by
  induction names with
  | nil => simp [insertSymbol]
  | cons first rest ih =>
    unfold insertSymbol
    split
    · exact List.mem_cons
    · split
      next hEq =>
        obtain rfl := beq_iff_eq.mp hEq
        simp
      next => simp [ih, or_left_comm]

theorem mem_sortSymbols {name : String} {names : List String} :
    name ∈ sortSymbols names ↔ name ∈ names := by
  have h : ∀ acc : List String, name ∈ names.foldl (fun acc name => insertSymbol name acc) acc ↔
      name ∈ acc ∨ name ∈ names := by
    induction names with
    | nil => simp
    | cons first rest ih =>
      intro acc
      rw [List.foldl_cons, ih, mem_insertSymbol, List.mem_cons, or_assoc, or_left_comm]
  rw [sortSymbols, h]
  simp

theorem mem_symbols_iff {file : String} {instructions : List Instruction} {name : String} :
    name ∈ (ofInstructions file instructions).symbols ↔ ∃ i ∈ instructions, ∃ loops j,
      Instruction.Within loops i j ∧ (∃ source ∈ j.ownSources, source.root? = some name) ∧
      name ∉ loops.flatMap Loop.names := by
  rw [ofInstructions, mem_sortSymbols, Instruction.symbolsOfAll_eq, List.mem_flatMap]
  simp [Instruction.mem_symbols_iff]

theorem requiresHost_iff {file : String} {instructions : List Instruction} :
    (ofInstructions file instructions).requiresHost = true ↔ ∃ i ∈ instructions, ∃ loops j,
      Instruction.Within loops i j ∧ j.AsksHost := by
  rw [ofInstructions, Instruction.anyNeedsHost_eq, List.any_eq_true]
  simp [Instruction.needsHost_iff]

/-- A compiled program is that of some instructions. -/
theorem compileWith_eq_ok {registry : Registry} {markup : String} {options : Options}
    {program : Program} (h : compileWith registry markup options = .ok program) :
    ∃ instructions, program = ofInstructions options.file instructions := by
  unfold compileWith at h
  cases hNodes : Compile.compileNodes ⟨registry, ⟨options.file, markup⟩⟩
      (Template.read markup options).nodes with
  | error e => simp [hNodes, bind, Except.bind] at h
  | ok compiled =>
    cases hArms : Compile.withoutArms ⟨registry, ⟨options.file, markup⟩⟩ compiled with
    | error e => simp [hNodes, hArms, bind, Except.bind] at h
    | ok instructions =>
      simp only [hNodes, hArms, bind, Except.bind, pure, Except.pure, Except.ok.injEq] at h
      exact ⟨instructions, h.symm⟩

end Program

end LiveMarkup
