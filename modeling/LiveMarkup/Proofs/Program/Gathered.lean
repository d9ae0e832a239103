import LiveMarkup.Proofs.Program.Meanings

/-!
# The switches of a compiled template

A template is compiled if every element in it can be: its attributes mean something, no two of its
commands have one name, and the arms among its children belong to a switch, with one default at
most. What it is compiled to can then be told from the template alone, without the order in which
the compiler goes through it: the condition of an element is around its loop, the loop around the
element, and the arms of a switch are where the first of them stands.

Arms travel from the elements that they are written on to the switch around these, after the
conditions and loops of the elements have been put around them. None is lost on the way, and none
is taken by anything but the switch that its element stands directly in.

* `Compile.lowered`: the instruction of a node;
* `Compile.Fits`: what is asked of one node;
* `Compile.compileNode_eq_ok`: a node is compiled exactly if all in it fits, and to what;
* `Compile.lower_eq_ok`: the same for a template;
* `Compile.lowered_within`: the instruction of each node of a template stands in the program;
* `Compile.IsArm`: an element has a case or a default of a switch among its attributes;
* `Compile.Ambiguous`: it has both, of which the first counts;
* `Compile.lower_gathers`: when a template is compiled, and what its switches are compiled to.
-/

/-! ## What a template is compiled to -/

namespace LiveMarkup

namespace Compile

open Template (Node)

variable {ctx : Context}

/-! ### Nodes -/

section

variable (ctx : Context)

mutual

/-- What a node is compiled to. -/
def lowered : Node → Instruction
  | .text value => .text value
  | .interpolation code raw => .dynamicText (if raw then .expression code else .reference code)
  | .element tag attributes children range =>
    let n := Node.element tag attributes children range
    around (conditionOf ctx n) (loopOf ctx n)
      (.element tag (sortedOf ctx n).operations
        (inside Prod.fst Prod.snd (switchOf ctx n) (loweredChildren children)))

/-- The arms that some nodes are, and what they are compiled to. -/
def loweredChildren : List Node → List (Option Arm × Instruction)
  | [] => []
  | n :: rest => (armOf ctx n, lowered n) :: loweredChildren rest

end

/-- What is asked of a node by itself. -/
structure Fits (n : Node) : Prop where
  attributes : ∀ a ∈ n.attributes, (meaning? ctx a).isSome
  commands : ((sortedOf ctx n).commands.map Command.name).Nodup
  children : Placed (armOf ctx) (switchOf ctx n) n.children

/-- Compiles the nodes of a template. -/
def lower (nodes : List Node) : Except Diagnostic (List Instruction) := do
  let compiled ← compileNodes ctx nodes
  withoutArms ctx compiled

end

theorem loweredChildren_eq (nodes : List Node) :
    loweredChildren ctx nodes = nodes.map fun n => (armOf ctx n, lowered ctx n) := by
  induction nodes with
  | nil => rw [loweredChildren, List.map_nil]
  | cons n rest ih => rw [loweredChildren, ih, List.map_cons]

theorem lowered_element (tag : String) (attributes : List Template.Attribute)
    (children : List Node) (range : Range) :
    lowered ctx (.element tag attributes children range) =
      let n := Node.element tag attributes children range
      around (conditionOf ctx n) (loopOf ctx n)
        (.element tag (sortedOf ctx n).operations
          (inside (armOf ctx) (lowered ctx) (switchOf ctx n) children)) := by
  rw [lowered, loweredChildren_eq, inside_map]

theorem fits_of_nil {n : Node} (hAttributes : n.attributes = []) (hChildren : n.children = []) :
    Fits ctx n where
  attributes := by simp [hAttributes]
  commands := by simp [sortedOf, hAttributes, Sorted.ofMeanings]
  children := by
    rw [hChildren]
    exact ⟨fun _ _ hc => absurd hc List.not_mem_nil, Nat.zero_le 1⟩

/-- An element is compiled if its children are and it fits. -/
theorem compileNode_element_eq_ok {n : Node} {tag : String}
    {attributes : List Template.Attribute} {children : List Node} {range : Range}
    (hn : n = .element tag attributes children range) {c : Compiled} :
    compileNode ctx n = .ok c ↔ ∃ compiled, compileNodes ctx children = .ok compiled ∧
      (∀ a ∈ n.attributes, (meaning? ctx a).isSome) ∧
      ((sortedOf ctx n).commands.map Command.name).Nodup ∧
      Placed Compiled.arm (switchOf ctx n) compiled ∧
      c = ⟨around (conditionOf ctx n) (loopOf ctx n) (.element tag (sortedOf ctx n).operations
        (inside Compiled.arm (·.instruction) (switchOf ctx n) compiled)), claimOf ctx n⟩ := by
  have hUnique_iff : Command.checkUnique ctx.origin []
      ((sortedOf ctx n).commands.map fun c => (c.name, c.written.range)) = .ok () ↔
      ((sortedOf ctx n).commands.map Command.name).Nodup := by
    simp [Command.checkUnique_eq_ok, Function.comp_def]
  rw [hn, compileNode, ← hn]
  constructor
  · intro h
    obtain ⟨sorted, hSorted, h⟩ := Except.bind_eq_ok.mp h
    obtain ⟨⟨⟩, hUnique, h⟩ := Except.bind_eq_ok.mp h
    obtain ⟨compiled, hCompiled, h⟩ := Except.bind_eq_ok.mp h
    obtain ⟨is, hInside, h⟩ := Except.bind_eq_ok.mp h
    obtain ⟨hAttributes, hEq⟩ := Sorted.ofAttributes_eq_ok.mp hSorted
    obtain rfl : sorted = sortedOf ctx n := by rw [hEq, hn]; rfl
    obtain ⟨hPlaced, rfl⟩ := childrenOf_eq_ok.mp hInside
    have hNames := hUnique_iff.mp hUnique
    refine ⟨compiled, hCompiled, by rwa [hn], hNames, hPlaced, ?_⟩
    rw [← Except.ok.inj h, Sorted.foldl_wrappers hNames]
    rfl
  · rintro ⟨compiled, hCompiled, hAttributes, hNames, hPlaced, rfl⟩
    have hSorted : Sorted.ofAttributes ctx attributes = .ok (sortedOf ctx n) := by
      rw [hn] at hAttributes ⊢
      exact Sorted.ofAttributes_eq_ok.mpr ⟨hAttributes, rfl⟩
    refine Except.bind_eq_ok.mpr ⟨_, hSorted, Except.bind_eq_ok.mpr ⟨(), hUnique_iff.mpr hNames,
      Except.bind_eq_ok.mpr ⟨compiled, hCompiled,
        Except.bind_eq_ok.mpr ⟨_, childrenOf_eq_ok.mpr ⟨hPlaced, rfl⟩, ?_⟩⟩⟩⟩
    simp only [Sorted.foldl_wrappers hNames]
    rfl

mutual

/-- A node is compiled exactly if every node in it fits, and to what. -/
theorem compileNode_eq_ok : ∀ {n : Node} {c : Compiled}, compileNode ctx n = .ok c ↔
    (∀ m, n.Within m → Fits ctx m) ∧ c = ⟨lowered ctx n, claimOf ctx n⟩
  | .text value, c => by
    have hFits : Fits ctx (.text value) := fits_of_nil rfl rfl
    rw [compileNode, Node.forall_within_iff, Except.ok.injEq, eq_comm]
    exact ⟨fun h => ⟨⟨hFits, nofun⟩, h⟩, fun h => h.2⟩
  | .interpolation code raw, c => by
    have hFits : Fits ctx (.interpolation code raw) := fits_of_nil rfl rfl
    rw [compileNode, Node.forall_within_iff, Except.ok.injEq, eq_comm]
    exact ⟨fun h => ⟨⟨hFits, nofun⟩, h⟩, fun h => h.2⟩
  | .element tag attributes children range, c => by
    rw [compileNode_element_eq_ok rfl, Node.forall_within_iff, lowered_element]
    constructor
    · rintro ⟨compiled, hCompiled, hAttributes, hNames, hPlaced, rfl⟩
      obtain ⟨hChildren, rfl⟩ := compileNodes_eq_ok.mp hCompiled
      rw [inside_map]
      have hPlaced := placed_map_iff.mp hPlaced
      exact ⟨⟨⟨hAttributes, hNames, hPlaced⟩, hChildren⟩, rfl⟩
    · rintro ⟨⟨hFits, hChildren⟩, rfl⟩
      refine ⟨_, compileNodes_eq_ok.mpr ⟨hChildren, rfl⟩, hFits.attributes, hFits.commands,
        placed_map_iff.mpr hFits.children, ?_⟩
      rw [inside_map]
      rfl

/-- `compileNode_eq_ok` for a list of nodes. -/
theorem compileNodes_eq_ok : ∀ {nodes : List Node} {cs : List Compiled},
    compileNodes ctx nodes = .ok cs ↔
      (∀ n ∈ nodes, ∀ m, n.Within m → Fits ctx m) ∧
        cs = nodes.map fun n => ⟨lowered ctx n, claimOf ctx n⟩
  | [], cs => by
    rw [compileNodes, Except.ok.injEq, eq_comm]
    simp
  | n :: rest, cs => by
    rw [compileNodes, Except.bind_eq_ok]
    constructor
    · rintro ⟨first, hFirst, h⟩
      obtain ⟨others, hOthers, h⟩ := Except.bind_eq_ok.mp h
      obtain ⟨hn, rfl⟩ := compileNode_eq_ok.mp hFirst
      obtain ⟨hRest, rfl⟩ := compileNodes_eq_ok.mp hOthers
      exact ⟨List.forall_mem_cons.mpr ⟨hn, hRest⟩, (Except.ok.inj h).symm⟩
    · rintro ⟨hAll, rfl⟩
      obtain ⟨hn, hRest⟩ := List.forall_mem_cons.mp hAll
      exact ⟨_, compileNode_eq_ok.mpr ⟨hn, rfl⟩,
        Except.bind_eq_ok.mpr ⟨_, compileNodes_eq_ok.mpr ⟨hRest, rfl⟩, rfl⟩⟩

end

/-- A template is compiled exactly if every node in it fits and none stands outside of a switch as
its arm. Then each node is compiled by itself. -/
theorem lower_eq_ok {nodes : List Node} {is : List Instruction} : lower ctx nodes = .ok is ↔
    (∀ n ∈ nodes, armOf ctx n = none) ∧ (∀ n ∈ nodes, ∀ m, n.Within m → Fits ctx m) ∧
      is = nodes.map (lowered ctx) := by
  rw [lower, Except.bind_eq_ok]
  constructor
  · rintro ⟨compiled, hCompiled, h⟩
    obtain ⟨hFits, rfl⟩ := compileNodes_eq_ok.mp hCompiled
    obtain ⟨hArms, rfl⟩ := withoutArms_eq_ok.mp h
    refine ⟨?_, hFits, List.map_map⟩
    intro n hn
    exact hArms _ (List.mem_map_of_mem hn)
  · rintro ⟨hArms, hFits, rfl⟩
    refine ⟨_, compileNodes_eq_ok.mpr ⟨hFits, rfl⟩, withoutArms_eq_ok.mpr ⟨?_, ?_⟩⟩
    · intro c hc
      obtain ⟨n, hn, rfl⟩ := List.mem_map.mp hc
      exact hArms n hn
    · rw [List.map_map]
      rfl

/-! ### The instruction of each node -/

theorem around_within (condition : Option ValueSource) (loop : Option Loop)
    (inner : Instruction) :
    ∃ loops, Instruction.Within loops (around condition loop inner) inner := by
  have hRepeated : ∃ loops, Instruction.Within loops (around none loop inner) inner := by
    cases loop with
    | none => exact ⟨_, .refl inner⟩
    | some loop => exact ⟨_, (Instruction.Within.refl _).part List.mem_cons_self⟩
  cases condition with
  | none => exact hRepeated
  | some source =>
    obtain ⟨loops, h⟩ := hRepeated
    exact ⟨_, ((Instruction.Within.refl _).part List.mem_cons_self).trans h⟩

section

variable {α : Type} {arm : α → Option Arm} {body : α → Instruction} {value : ValueSource}
  {children : List α} {c : α}

/-- What a child of an element is compiled to stands in the element. -/
theorem inside_within {switched : Option ValueSource} (hPlaced : Placed arm switched children)
    (hc : c ∈ children) (tag : String) (operations : List Operation) :
    ∃ loops, Instruction.Within loops
      (.element tag operations (inside arm body switched children)) (body c) := by
  have hDirect : ∀ i ∈ inside arm body switched children, Instruction.Within []
      (.element tag operations (inside arm body switched children)) i := by
    intro i hi
    have hPart : (none, i) ∈
        (Instruction.element tag operations (inside arm body switched children)).parts :=
      List.mem_map.mpr ⟨i, hi, rfl⟩
    exact (Instruction.Within.refl _).part hPart
  cases switched with
  | none => exact ⟨[], hDirect _ (List.mem_map_of_mem hc)⟩
  | some value =>
    have hSwitch := hDirect _ mem_gather_switch
    cases hArm : arm c with
    | none => exact ⟨[], hDirect _ (mem_gather_of_none hc hArm)⟩
    | some a =>
      cases a with
      | case v =>
        have hPart : (none, body c) ∈ (Instruction.switch value (casesAmong arm body children)
            (defaultAmong arm body children)).parts :=
          List.mem_append_left _ (List.mem_map.mpr ⟨_, mem_casesAmong hc hArm, rfl⟩)
        exact ⟨_, hSwitch.part hPart⟩
      | default =>
        have hPart : (none, body c) ∈ (Instruction.switch value (casesAmong arm body children)
            (defaultAmong arm body children)).parts := by
          rw [defaultAmong_eq hc hArm hPlaced.default]
          exact List.mem_append_right _ List.mem_cons_self
        exact ⟨_, hSwitch.part hPart⟩

end

/-- The instruction of each node in another one stands in that of the other. -/
theorem lowered_within {n m : Node} (hFits : ∀ m, n.Within m → Fits ctx m) (h : n.Within m) :
    ∃ loops, Instruction.Within loops (lowered ctx n) (lowered ctx m) := by
  induction h with
  | refl n => exact ⟨[], .refl _⟩
  | @child n c m hChild h ih =>
    obtain ⟨hn, hChildren⟩ := Node.forall_within_iff.mp hFits
    obtain ⟨inner, hInner⟩ := ih (hChildren c hChild)
    cases n with
    | text => cases hChild
    | interpolation => cases hChild
    | element tag attributes children range =>
      rw [lowered_element]
      obtain ⟨outer, hOuter⟩ := around_within
        (conditionOf ctx (.element tag attributes children range))
        (loopOf ctx (.element tag attributes children range)) _
      obtain ⟨middle, hMiddle⟩ := inside_within hn.children hChild tag _
      exact ⟨_, (hOuter.trans hMiddle).trans hInner⟩

end Compile

/-- A text is compiled as the template that it is read as. -/
theorem Program.compileWith_eq (registry : Registry) (markup : String) (options : Options) :
    compileWith registry markup options =
      (Compile.lower ⟨registry, ⟨options.file, markup⟩⟩ (Template.read markup options).nodes).map
        (ofInstructions options.file) := by
  rw [compileWith, Compile.lower]
  generalize Compile.compileNodes _ _ = compiled
  cases compiled with
  | error e => rfl
  | ok compiled =>
    simp only [bind, Except.bind]
    cases Compile.withoutArms ⟨registry, ⟨options.file, markup⟩⟩ compiled <;> rfl

/-- A text is compiled exactly if each node of the template that it is read as fits and none at the
top is an arm. Then the program has what each node is compiled to by itself. -/
theorem Program.compileWith_eq_ok_iff {registry : Registry} {markup : String} {options : Options}
    {p : Program} : compileWith registry markup options = .ok p ↔
      let ctx : Compile.Context := ⟨registry, ⟨options.file, markup⟩⟩
      let nodes := (Template.read markup options).nodes
      (∀ n ∈ nodes, Compile.armOf ctx n = none) ∧
        (∀ n ∈ nodes, ∀ m, n.Within m → Compile.Fits ctx m) ∧
        p = ofInstructions options.file (nodes.map (Compile.lowered ctx)) := by
  rw [compileWith_eq, Except.map_eq_ok]
  simp only [Compile.lower_eq_ok]
  constructor
  · rintro ⟨is, ⟨hArms, hFits, rfl⟩, rfl⟩
    exact ⟨hArms, hFits, rfl⟩
  · rintro ⟨hArms, hFits, rfl⟩
    exact ⟨_, ⟨hArms, hFits, rfl⟩, rfl⟩

end LiveMarkup

namespace LiveMarkup.Compile

open Template (Node)

variable {ctx : Context}

/-- A case or a default of a switch is among the attributes of a node. -/
def IsArm (ctx : Context) (n : Node) : Prop :=
  ∃ a ∈ n.attributes, ∃ c, meaning? ctx a = some (.command c) ∧ c.arm?.isSome

/-- The arms that a node is by its commands. -/
def armsOf (ctx : Context) (n : Node) : List Arm :=
  (sortedOf ctx n).commands.filterMap Command.arm?

/-- A node is both a case and a default of a switch. -/
def Ambiguous (ctx : Context) (n : Node) : Prop :=
  (∃ value, .case value ∈ armsOf ctx n) ∧ .default ∈ armsOf ctx n

theorem mem_commands_iff {n : Node} {c : Command} : c ∈ (sortedOf ctx n).commands ↔
    ∃ a ∈ n.attributes, meaning? ctx a = some (.command c) := by
  simp only [sortedOf, Sorted.ofMeanings, List.mem_filterMap]
  constructor
  · rintro ⟨m, ⟨a, ha, hMeaning⟩, hm⟩
    cases m with
    | command d =>
      obtain rfl := Option.some.inj hm
      exact ⟨a, ha, hMeaning⟩
    | plain => cases hm
    | directive => cases hm
    | event => cases hm
  · rintro ⟨a, ha, hMeaning⟩
    exact ⟨_, ⟨a, ha, hMeaning⟩, rfl⟩

theorem armOf_eq (n : Node) : armOf ctx n = (sortedOf ctx n).commands.findSome? Command.arm? := by
  rw [armOf, claimOf, Sorted.claim?]
  induction (sortedOf ctx n).commands with
  | nil => rfl
  | cons c rest ih =>
    cases hArm : c.arm? <;> simp [hArm, ih]

theorem armOf_eq_none_iff {n : Node} : armOf ctx n = none ↔ ¬ IsArm ctx n := by
  rw [armOf_eq, List.findSome?_eq_none_iff, IsArm]
  constructor
  · rintro h ⟨a, ha, c, hMeaning, hArm⟩
    rw [h c (mem_commands_iff.mpr ⟨a, ha, hMeaning⟩)] at hArm
    cases hArm
  · intro h c hc
    obtain ⟨a, ha, hMeaning⟩ := mem_commands_iff.mp hc
    rw [← Option.not_isSome_iff_eq_none]
    exact fun hArm => h ⟨a, ha, c, hMeaning, hArm⟩

/-- A node with more than one arm is a case and a default, as its commands have different names. -/
theorem ambiguous_iff {n : Node} (hUnique : ((sortedOf ctx n).commands.map Command.name).Nodup) :
    Ambiguous ctx n ↔ 1 < (armsOf ctx n).length := by
  have hApart : (armsOf ctx n).Pairwise fun a b => a.isDefault ≠ b.isDefault := by
    rw [armsOf, List.pairwise_filterMap]
    refine (List.pairwise_map.mp hUnique).imp ?_
    intro c d hName a ha b hb
    obtain ⟨_, kind⟩ := c
    obtain ⟨_, kind'⟩ := d
    cases kind <;> cases ha
    cases kind' <;> cases hb
    cases a <;> cases b <;> simp_all [Command.name, Arm.isDefault]
  rw [Ambiguous]
  generalize armsOf ctx n = arms at hApart
  cases arms with
  | nil => simp
  | cons a rest =>
    cases rest with
    | nil => cases a <;> simp
    | cons b rest =>
      have hDiffer : a.isDefault ≠ b.isDefault := (List.pairwise_cons.mp hApart).1 b (by simp)
      cases a <;> cases b <;> simp_all [Arm.isDefault]

/-- Where the arms among the children of a node are in place, they are those of its switch. -/
theorem placed_iff {n : Node} : Placed (armOf ctx) (switchOf ctx n) n.children ↔
    (∀ c ∈ n.children, IsArm ctx c → ∃ value, switchOf ctx n = some value) ∧
      (n.children.filter (isDefault (armOf ctx))).length ≤ 1 := by
  constructor
  · intro h
    refine ⟨?_, h.default⟩
    intro c hc hArm
    rw [← Option.ne_none_iff_exists']
    exact fun hNone => armOf_eq_none_iff.mp (h.arms hNone c hc) hArm
  · rintro ⟨hArms, hDefault⟩
    refine ⟨?_, hDefault⟩
    intro hNone c hc
    rw [armOf_eq_none_iff]
    intro hArm
    obtain ⟨value, hSwitch⟩ := hArms c hc hArm
    rw [hNone] at hSwitch
    cases hSwitch

theorem lowered_ne_switch (n : Node) (value : ValueSource) (cases : List (Value × Instruction))
    (default : Option Instruction) : lowered ctx n ≠ .switch value cases default := by
  cases n with
  | text => simp [lowered]
  | interpolation => simp [lowered]
  | element tag attributes children range =>
    rw [lowered_element]
    simp only [around]
    cases conditionOf ctx _ <;> cases loopOf ctx _ <;> simp

theorem fits_iff {n : Node} : Fits ctx n ↔
    (∀ a ∈ n.attributes, ∃ c, Classified.ofAttribute ctx.registry ctx.origin a = .ok c) ∧
      ((sortedOf ctx n).commands.map Command.name).Nodup ∧
      (∀ c ∈ n.children, IsArm ctx c → ∃ value, switchOf ctx n = some value) ∧
      (n.children.filter (isDefault (armOf ctx))).length ≤ 1 := by
  have hMeans : ∀ a, (meaning? ctx a).isSome ↔
      ∃ c, Classified.ofAttribute ctx.registry ctx.origin a = .ok c :=
    fun a => Except.isSome_toOption
  constructor
  · intro h
    exact ⟨fun a ha => (hMeans a).mp (h.attributes a ha), h.commands, placed_iff.mp h.children⟩
  · rintro ⟨hAttributes, hCommands, hPlaced⟩
    exact ⟨fun a ha => (hMeans a).mpr (hAttributes a ha), hCommands, placed_iff.mpr hPlaced⟩

/-- A template is compiled exactly if the attributes of each element mean something, its commands
have different names, arms stand directly in switches only and each switch has one default at most.
Each element that switches on a value then has the instructions of its children that are no arms,
in their order, and one switch: after those in front of the first arm, with the cases in order, each
with its value and all that it is compiled to, and with a default if a child is one. What arm a
child is, the first of its commands says that makes it one. -/
theorem lower_gathers (ctx : Context) (nodes : List Node) :
    ((∃ is, lower ctx nodes = .ok is) ↔
      (∀ n ∈ nodes, ¬ IsArm ctx n) ∧ ∀ n ∈ nodes, ∀ m, n.Within m →
        (∀ a ∈ m.attributes, ∃ c, Classified.ofAttribute ctx.registry ctx.origin a = .ok c) ∧
        ((sortedOf ctx m).commands.map Command.name).Nodup ∧
        (∀ c ∈ m.children, IsArm ctx c → ∃ value, switchOf ctx m = some value) ∧
        (m.children.filter (isDefault (armOf ctx))).length ≤ 1) ∧
    ∀ is, lower ctx nodes = .ok is → is = nodes.map (lowered ctx) ∧
      ∀ n ∈ nodes, ∀ m, n.Within m →
        compileNode ctx m = .ok ⟨lowered ctx m, claimOf ctx m⟩ ∧
        ∀ value, switchOf ctx m = some value → ∃ tag before after cases default,
          let element := Instruction.element tag (sortedOf ctx m).operations
            (before.map (lowered ctx) ++ .switch value cases default :: after.map (lowered ctx))
          lowered ctx m = around (conditionOf ctx m) (loopOf ctx m) element ∧
          (∃ i ∈ is, ∃ loops, Instruction.Within loops i element) ∧
          before ++ after = m.children.filter (fun c => (armOf ctx c).isNone) ∧
          before = (m.children.takeWhile fun c => (armOf ctx c).isNone) ∧
          (∀ c ∈ before ++ after, ∀ v cs d, lowered ctx c ≠ .switch v cs d) ∧
          cases = (m.children.filterMap fun c =>
            ((armOf ctx c).bind Arm.value?).map fun v => (v, lowered ctx c)) ∧
          default = (m.children.find? (isDefault (armOf ctx))).map (lowered ctx) := by
  refine ⟨?_, ?_⟩
  · simp only [lower_eq_ok, ← armOf_eq_none_iff, ← fits_iff, exists_and_left, exists_eq,
      and_true]
  · intro is h
    obtain ⟨-, hFits, rfl⟩ := lower_eq_ok.mp h
    refine ⟨rfl, ?_⟩
    intro n hn m hm
    have hWithin : ∀ k, m.Within k → Fits ctx k := fun k hk => hFits n hn k (hm.trans hk)
    refine ⟨compileNode_eq_ok.mpr ⟨hWithin, rfl⟩, ?_⟩
    intro value hSwitch
    cases m with
    | text => cases hSwitch
    | interpolation => cases hSwitch
    | element tag attributes children range =>
      obtain ⟨before, after, hGather, hOrder, hBefore⟩ :=
        gather_eq (armOf ctx) (lowered ctx) value children
      have hLowered := @lowered_element ctx tag attributes children range
      simp only [hSwitch, inside, Option.elim_some, hGather] at hLowered
      refine ⟨tag, before, after, _, _, hLowered, ?_, hOrder, hBefore, ?_, rfl, rfl⟩
      · obtain ⟨loops, hm⟩ := lowered_within (hFits n hn) hm
        rw [hLowered] at hm
        obtain ⟨inner, hInner⟩ := around_within
          (conditionOf ctx (.element tag attributes children range))
          (loopOf ctx (.element tag attributes children range)) _
        exact ⟨_, List.mem_map_of_mem hn, _, hm.trans hInner⟩
      · intro c _
        exact lowered_ne_switch c

/-- A compilation with the standard commands. -/
def plainContext : Context :=
  ⟨.standard, ⟨"page.html", ""⟩⟩

/-- A title, two modes and a text between them. -/
def modes : Node :=
  .element "div" [⟨"*switch", "mode", {}⟩]
    [.element "h1" [] [.text "title"] {},
      .element "p" [⟨"*if", "open", {}⟩, ⟨"*switch-case", "edit", {}⟩] [] {},
      .text "or",
      .element "p" [⟨"*switch-default", "", {}⟩] [] {}] {}

theorem modes_gathered : ∃ tag operations before cases default after,
    lowered plainContext modes = around none none
      (.element tag operations (before ++ .switch (.reference "mode") cases default :: after)) ∧
    before.length = 1 ∧ cases.length = 1 ∧ default.isSome ∧ after.length = 1 := by
  obtain ⟨is, h⟩ : ∃ is, lower plainContext [modes] = .ok is :=
    Except.isSome_toOption.mp (by decide +kernel)
  obtain ⟨-, hNodes⟩ := (lower_gathers plainContext [modes]).2 is h
  obtain ⟨-, hSwitch⟩ := hNodes modes (by simp) modes (.refl modes)
  obtain ⟨tag, before, after, cases, default, hLowered, -, hOrder, hBefore, -, rfl, rfl⟩ :=
    hSwitch (.reference "mode") (by decide +kernel)
  have hAll : before.length + after.length = 2 := by
    rw [← List.length_append, hOrder]
    decide +kernel
  have hFirst : before.length = 1 := by
    rw [hBefore]
    decide +kernel
  have hCondition : conditionOf plainContext modes = none := by decide +kernel
  have hLoop : loopOf plainContext modes = none := by decide +kernel
  rw [hCondition, hLoop] at hLowered
  refine ⟨tag, _, _, _, _, _, hLowered, ?_, by decide +kernel, by decide +kernel, ?_⟩
  · rw [List.length_map, hFirst]
  · rw [List.length_map]
    omega

end LiveMarkup.Compile
