import LiveMarkup.Proofs.Program.Literals

/-!
# Attributes and children of an element

The attributes of an element mean what its compiler takes them for: what is done to the element,
and the commands that decide whether, how often and where it is there. If no two of the commands
have one name, then each kind of them is there once at most, and their order does not matter: a
condition is around a loop, and a loop around the element.

An element that switches on a value gathers those of its children that are arms in one instruction,
which stands where the first of them does. In all other elements no child may be an arm. What comes
of the children depends on their arms and on what each of them is compiled to, and on nothing else.

* `Template.Node.Within`: the nodes in a node, at any depth;
* `Compile.sortedOf`: the attributes of a node by what they mean;
* `Compile.Sorted.ofAttributes_eq_ok`: when all attributes of an element mean something;
* `Compile.around`: an instruction with its loop and its condition around it;
* `Compile.Sorted.foldl_wrappers`: what the commands of an element put around it;
* `Compile.inside`: what the children of an element are compiled to;
* `Compile.Placed`: what is asked of the arms among them;
* `Compile.childrenOf_eq_ok`: the children are compiled exactly if this holds, and to that;
* `Compile.gather_eq`: the children of a switch in two parts with the switch between them.
-/

/-! ## What the attributes of an element mean -/

namespace LiveMarkup

theorem Except.toOption_eq_some {ε α : Type} {x : Except ε α} {a : α} :
    x.toOption = some a ↔ x = .ok a := by
  cases x <;> simp [Except.toOption]

theorem Except.isSome_toOption {ε α : Type} {x : Except ε α} :
    x.toOption.isSome ↔ ∃ a, x = .ok a := by
  cases x <;> simp [Except.toOption]

theorem Except.map_eq_ok {ε α β : Type} {x : Except ε α} {f : α → β} {b : β} :
    x.map f = .ok b ↔ ∃ a, x = .ok a ∧ f a = b := by
  cases x <;> simp [Except.map]

namespace Classified

def plain? : Classified → Option Attribute
  | plain a => some a
  | _ => none

def directive? : Classified → Option Directive
  | directive d => some d
  | _ => none

def event? : Classified → Option Attribute
  | event a => some a
  | _ => none

def command? : Classified → Option Command
  | command c => some c
  | _ => none

end Classified

namespace Command

/-- The condition of a command. -/
def condition? (c : Command) : Option ValueSource :=
  match c.kind with
  | .condition source => some source
  | _ => none

/-- The loop of a command. -/
def loop? (c : Command) : Option Loop :=
  match c.kind with
  | .loop loop => some loop
  | _ => none

theorem checkUnique_eq_ok {origin : Origin} {entries : List (String × Range)} :
    ∀ {seen : List String}, checkUnique origin seen entries = .ok () ↔
      (entries.map Prod.fst).Nodup ∧ ∀ e ∈ entries, e.1 ∉ seen := by
  induction entries with
  | nil => simp [checkUnique]
  | cons e rest ih =>
    intro seen
    obtain ⟨name, range⟩ := e
    rw [checkUnique]
    by_cases hSeen : name ∈ seen
    · simp [hSeen]
    · rw [if_neg (by simpa using hSeen), ih]
      simp only [List.map_cons, List.nodup_cons, List.mem_map, List.mem_cons, not_or]
      grind

theorem name_of_condition? (c : Command) (h : c.condition?.isSome) : c.name = "if" := by
  obtain ⟨_, kind⟩ := c
  cases kind <;> first | rfl | cases h

theorem name_of_loop? (c : Command) (h : c.loop?.isSome) : c.name = "for" := by
  obtain ⟨_, kind⟩ := c
  cases kind <;> first | rfl | cases h

theorem name_of_switched? (c : Command) (h : c.switched?.isSome) : c.name = "switch" := by
  obtain ⟨_, kind⟩ := c
  cases kind <;> first | rfl | cases h

/-- Of commands with different names one at most has a property that only one name has. -/
theorem filterMap_eq_toList {α : Type} {f : Command → Option α} {name : String}
    (hf : ∀ c, (f c).isSome → c.name = name) {commands : List Command}
    (hUnique : (commands.map Command.name).Nodup) :
    commands.filterMap f = (commands.findSome? f).toList := by
  induction commands with
  | nil => rfl
  | cons c rest ih =>
    obtain ⟨hNot, hRest⟩ := List.nodup_cons.mp hUnique
    cases hc : f c with
    | none => rw [List.filterMap_cons_none hc, List.findSome?_cons, hc, ih hRest]
    | some a =>
      have hNone : rest.filterMap f = [] := by
        apply List.filterMap_eq_nil_iff.mpr
        intro d hd
        rw [← Option.not_isSome_iff_eq_none]
        intro hSome
        exact hNot (List.mem_map.mpr ⟨d, hd, (hf d hSome).trans (hf c (by simp [hc])).symm⟩)
      rw [List.filterMap_cons_some hc, hNone, List.findSome?_cons, hc]
      rfl

theorem isWrapper_iff {c : Command} : c.isWrapper = true ↔
    (∃ a source, c = ⟨a, .condition source⟩) ∨ ∃ a loop, c = ⟨a, .loop loop⟩ := by
  obtain ⟨a, kind⟩ := c
  cases kind <;> simp [isWrapper]

/-- Commands around one element that have different names: a condition and a loop at most. -/
theorem wrappers_cases {cs : List Command} (hAll : ∀ c ∈ cs, c.isWrapper = true)
    (hUnique : (cs.map name).Nodup) :
    cs = [] ∨ (∃ a source, cs = [⟨a, .condition source⟩]) ∨ (∃ a loop, cs = [⟨a, .loop loop⟩]) ∨
      ∃ a source b loop, cs = [⟨a, .condition source⟩, ⟨b, .loop loop⟩] ∨
        cs = [⟨b, .loop loop⟩, ⟨a, .condition source⟩] := by
  match cs with
  | [] => exact .inl rfl
  | [c] =>
    rcases isWrapper_iff.mp (hAll c (by simp)) with ⟨a, source, rfl⟩ | ⟨a, loop, rfl⟩
    · exact .inr (.inl ⟨a, source, rfl⟩)
    · exact .inr (.inr (.inl ⟨a, loop, rfl⟩))
  | [c, d] =>
    rcases isWrapper_iff.mp (hAll c (by simp)) with ⟨a, source, rfl⟩ | ⟨a, loop, rfl⟩ <;>
      rcases isWrapper_iff.mp (hAll d (by simp)) with ⟨b, source', rfl⟩ | ⟨b, loop', rfl⟩
    · simp [name] at hUnique
    · exact .inr (.inr (.inr ⟨a, source, b, loop', .inl rfl⟩))
    · exact .inr (.inr (.inr ⟨b, source', a, loop, .inr rfl⟩))
    · simp [name] at hUnique
  | c :: d :: e :: rest =>
    -- Three names, but only two to choose from.
    have hName : ∀ x ∈ c :: d :: e :: rest, x.name = "if" ∨ x.name = "for" := by
      intro x hx
      rcases isWrapper_iff.mp (hAll x hx) with ⟨a, source, rfl⟩ | ⟨a, loop, rfl⟩
      · exact .inl rfl
      · exact .inr rfl
    have hc := hName c (by simp)
    have hd := hName d (by simp)
    have he := hName e (by simp)
    simp only [List.map_cons, List.nodup_cons, List.mem_cons, not_or] at hUnique
    grind

end Command

/-! ### Nodes of a template -/

namespace Template.Node

/-- The attributes of a node; only an element has some. -/
def attributes : Node → List Attribute
  | element _ attributes _ _ => attributes
  | text _ => []
  | interpolation _ _ => []

/-- The nodes that stand directly in a node. -/
def children : Node → List Node
  | element _ _ children _ => children
  | text _ => []
  | interpolation _ _ => []

/-- A node is another one or stands in it, at any depth. -/
inductive Within : Node → Node → Prop where
  | refl (n : Node) : Within n n
  | child {n c m : Node} (hChild : c ∈ n.children) (h : Within c m) : Within n m

theorem Within.trans {n m k : Node} (h : n.Within m) (hInner : m.Within k) : n.Within k := by
  induction h with
  | refl => exact hInner
  | child hc _ ih => exact .child hc (ih hInner)

theorem forall_within_iff {P : Node → Prop} {n : Node} :
    (∀ m, n.Within m → P m) ↔ P n ∧ ∀ c ∈ n.children, ∀ m, c.Within m → P m := by
  constructor
  · intro h
    exact ⟨h n (.refl n), fun c hc m hm => h m (.child hc hm)⟩
  · rintro ⟨hSelf, hChildren⟩ m hm
    cases hm with
    | refl => exact hSelf
    | child hc hm => exact hChildren _ hc m hm

theorem sizeOf_child_lt {n c : Node} (h : c ∈ n.children) : sizeOf c < sizeOf n := by
  cases n with
  | element tag attributes children range =>
    have hLt := List.sizeOf_lt_of_mem h
    rw [element.sizeOf_spec]
    simp only [Node.children] at hLt
    omega
  | text => cases h
  | interpolation => cases h

theorem children_induction {motive : Node → Prop}
    (step : ∀ n : Node, (∀ c ∈ n.children, motive c) → motive n) (n : Node) : motive n :=
  step n fun c h =>
    have := sizeOf_child_lt h
    children_induction step c
termination_by sizeOf n

end Template.Node

namespace Compile

open Template (Node)

/-! ### The attributes of an element -/

/-- Some meanings, each kind in its order. -/
def Sorted.ofMeanings (meanings : List Classified) : Sorted where
  plain := meanings.filterMap Classified.plain?
  directives := meanings.filterMap Classified.directive?
  events := meanings.filterMap Classified.event?
  commands := meanings.filterMap Classified.command?

theorem Sorted.ofMeanings_cons (m : Classified) (meanings : List Classified) :
    ofMeanings (m :: meanings) = (ofMeanings meanings).add m := by
  cases m <;> rfl

section

variable (ctx : Context)

/-- What an attribute means, if it means something. -/
def meaning? (a : Template.Attribute) : Option Classified :=
  (Classified.ofAttribute ctx.registry ctx.origin a).toOption

/-- The attributes of a node by what they mean. -/
def sortedOf (n : Node) : Sorted :=
  .ofMeanings (n.attributes.filterMap (meaning? ctx))

/-- The part that a node wants in the switch around it: that of the first arm among its
attributes. -/
def claimOf (n : Node) : Option ArmClaim :=
  (sortedOf ctx n).claim?

/-- The arm that a node is of the switch around it. -/
def armOf (n : Node) : Option Arm :=
  (claimOf ctx n).map (·.arm)

/-- The value that a node switches on. -/
def switchOf (n : Node) : Option ValueSource :=
  (sortedOf ctx n).switched?

def conditionOf (n : Node) : Option ValueSource :=
  (sortedOf ctx n).commands.findSome? Command.condition?

def loopOf (n : Node) : Option Loop :=
  (sortedOf ctx n).commands.findSome? Command.loop?

end

variable {ctx : Context}

theorem meaning?_eq_some {a : Template.Attribute} {m : Classified} :
    meaning? ctx a = some m ↔ Classified.ofAttribute ctx.registry ctx.origin a = .ok m :=
  Except.toOption_eq_some

theorem Sorted.ofAttributes_eq_ok {attributes : List Template.Attribute} :
    ∀ {s : Sorted}, ofAttributes ctx attributes = .ok s ↔
      (∀ a ∈ attributes, (meaning? ctx a).isSome) ∧
        s = .ofMeanings (attributes.filterMap (meaning? ctx)) := by
  induction attributes with
  | nil =>
    intro s
    constructor
    · intro h
      exact ⟨by simp, (Except.ok.inj h).symm⟩
    · rintro ⟨-, rfl⟩
      rfl
  | cons a rest ih =>
    intro s
    rw [ofAttributes, Except.bind_eq_ok]
    constructor
    · rintro ⟨first, hFirst, h⟩
      obtain ⟨others, hOthers, h⟩ := Except.bind_eq_ok.mp h
      obtain ⟨hRest, rfl⟩ := ih.mp hOthers
      have hMeaning := meaning?_eq_some.mpr hFirst
      refine ⟨?_, ?_⟩
      · simpa [hMeaning] using hRest
      · rw [List.filterMap_cons_some hMeaning, ofMeanings_cons]
        exact (Except.ok.inj h).symm
    · rintro ⟨hAll, rfl⟩
      obtain ⟨first, hMeaning⟩ := Option.isSome_iff_exists.mp (hAll a List.mem_cons_self)
      have hOthers := ih.mpr ⟨fun b hb => hAll b (List.mem_cons_of_mem _ hb), rfl⟩
      refine ⟨first, meaning?_eq_some.mp hMeaning, Except.bind_eq_ok.mpr ⟨_, hOthers, ?_⟩⟩
      rw [List.filterMap_cons_some hMeaning, ofMeanings_cons]
      rfl

/-! ### Conditions and loops -/

/-- An instruction inside of a loop and, outside of that, a condition. -/
def around (condition : Option ValueSource) (loop : Option Loop) (inner : Instruction) :
    Instruction :=
  let repeated := loop.elim inner fun l => .forLoop l inner
  condition.elim repeated fun c => .conditional c repeated

/-- Commands of different names have at most one condition and one loop among them, and these are
put around an element in the order of their ranks. -/
theorem Sorted.foldl_wrappers {s : Sorted} (hUnique : (s.commands.map Command.name).Nodup)
    (inner : Instruction) :
    s.wrappers.foldl (fun inner c => c.wrap inner) inner =
      around (s.commands.findSome? Command.condition?) (s.commands.findSome? Command.loop?)
        inner := by
  have hFind : ∀ {α : Type} (f : Command → Option α),
      (∀ c : Command, c.isWrapper = false → f c = none) →
      s.commands.findSome? f = (s.commands.filter Command.isWrapper).findSome? f := by
    intro α f hf
    induction s.commands with
    | nil => rfl
    | cons c rest ih =>
      cases hWrapper : c.isWrapper <;> simp_all [List.findSome?_cons]
  rw [hFind _ fun c hc => by unfold Command.condition?; split <;> simp_all [Command.isWrapper],
    hFind _ fun c hc => by unfold Command.loop?; split <;> simp_all [Command.isWrapper], wrappers]
  have hNames : ((s.commands.filter Command.isWrapper).map Command.name).Nodup :=
    hUnique.sublist (List.filter_sublist.map _)
  have hAll : ∀ c ∈ s.commands.filter Command.isWrapper, c.isWrapper = true := fun c hc =>
    (List.mem_filter.mp hc).2
  generalize s.commands.filter Command.isWrapper = wrappers at hNames hAll
  rcases Command.wrappers_cases hAll hNames with
    rfl | ⟨a, source, rfl⟩ | ⟨a, loop, rfl⟩ | ⟨a, source, b, loop, rfl | rfl⟩ <;>
  simp [List.mergeSort, List.findSome?_cons, Command.priority, Command.wrap,
    Command.condition?, Command.loop?, around]

end Compile

end LiveMarkup

/-! ## The children of an element -/

namespace LiveMarkup

namespace Arm

def value? : Arm → Option Value
  | case value => some value
  | default => none

def isDefault : Arm → Bool
  | case _ => false
  | default => true

end Arm

namespace Compile

variable {ctx : Context}

section

variable {α β : Type} (arm : α → Option Arm) (body : α → Instruction)

/-- The cases among the children of a switch, with what they are compiled to. -/
def casesAmong (children : List α) : List (Value × Instruction) :=
  children.filterMap fun c => ((arm c).bind Arm.value?).map fun v => (v, body c)

def isDefault (c : α) : Bool :=
  (arm c).any Arm.isDefault

/-- What the first default among the children of a switch is compiled to. -/
def defaultAmong (children : List α) : Option Instruction :=
  (children.find? (isDefault arm)).map body

/-- What the children of a switch are compiled to: those before the first arm, then the switch of
all arms, then the children after it that are no arms. -/
def gather (value : ValueSource) (children : List α) : List Instruction :=
  (children.takeWhile fun c => (arm c).isNone).map body ++
    .switch value (casesAmong arm body children) (defaultAmong arm body children) ::
    ((children.dropWhile fun c => (arm c).isNone).filter fun c => (arm c).isNone).map body

/-- What the children of an element are compiled to. -/
def inside (switched : Option ValueSource) (children : List α) : List Instruction :=
  switched.elim (children.map body) fun value => gather arm body value children

/-- The arms among the children of an element belong to its switch, with one default at most. -/
structure Placed (switched : Option ValueSource) (children : List α) : Prop where
  arms : switched = none → ∀ c ∈ children, arm c = none
  default : (children.filter (isDefault arm)).length ≤ 1

theorem eq_toList_of_length_le {l : List α} (h : l.length ≤ 1) : l = l.head?.toList := by
  cases l with
  | nil => rfl
  | cons a rest =>
    obtain rfl : rest = [] := List.length_eq_zero_iff.mp (by simpa using h)
    rfl

variable {arm body} in
theorem casesAmong_cons {c : α} {rest : List α} : casesAmong arm body (c :: rest) =
    (((arm c).bind Arm.value?).map fun v => (v, body c)).toList ++ casesAmong arm body rest := by
  rw [casesAmong, List.filterMap_cons]
  cases ((arm c).bind Arm.value?).map fun v => (v, body c) <;> rfl

variable {arm body} in
theorem defaultAmong_cons {c : α} {rest : List α} : defaultAmong arm body (c :: rest) =
    if isDefault arm c then some (body c) else defaultAmong arm body rest := by
  rw [defaultAmong, List.find?_cons]
  cases isDefault arm c <;> rfl

theorem inside_map (f : β → α) (switched : Option ValueSource) (children : List β) :
    inside arm body switched (children.map f) =
      inside (fun c => arm (f c)) (fun c => body (f c)) switched children := by
  cases switched with
  | none => simp [inside]
  | some value =>
    simp [inside, gather, casesAmong, defaultAmong, List.takeWhile_map, List.dropWhile_map,
      List.filter_map, List.filterMap_map, List.find?_map, Function.comp_def]
    rfl

end

theorem placed_map_iff {α β : Type} {arm : α → Option Arm} {f : β → α}
    {switched : Option ValueSource} {children : List β} :
    Placed arm switched (children.map f) ↔ Placed (fun c => arm (f c)) switched children := by
  have hLength : ((children.map f).filter (isDefault arm)).length =
      (children.filter (isDefault fun c => arm (f c))).length := by
    rw [List.filter_map, List.length_map]
    rfl
  constructor
  · intro h
    exact ⟨fun hNone c hc => h.arms hNone _ (List.mem_map_of_mem hc), hLength ▸ h.default⟩
  · intro h
    refine ⟨?_, hLength ▸ h.default⟩
    intro hNone c hc
    obtain ⟨d, hd, rfl⟩ := List.mem_map.mp hc
    exact h.arms hNone d hd

/-- The arm that a compiled node wants to be. -/
def Compiled.arm (c : Compiled) : Option Arm :=
  c.claim.map (·.arm)

theorem withoutArms_eq_ok {compiled : List Compiled} :
    ∀ {is : List Instruction}, withoutArms ctx compiled = .ok is ↔
      (∀ c ∈ compiled, c.arm = none) ∧ is = compiled.map (·.instruction) := by
  induction compiled with
  | nil =>
    intro is
    constructor
    · intro h
      exact ⟨by simp, (Except.ok.inj h).symm⟩
    · rintro ⟨-, rfl⟩
      rfl
  | cons c rest ih =>
    intro is
    rw [withoutArms]
    cases hClaim : c.claim with
    | some claim => simp [Compiled.arm, hClaim]
    | none =>
      rw [Except.bind_eq_ok]
      constructor
      · rintro ⟨others, hOthers, h⟩
        obtain ⟨hRest, rfl⟩ := ih.mp hOthers
        refine ⟨?_, (Except.ok.inj h).symm⟩
        simpa [Compiled.arm, hClaim] using hRest
      · rintro ⟨hAll, rfl⟩
        exact ⟨_, ih.mpr ⟨fun d hd => hAll d (List.mem_cons_of_mem _ hd), rfl⟩, rfl⟩

/-- Once an arm has been found, what is no arm stands after the switch. -/
theorem foldlM_add_found {compiled : List Compiled} : ∀ {arms new : Arms}, arms.found = true →
    (compiled.foldlM (Arms.add ctx) arms = .ok new ↔
      (compiled.filter (isDefault Compiled.arm)).length + arms.default.toList.length ≤ 1 ∧
        new = { arms with
          after := arms.after ++ (compiled.filter fun c => c.arm.isNone).map (·.instruction)
          cases := arms.cases ++ casesAmong Compiled.arm (·.instruction) compiled
          default := arms.default.or (defaultAmong Compiled.arm (·.instruction) compiled) }) := by
  induction compiled with
  | nil =>
    intro arms new hFound
    have hDefault : arms.default.toList.length ≤ 1 := by cases arms.default <;> simp
    simp [casesAmong, defaultAmong, hDefault, pure, Except.pure, eq_comm (a := new)]
  | cons c rest ih =>
    intro arms new hFound
    rw [List.foldlM_cons]
    cases hClaim : c.claim with
    | none =>
      have hArm : c.arm = none := by simp [Compiled.arm, hClaim]
      simp [Arms.add, hClaim, hFound, bind, Except.bind, ih, hArm, casesAmong_cons,
        defaultAmong_cons, isDefault]
    | some claim =>
      obtain ⟨arm, range⟩ := claim
      have hArm : c.arm = some arm := by simp [Compiled.arm, hClaim]
      cases arm with
      | case value =>
        simp [Arms.add, hClaim, hFound, bind, Except.bind, ih, hArm, casesAmong_cons,
          defaultAmong_cons, isDefault, Arm.value?, Arm.isDefault]
      | default =>
        cases hDefault : arms.default with
        | some first =>
          simp [Arms.add, hClaim, hDefault, bind, Except.bind, isDefault, hArm, Arm.isDefault]
        | none =>
          simp [Arms.add, hClaim, hFound, hDefault, bind, Except.bind, ih, hArm, casesAmong_cons,
            defaultAmong_cons, isDefault, Arm.value?, Arm.isDefault]

/-- The children of a switch, gathered from the first on. -/
theorem foldlM_add_eq_ok {compiled : List Compiled} : ∀ {before : List Instruction} {new : Arms},
    compiled.foldlM (Arms.add ctx) { before } = .ok new ↔
      (compiled.filter (isDefault Compiled.arm)).length ≤ 1 ∧
        new = {
          before := before ++ (compiled.takeWhile fun c => c.arm.isNone).map (·.instruction)
          after := ((compiled.dropWhile fun c => c.arm.isNone).filter fun c =>
            c.arm.isNone).map (·.instruction)
          found := compiled.any fun c => c.arm.isSome
          cases := casesAmong Compiled.arm (·.instruction) compiled
          default := defaultAmong Compiled.arm (·.instruction) compiled } := by
  induction compiled with
  | nil =>
    intro before new
    simp [casesAmong, defaultAmong, pure, Except.pure, eq_comm (a := new)]
  | cons c rest ih =>
    intro before new
    rw [List.foldlM_cons]
    cases hClaim : c.claim with
    | none =>
      have hArm : c.arm = none := by simp [Compiled.arm, hClaim]
      simp [Arms.add, hClaim, bind, Except.bind, ih, hArm, casesAmong_cons, defaultAmong_cons,
        isDefault]
    | some claim =>
      obtain ⟨arm, range⟩ := claim
      have hArm : c.arm = some arm := by simp [Compiled.arm, hClaim]
      cases arm with
      | case value =>
        simp [Arms.add, hClaim, bind, Except.bind, foldlM_add_found, hArm, casesAmong_cons,
          defaultAmong_cons, isDefault, Arm.value?, Arm.isDefault]
      | default =>
        simp [Arms.add, hClaim, bind, Except.bind, foldlM_add_found, hArm, casesAmong_cons,
          defaultAmong_cons, isDefault, Arm.value?, Arm.isDefault]

/-- The children of an element are compiled if its arms are in place, and to what. -/
theorem childrenOf_eq_ok {switched : Option ValueSource} {compiled : List Compiled}
    {is : List Instruction} : childrenOf ctx switched compiled = .ok is ↔
      Placed Compiled.arm switched compiled ∧
        is = inside Compiled.arm (·.instruction) switched compiled := by
  cases switched with
  | none =>
    rw [childrenOf, withoutArms_eq_ok]
    constructor
    · rintro ⟨hArms, rfl⟩
      refine ⟨⟨fun _ => hArms, ?_⟩, rfl⟩
      rw [List.filter_eq_nil_iff.mpr fun c hc => by simp [isDefault, hArms c hc]]
      exact Nat.zero_le 1
    · rintro ⟨hPlaced, rfl⟩
      exact ⟨hPlaced.arms rfl, rfl⟩
  | some value =>
    rw [childrenOf, Except.bind_eq_ok]
    constructor
    · rintro ⟨arms, hArms, h⟩
      obtain ⟨hDefault, rfl⟩ := foldlM_add_eq_ok.mp hArms
      refine ⟨⟨nofun, hDefault⟩, ?_⟩
      rw [← Except.ok.inj h]
      rfl
    · rintro ⟨hPlaced, rfl⟩
      exact ⟨_, foldlM_add_eq_ok.mpr ⟨hPlaced.default, rfl⟩, rfl⟩

/-! ### The parts of a switch -/

section

variable {α : Type} {arm : α → Option Arm} {body : α → Instruction} {value : ValueSource}
  {children : List α} {c : α}

theorem mem_gather_of_none (hc : c ∈ children) (hArm : arm c = none) :
    body c ∈ gather arm body value children := by
  rw [← List.takeWhile_append_dropWhile (p := fun c => (arm c).isNone) (l := children),
    List.mem_append] at hc
  rw [gather, List.mem_append, List.mem_cons]
  rcases hc with hc | hc
  · exact .inl (List.mem_map_of_mem hc)
  · exact .inr (.inr (List.mem_map_of_mem (List.mem_filter.mpr ⟨hc, by simp [hArm]⟩)))

theorem mem_gather_switch : .switch value (casesAmong arm body children)
    (defaultAmong arm body children) ∈ inside arm body (some value) children :=
  List.mem_append_right _ List.mem_cons_self

theorem mem_casesAmong {v : Value} (hc : c ∈ children) (hArm : arm c = some (.case v)) :
    (v, body c) ∈ casesAmong arm body children :=
  List.mem_filterMap.mpr ⟨c, hc, by simp [hArm, Arm.value?]⟩

theorem defaultAmong_eq (hc : c ∈ children) (hArm : arm c = some .default)
    (hOne : (children.filter (isDefault arm)).length ≤ 1) :
    defaultAmong arm body children = some (body c) := by
  have hMem : c ∈ children.filter (isDefault arm) :=
    List.mem_filter.mpr ⟨hc, by simp [isDefault, hArm, Arm.isDefault]⟩
  rw [eq_toList_of_length_le hOne, Option.mem_toList] at hMem
  rw [defaultAmong, ← List.head?_filter, hMem]
  rfl

end

/-- The children of a switch that are no arms stay in their order, and the switch stands after
those in front of the first arm. -/
theorem gather_eq {α : Type} (arm : α → Option Arm) (body : α → Instruction) (value : ValueSource)
    (children : List α) : ∃ before after,
    gather arm body value children = before.map body ++
        .switch value (casesAmong arm body children) (defaultAmong arm body children) ::
        after.map body ∧
      before ++ after = children.filter (fun c => (arm c).isNone) ∧
      before = children.takeWhile fun c => (arm c).isNone := by
  refine ⟨_, _, rfl, ?_, rfl⟩
  induction children with
  | nil => rfl
  | cons c rest ih => cases hArm : arm c <;> simp [hArm, ih]

end Compile

end LiveMarkup
