import LiveMarkup.Attribute.Classified
import LiveMarkup.Markup.Reading
import LiveMarkup.Program.Symbols

/-!
# Compiling a template

A template is compiled node by node. An element does its plain attributes first, then its
bindings of properties, then its other bindings, then its events; its conditions and loops are put
around it, the loop inside. The arms of a switch are gathered where the first of them stands.

* `Program.compile` compiles a text with a registry of commands.
-/

namespace LiveMarkup

namespace Compile

/-- What is fixed during a compilation. -/
structure Context where
  registry : Registry
  origin : Origin

/-- The part that an element wants in the switch around it, with the place where it says so. -/
structure ArmClaim where
  arm : Arm
  range : Range

/-- A compiled node. -/
structure Compiled where
  instruction : Instruction
  claim : Option ArmClaim := none

/-- The attributes of an element by what they mean, each kind in the order it is written in. -/
structure Sorted where
  plain : List Attribute := []
  directives : List Directive := []
  events : List Attribute := []
  commands : List Command := []

namespace Sorted

/-- Adds a classified attribute in front of its kind. -/
def add (s : Sorted) : Classified → Sorted
  | .plain a => { s with plain := a :: s.plain }
  | .directive d => { s with directives := d :: s.directives }
  | .event a => { s with events := a :: s.events }
  | .command c => { s with commands := c :: s.commands }

/-- The attributes of an element. -/
def ofAttributes (ctx : Context) : List Template.Attribute → Except Diagnostic Sorted
  | [] => .ok {}
  | a :: rest => do
    let first ← Classified.ofAttribute ctx.registry ctx.origin a
    let others ← ofAttributes ctx rest
    pure (others.add first)

/-- What is done to the element. -/
def operations (s : Sorted) : List Operation :=
  s.plain.map Classified.plainOperation ++
    (s.directives.filter Directive.isProperty).map Directive.operation ++
    (s.directives.filter fun d => !d.isProperty).map Directive.operation ++
    s.events.map Classified.eventOperation

/-- The commands around the element, the innermost first. -/
def wrappers (s : Sorted) : List Command :=
  (s.commands.filter Command.isWrapper).mergeSort fun c d => c.priority ≤ d.priority

/-- The value that the element switches on. -/
def switched? (s : Sorted) : Option ValueSource :=
  s.commands.findSome? Command.switched?

/-- The part of the element in the switch around it. -/
def claim? (s : Sorted) : Option ArmClaim :=
  s.commands.findSome? fun c => c.arm?.map fun arm => ⟨arm, c.written.range⟩

end Sorted

/-- The diagnostic for an arm that no switch takes. -/
def orphan (ctx : Context) (range : Range) : Diagnostic :=
  .about .orphanArm "Switch arm outside of a `*switch` element." ctx.origin range

/-- The instructions of nodes outside of a switch, where no node may be an arm. -/
def withoutArms (ctx : Context) : List Compiled → Except Diagnostic (List Instruction)
  | [] => .ok []
  | c :: rest =>
    match c.claim with
    | some claim => .error (orphan ctx claim.range)
    | none => do
      let others ← withoutArms ctx rest
      pure (c.instruction :: others)

/-- The children of a switch, sorted: what stands before the first arm, what stands after it, and
the arms themselves. -/
structure Arms where
  before : List Instruction := []
  after : List Instruction := []
  found : Bool := false
  cases : List (Value × Instruction) := []
  default : Option Instruction := none

namespace Arms

/-- Adds the next child of a switch. -/
def add (ctx : Context) (arms : Arms) (c : Compiled) : Except Diagnostic Arms :=
  match c.claim with
  | none =>
    if arms.found then .ok { arms with after := arms.after ++ [c.instruction] }
    else .ok { arms with before := arms.before ++ [c.instruction] }
  | some ⟨.case value, _⟩ =>
    .ok { arms with found := true, cases := arms.cases ++ [(value, c.instruction)] }
  | some ⟨.default, range⟩ =>
    if arms.default.isSome then
      .error
        (.about .duplicateDefault "A switch has more than one `switch-default` arm." ctx.origin
          range)
    else .ok { arms with found := true, default := some c.instruction }

/-- The children of the element, with one switch for its arms. -/
def instructions (arms : Arms) (value : ValueSource) : List Instruction :=
  arms.before ++ .switch value arms.cases arms.default :: arms.after

end Arms

/-- The children of an element. -/
def childrenOf (ctx : Context) (switched : Option ValueSource) (children : List Compiled) :
    Except Diagnostic (List Instruction) :=
  match switched with
  | none => withoutArms ctx children
  | some value => do
    let arms ← children.foldlM (Arms.add ctx) {}
    pure (arms.instructions value)

mutual

/-- Compiles a node. -/
def compileNode (ctx : Context) : Template.Node → Except Diagnostic Compiled
  | .text value => .ok { instruction := .text value }
  | .interpolation code raw =>
    .ok { instruction := .dynamicText (if raw then .expression code else .reference code) }
  | .element tag attributes children _ => do
    let sorted ← Sorted.ofAttributes ctx attributes
    Command.checkUnique ctx.origin [] (sorted.commands.map fun c => (c.name, c.written.range))
    let compiled ← compileNodes ctx children
    let inside ← childrenOf ctx sorted.switched? compiled
    let element := Instruction.element tag sorted.operations inside
    pure ⟨sorted.wrappers.foldl (fun inner c => c.wrap inner) element, sorted.claim?⟩

/-- Compiles a list of nodes. -/
def compileNodes (ctx : Context) : List Template.Node → Except Diagnostic (List Compiled)
  | [] => .ok []
  | node :: rest => do
    let first ← compileNode ctx node
    let others ← compileNodes ctx rest
    pure (first :: others)

end

end Compile

namespace Program

/-- Compiles a text with a registry of commands. -/
def compileWith (registry : Registry) (markup : String) (options : Options) :
    Except Diagnostic Program := do
  let ctx : Compile.Context := ⟨registry, ⟨options.file, markup⟩⟩
  let compiled ← Compile.compileNodes ctx (Template.read markup options).nodes
  let instructions ← Compile.withoutArms ctx compiled
  pure (.ofInstructions options.file instructions)

/-- Compiles a text. -/
def compile (markup : String) (options : Options) : Except Diagnostic Program :=
  compileWith .standard markup options

end Program

end LiveMarkup
