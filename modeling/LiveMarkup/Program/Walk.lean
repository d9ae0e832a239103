import LiveMarkup.Program.Codec

/-!
# Walking a program

The order in which the parts of a program are visited: that of the document, each part before what
it contains.

* `Instruction.visits` lists all visits;
* `Instruction.sources` lists the sources alone.
-/

namespace LiveMarkup

/-- A step of the walk over a program. -/
inductive Visit where
  | instruction (i : Instruction)
  | enter (tag : String)
  | leave (tag : String)
  | operation (op : Operation)
  | source (source : ValueSource)
  | loop (loop : Loop)
  | case (value : Value)

/-- The written form of a step of the walk. -/
def Visit.toValue : Visit → Value
  | instruction i => .array [.string "instruction", .string i.typeName]
  | enter tag => .array [.string "element", .string tag]
  | leave tag => .array [.string "end", .string tag]
  | operation op => .array [.string "operation", .string op.opName]
  | source s => .array [.string "source", s.toValue]
  | loop l => .array [.string "for", .string l.item]
  | case value => .array [.string "case", value]

/-- Whether a step of the walk only announces an instruction. -/
def Visit.isInstruction : Visit → Bool
  | instruction _ => true
  | _ => false

namespace Instruction

mutual

/-- The walk over an instruction. -/
def visits : Instruction → List Visit
  | i@(element tag operations children) =>
    .instruction i :: .enter tag ::
      operations.flatMap (fun op => .operation op :: op.source?.toList.map .source) ++
      visitsOfAll children ++ [.leave tag]
  | i@(text _) => [.instruction i]
  | i@(dynamicText source) => [.instruction i, .source source]
  | i@(conditional condition body) => .instruction i :: .source condition :: body.visits
  | i@(forLoop loop body) => .instruction i :: .loop loop :: .source loop.iterable :: body.visits
  | i@(switch value cases default) =>
    .instruction i :: .source value :: visitsOfCases cases ++ visitsOfDefault default

/-- The walk over a list of instructions. -/
def visitsOfAll : List Instruction → List Visit
  | [] => []
  | i :: rest => i.visits ++ visitsOfAll rest

/-- The walk over the cases of a switch. -/
def visitsOfCases : List (Value × Instruction) → List Visit
  | [] => []
  | (value, body) :: rest => .case value :: body.visits ++ visitsOfCases rest

/-- The walk over the default of a switch. -/
def visitsOfDefault : Option Instruction → List Visit
  | none => []
  | some body => body.visits

end

end Instruction

namespace Program

/-- The walk over a program. -/
def visits (p : Program) : List Visit :=
  Instruction.visitsOfAll p.instructions

/-- The sources of a program, in the order of the walk. -/
def sources (p : Program) : List ValueSource :=
  p.visits.filterMap fun
    | .source source => some source
    | _ => none

end Program

end LiveMarkup
