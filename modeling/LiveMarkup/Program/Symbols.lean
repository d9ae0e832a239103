import LiveMarkup.Program.Instruction

/-!
# Free names

The names that a program takes from its data are the roots of its references that no enclosing
loop binds. The iterable of a loop is read outside of it.

* `Instruction.symbols` lists them as they occur;
* `Program.sortSymbols` puts them in order without repetition;
* `Instruction.needsHost` says whether an expression or an event occurs.
-/

namespace LiveMarkup

/-- The free root of a source under some bound names. -/
def ValueSource.free (bound : List String) (source : ValueSource) : List String :=
  source.root?.toList.filter fun name => !bound.contains name

/-- Whether a source is evaluated by the host. -/
def ValueSource.isExpression : ValueSource → Bool
  | .reference _ => false
  | .expression _ => true

namespace Operation

/-- The free names of an operation. -/
def symbols (bound : List String) (op : Operation) : List String :=
  op.source?.toList.flatMap (ValueSource.free bound)

/-- Whether an operation needs the host. -/
def needsHost : Operation → Bool
  | bind _ source => source.isExpression
  | listen _ _ => true
  | setAttribute _ _ => false

end Operation

namespace Instruction

mutual

/-- The free names of an instruction under some bound names. -/
def symbols (bound : List String) : Instruction → List String
  | element _ operations children =>
    operations.flatMap (Operation.symbols bound) ++ symbolsOfAll bound children
  | text _ => []
  | dynamicText source => source.free bound
  | conditional condition body => condition.free bound ++ body.symbols bound
  | forLoop loop body => loop.iterable.free bound ++ body.symbols (loop.names ++ bound)
  | switch value cases default =>
    value.free bound ++ symbolsOfCases bound cases ++ symbolsOfDefault bound default

/-- The free names of a list of instructions. -/
def symbolsOfAll (bound : List String) : List Instruction → List String
  | [] => []
  | i :: rest => i.symbols bound ++ symbolsOfAll bound rest

/-- The free names of the cases of a switch. -/
def symbolsOfCases (bound : List String) : List (Value × Instruction) → List String
  | [] => []
  | (_, body) :: rest => body.symbols bound ++ symbolsOfCases bound rest

/-- The free names of the default of a switch. -/
def symbolsOfDefault (bound : List String) : Option Instruction → List String
  | none => []
  | some body => body.symbols bound

end

mutual

/-- Whether an instruction needs the host. -/
def needsHost : Instruction → Bool
  | element _ operations children => operations.any Operation.needsHost || anyNeedsHost children
  | text _ => false
  | dynamicText source => source.isExpression
  | conditional condition body => condition.isExpression || body.needsHost
  | forLoop loop body => loop.iterable.isExpression || body.needsHost
  | switch value cases default =>
    value.isExpression || caseNeedsHost cases || defaultNeedsHost default

/-- Whether one of a list of instructions needs the host. -/
def anyNeedsHost : List Instruction → Bool
  | [] => false
  | i :: rest => i.needsHost || anyNeedsHost rest

/-- Whether one of the cases of a switch needs the host. -/
def caseNeedsHost : List (Value × Instruction) → Bool
  | [] => false
  | (_, body) :: rest => body.needsHost || caseNeedsHost rest

/-- Whether the default of a switch needs the host. -/
def defaultNeedsHost : Option Instruction → Bool
  | none => false
  | some body => body.needsHost

end

end Instruction

namespace Program

/-- Puts a name in its place in an increasing list without repetition. -/
def insertSymbol (name : String) : List String → List String
  | [] => [name]
  | other :: rest =>
    if name < other then name :: other :: rest
    else if name == other then other :: rest
    else other :: insertSymbol name rest

/-- Names in increasing order without repetition. -/
def sortSymbols (names : List String) : List String :=
  names.foldl (fun acc name => insertSymbol name acc) []

/-- The program of some instructions. -/
def ofInstructions (file : String) (instructions : List Instruction) : Program where
  file := file
  instructions := instructions
  symbols := sortSymbols (Instruction.symbolsOfAll [] instructions)
  requiresHost := Instruction.anyNeedsHost instructions

end Program

end LiveMarkup
