import LiveMarkup.Json.Value
import LiveMarkup.Program.Loop

/-!
# Programs

A template is compiled into a tree of instructions. Each instruction makes one node: an element, a
text, or a container whose content changes with a value.
-/

namespace LiveMarkup

/-- The aspect of an element that a binding keeps up to date. -/
inductive Target where
  | property (name : String)
  | className (name : String)
  | classList
  | style (property : String) (unit : Option String)
  | styleMap
  | attr (name : String)
  | attributeMap
  deriving Repr, DecidableEq, Inhabited

/-- What is done to an element once it is made. -/
inductive Operation where
  | setAttribute (name : String) (value : String)
  | bind (target : Target) (source : ValueSource)
  | listen (event : String) (handler : String)
  deriving Repr, DecidableEq, Inhabited

namespace Operation

/-- The source that an operation reads. -/
def source? : Operation → Option ValueSource
  | bind _ source => some source
  | setAttribute _ _ => none
  | listen _ _ => none

end Operation

/-- An instruction makes one node. -/
inductive Instruction where
  | element (tag : String) (operations : List Operation) (children : List Instruction)
  | text (value : String)
  | dynamicText (source : ValueSource)
  | conditional (condition : ValueSource) (body : Instruction)
  | forLoop (loop : Loop) (body : Instruction)
  | switch (value : ValueSource) (cases : List (Value × Instruction))
      (default : Option Instruction)

instance : Inhabited Instruction := ⟨.text ""⟩

/-- A compiled template. `symbols` are the names it takes from the data, in order and without
repetition; `requiresHost` says whether it evaluates expressions or listens to events. -/
structure Program where
  file : String
  instructions : List Instruction
  symbols : List String
  requiresHost : Bool
  deriving Inhabited

end LiveMarkup
