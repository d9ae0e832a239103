import LiveMarkup.Json.Parser
import LiveMarkup.Json.Record
import LiveMarkup.Program.Symbols

/-!
# Programs as JSON

The written form of programs, in which they are stored and exchanged.

* `Program.toValue` writes a program; records are objects with their fields in a fixed order;
* `Program.ofValue?` reads one back, and accepts all forms of records.
-/

namespace LiveMarkup

namespace ValueSource

/-- The name of the kind of a source. -/
def kindName : ValueSource → String
  | reference _ => "reference"
  | expression _ => "expression"

/-- The written form of a source. -/
def toValue (source : ValueSource) : Value :=
  .tagged "kind" source.kindName [("code", .string source.code)]

/-- Reads a source. -/
def ofValue? (v : Value) : Option ValueSource := do
  match ← v.record? ["kind", "code"] with
  | [some (.string "reference"), some (.string code)] => pure (.reference code)
  | [some (.string "expression"), some (.string code)] => pure (.expression code)
  | _ => none

end ValueSource

namespace Loop

/-- The written form of an alias. -/
def Alias.toValue (a : Alias) : Value :=
  .object [("local", .string a.target), ("alias", .string a.name)]

/-- Reads an alias. -/
def Alias.ofValue? (v : Value) : Option Alias := do
  match ← v.record? ["local", "alias"] with
  | [some (.string target), some (.string name)] => pure ⟨target, name⟩
  | _ => none

/-- The written form of a loop. -/
def toValue (l : Loop) : Value :=
  .object
    [("item", .string l.item), ("iterable", l.iterable.toValue),
      ("aliases", .array (l.aliases.map Alias.toValue))]

/-- Reads a loop. -/
def ofValue? (v : Value) : Option Loop := do
  match ← v.record? ["item", "iterable", "aliases"] with
  | [some (.string item), some iterable, some (.array aliases)] =>
    pure ⟨item, ← ValueSource.ofValue? iterable, ← aliases.mapM Alias.ofValue?⟩
  | _ => none

end Loop

namespace Target

/-- The name of the operation that binds a target. -/
def opName : Target → String
  | property _ => "bind-property"
  | className _ => "bind-class"
  | classList => "bind-class-list"
  | style _ _ => "bind-style"
  | styleMap => "bind-style-map"
  | attr _ => "bind-attribute"
  | attributeMap => "bind-attribute-map"

/-- The fields of the operation that binds a target, without its source. -/
def fields : Target → List (String × Value)
  | property name => [("name", .string name)]
  | className name => [("name", .string name)]
  | classList => []
  | style name unit => [("name", .string name), ("unit", .ofString? unit)]
  | styleMap => []
  | attr name => [("name", .string name)]
  | attributeMap => []

end Target

namespace Operation

/-- The name of an operation. -/
def opName : Operation → String
  | setAttribute _ _ => "set-attribute"
  | bind target _ => target.opName
  | listen _ _ => "listen"

/-- The written form of an operation. -/
def toValue (op : Operation) : Value :=
  .tagged "op" op.opName
    (match op with
    | setAttribute name value => [("name", .string name), ("value", .string value)]
    | bind target source => target.fields ++ [("source", source.toValue)]
    | listen event handler => [("event", .string event), ("handler", .string handler)])

/-- Reads a binding of a target that has a name. -/
def ofNamed? (make : String → Target) (v : Value) : Option Operation := do
  match ← v.record? ["name", "source"] with
  | [some (.string name), some source] => pure (bind (make name) (← ValueSource.ofValue? source))
  | _ => none

/-- Reads a binding of a target that has no name. -/
def ofUnnamed? (target : Target) (v : Value) : Option Operation := do
  match ← v.record? ["source"] with
  | [some source] => pure (bind target (← ValueSource.ofValue? source))
  | _ => none

/-- Reads an operation. -/
def ofValue? (v : Value) : Option Operation := do
  let (name, body) ← v.variant? "op"
  match name with
  | "set-attribute" =>
    match ← body.record? ["name", "value"] with
    | [some (.string name), some (.string value)] => pure (setAttribute name value)
    | _ => none
  | "bind-property" => ofNamed? .property body
  | "bind-class" => ofNamed? .className body
  | "bind-class-list" => ofUnnamed? .classList body
  | "bind-style" =>
    match ← body.record? ["name", "unit", "source"] with
    | [some (.string property), unit, some source] =>
      let unit ← Value.optionalString? unit
      pure (bind (.style property unit) (← ValueSource.ofValue? source))
    | _ => none
  | "bind-style-map" => ofUnnamed? .styleMap body
  | "bind-attribute" => ofNamed? .attr body
  | "bind-attribute-map" => ofUnnamed? .attributeMap body
  | "listen" =>
    match ← body.record? ["event", "handler"] with
    | [some (.string event), some (.string handler)] => pure (listen event handler)
    | _ => none
  | _ => none

end Operation

namespace Instruction

/-- The name of the type of an instruction. -/
def typeName : Instruction → String
  | element _ _ _ => "element"
  | text _ => "text"
  | dynamicText _ => "dynamic-text"
  | conditional _ _ => "conditional"
  | forLoop _ _ => "for-loop"
  | switch _ _ _ => "switch"

mutual

/-- The written form of an instruction. -/
def toValue : Instruction → Value
  | element tag operations children =>
    .tagged "type" "element"
      [("tag", .string tag), ("operations", .array (operations.map Operation.toValue)),
        ("children", .array (toValues children))]
  | text value => .tagged "type" "text" [("value", .string value)]
  | dynamicText source => .tagged "type" "dynamic-text" [("source", source.toValue)]
  | conditional condition body =>
    .tagged "type" "conditional" [("condition", condition.toValue), ("body", body.toValue)]
  | forLoop loop body =>
    .tagged "type" "for-loop" [("binding", loop.toValue), ("body", body.toValue)]
  | switch value cases default =>
    .tagged "type" "switch"
      [("value", value.toValue), ("cases", .array (casesToValues cases)),
        ("default", defaultToValue default)]

/-- The written forms of a list of instructions. -/
def toValues : List Instruction → List Value
  | [] => []
  | i :: rest => i.toValue :: toValues rest

/-- The written forms of the cases of a switch. -/
def casesToValues : List (Value × Instruction) → List Value
  | [] => []
  | (value, body) :: rest =>
    .object [("value", value), ("body", body.toValue)] :: casesToValues rest

/-- The written form of the default of a switch. -/
def defaultToValue : Option Instruction → Value
  | none => .null
  | some body => body.toValue

end

/-- Reads an instruction nested at most to a depth. -/
def ofValueTo? : Nat → Value → Option Instruction
  | 0, _ => none
  | depth + 1, v => do
    let (name, body) ← v.variant? "type"
    match name with
    | "element" =>
      match ← body.record? ["tag", "operations", "children"] with
      | [some (.string tag), some (.array operations), some (.array children)] =>
        pure
          (element tag (← operations.mapM Operation.ofValue?) (← children.mapM (ofValueTo? depth)))
      | _ => none
    | "text" =>
      match ← body.record? ["value"] with
      | [some (.string value)] => pure (text value)
      | _ => none
    | "dynamic-text" =>
      match ← body.record? ["source"] with
      | [some source] => pure (dynamicText (← ValueSource.ofValue? source))
      | _ => none
    | "conditional" =>
      match ← body.record? ["condition", "body"] with
      | [some condition, some inner] =>
        pure (conditional (← ValueSource.ofValue? condition) (← ofValueTo? depth inner))
      | _ => none
    | "for-loop" =>
      match ← body.record? ["binding", "body"] with
      | [some loop, some inner] =>
        pure (forLoop (← Loop.ofValue? loop) (← ofValueTo? depth inner))
      | _ => none
    | "switch" =>
      match ← body.record? ["value", "cases", "default"] with
      | [some value, some (.array cases), default] =>
        let source ← ValueSource.ofValue? value
        let arms ← cases.mapM fun arm => do
          match ← arm.record? ["value", "body"] with
          | [some value, some inner] => pure (value.ordered, ← ofValueTo? depth inner)
          | _ => none
        match default with
        | none => pure (switch source arms none)
        | some .null => pure (switch source arms none)
        | some inner => pure (switch source arms (some (← ofValueTo? depth inner)))
      | _ => none
    | _ => none

/-- Reads an instruction. -/
def ofValue? (v : Value) : Option Instruction :=
  ofValueTo? (v.depth + 1) v

end Instruction

namespace Program

/-- The written form of a program. -/
def toValue (p : Program) : Value :=
  .object
    [("file", .string p.file), ("instructions", .array (p.instructions.map Instruction.toValue)),
      ("symbols", .array (p.symbols.map .string)), ("requiresHost", .bool p.requiresHost)]

/-- Reads a program. -/
def ofValue? (v : Value) : Option Program := do
  match ← v.record? ["file", "instructions", "symbols", "requiresHost"] with
  | [some (.string file), some (.array instructions), some symbols, some (.bool requiresHost)] =>
    let instructions ← instructions.mapM Instruction.ofValue?
    let symbols ← symbols.strings?
    pure ⟨file, instructions, sortSymbols symbols, requiresHost⟩
  | _ => none

end Program

end LiveMarkup
