import LiveMarkup.Program.ValueSource
import LiveMarkup.Source.Diagnostic

/-!
# Attributes with a meaning

An attribute of the markup whose name has been read: the bare name, the name as it is written, and
the two marks that its spelling can carry.
-/

namespace LiveMarkup

/-- An attribute whose name has been read. It is dashed if it is spelled with a word and a dash
instead of brackets, and an expression if its value is code for the host. -/
structure Attribute where
  name : String
  spelling : String
  value : String
  dashed : Bool := false
  isExpression : Bool := false
  range : Range := {}
  deriving Repr, DecidableEq, Inhabited

namespace Attribute

/-- The source that the value stands for. -/
def source (a : Attribute) : ValueSource :=
  .ofText a.isExpression a.value

/-- A diagnostic about an attribute. -/
def complain (a : Attribute) (origin : Origin) (rule : Rule) (message : String) : Diagnostic :=
  .about rule message origin a.range

end Attribute

end LiveMarkup
