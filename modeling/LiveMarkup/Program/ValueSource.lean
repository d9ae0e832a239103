import LiveMarkup.Text.Blank

/-!
# Value sources

Where a binding reads its value: a path into the data, or code for the expression host.
-/

namespace LiveMarkup

/-- Where a binding reads its value from. -/
inductive ValueSource where
  | reference (path : String)
  | expression (code : String)
  deriving Repr, DecidableEq, Inhabited

namespace ValueSource

/-- The source that a text stands for. A path has no blanks around it, code is kept as it is. -/
def ofText (isExpression : Bool) (text : String) : ValueSource :=
  if isExpression then expression text else reference (Text.trimmed text)

/-- The path or code as written. -/
def code : ValueSource → String
  | reference path => path
  | expression code => code

/-- The name that a path starts with: what stands before the first `.` or `[`. -/
def rootOfPath (path : String) : Option String :=
  let root := Text.trim (path.toList.takeWhile fun c => !(c == '.' || c == '['))
  if root.isEmpty then none else some (String.ofList root)

/-- The name that a source takes from the data; an expression takes none by itself. -/
def root? : ValueSource → Option String
  | reference path => rootOfPath path
  | expression _ => none

end ValueSource

end LiveMarkup
