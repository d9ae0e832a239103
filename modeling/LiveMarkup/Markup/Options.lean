import LiveMarkup.Json.Record

/-!
# Compile options

How a template is read, and the options in their written form.
-/

namespace LiveMarkup

/-- How a template is read: the name used in diagnostics, whether texts of blanks are kept, and
whether attribute names get back the capital letters they are written with. -/
structure Options where
  file : String := "<template>"
  keepBlanks : Bool := false
  restoreCase : Bool := true
  deriving Repr, DecidableEq, Inhabited

namespace Options

/-- The written form of options. -/
def toValue (o : Options) : Value :=
  .object
    [("filePath", .string o.file), ("keepWhitespace", .bool o.keepBlanks),
      ("restoreAttributeCase", .bool o.restoreCase)]

/-- Reads options; what is missing has its default. -/
def ofValue? (v : Value) : Option Options := do
  match ← v.partialRecord? ["filePath", "keepWhitespace", "restoreAttributeCase"] with
  | [file, keepBlanks, restoreCase] =>
    let o : Options := {}
    let file ← file.elim (some o.file) Value.string?
    let keepBlanks ← keepBlanks.elim (some o.keepBlanks) Value.bool?
    let restoreCase ← restoreCase.elim (some o.restoreCase) Value.bool?
    pure ⟨file, keepBlanks, restoreCase⟩
  | _ => none

end Options

end LiveMarkup
