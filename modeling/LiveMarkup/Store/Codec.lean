import LiveMarkup.Json.ToValue
import LiveMarkup.Store.Library

/-!
# Caches and template libraries as JSON
-/

namespace LiveMarkup

/-- How often a cache had what was asked for, and how much it has. -/
def Cache.statistics (c : Cache) : Value :=
  .object [("hits", .nat c.hits), ("misses", .nat c.misses), ("entries", .nat c.entries)]

/-- The written form of what is known of a template. -/
def TemplateInfo.toValue (i : TemplateInfo) : Value :=
  .object [("name", .string i.name), ("path", .string i.path), ("size", .nat i.size)]

/-- The written form of what a library holds. -/
def Library.contents (l : Library) : Value :=
  .object
    [("names", ToValue.toValue l.names), ("len", .nat l.templates.length),
      ("empty", .bool l.templates.isEmpty), ("base", .string l.base)]

/-- The file of a program and the number of its instructions. -/
def Program.outline (p : Program) : List (String × Value) :=
  [("file", .string p.file), ("count", .nat p.instructions.length)]

end LiveMarkup
