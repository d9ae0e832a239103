import LiveMarkup.Json.Value

/-!
# Things with a written form

What can be written as a JSON value: truth values, numbers and texts as themselves, nothing as
null, lists and pairs as arrays.
-/

namespace LiveMarkup

/-- What has a written form. -/
class ToValue (α : Type) where
  toValue : α → Value

namespace ToValue

instance : ToValue Value := ⟨fun v => v⟩

instance : ToValue Unit := ⟨fun _ => .null⟩

instance : ToValue Bool := ⟨.bool⟩

instance : ToValue Nat := ⟨.nat⟩

instance : ToValue String := ⟨.string⟩

instance [ToValue α] : ToValue (Option α) := ⟨fun a => (a.map toValue).getD .null⟩

instance [ToValue α] : ToValue (List α) := ⟨fun as => .array (as.map toValue)⟩

instance [ToValue α] [ToValue β] : ToValue (α × β) :=
  ⟨fun (a, b) => .array [toValue a, toValue b]⟩

end ToValue

end LiveMarkup
