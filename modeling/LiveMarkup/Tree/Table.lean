import LiveMarkup.Tree.Forest

/-!
# Tables over nodes

A table holds values for some of the nodes of a forest.

* `get?_set`: what is read back after a change.
-/

namespace LiveMarkup

/-- Values for some of the nodes of a forest. -/
structure Table (α : Type) where
  slots : Array (Option α) := #[]

namespace Table

variable {α : Type}

/-- The value of a node, if it has one. -/
def get? (t : Table α) (n : NodeId) : Option α :=
  t.slots[n]?.join

/-- Gives a node a value, or takes it away. -/
def set (t : Table α) (n : NodeId) (value : Option α) : Table α :=
  ⟨(t.slots ++ Array.replicate (n + 1 - t.slots.size) none).setIfInBounds n value⟩

/-- The values, in the order of their nodes. -/
def values (t : Table α) : List α :=
  t.slots.toList.filterMap id

/-- How many nodes have a value. -/
def count (t : Table α) : Nat :=
  t.slots.countP Option.isSome

theorem get?_set (t : Table α) (n m : Nat) (value : Option α) :
    (t.set n value).get? m = if n = m then value else t.get? m := by
  simp only [get?, set, Array.getElem?_setIfInBounds, Array.size_append, Array.size_replicate]
  by_cases h : n = m
  · subst h
    have : n < t.slots.size + (n + 1 - t.slots.size) := by omega
    simp [this]
  · rw [if_neg h, if_neg h, Array.getElem?_append]
    by_cases hm : m < t.slots.size
    · simp [hm]
    · have : t.slots[m]? = none := Array.getElem?_eq_none (by omega)
      simp only [if_neg hm, Array.getElem?_replicate, this]
      split <;> rfl

end Table

end LiveMarkup
