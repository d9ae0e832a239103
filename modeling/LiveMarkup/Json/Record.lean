import LiveMarkup.Json.Value

/-!
# Records and variants in JSON

A record is written as an object, in which unknown fields mean nothing, or as the array of its
fields in order. A variant is a record with one more field, its tag, which names it; in an array
the tag comes first.

* `Value.record?` finds the fields of a record, all of which an array must have;
* `Value.partialRecord?` lets an array stop short;
* `Value.variant?` splits off the tag;
* `Value.stringAt` and its like take a missing field for an empty one.
-/

namespace LiveMarkup

namespace Value

/-- How deep the arrays and objects of a value are nested. -/
def depth : Value → Nat
  | array vs => itemDepth vs + 1
  | object fields => fieldDepth fields + 1
  | _ => 0
where
  /-- The greatest depth of an item. -/
  itemDepth : List Value → Nat
    | [] => 0
    | v :: vs => max v.depth (itemDepth vs)
  /-- The greatest depth of the value of a field. -/
  fieldDepth : List (String × Value) → Nat
    | [] => 0
    | (_, v) :: rest => max v.depth (fieldDepth rest)

/-- The value of the only field of a name: nothing if there are several, else the value if there
is one. -/
def onlyField? (name : String) (fields : List (String × Value)) : Option (Option Value) :=
  match fields.filter (·.1 == name) with
  | [] => some none
  | [(_, v)] => some (some v)
  | _ => none

/-- The values of some fields. -/
def pick? (names : List String) (fields : List (String × Value)) : Option (List (Option Value)) :=
  names.mapM fun name => onlyField? name fields

/-- The fields of a record of some names, in this order. -/
def record? (names : List String) : Value → Option (List (Option Value))
  | object fields => pick? names fields
  | array vs => if vs.length == names.length then some (vs.map some) else none
  | _ => none

/-- The fields of a record of some names, of which an array may have only the first. -/
def partialRecord? (names : List String) : Value → Option (List (Option Value))
  | object fields => pick? names fields
  | array vs =>
    if vs.length ≤ names.length then
      some (vs.map some ++ List.replicate (names.length - vs.length) none)
    else none
  | _ => none

/-- The tag of a variant, and the record without it. -/
def variant? (tag : String) : Value → Option (String × Value)
  | object fields =>
    match onlyField? tag fields with
    | some (some (string name)) => some (name, object (fields.filter (·.1 != tag)))
    | _ => none
  | array (string name :: vs) => some (name, array vs)
  | _ => none

/-- A variant: its tag and its other fields. -/
def tagged (tag : String) (name : String) (fields : List (String × Value)) : Value :=
  object ((tag, string name) :: fields)

/-- A string, or null for none. -/
def ofString? : Option String → Value
  | none => null
  | some s => string s

/-- The truth value of a value. -/
def bool? : Value → Option Bool
  | bool b => some b
  | _ => none

/-- The items of an array. -/
def array? : Value → Option (List Value)
  | array vs => some vs
  | _ => none

/-- A natural number of 64 bits. -/
def word? : Value → Option Nat
  | number (.int i) => if 0 ≤ i then some i.toNat else none
  | _ => none

/-- The strings of an array of strings. -/
def strings? (v : Value) : Option (List String) :=
  v.array?.bind fun vs => vs.mapM string?

/-- The string of a field that may be missing or null. -/
def optionalString? : Option Value → Option (Option String)
  | none => some none
  | some null => some none
  | some (string s) => some (some s)
  | _ => none

/-! ## Fields with a default

What is missing, and what is of another kind, counts as empty. -/

/-- The string of a field, if it is one. -/
def stringAt? (v : Value) (name : String) : Option String :=
  (v.field? name).bind string?

/-- The string of a field. -/
def stringAt (v : Value) (name : String) : String :=
  (v.stringAt? name).getD ""

/-- The truth value of a field. -/
def flagAt (v : Value) (name : String) : Bool :=
  ((v.field? name).bind bool?).getD false

/-- The natural number of a field. -/
def wordAt (v : Value) (name : String) : Nat :=
  ((v.field? name).bind word?).getD 0

/-- The items of the array of a field. -/
def itemsAt (v : Value) (name : String) : List Value :=
  ((v.field? name).bind array?).getD []

/-- The strings of the array of a field. -/
def stringsAt (v : Value) (name : String) : List String :=
  (v.itemsAt name).filterMap string?

/-- The fields of the object of a field. -/
def fieldsAt (v : Value) (name : String) : Fields :=
  ((v.field? name).bind fields?).getD []

/-- The value of a field, or null. -/
def valueAt (v : Value) (name : String) : Value :=
  (v.field? name).getD null

end Value

end LiveMarkup
