/-!
# JSON values

The values that signals hold, that templates show and that compiled programs carry. A number is
an integer or a floating-point number, and the two kinds are never equal to each other. The
fields of an object are kept in increasing order of their names.

* `Value.ofFields` builds an object: the last field of a name wins;
* `Value.same` is equality, on floating-point numbers the one of arithmetic (`0.0` is `-0.0`).
-/

namespace LiveMarkup

/-- A JSON number. The integers are those of 64 bits, with or without sign. -/
inductive Number where
  | int (i : Int)
  | float (x : Float)

namespace Number

/-- Equality of numbers of one kind; an integer differs from every floating-point number. -/
def same : Number → Number → Bool
  | int i, int j => i == j
  | float x, float y => x == y
  | _, _ => false

/-- The nearest floating-point number. -/
def toFloat : Number → Float
  | int i => Float.ofInt i
  | float x => x

/-- How many items a number stands for when it is iterated: its integral part, if positive. -/
def count : Number → Nat
  | int i => i.toNat
  | float x => x.toUInt64.toNat

end Number

/-- A JSON value. -/
inductive Value where
  | null
  | bool (b : Bool)
  | number (n : Number)
  | string (s : String)
  | array (items : List Value)
  | object (fields : List (String × Value))

instance : Inhabited Value := ⟨.null⟩

/-- Fields kept in increasing order of name. -/
abbrev Fields := List (String × Value)

namespace Fields

/-- Puts a field in its place; it replaces a field of the same name. -/
def insert (name : String) (value : α) : List (String × α) → List (String × α)
  | [] => [(name, value)]
  | (other, old) :: rest =>
    if name < other then (name, value) :: (other, old) :: rest
    else if name == other then (name, value) :: rest
    else (other, old) :: insert name value rest

/-- The field of a name. -/
def get? (name : String) : List (String × α) → Option α
  | [] => none
  | (other, value) :: rest => if name == other then some value else get? name rest

/-- Fields in order of name; of several with one name the last stays. -/
def ofList (fields : List (String × α)) : List (String × α) :=
  fields.foldl (fun acc (name, value) => insert name value acc) []

end Fields

namespace Value

/-- An integer value. -/
def int (i : Int) : Value :=
  .number (.int i)

/-- A natural number as a value. -/
def nat (n : Nat) : Value :=
  .number (.int n)

/-- An object from fields in any order. -/
def ofFields (fields : List (String × Value)) : Value :=
  .object (Fields.ofList fields)

mutual

/-- Equality of values. -/
def same : Value → Value → Bool
  | null, null => true
  | bool a, bool b => a == b
  | number a, number b => a.same b
  | string a, string b => a == b
  | array a, array b => sameItems a b
  | object a, object b => sameFields a b
  | _, _ => false

/-- Equality of lists of values. -/
def sameItems : List Value → List Value → Bool
  | [], [] => true
  | a :: as, b :: bs => a.same b && sameItems as bs
  | _, _ => false

/-- Equality of lists of fields. -/
def sameFields : List (String × Value) → List (String × Value) → Bool
  | [], [] => true
  | (m, a) :: as, (n, b) :: bs => m == n && a.same b && sameFields as bs
  | _, _ => false

end

instance : BEq Value := ⟨same⟩

/-- An array with one more item; what is no array stays as it is. -/
def push (v item : Value) : Value :=
  match v with
  | array items => array (items ++ [item])
  | _ => v

/-- The text of a string value. -/
def string? : Value → Option String
  | string s => some s
  | _ => none

/-- The fields of an object value. -/
def fields? : Value → Option Fields
  | object fields => some fields
  | _ => none

/-- The field of an object value. -/
def field? (name : String) : Value → Option Value
  | object fields => Fields.get? name fields
  | _ => none

end Value

end LiveMarkup
