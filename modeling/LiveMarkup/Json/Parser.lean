import LiveMarkup.Json.Value
import LiveMarkup.Text.Hex

/-!
# Reading JSON text

A reader of one JSON value with nothing but blanks around it. Arrays and objects nest at most
127 deep. A number without fraction and exponent is an integer if it fits 64 bits; `-0` and all
other numbers are floating-point numbers, and one beyond the range is refused.

* `Json.read?` keeps the fields of objects as they are written, repeated names included;
* `Json.parse?` puts the fields in order, the last of each name;
* `Numeral.float?` converts digits in two rounded steps: the leading digits that fit 64 bits,
  then one multiplication or division by a power of ten.
-/

namespace LiveMarkup

namespace Json

/-- The four blanks of JSON text. -/
def isJsonBlank (c : Char) : Bool :=
  c == ' ' || c == '\n' || c == '\t' || c == '\r'

/-- The text from the first character that is not blank. -/
def skipBlanks (cs : List Char) : List Char :=
  cs.dropWhile isJsonBlank

/-- The value of a digit character. -/
def digitOf (c : Char) : Nat :=
  c.toNat - '0'.toNat

end Json

/-- The written parts of a number: the integer digits, the digits after the point and the
exponent. -/
structure Numeral where
  negative : Bool
  whole : List Nat
  fraction : List Nat
  exponent : Option Int

namespace Numeral

/-- The largest unsigned integer of 64 bits. -/
def maxWord : Nat := UInt64.size - 1

/-- The leading digits as long as they fit 64 bits, and how many are left. -/
def accumulate (acc : Nat) : List Nat → Nat × Nat
  | [] => (acc, 0)
  | d :: ds => if acc * 10 + d ≤ maxWord then accumulate (acc * 10 + d) ds else (acc, ds.length + 1)

/-- Multiplies by a power of ten in floating-point arithmetic; nothing beyond the range. -/
def scale : Nat → Float → Int → Option Float
  | 0, x, _ => some x
  | n + 1, x, e =>
    if e.natAbs ≤ 308 then
      let p := Float.ofScientific 1 false e.natAbs
      if 0 ≤ e then
        let y := x * p
        if y.isInf then none else some y
      else some (x / p)
    else if x == 0 then some x
    else if 0 ≤ e then none
    else scale n (x / Float.ofScientific 1 false 308) (e + 308)

/-- The floating-point number that the digits are read as. -/
def float? (n : Numeral) : Option Float :=
  let (lead, left) := accumulate 0 n.whole
  let (significand, skipped) := accumulate lead n.fraction
  let shift : Int := (left : Int) - ((n.fraction.length - skipped : Nat) : Int)
  (scale 8 (Float.ofNat significand) (shift + n.exponent.getD 0)).map fun x =>
    if n.negative then -x else x

/-- The number that a numeral stands for. -/
def number? (n : Numeral) : Option Number :=
  let magnitude : Nat := n.whole.foldl (fun acc d => acc * 10 + d) 0
  if !n.fraction.isEmpty || n.exponent.isSome then n.float?.map .float
  else if n.negative then
    if 0 < magnitude && magnitude ≤ UInt64.size / 2 then some (.int (-(magnitude : Int)))
    else n.float?.map .float
  else if magnitude ≤ maxWord then some (.int magnitude)
  else n.float?.map .float

end Numeral

namespace Json

/-- Reads the digits at the front. -/
def readDigits (cs : List Char) : List Nat × List Char :=
  ((cs.takeWhile Char.isDigit).map digitOf, cs.dropWhile Char.isDigit)

/-- Reads digits, of which there is at least one. -/
def readSomeDigits (cs : List Char) : Option (List Nat × List Char) :=
  match readDigits cs with
  | ([], _) => none
  | found => some found

/-- Reads the sign of an exponent. -/
def readExponentSign : List Char → Bool × List Char
  | '-' :: rest => (true, rest)
  | '+' :: rest => (false, rest)
  | cs => (false, cs)

/-- Reads a sign and digits after an exponent mark. -/
def readExponent (cs : List Char) : Option (Int × List Char) :=
  let (negative, cs) := readExponentSign cs
  (readSomeDigits cs).map fun (ds, rest) =>
    let e : Nat := ds.foldl (fun acc d => acc * 10 + d) 0
    (if negative then -(e : Int) else e, rest)

/-- Reads the exponent of a number, if there is one. -/
def readExponentPart (cs : List Char) : Option (Option Int × List Char) :=
  match cs with
  | c :: r =>
    if c == 'e' || c == 'E' then (readExponent r).map fun (e, rest) => (some e, rest)
    else some (none, cs)
  | [] => some (none, [])

/-- Reads the sign of a number. -/
def readSign : List Char → Bool × List Char
  | '-' :: rest => (true, rest)
  | cs => (false, cs)

/-- Reads the digits before the point. A leading zero stands alone. -/
def readWhole : List Char → Option (List Nat × List Char)
  | '0' :: rest => some ([0], rest)
  | cs => readSomeDigits cs

/-- Reads the point and the digits after it, if there is a point. -/
def readFraction : List Char → Option (List Nat × List Char)
  | '.' :: rest => readSomeDigits rest
  | cs => some ([], cs)

/-- Reads a number. -/
def readNumber (cs : List Char) : Option (Number × List Char) := do
  let (negative, cs) := readSign cs
  let (whole, cs) ← readWhole cs
  let (fraction, cs) ← readFraction cs
  let (exponent, rest) ← readExponentPart cs
  let n ← Numeral.number? ⟨negative, whole, fraction, exponent⟩
  pure (n, rest)

/-- Reads four hexadecimal digits. -/
def readHex4 : List Char → Option (Nat × List Char)
  | a :: b :: c :: d :: rest => do
    let a ← Text.hexValue? a
    let b ← Text.hexValue? b
    let c ← Text.hexValue? c
    let d ← Text.hexValue? d
    pure (((a * 16 + b) * 16 + c) * 16 + d, rest)
  | _ => none

/-- Reads what follows `\u`: one code unit, or the two of a surrogate pair. -/
def readUnicode (cs : List Char) : Option (Char × List Char) := do
  let (high, rest) ← readHex4 cs
  if 0xDC00 ≤ high && high ≤ 0xDFFF then none
  else if 0xD800 ≤ high && high ≤ 0xDBFF then
    match rest with
    | '\\' :: 'u' :: more =>
      let (low, rest) ← readHex4 more
      if 0xDC00 ≤ low && low ≤ 0xDFFF then
        pure (Char.ofNat (0x10000 + (high - 0xD800) * 0x400 + (low - 0xDC00)), rest)
      else none
    | _ => none
  else pure (Char.ofNat high, rest)

/-- Reads what follows a backslash. -/
def readEscape : List Char → Option (Char × List Char)
  | '"' :: r => some ('"', r)
  | '\\' :: r => some ('\\', r)
  | '/' :: r => some ('/', r)
  | 'b' :: r => some ('\x08', r)
  | 'f' :: r => some ('\x0c', r)
  | 'n' :: r => some ('\n', r)
  | 'r' :: r => some ('\r', r)
  | 't' :: r => some ('\t', r)
  | 'u' :: r => readUnicode r
  | _ => none

/-- Reads a string after its opening quote. -/
def readString : Nat → List Char → Option (List Char × List Char)
  | 0, _ => none
  | n + 1, cs =>
    match cs with
    | [] => none
    | '"' :: rest => some ([], rest)
    | '\\' :: rest => do
      let (c, rest) ← readEscape rest
      let (s, rest) ← readString n rest
      pure (c :: s, rest)
    | c :: rest =>
      if c.toNat < 0x20 then none
      else do
        let (s, rest) ← readString n rest
        pure (c :: s, rest)

mutual

/-- Reads a value. `depth` is one more than the number of levels that may still open. -/
def readValue : Nat → Nat → List Char → Option (Value × List Char)
  | 0, _, _ => none
  | n + 1, depth, cs =>
    match skipBlanks cs with
    | 'n' :: 'u' :: 'l' :: 'l' :: rest => some (.null, rest)
    | 't' :: 'r' :: 'u' :: 'e' :: rest => some (.bool true, rest)
    | 'f' :: 'a' :: 'l' :: 's' :: 'e' :: rest => some (.bool false, rest)
    | '"' :: rest => do
      let (s, rest) ← readString (rest.length + 1) rest
      pure (.string (String.ofList s), rest)
    | '[' :: rest =>
      if depth ≤ 1 then none
      else
        match skipBlanks rest with
        | ']' :: rest => some (.array [], rest)
        | rest => do
          let (vs, rest) ← readItems n (depth - 1) rest
          pure (.array vs, rest)
    | '\x7b' :: rest =>
      if depth ≤ 1 then none
      else
        match skipBlanks rest with
        | '\x7d' :: rest => some (.object [], rest)
        | rest => do
          let (fields, rest) ← readFields n (depth - 1) rest
          pure (.object fields, rest)
    | rest => do
      let (number, rest) ← readNumber rest
      pure (.number number, rest)

/-- Reads the items of an array, of which there is at least one, and its end. -/
def readItems : Nat → Nat → List Char → Option (List Value × List Char)
  | 0, _, _ => none
  | n + 1, depth, cs => do
    let (v, rest) ← readValue n depth cs
    match skipBlanks rest with
    | ',' :: rest => do
      let (vs, rest) ← readItems n depth rest
      pure (v :: vs, rest)
    | ']' :: rest => pure ([v], rest)
    | _ => none

/-- Reads the fields of an object, of which there is at least one, and its end. -/
def readFields : Nat → Nat → List Char → Option (List (String × Value) × List Char)
  | 0, _, _ => none
  | n + 1, depth, cs =>
    match skipBlanks cs with
    | '"' :: rest => do
      let (name, rest) ← readString (rest.length + 1) rest
      match skipBlanks rest with
      | ':' :: rest => do
        let (v, rest) ← readValue n depth rest
        let field := (String.ofList name, v)
        match skipBlanks rest with
        | ',' :: rest => do
          let (fields, rest) ← readFields n depth rest
          pure (field :: fields, rest)
        | '\x7d' :: rest => pure ([field], rest)
        | _ => none
      | _ => none
    | _ => none

end

/-- Reads a text that holds one value, keeping the fields of objects as they are written. -/
def read? (s : String) : Option Value :=
  let cs := s.toList
  match readValue (2 * cs.length + 2) 128 cs with
  | some (v, rest) => if (skipBlanks rest).isEmpty then some v else none
  | none => none

end Json

namespace Value

mutual

/-- The value with the fields of every object in order, the last of each name. -/
def ordered : Value → Value
  | array vs => array (orderedItems vs)
  | object fields => object (Fields.ofList (orderedFields fields))
  | v => v

/-- `ordered` on the items of an array. -/
def orderedItems : List Value → List Value
  | [] => []
  | v :: vs => v.ordered :: orderedItems vs

/-- `ordered` on the values of fields. -/
def orderedFields : List (String × Value) → List (String × Value)
  | [] => []
  | (name, v) :: rest => (name, v.ordered) :: orderedFields rest

end

end Value

/-- Reads a text that holds one value. -/
def Json.parse? (s : String) : Option Value :=
  (Json.read? s).map Value.ordered

end LiveMarkup
