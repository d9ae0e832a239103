/-!
# Shortest decimal digits

A binary floating-point number is written with the fewest decimal digits that read back as the
same number; among those, with the digits nearest to it.

* `Binary.ofFloat?` takes a finite number apart into `mantissa * 2 ^ exponent`;
* `Binary.digits` finds the shortest decimal inside the interval of reals that round to it;
* `Decimal.text` lays the digits out, positionally for the exponents from -5 to 15 and
  otherwise in scientific form.
-/

namespace LiveMarkup

/-- A positive number `mantissa * 2 ^ exponent`, together with whether the gap below it is half
the gap above it. -/
structure Binary where
  mantissa : Nat
  exponent : Int
  narrowBelow : Bool
  deriving Repr, DecidableEq

/-- The decimal `0.d₁d₂… * 10 ^ (point + 1)`: the first digit has the weight `10 ^ point`. -/
structure Decimal where
  digits : List Nat
  point : Int
  deriving Repr, DecidableEq

namespace Binary

/-- The magnitude of a finite number other than zero. -/
def ofFloat? (x : Float) : Option Binary :=
  let bits : Nat := x.toBits.toNat
  let fraction : Nat := bits % Nat.pow 2 52
  let biased : Nat := bits / Nat.pow 2 52 % Nat.pow 2 11
  if biased = 2047 then none
  else if biased = 0 then
    if fraction = 0 then none else some ⟨fraction, -1074, false⟩
  else some ⟨Nat.pow 2 52 + fraction, (biased : Int) - 1075, fraction = 0 && 1 < biased⟩

/-- The numerator of a quarter of the number, over `den`. -/
def num (b : Binary) : Nat :=
  Nat.pow 2 (b.exponent - 2).toNat

/-- The denominator that goes with `num`. -/
def den (b : Binary) : Nat :=
  Nat.pow 2 (2 - b.exponent).toNat

/-- Whether the decimal `c * 10 ^ k` rounds to the number: it lies between the two midpoints,
which belong to the interval exactly when the mantissa is even. -/
def admits (b : Binary) (c : Nat) (k : Int) : Bool :=
  let low := (4 * b.mantissa - (if b.narrowBelow then 1 else 2)) * b.num * Nat.pow 10 (-k).toNat
  let high := (4 * b.mantissa + 2) * b.num * Nat.pow 10 (-k).toNat
  let here := c * Nat.pow 10 k.toNat * b.den
  if b.mantissa % 2 = 0 then low ≤ here && here ≤ high else low < here && here < high

/-- The distance from the number to `c * 10 ^ k`, in a unit that depends on `k` alone. -/
def distance (b : Binary) (c : Nat) (k : Int) : Nat :=
  let value := 4 * b.mantissa * b.num * Nat.pow 10 (-k).toNat
  let here := c * Nat.pow 10 k.toNat * b.den
  if value ≤ here then here - value else value - here

/-- The largest multiple of `10 ^ k` that is at most the number, as a multiplier. -/
def floorAt (b : Binary) (k : Int) : Nat :=
  4 * b.mantissa * b.num * Nat.pow 10 (-k).toNat / (Nat.pow 10 k.toNat * b.den)

/-- The exponent of the leading decimal digit. -/
def point (b : Binary) : Int :=
  ((Nat.toDigits 10 (b.floorAt (-400))).length : Int) - 401

/-- The multiple of `10 ^ k` next to the number that rounds to it, the nearer one if both do. -/
def neighbour? (b : Binary) (k : Int) : Option Nat :=
  let below := b.floorAt k
  match b.admits below k, b.admits (below + 1) k with
  | true, true =>
    let down := b.distance below k
    let up := b.distance (below + 1) k
    if down < up || (down = up && below % 2 = 0) then some below else some (below + 1)
  | true, false => some below
  | false, true => some (below + 1)
  | false, false => none

/-- Tries the decimal grids from coarse to fine. -/
def search (b : Binary) : Nat → Int → Nat × Int
  | 0, k => (b.floorAt k, k)
  | n + 1, k =>
    match b.neighbour? k with
    | some c => (c, k)
    | none => search b n (k - 1)

end Binary

/-- The decimal digits of a number, most significant first, without trailing zeros. -/
def Decimal.strip (ds : List Nat) : List Nat :=
  (ds.reverse.dropWhile (· == 0)).reverse

/-- The shortest decimal that reads back as the number. -/
def Binary.shortest (b : Binary) : Decimal :=
  let (c, k) := b.search 17 b.point
  let ds := (Nat.toDigits 10 c).map fun d => d.toNat - '0'.toNat
  ⟨Decimal.strip ds, k + ds.length - 1⟩

namespace Decimal

/-- The characters of decimal digits. -/
def chars (ds : List Nat) : List Char :=
  ds.map fun d => Char.ofNat ('0'.toNat + d)

/-- A decimal in positional form, with at least one digit on both sides of the point. -/
def positional (d : Decimal) : List Char :=
  if d.point < 0 then
    '0' :: '.' :: chars (List.replicate (-d.point - 1).toNat 0 ++ d.digits)
  else
    let whole := d.point.toNat + 1
    let padded := d.digits ++ List.replicate (whole - d.digits.length) 0
    let rest := padded.drop whole
    chars (padded.take whole) ++ '.' :: chars (if rest.isEmpty then [0] else rest)

/-- A decimal in scientific form: the exponent always has a sign. -/
def scientific (d : Decimal) : List Char :=
  let mantissa :=
    match d.digits with
    | [] => []
    | [a] => chars [a]
    | a :: rest => chars [a] ++ '.' :: chars rest
  let sign := if d.point < 0 then '-' else '+'
  mantissa ++ 'e' :: sign :: Nat.toDigits 10 d.point.natAbs

/-- Positional for the exponents from -5 to 15, scientific for all others. -/
def text (d : Decimal) : List Char :=
  if -5 ≤ d.point && d.point ≤ 15 then d.positional else d.scientific

/-- The text of a finite floating-point number. -/
def ofFloat (x : Float) : String :=
  let negative := x.toBits.toNat / Nat.pow 2 63 = 1
  let magnitude :=
    match Binary.ofFloat? x with
    | some b => b.shortest.text
    | none => ['0', '.', '0']
  String.ofList (if negative then '-' :: magnitude else magnitude)

end Decimal

end LiveMarkup
