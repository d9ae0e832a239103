import LiveMarkup.Html.Entity

/-!
# Character references

What a text after `&` stands for: a named reference, a decimal or hexadecimal number, or just the
ampersand. Numbers that are no characters become U+FFFD; the numbers from 0x80 to 0x9F are read in
the old Windows code page.

* `Reference.read` reads what follows an ampersand. Inside an attribute a name without semicolon
  is left alone when a letter, a digit or `=` follows it.
-/

namespace LiveMarkup.Html.Reference

/-- The characters of the Windows code page at 0x80 to 0x9F; zero where it has none. -/
def windows : List Nat := [
  0x20AC, 0, 0x201A, 0x0192, 0x201E, 0x2026, 0x2020, 0x2021, 0x02C6, 0x2030, 0x0160, 0x2039,
  0x0152, 0, 0x017D, 0, 0, 0x2018, 0x2019, 0x201C, 0x201D, 0x2022, 0x2013, 0x2014, 0x02DC,
  0x2122, 0x0161, 0x203A, 0x0153, 0, 0x017E, 0x0178]

/-- The character that a number stands for. -/
def ofNumber (n : Nat) : Char :=
  if n = 0 || 0x10FFFF < n || (0xD800 ≤ n && n ≤ 0xDFFF) then '\ufffd'
  else if 0x80 ≤ n && n ≤ 0x9F then
    let w := windows.getD (n - 0x80) 0
    Char.ofNat (if w = 0 then n else w)
  else Char.ofNat n

/-- Reads the digits of a number and the semicolon after them, if there is one. -/
def readNumber (base : Nat) (isDigit : Char → Bool) (cs : List Char) :
    Option (List Char × List Char) :=
  let digits := cs.takeWhile isDigit
  if digits.isEmpty then none
  else
    let n := digits.foldl (fun n c => n * base + (Text.hexValue? c).getD 0) 0
    let rest := cs.dropWhile isDigit
    some ([ofNumber n], if rest.head? == some ';' then rest.tail else rest)

/-- Whether a character is a hexadecimal digit. -/
def isHexDigit (c : Char) : Bool :=
  (Text.hexValue? c).isSome

/-- Reads a named reference. -/
def readName (inAttribute : Bool) (cs : List Char) : Option (List Char × List Char) :=
  match Entity.named? cs with
  | none => none
  | some (name, value) =>
    let rest := cs.drop name.length
    let goesOn := rest.head?.any fun c => c == '=' || c.isAlphanum
    if inAttribute && name.getLast? != some ';' && goesOn then none else some (value, rest)

/-- Reads what follows an ampersand: the characters it stands for, and the rest of the text. -/
def read (inAttribute : Bool) (cs : List Char) : List Char × List Char :=
  let found :=
    match cs with
    | '#' :: 'x' :: more => readNumber 16 isHexDigit more
    | '#' :: 'X' :: more => readNumber 16 isHexDigit more
    | '#' :: more => readNumber 10 Char.isDigit more
    | _ => readName inAttribute cs
  found.getD (['&'], cs)

end LiveMarkup.Html.Reference
