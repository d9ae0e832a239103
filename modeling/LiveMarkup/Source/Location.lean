/-!
# Places in a source text

Places are counted in bytes of UTF-8; lines and columns count from one, and a column counts
characters.

* `Location.ofOffset` gives the line and column of a byte offset; an offset inside a character
  has column one;
* `Source.slice?` is the text between two byte offsets, if both lie between characters.
-/

namespace LiveMarkup

/-- A line and a column, both from one. -/
structure Location where
  line : Nat := 0
  column : Nat := 0
  deriving Repr, DecidableEq, Inhabited

/-- A part of a source text: from the byte `start` to before the byte `stop`. -/
structure Range where
  start : Nat := 0
  stop : Nat := 0
  location : Location := {}
  deriving Repr, DecidableEq, Inhabited

/-- What diagnostics are reported against: the name of a file and its text. -/
structure Origin where
  file : String
  markup : String
  deriving Repr, DecidableEq

namespace Source

/-- The number of bytes of a text. -/
def byteLength (cs : List Char) : Nat :=
  cs.foldr (fun c n => c.utf8Size + n) 0

/-- The text from a byte offset on, if it lies between two characters. -/
def dropBytes : Nat → List Char → Option (List Char)
  | 0, cs => some cs
  | _ + 1, [] => none
  | n + 1, c :: cs => if c.utf8Size ≤ n + 1 then dropBytes (n + 1 - c.utf8Size) cs else none

/-- The text up to a byte offset, if it lies between two characters. -/
def takeBytes : Nat → List Char → Option (List Char)
  | 0, _ => some []
  | _ + 1, [] => none
  | n + 1, c :: cs =>
    if c.utf8Size ≤ n + 1 then (takeBytes (n + 1 - c.utf8Size) cs).map (c :: ·) else none

/-- The text between two byte offsets. -/
def slice? (text : String) (start stop : Nat) : Option String :=
  if start ≤ stop then
    ((dropBytes start text.toList).bind (takeBytes (stop - start))).map String.ofList
  else none

end Source

namespace Location

/-- Goes forward by a number of bytes from a given place. -/
def forward : List Char → Nat → Location → Location
  | _, 0, place => place
  | [], _ + 1, place => place
  | c :: cs, n + 1, place =>
    if c.utf8Size ≤ n + 1 then
      forward cs (n + 1 - c.utf8Size)
        (if c == '\n' then ⟨place.line + 1, 1⟩ else ⟨place.line, place.column + 1⟩)
    else ⟨place.line, 1⟩

/-- The line and column of a byte offset. Offsets past the end count as the end. -/
def ofOffset (source : String) (offset : Nat) : Location :=
  forward source.toList offset ⟨1, 1⟩

end Location

end LiveMarkup
