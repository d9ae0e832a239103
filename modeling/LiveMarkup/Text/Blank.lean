/-!
# Blank characters

The white space of the markup language is the Unicode property White_Space: twenty-five code
points, which the attribute grammar, the text lowering and the class lists all share.

* `Text.trim` removes blanks at both ends and nothing else;
* `Text.words` splits at runs of blanks and yields no empty word;
* `Text.pieces` splits at every character of a class, and keeps empty pieces;
* `Text.cut` splits at the first occurrence of a pattern, and loses nothing else
  (`Text.cut_eq_append`).
-/

namespace LiveMarkup.Text

/-- Whether a character has the property White_Space. -/
def isBlank (c : Char) : Bool :=
  let n := c.toNat
  (9 ≤ n && n ≤ 13) || n == 0x20 || n == 0x85 || n == 0xA0 || n == 0x1680 ||
    (0x2000 ≤ n && n ≤ 0x200A) || n == 0x2028 || n == 0x2029 || n == 0x202F || n == 0x205F ||
    n == 0x3000

/-- The text without its leading blanks. -/
def trimLeft (cs : List Char) : List Char :=
  cs.dropWhile isBlank

/-- The text without its trailing blanks. -/
def trimRight (cs : List Char) : List Char :=
  (cs.reverse.dropWhile isBlank).reverse

/-- The text without blanks at either end. -/
def trim (cs : List Char) : List Char :=
  trimRight (trimLeft cs)

/-- Splits at every character of a class. There is one more piece than separators. -/
def pieces (p : Char → Bool) : List Char → List (List Char)
  | [] => [[]]
  | c :: cs =>
    if p c then
      [] :: pieces p cs
    else
      match pieces p cs with
      | [] => [[c]]
      | w :: ws => (c :: w) :: ws

/-- The maximal runs of characters that are not blank. -/
def words (cs : List Char) : List (List Char) :=
  (pieces isBlank cs).filter fun w => !w.isEmpty

/-- What follows a pattern that stands at the front of a text. -/
def after? : List Char → List Char → Option (List Char)
  | [], cs => some cs
  | _ :: _, [] => none
  | p :: ps, c :: cs => if p == c then after? ps cs else none

/-- Cuts a text at the first occurrence of a pattern, which belongs to neither part. -/
def cut (pattern : List Char) : List Char → Option (List Char × List Char)
  | [] => if pattern.isEmpty then some ([], []) else none
  | c :: cs =>
    match after? pattern (c :: cs) with
    | some rest => some ([], rest)
    | none => (cut pattern cs).map fun (before, after) => (c :: before, after)

/-- Splits a text before the first of its ends that satisfies a test. -/
def breakAt (p : List Char → Bool) : List Char → List Char × List Char
  | [] => ([], [])
  | c :: cs =>
    if p (c :: cs) then ([], c :: cs)
    else
      let (before, rest) := breakAt p cs
      (c :: before, rest)

theorem after?_eq_append {pattern cs rest : List Char} (h : after? pattern cs = some rest) :
    cs = pattern ++ rest := by
  induction pattern generalizing cs with
  | nil => simpa [after?] using h
  | cons p ps ih =>
    cases cs with
    | nil => simp [after?] at h
    | cons c cs =>
      by_cases hp : p = c
      · subst hp
        simp only [after?, beq_self_eq_true, if_true] at h
        simp [ih h]
      · simp [after?, hp] at h

/-- What `cut` finds are the two sides of the pattern. -/
theorem cut_eq_append {pattern cs before rest : List Char}
    (h : cut pattern cs = some (before, rest)) : cs = before ++ pattern ++ rest := by
  induction cs generalizing before with
  | nil =>
    cases pattern with
    | nil => simp_all [cut]
    | cons p ps => simp [cut] at h
  | cons c cs ih =>
    rw [cut] at h
    split at h
    · rename_i tail htail
      obtain ⟨rfl, rfl⟩ : [] = before ∧ tail = rest := by simpa using h
      simpa using after?_eq_append htail
    · obtain ⟨⟨b, r⟩, hb, hr⟩ := Option.map_eq_some_iff.1 h
      obtain ⟨rfl, rfl⟩ : c :: b = before ∧ r = rest := by simpa using hr
      simp [ih hb]

theorem length_breakAt_le (p : List Char → Bool) (cs : List Char) :
    (breakAt p cs).2.length ≤ cs.length := by
  induction cs with
  | nil => simp [breakAt]
  | cons c cs ih =>
    rw [breakAt]
    split
    · simp
    · simpa using Nat.le_succ_of_le ih

/-- `trim` on strings. -/
def trimmed (s : String) : String :=
  String.ofList (trim s.toList)

/-- Whether a text has no character that is not blank. -/
def isAllBlank (s : String) : Bool :=
  s.toList.all isBlank

/-- `words` on strings. -/
def wordsOf (s : String) : List String :=
  (words s.toList).map String.ofList

/-- `pieces` on strings, at one character. -/
def splitAt (sep : Char) (s : String) : List String :=
  (pieces (· == sep) s.toList).map String.ofList

/-- The ASCII capital letters of a text become small letters; all else stays. -/
def lowerAscii (s : String) : String :=
  String.ofList (s.toList.map Char.toLower)

/-- Equality of texts up to the case of ASCII letters. -/
def sameAscii (s t : String) : Bool :=
  lowerAscii s == lowerAscii t

end LiveMarkup.Text
