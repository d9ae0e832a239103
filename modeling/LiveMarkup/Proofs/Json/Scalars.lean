import LiveMarkup.Json.Parser
import LiveMarkup.Json.Printer
import Mathlib.Data.List.TakeWhile

/-!
# Strings and numbers are read as they were written

A written string is read back whatever stands after it. A written integer of 64 bits is read back
if what follows cannot be a part of a number, as is the case inside arrays and objects. For a
floating-point number this depends on its digits: reading takes two rounded steps, so
`Number.Faithful` says of one that it is read back alone, and then it is read back everywhere.

* `Json.readString_quote`: a string after its opening quote;
* `Json.readNumber_append`: what stands after a number does not change it;
* `Json.readNumber_text`: a number and what follows.
-/

namespace LiveMarkup

theorem Text.hexValue?_hexDigit {n : Nat} (h : n < 16) : Text.hexValue? (Text.hexDigit n) = some n := by
  revert n
  decide

namespace Json

/-! ## Strings -/

theorem readHex4_control {n : Nat} (h : n < 0x20) (rest : List Char) :
    readHex4 ('0' :: '0' :: Text.hexDigit (n / 16) :: Text.hexDigit (n % 16) :: rest) =
      some (n, rest) := by
  have hZero : Text.hexValue? '0' = some 0 := by decide
  have hHigh := Text.hexValue?_hexDigit (n := n / 16) (by omega)
  have hLow := Text.hexValue?_hexDigit (n := n % 16) (by omega)
  simp only [readHex4, hZero, hHigh, hLow, Option.bind_eq_bind, Option.bind_some, Option.pure_def]
  congr 2
  omega

/-- An escape of four digits stands for a control character. -/
theorem readUnicode_control {n : Nat} (h : n < 0x20) (rest : List Char) :
    readUnicode ('0' :: '0' :: Text.hexDigit (n / 16) :: Text.hexDigit (n % 16) :: rest) =
      some (Char.ofNat n, rest) := by
  have hNotLow : ¬ (0xDC00 ≤ n ∧ n ≤ 0xDFFF) := by omega
  have hNotHigh : ¬ (0xD800 ≤ n ∧ n ≤ 0xDBFF) := by omega
  simp [readUnicode, readHex4_control h, hNotLow, hNotHigh]

theorem readString_escape {c : Char} {cs rest : List Char} (h : readEscape cs = some (c, rest))
    (n : Nat) :
    readString (n + 1) ('\\' :: cs) = (readString n rest).map fun x => (c :: x.1, x.2) := by
  simp only [readString, h, Option.bind_eq_bind, Option.bind_some]
  cases readString n rest <;> rfl

theorem readString_plain {c : Char} (hQuote : c ≠ '"') (hSlash : c ≠ '\\') (hLow : ¬ c.toNat < 0x20)
    (n : Nat) (rest : List Char) :
    readString (n + 1) (c :: rest) = (readString n rest).map fun x => (c :: x.1, x.2) := by
  rw [readString, if_neg hLow]
  · cases readString n rest <;> rfl
  · simpa using hQuote
  · simpa using hSlash

theorem readString_escapeChar (n : Nat) (c : Char) (rest : List Char) :
    readString (n + 1) (escapeChar c ++ rest) =
      (readString n rest).map fun x => (c :: x.1, x.2) := by
  unfold escapeChar
  iterate 7
    split
    · rename_i h
      obtain rfl := eq_of_beq h
      exact readString_escape rfl n
  rename_i hQuote hSlash _ _ _ _ _
  split
  · rename_i hLow
    apply readString_escape
    have hRead := readUnicode_control hLow rest
    rw [Char.ofNat_toNat] at hRead
    exact hRead
  · rename_i hLow
    apply readString_plain
    · simpa using hQuote
    · simpa using hSlash
    · exact hLow

/-- A string is read up to its closing quote. -/
theorem readString_quote {s : List Char} {n : Nat} (h : s.length < n) (rest : List Char) :
    readString n (s.flatMap escapeChar ++ '"' :: rest) = some (s, rest) := by
  induction s generalizing n with
  | nil =>
    cases n with
    | zero => simp at h
    | succ n => rfl
  | cons c s ih =>
    cases n with
    | zero => simp at h
    | succ n =>
      have hLess : s.length < n := by simpa using h
      rw [List.flatMap_cons, List.append_assoc, readString_escapeChar, ih hLess]
      rfl

theorem length_escapeChar_pos (c : Char) : 0 < (escapeChar c).length := by
  unfold escapeChar
  repeat' split
  all_goals simp

theorem length_le_flatMap_escapeChar (s : List Char) :
    s.length ≤ (s.flatMap escapeChar).length := by
  induction s with
  | nil => simp
  | cons c s ih =>
    have hPos := length_escapeChar_pos c
    simp only [List.flatMap_cons, List.length_append, List.length_cons]
    omega

/-! ## Digits -/

/-- What may stand after a value: the next one, the end of an array or object, or nothing. -/
def Follows (rest : List Char) : Prop :=
  ∀ c ∈ rest.head?, c = ',' ∨ c = ']' ∨ c = '\x7d'

theorem follows_nil : Follows [] := by
  intro c h
  cases h

theorem follows_cons {c : Char} {rest : List Char} :
    Follows (c :: rest) ↔ c = ',' ∨ c = ']' ∨ c = '\x7d' := by
  simp [Follows]

variable {cs r rest : List Char}

/-- What follows starts with none of the characters of a number. -/
theorem Follows.head_ne (hRest : Follows rest) {c : Char} (h : c ∈ rest.head?) :
    c.isDigit = false ∧ c ≠ '.' ∧ c ≠ 'e' ∧ c ≠ 'E' := by
  rcases hRest c h with rfl | rfl | rfl <;> decide

theorem takeWhile_follows (hRest : Follows rest) : rest.takeWhile Char.isDigit = [] := by
  cases rest with
  | nil => rfl
  | cons c rest => simp [(hRest.head_ne (by simp : c ∈ (c :: rest).head?)).1]

theorem dropWhile_follows (hRest : Follows rest) : rest.dropWhile Char.isDigit = rest := by
  cases rest with
  | nil => rfl
  | cons c rest => simp [(hRest.head_ne (by simp : c ∈ (c :: rest).head?)).1]

theorem readDigits_append (hRest : Follows rest) (cs : List Char) :
    readDigits (cs ++ rest) = ((readDigits cs).1, (readDigits cs).2 ++ rest) := by
  have hTake : (cs ++ rest).takeWhile Char.isDigit = cs.takeWhile Char.isDigit := by
    rw [List.takeWhile_append, takeWhile_follows hRest]
    split
    · rename_i h
      rw [List.append_nil]
      exact ((List.takeWhile_prefix _).eq_of_length h).symm
    · rfl
  have hDrop : (cs ++ rest).dropWhile Char.isDigit = cs.dropWhile Char.isDigit ++ rest := by
    rw [List.dropWhile_append, dropWhile_follows hRest]
    split
    · rename_i h
      rw [List.isEmpty_iff.mp h]
      rfl
    · rfl
  rw [readDigits, readDigits, hTake, hDrop]

theorem readDigits_of_all (h : ∀ c ∈ cs, c.isDigit = true) : readDigits cs = (cs.map digitOf, []) := by
  have hTake : cs.takeWhile Char.isDigit = cs := List.takeWhile_eq_self_iff.mpr h
  have hDrop : cs.dropWhile Char.isDigit = [] := List.dropWhile_eq_nil_iff.mpr h
  rw [readDigits, hTake, hDrop]

theorem readSomeDigits_eq_some_iff {ds : List Nat} :
    readSomeDigits cs = some (ds, r) ↔ readDigits cs = (ds, r) ∧ ds ≠ [] := by
  unfold readSomeDigits
  split
  · rename_i h
    constructor
    · intro hNone
      cases hNone
    · rintro ⟨hEq, hNe⟩
      exact absurd (congrArg Prod.fst (h.symm.trans hEq)).symm hNe
  · rename_i found h
    constructor
    · intro hEq
      have hFound := Option.some.inj hEq
      refine ⟨hFound, ?_⟩
      rintro rfl
      exact h r hFound
    · rintro ⟨hEq, -⟩
      rw [hEq]

theorem readSomeDigits_append (hRest : Follows rest) {ds : List Nat}
    (h : readSomeDigits cs = some (ds, r)) : readSomeDigits (cs ++ rest) = some (ds, r ++ rest) := by
  obtain ⟨hDigits, hNe⟩ := readSomeDigits_eq_some_iff.mp h
  rw [readSomeDigits_eq_some_iff, readDigits_append hRest, hDigits]
  exact ⟨rfl, hNe⟩

/-! ## Numbers

Each stage of reading a number reads the same if more text follows that no number has in it. -/

theorem readWhole_append (hRest : Follows rest) {ds : List Nat} (h : readWhole cs = some (ds, r)) :
    readWhole (cs ++ rest) = some (ds, r ++ rest) := by
  cases cs with
  | nil => cases h
  | cons c cs =>
    by_cases hZero : c = '0'
    · subst hZero
      obtain ⟨rfl, rfl⟩ := Prod.mk.inj (Option.some.inj h)
      rfl
    · have hSame : ∀ cs, readWhole (c :: cs) = readSomeDigits (c :: cs) := by
        intro cs
        simp [readWhole, hZero]
      rw [hSame] at h
      rw [List.cons_append, hSame, ← List.cons_append]
      exact readSomeDigits_append hRest h

theorem readFraction_append (hRest : Follows rest) {ds : List Nat}
    (h : readFraction cs = some (ds, r)) : readFraction (cs ++ rest) = some (ds, r ++ rest) := by
  have hPlain : ∀ cs, (∀ c ∈ cs.head?, c ≠ '.') → readFraction cs = some ([], cs) := by
    intro cs hHead
    unfold readFraction
    split
    · rename_i rest'
      exact absurd rfl (hHead '.' (by simp))
    · rfl
  cases cs with
  | nil =>
    obtain ⟨rfl, rfl⟩ := Prod.mk.inj (Option.some.inj h)
    apply hPlain
    intro c hc
    exact (hRest.head_ne hc).2.1
  | cons c cs =>
    by_cases hPoint : c = '.'
    · subst hPoint
      exact readSomeDigits_append hRest h
    · rw [hPlain _ (by simpa using hPoint)] at h
      obtain ⟨rfl, rfl⟩ := Prod.mk.inj (Option.some.inj h)
      exact hPlain _ (by simpa using hPoint)

theorem readExponentSign_append {c : Char} (cs rest : List Char) :
    readExponentSign (c :: cs ++ rest) =
      ((readExponentSign (c :: cs)).1, (readExponentSign (c :: cs)).2 ++ rest) := by
  by_cases hMinus : c = '-'
  · subst hMinus
    rfl
  by_cases hPlus : c = '+'
  · subst hPlus
    rfl
  simp [readExponentSign, hMinus, hPlus]

theorem readExponent_append (hRest : Follows rest) {e : Int} (h : readExponent cs = some (e, r)) :
    readExponent (cs ++ rest) = some (e, r ++ rest) := by
  cases cs with
  | nil => cases h
  | cons c cs =>
    unfold readExponent at h ⊢
    rw [readExponentSign_append]
    generalize readExponentSign (c :: cs) = found at h ⊢
    obtain ⟨negative, cs⟩ := found
    obtain ⟨⟨ds, after⟩, hDigits, hEq⟩ := Option.map_eq_some_iff.mp h
    obtain ⟨rfl, rfl⟩ := Prod.mk.inj hEq
    exact Option.map_eq_some_iff.mpr ⟨_, readSomeDigits_append hRest hDigits, rfl⟩

theorem readExponentPart_append (hRest : Follows rest) {e : Option Int}
    (h : readExponentPart cs = some (e, r)) : readExponentPart (cs ++ rest) = some (e, r ++ rest) := by
  cases cs with
  | nil =>
    obtain ⟨rfl, rfl⟩ := Prod.mk.inj (Option.some.inj h)
    cases rest with
    | nil => rfl
    | cons c rest =>
      obtain ⟨-, -, hSmall, hLarge⟩ := hRest.head_ne (by simp : c ∈ (c :: rest).head?)
      simp [readExponentPart, hSmall, hLarge]
  | cons c cs =>
    simp only [readExponentPart, List.cons_append] at h ⊢
    by_cases hMark : (c == 'e' || c == 'E') = true
    · rw [if_pos hMark] at h ⊢
      obtain ⟨⟨found, after⟩, hFound, hEq⟩ := Option.map_eq_some_iff.mp h
      obtain ⟨rfl, rfl⟩ := Prod.mk.inj hEq
      rw [readExponent_append hRest hFound]
      rfl
    · rw [if_neg hMark] at h ⊢
      obtain ⟨rfl, rfl⟩ := Prod.mk.inj (Option.some.inj h)
      rfl

theorem readSign_append {c : Char} (cs rest : List Char) :
    readSign (c :: cs ++ rest) = ((readSign (c :: cs)).1, (readSign (c :: cs)).2 ++ rest) := by
  by_cases hMinus : c = '-'
  · subst hMinus
    rfl
  · simp [readSign, hMinus]

/-- The stages of reading a number. -/
theorem readNumber_eq_some_iff {n : Number} :
    readNumber cs = some (n, r) ↔ ∃ whole afterWhole fraction afterFraction exponent,
      readWhole (readSign cs).2 = some (whole, afterWhole) ∧
      readFraction afterWhole = some (fraction, afterFraction) ∧
      readExponentPart afterFraction = some (exponent, r) ∧
      Numeral.number? ⟨(readSign cs).1, whole, fraction, exponent⟩ = some n := by
  simp only [readNumber, Option.bind_eq_bind, Option.bind_eq_some_iff, Option.pure_def,
    Option.some.injEq, Prod.mk.injEq, Prod.exists]
  constructor
  · rintro ⟨whole, afterWhole, hWhole, fraction, afterFraction, hFraction, exponent, _, hExponent, _,
      hNumber, rfl, rfl⟩
    exact ⟨whole, afterWhole, fraction, afterFraction, exponent, hWhole, hFraction, hExponent,
      hNumber⟩
  · rintro ⟨whole, afterWhole, fraction, afterFraction, exponent, hWhole, hFraction, hExponent,
      hNumber⟩
    exact ⟨whole, afterWhole, hWhole, fraction, afterFraction, hFraction, exponent, r, hExponent, n,
      hNumber, rfl, rfl⟩

/-- What stands after a number does not change it. -/
theorem readNumber_append (hRest : Follows rest) {n : Number} (h : readNumber cs = some (n, r)) :
    readNumber (cs ++ rest) = some (n, r ++ rest) := by
  obtain ⟨whole, afterWhole, fraction, afterFraction, exponent, hWhole, hFraction, hExponent,
    hNumber⟩ := readNumber_eq_some_iff.mp h
  cases cs with
  | nil => cases hWhole
  | cons c cs =>
    rw [readNumber_eq_some_iff, readSign_append]
    exact ⟨whole, afterWhole ++ rest, fraction, afterFraction ++ rest, exponent,
      readWhole_append hRest hWhole, readFraction_append hRest hFraction,
      readExponentPart_append hRest hExponent, hNumber⟩

theorem head_of_readNumber {n : Number} (h : readNumber cs = some (n, r)) :
    ∃ c rest, cs = c :: rest ∧ (c = '-' ∨ c.isDigit = true) := by
  obtain ⟨whole, afterWhole, -, -, -, hWhole, -⟩ := readNumber_eq_some_iff.mp h
  cases cs with
  | nil => cases hWhole
  | cons c cs =>
    refine ⟨c, cs, rfl, ?_⟩
    by_cases hMinus : c = '-'
    · exact .inl hMinus
    right
    by_contra hDigit
    have hZero : c ≠ '0' := by
      rintro rfl
      exact hDigit rfl
    simp [readSign, hMinus, readWhole, hZero, readSomeDigits, readDigits, hDigit] at hWhole

/-! ## What is left after a number -/

theorem readSomeDigits_suffix {ds : List Nat} (h : readSomeDigits cs = some (ds, r)) : r <:+ cs := by
  obtain ⟨hDigits, -⟩ := readSomeDigits_eq_some_iff.mp h
  obtain ⟨-, rfl⟩ := Prod.mk.inj hDigits
  exact List.dropWhile_suffix _

theorem readExponentPart_suffix {e : Option Int} (h : readExponentPart cs = some (e, r)) :
    r <:+ cs := by
  unfold readExponentPart at h
  split at h
  · rename_i c cs
    split at h
    · obtain ⟨⟨found, after⟩, hFound, hEq⟩ := Option.map_eq_some_iff.mp h
      obtain ⟨-, rfl⟩ := Prod.mk.inj hEq
      obtain ⟨⟨ds, after⟩, hDigits, hEq⟩ := Option.map_eq_some_iff.mp hFound
      obtain ⟨-, rfl⟩ := Prod.mk.inj hEq
      have hSign : (readExponentSign cs).2 <:+ cs := by
        unfold readExponentSign
        split
        · exact List.suffix_cons _ _
        · exact List.suffix_cons _ _
        · exact List.suffix_rfl
      exact ((readSomeDigits_suffix hDigits).trans hSign).trans (List.suffix_cons _ _)
    · obtain ⟨-, rfl⟩ := Prod.mk.inj (Option.some.inj h)
      exact List.suffix_rfl
  · obtain ⟨-, rfl⟩ := Prod.mk.inj (Option.some.inj h)
    exact List.suffix_rfl

theorem readNumber_suffix {n : Number} (h : readNumber cs = some (n, r)) : r <:+ cs := by
  obtain ⟨whole, afterWhole, fraction, afterFraction, exponent, hWhole, hFraction, hExponent, -⟩ :=
    readNumber_eq_some_iff.mp h
  have hSign : (readSign cs).2 <:+ cs := by
    unfold readSign
    split
    · exact List.suffix_cons _ _
    · exact List.suffix_rfl
  have hAfterWhole : afterWhole <:+ (readSign cs).2 := by
    generalize (readSign cs).2 = cs at hWhole
    unfold readWhole at hWhole
    split at hWhole
    · obtain ⟨-, rfl⟩ := Prod.mk.inj (Option.some.inj hWhole)
      exact List.suffix_cons _ _
    · exact readSomeDigits_suffix hWhole
  have hAfterFraction : afterFraction <:+ afterWhole := by
    unfold readFraction at hFraction
    split at hFraction
    · exact (readSomeDigits_suffix hFraction).trans (List.suffix_cons _ _)
    · obtain ⟨-, rfl⟩ := Prod.mk.inj (Option.some.inj hFraction)
      exact List.suffix_rfl
  exact (((readExponentPart_suffix hExponent).trans hAfterFraction).trans hAfterWhole).trans hSign

/-! ## Written numbers -/

theorem foldl_digitOf (cs : List Char) (acc : Nat) :
    (cs.map digitOf).foldl (fun acc d => acc * 10 + d) acc = Nat.ofDigitChars 10 cs acc := by
  induction cs generalizing acc with
  | nil => rfl
  | cons c cs ih =>
    rw [List.map_cons, List.foldl_cons, ih, Nat.ofDigitChars_cons, Nat.mul_comm acc 10]
    rfl

theorem head_toDigits_ne {m : Nat} (h : 0 < m) : ∀ c ∈ (Nat.toDigits 10 m).head?, c ≠ '0' := by
  induction m using Nat.strongRecOn with
  | ind m ih =>
    intro c hc
    rw [Nat.toDigits_eq_if (by decide)] at hc
    split at hc
    · obtain rfl : m.digitChar = c := by simpa using hc
      simp
      omega
    · have hHead : (Nat.toDigits 10 (m / 10)).head? = some c := by
        rw [List.head?_append] at hc
        cases hFirst : (Nat.toDigits 10 (m / 10)).head? with
        | none => exact absurd (List.head?_eq_none_iff.mp hFirst) Nat.toDigits_ne_nil
        | some d => simpa [hFirst] using hc
      exact ih (m / 10) (by omega) (by omega) c hHead

theorem readWhole_toDigits (m : Nat) :
    readWhole (Nat.toDigits 10 m) = some ((Nat.toDigits 10 m).map digitOf, []) := by
  rcases Nat.eq_zero_or_pos m with rfl | hPos
  · rfl
  · have hAll : ∀ c ∈ Nat.toDigits 10 m, c.isDigit = true := by
      intro c hc
      exact Nat.isDigit_of_mem_toDigits (by decide) (by decide) hc
    have hHead := head_toDigits_ne hPos
    have hNe : Nat.toDigits 10 m ≠ [] := Nat.toDigits_ne_nil
    generalize Nat.toDigits 10 m = cs at hAll hHead hNe
    cases cs with
    | nil => exact absurd rfl hNe
    | cons c cs =>
      have hZero : c ≠ '0' := hHead c (by simp)
      have hSame : readWhole (c :: cs) = readSomeDigits (c :: cs) := by simp [readWhole, hZero]
      rw [hSame, readSomeDigits_eq_some_iff]
      exact ⟨readDigits_of_all hAll, by simp⟩

/-- The digits of a natural number, with or without a sign in front. -/
theorem readNumber_toDigits (negative : Bool) (m : Nat) :
    readNumber ((if negative then ['-'] else []) ++ Nat.toDigits 10 m) =
      (Numeral.number? ⟨negative, (Nat.toDigits 10 m).map digitOf, [], none⟩).map (·, []) := by
  have hSign : readSign ((if negative then ['-'] else []) ++ Nat.toDigits 10 m) =
      (negative, Nat.toDigits 10 m) := by
    cases negative with
    | true => rfl
    | false =>
      have hAll : ∀ c ∈ (Nat.toDigits 10 m).head?, c ≠ '-' := by
        rintro c hc rfl
        have hDigit := Nat.isDigit_of_mem_toDigits (b := 10) (n := m) (by decide) (by decide)
          (List.mem_of_mem_head? hc)
        exact absurd hDigit (by decide)
      generalize Nat.toDigits 10 m = cs at hAll
      cases cs with
      | nil => rfl
      | cons c cs => simp [readSign, hAll c (by simp)]
  simp only [readNumber, hSign, readWhole_toDigits]
  cases h : Numeral.number? ⟨negative, (Nat.toDigits 10 m).map digitOf, [], none⟩ with
  | none => simp [readFraction, readExponentPart, h]
  | some n => simp [readFraction, readExponentPart, h]

end Json

/-! ## Faithful numbers -/

/-- A number that is read back when it stands alone: an integer has 64 bits. -/
def Number.Faithful : Number → Prop
  | .int i => -((UInt64.size / 2 : Nat) : Int) ≤ i ∧ i ≤ (Numeral.maxWord : Nat)
  | .float x => Json.read? (Number.float x).text = some (.number (.float x))

namespace Json

theorem readNumber_int {i : Int} (h : (Number.int i).Faithful) :
    readNumber (Number.int i).text.toList = some (.int i, []) := by
  obtain ⟨hLow, hHigh⟩ := h
  have hValue : ∀ m, ((Nat.toDigits 10 m).map digitOf).foldl (fun acc d => acc * 10 + d) 0 = m := by
    intro m
    rw [foldl_digitOf, Nat.ofDigitChars_ten_toDigits]
  have hMax : Numeral.maxWord = 2 ^ 64 - 1 := rfl
  have hSize : UInt64.size = 2 ^ 64 := rfl
  rw [hSize] at hLow
  rw [hMax] at hHigh
  rw [Number.text, Int.toString_eq_repr, Int.repr_eq_if]
  split
  · rename_i hPos
    have hLess : i.toNat ≤ 2 ^ 64 - 1 := by omega
    have hBack : (i.toNat : Int) = i := by omega
    have hRead := readNumber_toDigits false i.toNat
    simp only [Numeral.number?, hValue, hMax, hLess, hBack] at hRead
    simpa using hRead
  · rename_i hNeg
    have hMagnitude : 0 < (-i).toNat ∧ (-i).toNat ≤ 2 ^ 64 / 2 := by omega
    have hRead := readNumber_toDigits true (-i).toNat
    have hBack : -((-i).toNat : Int) = i := by omega
    simp only [Numeral.number?, hValue, hSize, hMagnitude, hBack] at hRead
    simpa using hRead

/-! ## Floating-point numbers

Their digits are not looked at: all that is used is that there are no blanks among them. -/

theorem not_blank_of_le {c : Char} (h : c.toNat = 0 ∨ 33 ≤ c.toNat) : isJsonBlank c = false := by
  simp only [isJsonBlank, Bool.or_eq_false_iff, beq_eq_false_iff_ne, ne_eq]
  refine ⟨⟨⟨?_, ?_⟩, ?_⟩, ?_⟩ <;>
  · rintro rfl
    revert h
    decide

theorem not_blank_of_isDigit {c : Char} (h : c.isDigit = true) : isJsonBlank c = false := by
  simp only [Char.isDigit, Bool.and_eq_true, decide_eq_true_eq] at h
  have hLow : 48 ≤ c.toNat := h.1
  apply not_blank_of_le
  omega

theorem toNat_ofNat_cases (n : Nat) : (Char.ofNat n).toNat = n ∨ (Char.ofNat n).toNat = 0 := by
  unfold Char.ofNat
  by_cases h : n.isValidChar
  · rw [dif_pos h]
    exact .inl rfl
  · rw [dif_neg h]
    exact .inr rfl

theorem not_blank_of_mem_chars {ds : List Nat} {c : Char} (h : c ∈ Decimal.chars ds) :
    isJsonBlank c = false := by
  obtain ⟨d, -, rfl⟩ := List.mem_map.mp h
  have hZero : '0'.toNat = 48 := rfl
  apply not_blank_of_le
  rcases toNat_ofNat_cases ('0'.toNat + d) with h | h <;> omega

theorem not_blank_of_mem_decimal {d : Decimal} {c : Char} (h : c ∈ d.text) :
    isJsonBlank c = false := by
  have hDigits : ∀ {m : Nat}, c ∈ Nat.toDigits 10 m → isJsonBlank c = false := by
    intro m hc
    exact not_blank_of_isDigit (Nat.isDigit_of_mem_toDigits (by decide) (by decide) hc)
  unfold Decimal.text Decimal.positional Decimal.scientific at h
  split at h
  · split at h
    all_goals
      simp only [List.mem_append, List.mem_cons] at h
    · rcases h with rfl | rfl | h
      · rfl
      · rfl
      · exact not_blank_of_mem_chars h
    · rcases h with h | rfl | h
      · exact not_blank_of_mem_chars h
      · rfl
      · exact not_blank_of_mem_chars h
  · simp only [List.mem_append, List.mem_cons] at h
    rcases h with h | rfl | rfl | h
    · split at h
      · cases h
      · exact not_blank_of_mem_chars h
      · simp only [List.mem_append, List.mem_cons] at h
        rcases h with h | rfl | h
        · exact not_blank_of_mem_chars h
        · rfl
        · exact not_blank_of_mem_chars h
    · rfl
    · split <;> rfl
    · exact hDigits h

theorem not_blank_of_mem_text {x : Float} {c : Char} (h : c ∈ (Number.float x).text.toList) :
    isJsonBlank c = false := by
  have hZero : c ∈ ['0', '.', '0'] → isJsonBlank c = false := by
    intro hc
    simp only [List.mem_cons, List.not_mem_nil, or_false] at hc
    rcases hc with rfl | rfl | rfl <;> rfl
  rw [Number.text, Decimal.ofFloat, String.toList_ofList] at h
  split at h
  · rcases List.mem_cons.mp h with rfl | h
    · rfl
    · split at h
      · exact not_blank_of_mem_decimal h
      · exact hZero h
  · split at h
    · exact not_blank_of_mem_decimal h
    · exact hZero h

theorem readNumber_of_readValue {n d : Nat} {cs r : List Char} {x : Number}
    (h : readValue n d cs = some (.number x, r)) : readNumber (skipBlanks cs) = some (x, r) := by
  cases n with
  | zero => cases h
  | succ n =>
    rw [readValue] at h
    split at h
    case h_7 rest _ _ _ _ _ _ =>
      obtain ⟨⟨y, rest⟩, hRead, hEq⟩ := Option.bind_eq_some_iff.mp h
      cases hEq
      exact hRead
    case h_4 =>
      obtain ⟨⟨y, rest⟩, hRead, hEq⟩ := Option.bind_eq_some_iff.mp h
      cases hEq
    case h_5 =>
      split at h
      · cases h
      · split at h
        · cases h
        · obtain ⟨⟨y, rest⟩, hRead, hEq⟩ := Option.bind_eq_some_iff.mp h
          cases hEq
    case h_6 =>
      split at h
      · cases h
      · split at h
        · cases h
        · obtain ⟨⟨y, rest⟩, hRead, hEq⟩ := Option.bind_eq_some_iff.mp h
          cases hEq
    all_goals cases h

theorem readNumber_float {x : Float} (h : (Number.float x).Faithful) :
    readNumber (Number.float x).text.toList = some (.float x, []) := by
  have hBlank : ∀ c ∈ (Number.float x).text.toList, isJsonBlank c = false := by
    intro c hc
    exact not_blank_of_mem_text hc
  have hSkip : ∀ cs : List Char, (∀ c ∈ cs, isJsonBlank c = false) → skipBlanks cs = cs := by
    intro cs hAll
    cases cs with
    | nil => rfl
    | cons c cs => simp [skipBlanks, hAll c (by simp)]
  unfold Number.Faithful read? at h
  dsimp only at h
  split at h
  · rename_i v r hRead
    split at h
    · rename_i hEnd
      obtain rfl := Option.some.inj h
      have hNumber := readNumber_of_readValue hRead
      rw [hSkip _ hBlank] at hNumber
      have hRest : ∀ c ∈ r, isJsonBlank c = false := by
        intro c hc
        exact hBlank c ((readNumber_suffix hNumber).subset hc)
      rw [hSkip _ hRest, List.isEmpty_iff] at hEnd
      rw [hNumber, hEnd]
    · cases h
  · cases h

/-- A faithful number is read back if what follows cannot be a part of it. -/
theorem readNumber_text {n : Number} (h : n.Faithful) {rest : List Char} (hRest : Follows rest) :
    readNumber (n.text.toList ++ rest) = some (n, rest) := by
  apply readNumber_append hRest (r := [])
  cases n with
  | int i => exact readNumber_int h
  | float x => exact readNumber_float h

end Json

end LiveMarkup
