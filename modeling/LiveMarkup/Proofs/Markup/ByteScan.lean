import LiveMarkup.Proofs.Markup.Spans
import LiveMarkup.Proofs.Text.Splitting

/-!
# Scanning a text byte by byte

A byte of a text is read as the character of its number. That of an ASCII character is the character
itself, and those of any other one are beyond ASCII. So a test that takes all characters beyond
ASCII alike may be made on bytes: it goes past whole characters.

The scan for start tags on bytes and places. Every part of the text that it takes out is checked to
lie between two characters, and every loop has a number of rounds; without either there is no
result. As many rounds as the text has bytes, and one, are enough, no part is taken out of the
middle of a character, and the result is that of the scan on characters.

* `Source.byte?`, `Source.tail?`: what stands at a place, and the text from a place on, which there
  is between two characters only;
* `Source.advance`: goes on while a test holds;
* `Source.Uniform`: a test for which bytes will do;
* `Source.advance_takeWhile`, `Source.advance_breakAt`: where it stops;
* `StartTag.valueEnd?`, `StartTag.attributeEnd?`, `StartTag.attributesFrom?`,
  `StartTag.contentEnd?`, `StartTag.tagsFrom?`: the scan on bytes;
* `StartTag.scanBytes?_eq`: there always is a result, and it is that of `StartTag.scan`.
-/

/-! ## Reading a text byte by byte -/

namespace LiveMarkup

namespace Source

def bytes (cs : List Char) : List UInt8 :=
  cs.flatMap String.utf8EncodeChar

/-- The byte at a place, as the character of its number. -/
def byte? (text : String) (i : Nat) : Option Char :=
  (bytes text.toList)[i]?.map Char.ofUInt8

/-- The text from a place on, if it lies between two characters. -/
def tail? (text : String) (i : Nat) : Option (List Char) :=
  dropBytes i text.toList

/-- The number of bytes in front of a pattern. -/
def find? (pattern cs : List Char) : Option Nat :=
  (Text.cut pattern cs).map fun parts => byteLength parts.1

/-- The first byte that reads as a character. -/
def position? (c : Char) (cs : List Char) : Option Nat :=
  (bytes cs).findIdx? fun b => Char.ofUInt8 b == c

theorem lt_of_byte? {text : String} {i : Nat} {c : Char} (h : byte? text i = some c) :
    i < (bytes text.toList).length := by
  obtain ⟨b, hb, -⟩ := Option.map_eq_some_iff.mp h
  exact (List.getElem?_eq_some_iff.mp hb).1

/-- Goes on from a place as long as a test holds of the place and of the byte there. -/
def advance (text : String) (p : Nat → Char → Bool) (i : Nat) : Nat :=
  match h : byte? text i with
  | some c =>
    have := lt_of_byte? h
    if p i c then advance text p (i + 1) else i
  | none => i
termination_by (bytes text.toList).length - i

/-! ### Bytes of characters -/

/-- Two characters that are the same, or both beyond ASCII. -/
def Alike (c d : Char) : Prop :=
  d = c ∨ (128 ≤ c.toNat ∧ 128 ≤ d.toNat)

/-- A test that takes all characters beyond ASCII alike. -/
def Uniform (q : Char → Bool) : Prop :=
  ∀ c d, 128 ≤ c.toNat → 128 ≤ d.toNat → q c = q d

theorem Alike.test_eq {q : Char → Bool} {c d : Char} (h : Alike c d) (hq : Uniform q) :
    q d = q c := by
  rcases h with rfl | ⟨hc, hd⟩
  · rfl
  · exact hq d c hd hc

theorem uniform_beq {e : Char} (he : e.toNat < 128) : Uniform (· == e) := by
  intro c d hc hd
  have hNot : ∀ c : Char, 128 ≤ c.toNat → (c == e) = false := by
    intro c hc
    apply beq_eq_false_iff_ne.mpr
    rintro rfl
    omega
  show (c == e) = (d == e)
  rw [hNot c hc, hNot d hd]

theorem Uniform.or {p q : Char → Bool} (hp : Uniform p) (hq : Uniform q) :
    Uniform fun c => p c || q c := by
  intro c d hc hd
  show (p c || q c) = (p d || q d)
  rw [hp c d hc hd, hq c d hc hd]

theorem Uniform.not {q : Char → Bool} (hq : Uniform q) : Uniform fun c => !q c := by
  intro c d hc hd
  show (!q c) = !q d
  rw [hq c d hc hd]

theorem Alike.beq_eq {c d e : Char} (h : Alike c d) (he : e.toNat < 128) :
    (d == e) = (c == e) :=
  h.test_eq (uniform_beq he)

theorem Alike.eq_of_lt {c d : Char} (h : Alike c d) (hc : c.toNat < 128) : d = c := by
  rcases h with rfl | ⟨hHigh, -⟩
  · rfl
  · omega

theorem utf8EncodeChar_of_lt {c : Char} (h : c.toNat < 128) :
    String.utf8EncodeChar c = [UInt8.ofNat c.toNat] := by
  have hVal : c.val.toNat ≤ 127 := Nat.le_of_lt_succ h
  simp only [String.utf8EncodeChar, hVal, if_true]
  rfl

theorem le_of_mem_utf8EncodeChar {c : Char} (h : 128 ≤ c.toNat) :
    ∀ b ∈ String.utf8EncodeChar c, 128 ≤ b.toNat := by
  have hVal : 128 ≤ c.val.toNat := h
  intro b hb
  simp only [String.utf8EncodeChar] at hb
  split at hb
  · omega
  · split at hb
    · simp only [List.mem_cons, List.not_mem_nil, or_false] at hb
      rcases hb with rfl | rfl <;> rw [UInt8.toNat_ofNat'] <;> omega
    · split at hb
      · simp only [List.mem_cons, List.not_mem_nil, or_false] at hb
        rcases hb with rfl | rfl | rfl <;> rw [UInt8.toNat_ofNat'] <;> omega
      · simp only [List.mem_cons, List.not_mem_nil, or_false] at hb
        rcases hb with rfl | rfl | rfl | rfl <;> rw [UInt8.toNat_ofNat'] <;> omega

theorem alike_of_mem_utf8EncodeChar {c : Char} {b : UInt8} (hb : b ∈ String.utf8EncodeChar c) :
    Alike c (Char.ofUInt8 b) := by
  rcases Nat.lt_or_ge c.toNat 128 with hLow | hHigh
  · rw [utf8EncodeChar_of_lt hLow, List.mem_singleton] at hb
    left
    apply Char.toNat_inj.mp
    rw [hb]
    show (UInt8.ofNat c.toNat).toNat = c.toNat
    rw [UInt8.toNat_ofNat']
    omega
  · right
    exact ⟨hHigh, le_of_mem_utf8EncodeChar hHigh b hb⟩

theorem utf8Size_of_lt {c : Char} (h : c.toNat < 128) : c.utf8Size = 1 := by
  rw [← String.length_utf8EncodeChar, utf8EncodeChar_of_lt h, List.length_singleton]

theorem bytes_cons (c : Char) (cs : List Char) :
    bytes (c :: cs) = String.utf8EncodeChar c ++ bytes cs :=
  List.flatMap_cons

theorem bytes_append (cs ds : List Char) : bytes (cs ++ ds) = bytes cs ++ bytes ds :=
  List.flatMap_append

theorem length_bytes (cs : List Char) : (bytes cs).length = byteLength cs := by
  induction cs with
  | nil => rfl
  | cons c cs ih =>
    rw [bytes_cons, List.length_append, String.length_utf8EncodeChar, ih, byteLength_cons]

/-! ### Places between characters -/

section

variable {text : String} {i : Nat} {c : Char} {cs rest : List Char}

theorem Stands.add_length (h : Stands text.toList i cs) :
    i + byteLength cs = byteLength text.toList := by
  obtain ⟨before, hText, rfl⟩ := h
  rw [hText, byteLength_append]

theorem Stands.tail? (h : Stands text.toList i cs) : Source.tail? text i = some cs := by
  obtain ⟨before, hText, rfl⟩ := h
  rw [Source.tail?, hText, dropBytes_append]

theorem Stands.getElem? (h : Stands text.toList i cs) (k : Nat) :
    (bytes text.toList)[i + k]? = (bytes cs)[k]? := by
  obtain ⟨before, hText, rfl⟩ := h
  rw [hText, bytes_append, ← length_bytes, List.getElem?_append_right (Nat.le_add_right _ _),
    Nat.add_sub_cancel_left]

/-- There is nothing to be read at the end of a text or behind it. -/
theorem byte?_of_le (h : byteLength text.toList ≤ i) : byte? text i = none := by
  rw [← length_bytes] at h
  rw [byte?, List.getElem?_eq_none h]
  rfl

theorem Stands.byte?_nil (h : Stands text.toList i []) : Source.byte? text i = none :=
  byte?_of_le (Nat.le_of_eq h.add_length.symm)

theorem Stands.byte?_cons (h : Stands text.toList i (c :: cs)) {k : Nat} (hk : k < c.utf8Size) :
    ∃ d, Source.byte? text (i + k) = some d ∧ Alike c d := by
  rw [← String.length_utf8EncodeChar] at hk
  refine ⟨Char.ofUInt8 (String.utf8EncodeChar c)[k], ?_, ?_⟩
  · rw [byte?, h.getElem? k, bytes_cons, List.getElem?_append_left hk,
      List.getElem?_eq_getElem hk, Option.map_some]
  · exact alike_of_mem_utf8EncodeChar (List.getElem_mem hk)

theorem Stands.byte?_first (h : Stands text.toList i (c :: cs)) :
    ∃ d, Source.byte? text i = some d ∧ Alike c d :=
  h.byte?_cons c.utf8Size_pos

theorem Stands.byte?_ascii (h : Stands text.toList i (c :: cs)) (hc : c.toNat < 128) :
    Source.byte? text i = some c := by
  obtain ⟨d, hd, hAlike⟩ := h.byte?_first
  rw [hd, hAlike.eq_of_lt hc]

/-- Whether an ASCII character stands at a place. -/
theorem Stands.byte?_eq_some_iff (h : Stands text.toList i cs) {d : Char} (hd : d.toNat < 128) :
    Source.byte? text i = some d ↔ cs.head? = some d := by
  cases cs with
  | nil =>
    rw [h.byte?_nil]
    simp
  | cons c cs =>
    obtain ⟨e, he, hAlike⟩ := h.byte?_first
    rw [he, List.head?_cons, Option.some.injEq, Option.some.injEq]
    rcases hAlike with rfl | ⟨hc, hHigh⟩
    · rfl
    · constructor
      · rintro rfl
        omega
      · rintro rfl
        omega

theorem Stands.next (h : Stands text.toList i (c :: cs)) :
    Stands text.toList (i + c.utf8Size) cs :=
  Stands.after [c] h

theorem Stands.next_ascii (h : Stands text.toList i (c :: cs)) (hc : c.toNat < 128) :
    Stands text.toList (i + 1) cs := by
  have hNext := h.next
  rwa [utf8Size_of_lt hc] at hNext

/-! ### Where a test stops -/

variable {p : Nat → Char → Bool} {q : Char → Bool}

theorem advance_none (h : byte? text i = none) : advance text p i = i := by
  rw [advance]
  split
  · rename_i d hd
    rw [h] at hd
    cases hd
  · rfl

theorem advance_some (h : byte? text i = some c) :
    advance text p i = if p i c then advance text p (i + 1) else i := by
  rw [advance]
  split
  · rename_i d hd
    obtain rfl := Option.some.inj (h.symm.trans hd)
    rfl
  · rename_i hd
    rw [h] at hd
    cases hd

theorem advance_add {n : Nat} (h : ∀ k < n, ∃ d, byte? text (i + k) = some d ∧ p (i + k) d = true) :
    advance text p i = advance text p (i + n) := by
  induction n with
  | zero => rfl
  | succ n ih =>
    obtain ⟨d, hd, hTest⟩ := h n (Nat.lt_succ_self n)
    rw [ih fun k hk => h k (Nat.lt_succ_of_lt hk), advance_some hd, if_pos hTest]
    rfl

/-- A test that stops in front of certain ends of a text, and holds of all bytes of the characters
before. -/
theorem advance_breakAt {ends : List Char → Bool} {start : Nat}
    (hTest : ∀ j c cs, start ≤ j → Stands text.toList j (c :: cs) → ∀ k < c.utf8Size, ∀ d,
      byte? text (j + k) = some d → Alike c d → p (j + k) d = !ends (c :: cs))
    (h : Stands text.toList i cs) (hStart : start ≤ i) :
    advance text p i = i + byteLength (Text.breakAt ends cs).1 := by
  induction cs generalizing i with
  | nil =>
    rw [Text.breakAt]
    exact advance_none h.byte?_nil
  | cons c cs ih =>
    rw [Text.breakAt]
    split
    · rename_i hEnds
      obtain ⟨d, hd, hAlike⟩ := h.byte?_first
      have hStop : p i d = false := by
        have hFirst := hTest i c cs hStart h 0 c.utf8Size_pos d hd hAlike
        rwa [hEnds] at hFirst
      rw [advance_some hd, hStop, if_neg Bool.false_ne_true]
      rfl
    · rename_i hEnds
      have hAll : ∀ k < c.utf8Size, ∃ d, byte? text (i + k) = some d ∧ p (i + k) d = true := by
        intro k hk
        obtain ⟨d, hd, hAlike⟩ := h.byte?_cons hk
        refine ⟨d, hd, ?_⟩
        rw [hTest i c cs hStart h k hk d hd hAlike, Bool.eq_false_iff.mpr hEnds]
        rfl
      rw [advance_add hAll, ih h.next (Nat.le_trans hStart (Nat.le_add_right _ _)), Nat.add_assoc]
      rfl

theorem breakAt_head (q : Char → Bool) (cs : List Char) :
    (Text.breakAt (fun ds => !ds.head?.any q) cs).1 = cs.takeWhile q := by
  induction cs with
  | nil => rfl
  | cons c cs ih =>
    rw [Text.breakAt, List.takeWhile_cons]
    cases hq : q c <;> simp [hq, ih]

theorem advance_takeWhile (hq : Uniform q) (h : Stands text.toList i cs) :
    advance text (fun _ c => q c) i = i + byteLength (cs.takeWhile q) := by
  rw [← breakAt_head]
  apply advance_breakAt _ h (Nat.zero_le i)
  intro j c cs _ _ k _ d _ hAlike
  simp [hAlike.test_eq hq]

/-- What stands where such a test stops. -/
theorem Stands.dropWhile (h : Stands text.toList i cs) (q : Char → Bool) :
    Stands text.toList (i + byteLength (cs.takeWhile q)) (cs.dropWhile q) := by
  apply Stands.after
  rwa [List.takeWhile_append_dropWhile]

end

/-! ### Finding a character -/

theorem position?_eq_find? {c : Char} (hc : c.toNat < 128) (cs : List Char) :
    position? c cs = find? [c] cs := by
  induction cs with
  | nil => rfl
  | cons d cs ih =>
    rw [position?, bytes_cons]
    by_cases hEq : d = c
    · subst hEq
      have hCode : Char.ofUInt8 (UInt8.ofNat d.toNat) = d :=
        (alike_of_mem_utf8EncodeChar (by simp [utf8EncodeChar_of_lt hc])).eq_of_lt hc
      simp [utf8EncodeChar_of_lt hc, List.findIdx?_cons, hCode, find?, Text.cut, Text.after?,
        byteLength]
    · have hNone : (String.utf8EncodeChar d).findIdx? (fun b => Char.ofUInt8 b == c) = none := by
        rw [List.findIdx?_eq_none_iff]
        intro b hb
        apply beq_eq_false_iff_ne.mpr
        rcases alike_of_mem_utf8EncodeChar hb with hSame | ⟨-, hHigh⟩
        · rwa [hSame]
        · rintro rfl
          omega
      have hAfter : Text.after? [c] (d :: cs) = none := by
        simp [Text.after?, Ne.symm hEq]
      have hRest : (bytes cs).findIdx? (fun b => Char.ofUInt8 b == c) = find? [c] cs := ih
      rw [List.findIdx?_append, hNone, hRest, String.length_utf8EncodeChar]
      simp only [find?, Text.cut, hAfter, Option.none_or, Option.map_map]
      apply Option.map_congr
      intro parts _
      exact Nat.add_comm _ _

end Source

end LiveMarkup

namespace LiveMarkup

namespace StartTag

open Source

/-! ## The scan on bytes -/

/-- Where the value of an attribute ends that begins after its `=`. -/
def valueEnd? (markup : String) (i : Nat) : Option Nat :=
  let k := advance markup (fun _ c => isSpace c) i
  match byte? markup k with
  | none => some k
  | some q =>
    if q == '"' || q == '\'' then
      (tail? markup (k + 1)).map fun rest =>
        match position? q rest with
        | some n => k + 1 + n + 1
        | none => byteLength markup.toList
    else some (advance markup (fun _ c => !(isSpace c || c == '>')) k)

/-- Where an attribute ends whose name ends at a place. -/
def attributeEnd? (markup : String) (i : Nat) : Option Nat :=
  let k := advance markup (fun _ c => isSpace c) i
  if byte? markup k == some '=' then valueEnd? markup (k + 1) else some i

/-- Whether the name of an attribute that begins at a place goes on at another one. -/
def inName (markup : String) (start i : Nat) (c : Char) : Bool :=
  !isSpace c && c != '>' && (c != '=' || i == start) &&
    !(c == '/' && byte? markup (i + 1) == some '>')

/-- The attributes from a place on, and where the tag ends, in a number of rounds. -/
def attributesFrom? (markup : String) : Nat → Nat → Option (List AttributeSpan × Nat)
  | 0, _ => none
  | n + 1, i =>
    let start := advance markup (fun _ c => isGap c) i
    match byte? markup start with
    | none => some ([], start)
    | some c =>
      if c == '>' then some ([], start)
      else
        let stop := advance markup (inName markup start) start
        if stop == start then attributesFrom? markup n (stop + 1)
        else do
          let name ← slice? markup start stop
          let last ← attributeEnd? markup stop
          let others ← attributesFrom? markup n last
          pure (⟨name, start, last⟩ :: others.1, others.2)

/-- Where the scan goes on after a tag that ends at a place. -/
def contentEnd? (markup : String) (tag : String) (i : Nat) : Option Nat :=
  if rawTextElements.contains tag && i + 1 < byteLength markup.toList then
    (tail? (Text.lowerAscii markup) (i + 1)).map fun content =>
      match find? ('<' :: '/' :: tag.toList) content with
      | some n => i + 1 + n
      | none => byteLength markup.toList
  else some (i + 1)

/-- The start tags from a place on, in a number of rounds. -/
def tagsFrom? (markup : String) : Nat → Nat → Option (List StartTag)
  | 0, _ => none
  | n + 1, i =>
    match byte? markup i with
    | none => some []
    | some c =>
      if c != '<' then tagsFrom? markup n (i + 1)
      else do
        let here ← tail? markup i
        if ['<', '!', '-', '-'].isPrefixOf here then
          let body ← tail? markup (i + 4)
          tagsFrom? markup n <|
            match find? ['-', '-', '>'] body with
            | some k => i + 4 + k + 3
            | none => byteLength markup.toList
        else if (byte? markup (i + 1)).any Char.isAlpha then
          let nameEnd := advance markup (fun _ c => inTagName c) (i + 1)
          let name ← slice? markup (i + 1) nameEnd
          let tag := Text.lowerAscii name
          let attributes ← attributesFrom? markup (byteLength markup.toList + 1) nameEnd
          let next ← contentEnd? markup tag attributes.2
          let others ← tagsFrom? markup n next
          pure (⟨tag, i, min attributes.2 (byteLength markup.toList), attributes.1⟩ :: others)
        else tagsFrom? markup n (i + 1)

/-- The start tags of a text, found on its bytes. -/
def scanBytes? (markup : String) : Option (List StartTag) :=
  tagsFrom? markup (byteLength markup.toList + 1) 0

/-! ## Tests on bytes -/

theorem uniform_isSpace : Uniform isSpace :=
  (uniform_beq (by decide)).or (uniform_beq (by decide)) |>.or (uniform_beq (by decide))
    |>.or (uniform_beq (by decide)) |>.or (uniform_beq (by decide))

theorem uniform_isGap : Uniform isGap :=
  uniform_isSpace.or (uniform_beq (by decide))

theorem uniform_inTagName : Uniform inTagName :=
  (uniform_isSpace.or (uniform_beq (by decide)) |>.or (uniform_beq (by decide))).not

theorem uniform_unquoted : Uniform fun c => !(isSpace c || c == '>') :=
  (uniform_isSpace.or (uniform_beq (by decide))).not

theorem uniform_quote : Uniform fun c => c == '"' || c == '\'' :=
  (uniform_beq (by decide)).or (uniform_beq (by decide))

theorem isAlpha_of_le {c : Char} (h : 128 ≤ c.toNat) : c.isAlpha = false := by
  apply Bool.eq_false_iff.mpr
  intro hAlpha
  unfold Char.isAlpha Char.isUpper Char.isLower at hAlpha
  simp only [Bool.or_eq_true, Bool.and_eq_true, decide_eq_true_eq, UInt32.le_iff_toNat_le,
    ge_iff_le] at hAlpha
  have hVal : 128 ≤ c.val.toNat := h
  rcases hAlpha with ⟨-, hHigh⟩ | ⟨-, hHigh⟩
  · have hLess : c.val.toNat ≤ 90 := hHigh
    omega
  · have hLess : c.val.toNat ≤ 122 := hHigh
    omega

theorem uniform_isAlpha : Uniform Char.isAlpha := by
  intro c d hc hd
  rw [isAlpha_of_le hc, isAlpha_of_le hd]

section

variable {markup : String} {i : Nat} {cs rest : List Char} {c : Char}

/-! ## Attributes -/

theorem valueEnd?_eq (h : Stands markup.toList i cs) :
    valueEnd? markup i = some (i + byteLength (readValue cs).1) := by
  have hGap := h.dropWhile isSpace
  rw [valueEnd?, advance_takeWhile uniform_isSpace h, readValue]
  cases hDrop : cs.dropWhile isSpace with
  | nil =>
    rw [hDrop] at hGap
    simp only [hGap.byte?_nil]
  | cons c rest =>
    rw [hDrop] at hGap
    obtain ⟨d, hd, hAlike⟩ := hGap.byte?_first
    simp only [hd, hAlike.test_eq uniform_quote]
    split
    · rename_i hQuote
      have hLow : c.toNat < 128 := by
        simp only [Bool.or_eq_true, beq_iff_eq] at hQuote
        rcases hQuote with rfl | rfl <;> decide
      have hSize := utf8Size_of_lt hLow
      rw [(hGap.next_ascii hLow).tail?, hAlike.eq_of_lt hLow, Option.map_some,
        position?_eq_find? hLow, find?]
      cases hCut : Text.cut [c] rest with
      | none =>
        simp only [Option.map_none, ← hGap.add_length, byteLength_append, Nat.add_assoc]
      | some parts =>
        have hNil : byteLength [] = 0 := rfl
        simp only [Option.map_some, byteLength_append, byteLength_cons, hSize, hNil]
        congr 1
        omega
    · have hMore := advance_takeWhile uniform_unquoted hGap
      rw [hMore, byteLength_append, Nat.add_assoc]

theorem attributeEnd?_eq (h : Stands markup.toList i cs) :
    attributeEnd? markup i = some (i + byteLength (readAssignment cs).1) := by
  have hGap := h.dropWhile isSpace
  rw [attributeEnd?, advance_takeWhile uniform_isSpace h, readAssignment]
  simp only [beq_iff_eq, hGap.byte?_eq_some_iff (d := '=') (by decide)]
  split
  · rename_i hHead
    obtain ⟨rest, hDrop⟩ := List.head?_eq_some_iff.mp hHead
    rw [hDrop] at hGap ⊢
    have hSize : '='.utf8Size = 1 := rfl
    rw [valueEnd?_eq (hGap.next_ascii (by decide))]
    simp only [byteLength_append, byteLength_cons, hSize, Nat.add_assoc]
  · rename_i hHead
    split
    · rename_i rest hDrop
      rw [hDrop] at hHead
      exact absurd rfl hHead
    · rfl

/-- The name of an attribute goes up to where it ends. -/
theorem advance_inName (h : Stands markup.toList i (c :: rest)) (hGap : isGap c = false)
    (hClose : c ≠ '>') :
    advance markup (inName markup i) i =
      i + byteLength (c :: (Text.breakAt endsName rest).1) := by
  have hFirst : ∀ k < c.utf8Size, ∃ d, byte? markup (i + k) = some d ∧
      inName markup i (i + k) d = true := by
    intro k hk
    obtain ⟨d, hd, hAlike⟩ := h.byte?_cons hk
    refine ⟨d, hd, ?_⟩
    obtain ⟨hSpace, hSlash⟩ := Bool.or_eq_false_iff.mp hGap
    have hEqual : (d != '=' || i + k == i) = true := by
      cases hd : d == '='
      · simp [bne, hd]
      · rw [hAlike.beq_eq (by decide), beq_iff_eq] at hd
        subst hd
        have hZero : k = 0 := Nat.lt_one_iff.mp hk
        simp [hZero]
    have hOpen : (d != '>') = true := by
      rw [bne, hAlike.beq_eq (by decide), beq_eq_false_iff_ne.mpr hClose]
      rfl
    simp only [inName, hAlike.test_eq uniform_isSpace, hSpace, hOpen, hEqual,
      hAlike.beq_eq (e := '/') (by decide), hSlash, Bool.false_and, Bool.not_false, Bool.and_self]
  have hOthers : advance markup (inName markup i) (i + c.utf8Size) =
      i + c.utf8Size + byteLength (Text.breakAt endsName rest).1 := by
    have hPast : i + 1 ≤ i + c.utf8Size := Nat.add_le_add_left c.utf8Size_pos i
    apply advance_breakAt _ h.next hPast
    intro j c cs hStart hStands k hk d hd hAlike
    have hLater : (j + k == i) = false := by
      apply beq_eq_false_iff_ne.mpr
      omega
    have hSlash : (d == '/' && byte? markup (j + k + 1) == some '>') =
        (c == '/' && cs.head? == some '>') := by
      rw [hAlike.beq_eq (by decide)]
      cases hc : c == '/'
      · rfl
      · obtain rfl := beq_iff_eq.mp hc
        have hZero : k = 0 := Nat.lt_one_iff.mp hk
        rw [hZero, Bool.eq_iff_iff]
        simp [(hStands.next_ascii (by decide)).byte?_eq_some_iff (d := '>') (by decide)]
    rw [inName, hSlash, hLater, hAlike.test_eq uniform_isSpace, endsName, bne, bne,
      hAlike.beq_eq (by decide), hAlike.beq_eq (by decide)]
    simp only [Bool.not_or, Bool.or_false, Bool.not_and]
  rw [advance_add hFirst, hOthers, byteLength_cons, Nat.add_assoc]

/-- A round that reads an attribute, which takes at least one byte. -/
theorem attributesFrom?_succ (h : Stands markup.toList i cs)
    (hDrop : cs.dropWhile isGap = c :: rest) (hClose : c ≠ '>') (n : Nat) :
    let start := i + byteLength (cs.takeWhile isGap)
    let name := c :: (Text.breakAt endsName rest).1
    let assignment := readAssignment (Text.breakAt endsName rest).2
    let stop := start + byteLength (name ++ assignment.1)
    Stands markup.toList stop assignment.2 ∧ byteLength assignment.2 < byteLength cs ∧
      attributesFrom? markup (n + 1) i =
        (attributesFrom? markup n stop).map fun others =>
          (⟨String.ofList name, start, stop⟩ :: others.1, others.2) := by
  intro start name assignment stop
  have hAll : cs.takeWhile isGap ++ (name ++ assignment.1 ++ assignment.2) = cs :=
    attribute_append hDrop
  have hPos : 0 < byteLength name := Nat.lt_of_lt_of_le c.utf8Size_pos (Nat.le_add_right _ _)
  have hFirst : Stands markup.toList start (c :: rest) := hDrop ▸ h.dropWhile isGap
  have hName : Stands markup.toList start (name ++ assignment.1 ++ assignment.2) :=
    Stands.after _ (hAll.symm ▸ h)
  have hBehind : Stands markup.toList (start + byteLength name)
      (Text.breakAt endsName rest).2 := by
    rw [List.append_assoc, readAssignment_append] at hName
    exact hName.after name
  have hLess : byteLength assignment.2 < byteLength cs := by
    rw [← hAll]
    simp only [byteLength_append]
    omega
  have hStop : advance markup (inName markup start) start = start + byteLength name := by
    apply advance_inName hFirst _ hClose
    have hHead := List.head?_dropWhile_not isGap cs
    rw [hDrop] at hHead
    simpa using hHead
  have hMoved : (start + byteLength name == start) = false := by
    apply beq_eq_false_iff_ne.mpr
    omega
  have hSlice : slice? markup start (start + byteLength name) = some (String.ofList name) := by
    rw [List.append_assoc] at hName
    exact hName.slice? name
  have hEnd : attributeEnd? markup (start + byteLength name) = some stop := by
    rw [attributeEnd?_eq hBehind, Nat.add_assoc, ← byteLength_append]
  obtain ⟨d, hd, hAlike⟩ := hFirst.byte?_first
  have hOpen : (d == '>') = false := by
    rw [hAlike.beq_eq (by decide), beq_eq_false_iff_ne.mpr hClose]
  refine ⟨hName.after _, hLess, ?_⟩
  have hStart : advance markup (fun _ c => isGap c) i = start :=
    advance_takeWhile uniform_isGap h
  simp only [attributesFrom?, hStart, hd, hOpen, hStop, hMoved, hSlice, hEnd, Bool.false_eq_true,
    if_false, Option.bind_eq_bind, Option.bind_some]
  cases attributesFrom? markup n stop <;> rfl

/-- The attributes of a tag on bytes are those on characters. -/
theorem attributesFrom?_eq {n : Nat} (h : Stands markup.toList i cs) (hn : byteLength cs < n) :
    attributesFrom? markup n i =
      some ((readAttributes cs i).1, (readAttributes cs i).2.offset) := by
  obtain ⟨n, rfl⟩ := Nat.exists_eq_succ_of_ne_zero (Nat.ne_zero_of_lt hn)
  fun_induction readAttributes cs i generalizing n with
  | case1 cs i start hDrop =>
    have hStart : advance markup (fun _ c => isGap c) i = start :=
      advance_takeWhile uniform_isGap h
    have hEnd : Stands markup.toList start [] := hDrop ▸ h.dropWhile isGap
    simp only [attributesFrom?, hStart, hEnd.byte?_nil]
  | case2 cs i start c rest hDrop hClose =>
    obtain rfl := beq_iff_eq.mp hClose
    have hStart : advance markup (fun _ c => isGap c) i = start :=
      advance_takeWhile uniform_isGap h
    have hEnd : Stands markup.toList start ('>' :: rest) := hDrop ▸ h.dropWhile isGap
    simp only [attributesFrom?, hStart, hEnd.byte?_ascii (by decide), beq_self_eq_true, if_true]
  | case3 cs i start c rest hDrop hClose hlt name assignment stop others ih =>
    have hNot : c ≠ '>' := by simpa using hClose
    obtain ⟨hRest, hLess, hRound⟩ := attributesFrom?_succ h hDrop hNot n
    have hEnough : byteLength assignment.2 < n :=
      Nat.lt_of_lt_of_le hLess (Nat.le_of_lt_succ hn)
    obtain ⟨n, rfl⟩ := Nat.exists_eq_succ_of_ne_zero (Nat.ne_zero_of_lt hEnough)
    rw [hRound, ih hRest n hEnough]
    rfl

/-! ## Content that is text -/

theorem utf8Size_toLower (c : Char) : c.toLower.utf8Size = c.utf8Size := by
  unfold Char.toLower
  split
  · rename_i hUpper
    have hHigh : c.val.toNat ≤ 90 := hUpper.2
    have hOld : c.toNat < 128 := Nat.lt_of_le_of_lt hHigh (by decide)
    rw [utf8Size_of_lt hOld]
    apply utf8Size_of_lt
    show (c.val + 32).toNat < 128
    rw [UInt32.toNat_add]
    have hSmall : (32 : UInt32).toNat = 32 := rfl
    omega
  · rfl

theorem byteLength_map_toLower (cs : List Char) :
    byteLength (cs.map Char.toLower) = byteLength cs := by
  induction cs with
  | nil => rfl
  | cons c cs ih => rw [List.map_cons, byteLength_cons, byteLength_cons, utf8Size_toLower, ih]

theorem stands_lowerAscii (h : Stands markup.toList i cs) :
    Stands (Text.lowerAscii markup).toList i (cs.map Char.toLower) := by
  obtain ⟨before, hText, rfl⟩ := h
  refine ⟨before.map Char.toLower, ?_, byteLength_map_toLower before⟩
  rw [Text.lowerAscii, String.toList_ofList, hText, List.map_append]

/-- The text in front of a pattern that is found in small letters. -/
theorem byteLength_breakAt_lower (pattern cs : List Char) :
    byteLength (Text.breakAt
        (fun rest => (Text.after? pattern (rest.map Char.toLower)).isSome) cs).1 =
      (find? pattern (cs.map Char.toLower)).getD (byteLength cs) := by
  induction cs with
  | nil => cases pattern <;> rfl
  | cons c cs ih =>
    rw [Text.breakAt, find?, List.map_cons, Text.cut]
    cases hAfter : Text.after? pattern (c.toLower :: cs.map Char.toLower) with
    | some after => simp
    | none =>
      have hIn : ∀ k, (find? pattern (cs.map Char.toLower)).getD k =
          ((Text.cut pattern (cs.map Char.toLower)).map fun parts => byteLength parts.1).getD k :=
        fun _ => rfl
      simp only [Option.isSome_none, Bool.false_eq_true, if_false, byteLength_cons, ih, hIn]
      cases Text.cut pattern (cs.map Char.toLower) with
      | none => rfl
      | some parts => simp [byteLength_cons, utf8Size_toLower]

theorem contentEnd?_eq (h : Stands markup.toList (i + 1) cs) (tag : String) :
    contentEnd? markup tag i = some (i + 1 + byteLength (splitRawText tag cs).1) := by
  rw [contentEnd?, splitRawText]
  cases hRaw : rawTextElements.contains tag with
  | false => rfl
  | true =>
    have hLength := h.add_length
    have hFound := byteLength_breakAt_lower ('<' :: '/' :: tag.toList) cs
    by_cases hLess : i + 1 < byteLength markup.toList
    · simp only [hLess, decide_true, Bool.and_self, if_true, (stands_lowerAscii h).tail?,
        Option.map_some, hFound]
      cases find? ('<' :: '/' :: tag.toList) (cs.map Char.toLower) with
      | some n => rfl
      | none => rw [Option.getD_none, hLength]
    · have hNone : byteLength (Text.breakAt (fun rest => (Text.after? ('<' :: '/' :: tag.toList)
          (rest.map Char.toLower)).isSome) cs).1 = 0 := by
        have hAll := congrArg byteLength (Text.breakAt_append (fun rest =>
          (Text.after? ('<' :: '/' :: tag.toList) (rest.map Char.toLower)).isSome) cs)
        rw [byteLength_append] at hAll
        omega
      simp only [hLess, decide_false, Bool.and_false, Bool.false_eq_true, if_false, if_true, hNone,
        Nat.add_zero]

/-- At the end of a text the scan goes on behind it. -/
theorem contentEnd?_of_end (h : Stands markup.toList i []) (tag : String) :
    contentEnd? markup tag i = some (i + 1) := by
  have hEnd : ¬ i + 1 < byteLength markup.toList := by
    rw [← h.add_length]
    exact Nat.not_lt.mpr (Nat.le_succ _)
  simp [contentEnd?, hEnd]

/-- Where the scan goes on behind a tag, and what is left there. Behind a tag that is not closed
there is nothing. -/
theorem content_behind (h : Stands markup.toList i cs) (hEnd : cs = [] ∨ ∃ after, cs = '>' :: after)
    (tag : String) :
    let content := splitRawText tag cs.tail
    let next := i + 1 + byteLength content.1
    contentEnd? markup tag i = some next ∧
      (Stands markup.toList next content.2 ∨
        byteLength markup.toList ≤ next ∧ content.2 = []) := by
  intro content next
  have hSplit : content.1 ++ content.2 = cs.tail := splitRawText_append _ _
  rcases hEnd with rfl | ⟨after, rfl⟩
  · obtain ⟨hFirst, hSecond⟩ := List.append_eq_nil_iff.mp hSplit
    have hNext : next = i + 1 := by
      show i + 1 + byteLength content.1 = i + 1
      rw [hFirst]
      rfl
    rw [hNext, ← h.add_length]
    exact ⟨contentEnd?_of_end h tag, .inr ⟨Nat.le_succ _, hSecond⟩⟩
  · have hInside : Stands markup.toList (i + 1) after := h.next_ascii (by decide)
    refine ⟨contentEnd?_eq hInside tag, .inl ?_⟩
    apply Stands.after
    rwa [hSplit]

/-! ## Tags -/

theorem tagsFrom?_skip {n m : Nat}
    (h : ∀ k < m, ∃ d, byte? markup (i + k) = some d ∧ d ≠ '<') :
    tagsFrom? markup (n + m) i = tagsFrom? markup n (i + m) := by
  induction m generalizing i with
  | zero => rfl
  | succ m ih =>
    obtain ⟨d, hd, hNot⟩ := h 0 (Nat.succ_pos m)
    rw [Nat.add_zero] at hd
    have hNext : ∀ k < m, ∃ d, byte? markup (i + 1 + k) = some d ∧ d ≠ '<' := by
      intro k hk
      rw [Nat.add_assoc, Nat.add_comm 1 k]
      exact h (k + 1) (Nat.succ_lt_succ hk)
    rw [← Nat.add_assoc, tagsFrom?, hd]
    simp only [bne_iff_ne, ne_eq, hNot, not_false_eq_true, if_true]
    rw [ih hNext, Nat.add_assoc, Nat.add_comm 1 m]

theorem isPrefixOf_eq (pattern cs : List Char) :
    pattern.isPrefixOf cs = (Text.after? pattern cs).isSome := by
  induction pattern generalizing cs with
  | nil => rfl
  | cons p pattern ih =>
    cases cs with
    | nil => rfl
    | cons c cs =>
      rw [List.isPrefixOf, Text.after?, ih]
      cases p == c <;> rfl

/-- A round that goes past a comment. -/
theorem tagsFrom?_comment {body : List Char} (h : Stands markup.toList i ('<' :: rest))
    (hBody : Text.after? ['!', '-', '-'] rest = some body) (n : Nat) :
    Stands markup.toList (i + 4 + (skipComment body).2) (skipComment body).1 ∧
      tagsFrom? markup (n + 1) i = tagsFrom? markup n (i + 4 + (skipComment body).2) := by
  have hRest : rest = '!' :: '-' :: '-' :: body := Text.after?_eq_append hBody
  obtain ⟨taken, hTaken, hLength⟩ := skipComment_append body
  have hInside : Stands markup.toList (i + 4) body := by
    rw [hRest] at h
    exact h.after ['<', '!', '-', '-']
  refine ⟨?_, ?_⟩
  · rw [hLength]
    apply Stands.after
    rwa [hTaken]
  · have hComment : ['<', '!', '-', '-'].isPrefixOf ('<' :: rest) = true := by
      rw [hRest]
      rfl
    have hNext : (match find? ['-', '-', '>'] body with
        | some k => i + 4 + k + 3
        | none => byteLength markup.toList) = i + 4 + (skipComment body).2 := by
      rw [find?, skipComment]
      cases Text.cut ['-', '-', '>'] body with
      | none => exact hInside.add_length.symm
      | some parts => exact Nat.add_assoc _ _ _
    simp only [tagsFrom?, h.byte?_ascii (by decide), h.tail?, hComment, hInside.tail?, hNext,
      bne_self_eq_false, Bool.false_eq_true, if_false, if_true, Option.bind_eq_bind,
      Option.bind_some]

theorem not_comment_of_after? (hBody : Text.after? ['!', '-', '-'] rest = none) :
    ['<', '!', '-', '-'].isPrefixOf ('<' :: rest) = false := by
  rw [isPrefixOf_eq, Text.after?, beq_self_eq_true, if_pos rfl, hBody]
  rfl

theorem any_byte? {q : Char → Bool} (hq : Uniform q) (h : Stands markup.toList i cs) :
    (byte? markup i).any q = cs.head?.any q := by
  cases cs with
  | nil =>
    rw [h.byte?_nil]
    rfl
  | cons c cs =>
    obtain ⟨d, hd, hAlike⟩ := h.byte?_first
    rw [hd]
    exact hAlike.test_eq hq

/-- A round that goes past a `<` that begins neither a comment nor a tag. -/
theorem tagsFrom?_other (h : Stands markup.toList i ('<' :: rest))
    (hBody : Text.after? ['!', '-', '-'] rest = none)
    (hAlpha : ¬ rest.head?.any Char.isAlpha = true) (n : Nat) :
    tagsFrom? markup (n + 1) i = tagsFrom? markup n (i + 1) := by
  have hNext : Stands markup.toList (i + 1) rest := h.next_ascii (by decide)
  simp only [tagsFrom?, h.byte?_ascii (by decide), h.tail?, not_comment_of_after? hBody,
    any_byte? uniform_isAlpha hNext, hAlpha, bne_self_eq_false, Bool.false_eq_true, if_false,
    Option.bind_eq_bind, Option.bind_some]

/-- A round that reads a tag. Behind a tag that is not closed there is nothing left. -/
theorem tagsFrom?_tag (h : Stands markup.toList i ('<' :: rest))
    (hBody : Text.after? ['!', '-', '-'] rest = none)
    (hAlpha : rest.head?.any Char.isAlpha = true) (n : Nat) :
    let name := rest.takeWhile inTagName
    let tag := Text.lowerAscii (String.ofList name)
    let attributes := readAttributes (rest.dropWhile inTagName) (i + 1 + byteLength name)
    let content := splitRawText tag attributes.2.rest.tail
    let next := attributes.2.offset + 1 + byteLength content.1
    i < next ∧
      (Stands markup.toList next content.2 ∨ byteLength markup.toList ≤ next ∧ content.2 = []) ∧
      tagsFrom? markup (n + 1) i = (tagsFrom? markup n next).map fun others =>
        ⟨tag, i, attributes.2.offset, attributes.1⟩ :: others := by
  intro name tag attributes content next
  have hNext : Stands markup.toList (i + 1) rest := h.next_ascii (by decide)
  have hBehind : Stands markup.toList (i + 1 + byteLength name) (rest.dropWhile inTagName) :=
    hNext.dropWhile inTagName
  have hName : slice? markup (i + 1) (i + 1 + byteLength name) = some (String.ofList name) := by
    apply Stands.slice? name
    rwa [List.takeWhile_append_dropWhile]
  obtain ⟨taken, hTaken, hOffset⟩ := readAttributes_append (rest.dropWhile inTagName)
    (i + 1 + byteLength name)
  have hEnd : Stands markup.toList attributes.2.offset attributes.2.rest := by
    rw [hOffset]
    apply Stands.after
    rwa [hTaken]
  have hAttributes : attributesFrom? markup (byteLength markup.toList + 1)
      (i + 1 + byteLength name) = some (attributes.1, attributes.2.offset) := by
    apply attributesFrom?_eq hBehind
    have hLength := hBehind.add_length
    omega
  have hLast : min attributes.2.offset (byteLength markup.toList) = attributes.2.offset :=
    Nat.min_eq_left (hEnd.add_length ▸ Nat.le_add_right _ _)
  obtain ⟨hContent, hLeft⟩ := content_behind hEnd (readAttributes_rest _ _) tag
  have hContent : contentEnd? markup (Text.lowerAscii (String.ofList name)) attributes.2.offset =
      some next := hContent
  have hLess : i < next := by
    have hStart : i + 1 ≤ attributes.2.offset := by
      rw [hOffset, Nat.add_assoc]
      exact Nat.le_add_right _ _
    show i < attributes.2.offset + 1 + byteLength content.1
    omega
  have hTagName : advance markup (fun _ c => inTagName c) (i + 1) = i + 1 + byteLength name :=
    advance_takeWhile uniform_inTagName hNext
  refine ⟨hLess, hLeft, ?_⟩
  simp only [tagsFrom?, h.byte?_ascii (by decide), h.tail?, not_comment_of_after? hBody,
    any_byte? uniform_isAlpha hNext, hAlpha, hTagName, hName, hAttributes, hLast, hContent,
    bne_self_eq_false, Bool.false_eq_true, if_false, if_true, Option.bind_eq_bind,
    Option.bind_some]
  cases tagsFrom? markup n next <;> rfl

/-- The start tags on bytes are those on characters. Each round goes past a byte or more. -/
theorem tagsFrom?_eq {n : Nat} (h : Stands markup.toList i cs)
    (hn : byteLength markup.toList < i + n) : tagsFrom? markup n i = some (scanFrom cs i) := by
  have hLength := h.add_length
  obtain ⟨n, rfl⟩ := Nat.exists_eq_succ_of_ne_zero (n := n) (by omega)
  fun_induction scanFrom cs i generalizing n with
  | case1 i =>
    simp only [tagsFrom?, h.byte?_nil]
  | case2 i rest body hBody ih =>
    obtain ⟨hRest, hRound⟩ := tagsFrom?_comment h hBody n
    have hAfter := hRest.add_length
    obtain ⟨m, rfl⟩ := Nat.exists_eq_succ_of_ne_zero (n := n) (by omega)
    rw [hRound, ih hRest hAfter m (by omega)]
  | case3 i rest hBody hAlpha name tag attributes content ih =>
    obtain ⟨hLess, hRest, hRound⟩ := tagsFrom?_tag h hBody hAlpha n
    have hLess : i < attributes.2.offset + 1 + byteLength content.1 := hLess
    have hPos := '<'.utf8Size_pos
    rw [byteLength_cons] at hLength
    rw [hRound]
    obtain ⟨m, rfl⟩ := Nat.exists_eq_succ_of_ne_zero (n := n) (by omega)
    rcases hRest with hRest | ⟨hEnd, hNil⟩
    · rw [ih hRest hRest.add_length m (by omega)]
      rfl
    · have hNone : content.2 = [] := hNil
      rw [tagsFrom?, byte?_of_le hEnd, hNone, scanFrom]
      rfl
  | case4 i rest hBody hAlpha ih =>
    have hRest : Stands markup.toList (i + 1) rest := h.next_ascii (by decide)
    have hAfter := hRest.add_length
    obtain ⟨m, rfl⟩ := Nat.exists_eq_succ_of_ne_zero (n := n) (by omega)
    rw [tagsFrom?_other h hBody hAlpha, ih hRest hAfter m (by omega)]
  | case5 i c rest hc ih =>
    have hAll : ∀ k < c.utf8Size, ∃ d, byte? markup (i + k) = some d ∧ d ≠ '<' := by
      intro k hk
      obtain ⟨d, hd, hAlike⟩ := h.byte?_cons hk
      refine ⟨d, hd, beq_eq_false_iff_ne.mp ?_⟩
      rw [hAlike.beq_eq (by decide)]
      exact beq_eq_false_iff_ne.mpr hc
    have hAfter := h.next.add_length
    obtain ⟨m, hm⟩ : ∃ m, n.succ = m + 1 + c.utf8Size := ⟨n.succ - 1 - c.utf8Size, by omega⟩
    rw [hm, tagsFrom?_skip hAll, ih h.next hAfter m (by omega)]

end

/-- The scan on bytes has a result for every text, however it is formed, and it is that of the scan
on characters. -/
theorem scanBytes?_eq (markup : String) : scanBytes? markup = some (scan markup) :=
  tagsFrom?_eq (.refl markup.toList) (by omega)

end StartTag

end LiveMarkup
