import LiveMarkup.Proofs.Markup.ByteScan

/-!
# What the scan for start tags finds

The start tags of a text stand one behind the other, and so do the attributes in each of them, which
begin with their names. In a text that is put together from start tags, end tags and texts without
`<` the scan finds the start tags that were put in, where they were put: it always is in step again
behind a tag.

* `StartTag.Seated`: a start tag in its range of a text, with its attributes in theirs;
* `StartTag.Piece`: the parts that a text is put together from;
* `StartTag.scan_exact`: what is found in any text, and all that is found in one from such parts.
-/

namespace LiveMarkup

namespace StartTag

open Source

/-! ## Ranges -/

/-- The attributes of a tag stand one behind the other in what is read of it. -/
theorem readAttributes_ranges (cs : List Char) (offset : Nat) :
    (readAttributes cs offset).1.Pairwise (fun a b => a.stop ≤ b.start) ∧
      ∀ a ∈ (readAttributes cs offset).1, a.name ≠ "" ∧ offset ≤ a.start ∧ a.start < a.stop ∧
        a.stop ≤ (readAttributes cs offset).2.offset := by
  fun_induction readAttributes cs offset with
  | case1 => simp
  | case2 => simp
  | case3 cs offset start c rest hDrop hc hlt name assignment stop others ih =>
    obtain ⟨hApart, hInside⟩ := ih
    obtain ⟨taken, -, hOffset⟩ := readAttributes_append assignment.2 stop
    have hStart : start < stop := by
      have hPos := c.utf8Size_pos
      show start < start + byteLength (name ++ assignment.1)
      rw [byteLength_append]
      show start < start + (c.utf8Size + byteLength _ + _)
      omega
    have hBefore : offset ≤ start := Nat.le_add_right _ _
    refine ⟨List.pairwise_cons.mpr ⟨fun b hb => (hInside b hb).2.1, hApart⟩, ?_⟩
    intro a ha
    rcases List.mem_cons.mp ha with rfl | ha
    · refine ⟨?_, hBefore, hStart, ?_⟩
      · intro hEmpty
        have hNil : name = [] := by
          have hList := congrArg String.toList hEmpty
          rwa [String.toList_ofList] at hList
        exact absurd hNil (List.cons_ne_nil _ _)
      · show stop ≤ (readAttributes assignment.2 stop).2.offset
        omega
    · obtain ⟨hName, hLow, hSize, hHigh⟩ := hInside a ha
      exact ⟨hName, by omega, hSize, hHigh⟩

/-- The attributes of a start tag have names and stand one behind the other inside of it. -/
structure Ordered (t : StartTag) : Prop where
  named : ∀ a ∈ t.attributes, a.name ≠ ""
  apart : t.attributes.Pairwise fun a b => a.stop ≤ b.start
  inside : ∀ a ∈ t.attributes, t.start < a.start ∧ a.start < a.stop ∧ a.stop ≤ t.stop

/-- Start tags that stand one behind the other from a place on. -/
structure InRow (offset : Nat) (tags : List StartTag) : Prop where
  behind : ∀ t ∈ tags, offset ≤ t.start
  apart : tags.Pairwise fun t u => t.stop ≤ u.start
  ordered : ∀ t ∈ tags, t.Ordered

section

variable {offset next : Nat} {tags : List StartTag} {t : StartTag}

theorem inRow_nil (offset : Nat) : InRow offset [] := by
  constructor <;> simp

theorem InRow.mono (h : InRow next tags) (hLe : offset ≤ next) : InRow offset tags where
  behind t ht := Nat.le_trans hLe (h.behind t ht)
  apart := h.apart
  ordered := h.ordered

theorem InRow.cons (h : InRow next tags) (ht : t.Ordered) (hStart : t.start ≤ next)
    (hStop : t.stop ≤ next) : InRow t.start (t :: tags) where
  behind := List.forall_mem_cons.mpr ⟨Nat.le_refl _, (h.mono hStart).behind⟩
  apart := List.pairwise_cons.mpr ⟨(h.mono hStop).behind, h.apart⟩
  ordered := List.forall_mem_cons.mpr ⟨ht, h.ordered⟩

end

theorem inRow_scanFrom (cs : List Char) (offset : Nat) : InRow offset (scanFrom cs offset) := by
  fun_induction scanFrom cs offset with
  | case1 offset => exact inRow_nil offset
  | case2 offset rest body hBody ih => exact ih.mono (by omega)
  | case3 offset rest hBody hAlpha name tag attributes content ih =>
    obtain ⟨hApart, hInside⟩ := readAttributes_ranges (rest.dropWhile inTagName)
      (offset + 1 + byteLength name)
    obtain ⟨taken, -, hOffset⟩ := readAttributes_append (rest.dropWhile inTagName)
      (offset + 1 + byteLength name)
    have hOffset : attributes.2.offset = offset + 1 + byteLength name + byteLength taken := hOffset
    have hOrdered : Ordered ⟨tag, offset, attributes.2.offset, attributes.1⟩ := by
      refine ⟨fun a ha => (hInside a ha).1, hApart, ?_⟩
      intro a ha
      obtain ⟨-, hLow, hSize, hHigh⟩ := hInside a ha
      refine ⟨?_, hSize, hHigh⟩
      show offset < a.start
      omega
    apply ih.cons hOrdered
    · show offset ≤ attributes.2.offset + 1 + byteLength content.1
      omega
    · show attributes.2.offset ≤ attributes.2.offset + 1 + byteLength content.1
      omega
  | case4 offset rest hBody hAlpha ih => exact ih.mono (Nat.le_succ offset)
  | case5 offset c rest hc ih => exact ih.mono (Nat.le_add_right offset _)

/-- A start tag in a text: both ends of its range and of those of its attributes lie between
characters, and the attributes stand one behind the other inside of it, each with its name first. -/
structure Seated (markup : String) (t : StartTag) : Prop extends Ordered t where
  slice : ∃ more, slice? markup t.start t.stop = some (String.ofList ('<' :: more))
  bound : t.stop ≤ byteLength markup.toList
  names : ∀ a ∈ t.attributes,
    ∃ more, slice? markup a.start a.stop = some (String.ofList (a.name.toList ++ more))

theorem seated_of_scan {markup : String} {t : StartTag} (ht : t ∈ scan markup) :
    Seated markup t := by
  obtain ⟨hTag, hAttributes⟩ := begins_of_scan ht
  refine ⟨(inRow_scanFrom markup.toList 0).ordered t ht, hTag.slice?, ?_, ?_⟩
  · obtain ⟨more, rest, hStands, hStop⟩ := hTag
    rw [hStop, ← (hStands.after _).add_length]
    exact Nat.le_add_right _ _
  · intro a ha
    exact (hAttributes a ha).slice?

/-! ## Parts of a text -/

/-- An attribute as it is written: behind a gap, with a value between double quotes. -/
structure WrittenAttribute where
  gap : List Char
  name : List Char
  value : List Char
  gap_ne : gap ≠ []
  gap_isGap : ∀ c ∈ gap, isGap c = true
  name_ne : name ≠ []
  name_plain : ∀ c ∈ name, (isGap c || c == '>' || c == '=') = false
  value_plain : '"' ∉ value

/-- What a tag name in small letters goes on with. -/
def inPlainName (c : Char) : Bool :=
  c.isLower || c.isDigit || c == '-'

/-- A start tag as it is written. -/
structure WrittenTag where
  first : Char
  others : List Char
  attributes : List WrittenAttribute
  trail : List Char
  first_isLower : first.isLower = true
  others_plain : ∀ c ∈ others, inPlainName c = true
  not_raw : String.ofList (first :: others) ∉ rawTextElements
  trail_isGap : ∀ c ∈ trail, isGap c = true

/-- A part of a text: characters other than `<`, an end tag or a start tag. -/
inductive Piece where
  | text (cs : List Char) (h : '<' ∉ cs)
  | endTag (name : List Char) (h : '<' ∉ name)
  | startTag (t : WrittenTag)

namespace WrittenAttribute

def print (a : WrittenAttribute) : List Char :=
  a.gap ++ (a.name ++ '=' :: '"' :: (a.value ++ ['"']))

/-- Where an attribute stands that is written at a place. -/
def placed (a : WrittenAttribute) (offset : Nat) : AttributeSpan where
  name := String.ofList a.name
  start := offset + byteLength a.gap
  stop := offset + byteLength a.print

/-- Where attributes stand that are written one behind the other from a place on. -/
def placedAll : List WrittenAttribute → Nat → List AttributeSpan
  | [], _ => []
  | a :: rest, offset => a.placed offset :: placedAll rest (offset + byteLength a.print)

end WrittenAttribute

namespace WrittenTag

def name (t : WrittenTag) : List Char :=
  t.first :: t.others

/-- A start tag up to its `>`. -/
def printOpen (t : WrittenTag) : List Char :=
  '<' :: (t.name ++ (t.attributes.flatMap WrittenAttribute.print ++ t.trail))

def print (t : WrittenTag) : List Char :=
  t.printOpen ++ ['>']

/-- Where a start tag stands that is written at a place. -/
def placed (t : WrittenTag) (offset : Nat) : StartTag where
  tag := String.ofList t.name
  start := offset
  stop := offset + byteLength t.printOpen
  attributes := WrittenAttribute.placedAll t.attributes (offset + byteLength ('<' :: t.name))

end WrittenTag

namespace Piece

def print : Piece → List Char
  | text cs _ => cs
  | endTag name _ => '<' :: '/' :: (name ++ ['>'])
  | startTag t => t.print

/-- The start tags in a part of a text that is written at a place. -/
def tags : Piece → Nat → List StartTag
  | startTag t, offset => [t.placed offset]
  | _, _ => []

/-- A text from its parts. -/
def printAll (pieces : List Piece) : String :=
  String.ofList (pieces.flatMap print)

/-- The start tags in parts that are written one behind the other from a place on. -/
def tagsOfAll : List Piece → Nat → List StartTag
  | [], _ => []
  | p :: rest, offset => p.tags offset ++ tagsOfAll rest (offset + byteLength p.print)

end Piece

/-! ## Reading what was written -/

section

variable {cs rest : List Char} {c : Char} {offset : Nat}

theorem readAttributes_close (hDrop : cs.dropWhile isGap = '>' :: rest) :
    readAttributes cs offset =
      ([], ⟨'>' :: rest, offset + byteLength (cs.takeWhile isGap)⟩) := by
  rw [readAttributes]
  split
  · rename_i hNil
    rw [hDrop] at hNil
    cases hNil
  · rename_i hCons
    obtain ⟨rfl, rfl⟩ := List.cons.inj (hDrop.symm.trans hCons)
    rfl

theorem readAttributes_cons (hDrop : cs.dropWhile isGap = c :: rest) (hClose : c ≠ '>')
    (offset : Nat) :
    let start := offset + byteLength (cs.takeWhile isGap)
    let name := c :: (Text.breakAt endsName rest).1
    let assignment := readAssignment (Text.breakAt endsName rest).2
    let stop := start + byteLength (name ++ assignment.1)
    let others := readAttributes assignment.2 stop
    readAttributes cs offset = (⟨String.ofList name, start, stop⟩ :: others.1, others.2) := by
  intro start name assignment stop others
  rw [readAttributes]
  split
  · rename_i hNil
    rw [hDrop] at hNil
    cases hNil
  · rename_i hCons
    obtain ⟨rfl, rfl⟩ := List.cons.inj (hDrop.symm.trans hCons)
    rw [if_neg (by simpa using hClose)]

theorem breakAt_endsName {name : List Char}
    (hName : ∀ c ∈ name, (isGap c || c == '>' || c == '=') = false) (rest : List Char) :
    Text.breakAt endsName (name ++ '=' :: rest) = (name, '=' :: rest) := by
  induction name with
  | nil => rfl
  | cons c name ih =>
    have hPlain := hName c List.mem_cons_self
    simp only [isGap, Bool.or_eq_false_iff] at hPlain
    obtain ⟨⟨⟨hSpace, hSlash⟩, hClose⟩, hEqual⟩ := hPlain
    have hGoes : endsName (c :: (name ++ '=' :: rest)) = false := by
      rw [endsName, hSpace, hSlash, hClose, hEqual]
      rfl
    rw [List.cons_append, Text.breakAt, hGoes, ih fun d hd => hName d (List.mem_cons_of_mem _ hd)]
    rfl

theorem readAssignment_quoted {value : List Char} (hValue : '"' ∉ value) (rest : List Char) :
    readAssignment ('=' :: '"' :: (value ++ '"' :: rest)) =
      ('=' :: '"' :: (value ++ ['"']), rest) := by
  have hCut : Text.cut ['"'] (value ++ ['"'] ++ rest) = some (value, rest) :=
    Text.cut_append_pattern hValue rest
  rw [List.append_assoc, List.singleton_append] at hCut
  have hRead : readValue ('"' :: (value ++ '"' :: rest)) = ('"' :: (value ++ ['"']), rest) := by
    simp [readValue, isSpace, hCut]
  have hDrop : ('=' :: '"' :: (value ++ '"' :: rest)).dropWhile isSpace =
      '=' :: '"' :: (value ++ '"' :: rest) := rfl
  rw [readAssignment, hDrop]
  simp only [hRead]
  rfl

/-- An attribute is read as it was written, whatever follows. -/
theorem WrittenAttribute.readAttributes_append (a : WrittenAttribute) (rest : List Char)
    (offset : Nat) :
    readAttributes (a.print ++ rest) offset =
      (a.placed offset :: (readAttributes rest (offset + byteLength a.print)).1,
        (readAttributes rest (offset + byteLength a.print)).2) := by
  obtain ⟨c, others, hName⟩ := List.exists_cons_of_ne_nil a.name_ne
  have hPlain := a.name_plain
  rw [hName] at hPlain
  have hFirst := hPlain c List.mem_cons_self
  simp only [Bool.or_eq_false_iff] at hFirst
  obtain ⟨⟨hGap, hClose⟩, -⟩ := hFirst
  have hText : a.print ++ rest =
      a.gap ++ c :: (others ++ '=' :: '"' :: (a.value ++ '"' :: rest)) := by
    rw [print, hName]
    simp
  have hEnds : Text.Ends isGap (c :: (others ++ '=' :: '"' :: (a.value ++ '"' :: rest))) := by
    rintro d ⟨⟩
    exact hGap
  have hTake := Text.takeWhile_append_ends a.gap_isGap hEnds
  have hDrop := Text.dropWhile_append_ends a.gap_isGap hEnds
  rw [← hText] at hTake hDrop
  have hRead := readAttributes_cons hDrop (beq_eq_false_iff_ne.mp hClose) offset
  have hBreak := breakAt_endsName (fun d hd => hPlain d (List.mem_cons_of_mem _ hd))
    ('"' :: (a.value ++ '"' :: rest))
  have hStop : offset + byteLength a.gap +
      byteLength (c :: others ++ '=' :: '"' :: (a.value ++ ['"'])) =
        offset + byteLength a.print := by
    rw [Nat.add_assoc, ← byteLength_append, print, hName]
  simp only [hTake, hBreak, readAssignment_quoted a.value_plain, hStop] at hRead
  rw [hRead, placed, hName]

/-- Attributes are read as they were written up to the end of the tag. -/
theorem WrittenAttribute.readAttributes_all (attributes : List WrittenAttribute)
    {trail : List Char} (hTrail : ∀ c ∈ trail, isGap c = true) (rest : List Char) (offset : Nat) :
    readAttributes (attributes.flatMap print ++ (trail ++ '>' :: rest)) offset =
      (placedAll attributes offset,
        ⟨'>' :: rest, offset + byteLength (attributes.flatMap print ++ trail)⟩) := by
  induction attributes generalizing offset with
  | nil =>
    have hEnds : Text.Ends isGap ('>' :: rest) := by
      rintro d ⟨⟩
      rfl
    rw [List.flatMap_nil, List.nil_append, List.nil_append,
      readAttributes_close (Text.dropWhile_append_ends hTrail hEnds),
      Text.takeWhile_append_ends hTrail hEnds]
    rfl
  | cons a attributes ih =>
    rw [List.flatMap_cons, List.append_assoc, a.readAttributes_append, ih]
    simp only [placedAll, byteLength_append, Nat.add_assoc]

/-! ## Finding what was written -/

theorem scanFrom_cons (h : c ≠ '<') (rest : List Char) (offset : Nat) :
    scanFrom (c :: rest) offset = scanFrom rest (offset + c.utf8Size) := by
  rw [scanFrom]
  exact h

theorem after?_of_ne (h : c ≠ '!') (rest : List Char) :
    Text.after? ['!', '-', '-'] (c :: rest) = none := by
  simp [Text.after?, Ne.symm h]

theorem scanFrom_other (hFirst : c ≠ '!') (hAlpha : c.isAlpha = false) (rest : List Char)
    (offset : Nat) :
    scanFrom ('<' :: c :: rest) offset = scanFrom (c :: rest) (offset + 1) := by
  rw [scanFrom]
  split
  · rename_i body hSome
    rw [after?_of_ne hFirst] at hSome
    cases hSome
  · rw [if_neg (by simp [hAlpha])]

theorem scanFrom_tag (hFirst : c ≠ '!') (hAlpha : c.isAlpha = true) (rest : List Char)
    (offset : Nat) :
    let name := (c :: rest).takeWhile inTagName
    let tag := Text.lowerAscii (String.ofList name)
    let attributes :=
      readAttributes ((c :: rest).dropWhile inTagName) (offset + 1 + byteLength name)
    let content := splitRawText tag attributes.2.rest.tail
    scanFrom ('<' :: c :: rest) offset =
      ⟨tag, offset, attributes.2.offset, attributes.1⟩ ::
        scanFrom content.2 (attributes.2.offset + 1 + byteLength content.1) := by
  intro name tag attributes content
  rw [scanFrom]
  split
  · rename_i body hSome
    rw [after?_of_ne hFirst] at hSome
    cases hSome
  · rw [if_pos (by simp [hAlpha])]

theorem scanFrom_text (h : '<' ∉ cs) (rest : List Char) (offset : Nat) :
    scanFrom (cs ++ rest) offset = scanFrom rest (offset + byteLength cs) := by
  induction cs generalizing offset with
  | nil => rfl
  | cons c cs ih =>
    rw [List.mem_cons, not_or] at h
    obtain ⟨hFirst, hOthers⟩ := h
    rw [List.cons_append, scanFrom_cons (Ne.symm hFirst), ih hOthers, byteLength_cons,
      Nat.add_assoc]

theorem scanFrom_endTag {name : List Char} (h : '<' ∉ name) (rest : List Char) (offset : Nat) :
    scanFrom ('<' :: '/' :: (name ++ ['>']) ++ rest) offset =
      scanFrom rest (offset + byteLength ('<' :: '/' :: (name ++ ['>']))) := by
  have hBehind : '<' ∉ '/' :: (name ++ ['>']) := by simpa using h
  rw [List.cons_append, List.cons_append, scanFrom_other (by decide) (by decide),
    ← List.cons_append, scanFrom_text hBehind, byteLength_cons, Nat.add_assoc]
  rfl

theorem not_inTagName_of_isGap (h : isGap c = true) : inTagName c = false := by
  rcases Bool.or_eq_true_iff.mp h with hSpace | hSlash
  · simp [inTagName, hSpace]
  · simp [inTagName, hSlash]

theorem inTagName_of_plain (h : inPlainName c = true) : inTagName c = true := by
  apply Bool.not_eq_false _ |>.mp
  intro hNot
  simp only [inTagName, isSpace, Bool.not_eq_false', Bool.or_eq_true, beq_iff_eq] at hNot
  rcases hNot with (((((rfl | rfl) | rfl) | rfl) | rfl) | rfl) | rfl <;> exact absurd h (by decide)

theorem toLower_of_plain (h : inPlainName c = true) : c.toLower = c := by
  unfold Char.toLower
  rw [dif_neg]
  rintro ⟨hLow, hHigh⟩
  rw [ge_iff_le, UInt32.le_iff_toNat_le] at hLow
  rw [UInt32.le_iff_toNat_le] at hHigh
  have hLow : 65 ≤ c.val.toNat := hLow
  have hHigh : c.val.toNat ≤ 90 := hHigh
  unfold inPlainName Char.isLower Char.isDigit at h
  simp only [Bool.or_eq_true, Bool.and_eq_true, decide_eq_true_eq, beq_iff_eq,
    UInt32.le_iff_toNat_le, ge_iff_le] at h
  rcases h with (⟨hLower, -⟩ | ⟨-, hDigit⟩) | rfl
  · have hLower : 97 ≤ c.val.toNat := hLower
    omega
  · have hDigit : c.val.toNat ≤ 57 := hDigit
    omega
  · exact absurd hLow (by decide)

namespace WrittenTag

theorem name_plain (t : WrittenTag) : ∀ c ∈ t.name, inPlainName c = true := by
  intro c hc
  rcases List.mem_cons.mp hc with rfl | hc
  · simp [inPlainName, t.first_isLower]
  · exact t.others_plain c hc

theorem lowerAscii_name (t : WrittenTag) :
    Text.lowerAscii (String.ofList t.name) = String.ofList t.name := by
  rw [Text.lowerAscii, String.toList_ofList]
  congr 1
  have hSame : ∀ c ∈ t.name, c.toLower = id c := fun c hc => toLower_of_plain (t.name_plain c hc)
  rw [List.map_congr_left hSame, List.map_id]

theorem ends_name (t : WrittenTag) (rest : List Char) :
    Text.Ends inTagName (t.attributes.flatMap WrittenAttribute.print ++
      (t.trail ++ '>' :: rest)) := by
  cases t.attributes with
  | nil =>
    rw [List.flatMap_nil, List.nil_append]
    cases hTrail : t.trail with
    | nil =>
      rintro c ⟨⟩
      rfl
    | cons d trail =>
      rintro c ⟨⟩
      exact not_inTagName_of_isGap (t.trail_isGap _ (by simp [hTrail]))
  | cons a attributes =>
    obtain ⟨d, gap, hGap⟩ := List.exists_cons_of_ne_nil a.gap_ne
    rw [List.flatMap_cons, WrittenAttribute.print, hGap]
    rintro c ⟨⟩
    exact not_inTagName_of_isGap (a.gap_isGap _ (by simp [hGap]))

/-- A start tag is found as it was written, and the scan goes on behind it. -/
theorem scanFrom_append (t : WrittenTag) (rest : List Char) (offset : Nat) :
    scanFrom (t.print ++ rest) offset =
      t.placed offset :: scanFrom rest (offset + byteLength t.print) := by
  have hText : t.print ++ rest = '<' :: t.first :: (t.others ++
      (t.attributes.flatMap WrittenAttribute.print ++ (t.trail ++ '>' :: rest))) := by
    simp [print, printOpen, name]
  have hFirst : t.first ≠ '!' := by
    intro hBang
    have hFirst := t.first_isLower
    rw [hBang] at hFirst
    cases hFirst
  have hAlpha : t.first.isAlpha = true := by
    show (t.first.isUpper || t.first.isLower) = true
    rw [t.first_isLower, Bool.or_true]
  have hName : ∀ c ∈ t.name, inTagName c = true :=
    fun c hc => inTagName_of_plain (t.name_plain c hc)
  have hTake := Text.takeWhile_append_ends hName (t.ends_name rest)
  have hDrop := Text.dropWhile_append_ends hName (t.ends_name rest)
  have hCons : t.name ++ (t.attributes.flatMap WrittenAttribute.print ++ (t.trail ++ '>' :: rest)) =
      t.first :: (t.others ++
        (t.attributes.flatMap WrittenAttribute.print ++ (t.trail ++ '>' :: rest))) := rfl
  rw [hCons] at hTake hDrop
  have hRead := scanFrom_tag hFirst hAlpha (t.others ++
    (t.attributes.flatMap WrittenAttribute.print ++ (t.trail ++ '>' :: rest))) offset
  have hRaw : splitRawText (String.ofList t.name) rest = ([], rest) := by
    rw [splitRawText, if_neg]
    rw [List.contains_iff_mem]
    exact t.not_raw
  simp only [hTake, hDrop, WrittenAttribute.readAttributes_all t.attributes t.trail_isGap,
    t.lowerAscii_name, List.tail_cons, hRaw] at hRead
  have hStop : offset + 1 + byteLength t.name +
      byteLength (t.attributes.flatMap WrittenAttribute.print ++ t.trail) =
        offset + byteLength t.printOpen := by
    have hSize : '<'.utf8Size = 1 := rfl
    rw [printOpen, byteLength_cons, byteLength_append t.name, hSize]
    omega
  have hStart : offset + 1 + byteLength t.name = offset + byteLength ('<' :: t.name) := by
    rw [Nat.add_assoc]
    rfl
  have hNext : offset + byteLength t.printOpen + 1 + byteLength [] =
      offset + byteLength t.print := by
    rw [print, byteLength_append]
    rfl
  rw [hText, hRead, hStop, hNext, hStart, placed]

end WrittenTag

theorem Piece.scanFrom_append (p : Piece) (rest : List Char) (offset : Nat) :
    scanFrom (p.print ++ rest) offset =
      p.tags offset ++ scanFrom rest (offset + byteLength p.print) := by
  cases p with
  | text cs h => exact scanFrom_text h rest offset
  | endTag name h => exact scanFrom_endTag h rest offset
  | startTag t => exact t.scanFrom_append rest offset

/-- In a text that is put together from parts, what is found are the start tags among them. -/
theorem Piece.scanFrom_all (pieces : List Piece) (offset : Nat) :
    scanFrom (pieces.flatMap print) offset = tagsOfAll pieces offset := by
  induction pieces generalizing offset with
  | nil =>
    rw [List.flatMap_nil, scanFrom]
    rfl
  | cons p pieces ih => rw [List.flatMap_cons, p.scanFrom_append, ih, tagsOfAll]

end

/-- The scan takes nothing out of the middle of a character or from outside of the text, and has a
result after no more rounds than there are bytes: start tags that stand one behind the other, each
in its range with its attributes. In a text that is put together from start tags, end tags and texts
without `<`, these are the start tags that were put in, with their attributes, where they were
put. -/
theorem scan_exact :
    (∀ markup, scanBytes? markup = some (scan markup)) ∧
      (∀ markup, (scan markup).Pairwise (fun t u => t.stop ≤ u.start) ∧
        ∀ t ∈ scan markup, Seated markup t) ∧
      ∀ pieces, scan (Piece.printAll pieces) = Piece.tagsOfAll pieces 0 := by
  refine ⟨scanBytes?_eq, fun markup => ⟨?_, fun t ht => seated_of_scan ht⟩, fun pieces => ?_⟩
  · exact (inRow_scanFrom markup.toList 0).apart
  · rw [scan, Piece.printAll, String.toList_ofList]
    exact Piece.scanFrom_all pieces 0

example :
    let title : WrittenAttribute :=
      ⟨[' '], ['é'], ['<', '>'], by simp, by simp [isGap, isSpace], by simp,
        by simp [isGap, isSpace], by simp⟩
    let tag : WrittenTag :=
      ⟨'p', ['1'], [title], [' ', '/'], rfl, List.all_eq_true.mp rfl,
        by simp [rawTextElements], by simp [isGap, isSpace]⟩
    let pieces := [.text ['a', '>'] (by simp), .startTag tag, .endTag ['p', '1'] (by simp)]
    Piece.printAll pieces = "a><p1 é=\"<>\" /></p1>" ∧
      Piece.tagsOfAll pieces 0 = [⟨"p1", 2, 15, [⟨"é", 6, 13⟩]⟩] := by
  decide

end StartTag

end LiveMarkup
