import LiveMarkup.Markup.Interpolation
import LiveMarkup.Proofs.Text.Splitting
import Mathlib.Data.List.Chain

/-!
# Splitting a text and printing its parts

A text is split into texts and interpolations. Printing writes the parts one after the other: a
text as it is, an interpolation as its opening marker, its code with blanks around it, and its
closing marker. The two are inverse as far as they can be: the parts of a text are printed as that
text again with the blanks that stood in it, and parts without braces in them are found again under
any blanks.

* `Interpolation.Prints`: the texts that a list of parts is printed as;
* `Interpolation.Tidy`: no empty text, no two texts side by side, only trimmed code;
* `Interpolation.splitChars_append`: a text without braces only joins what comes after it;
* `Interpolation.splitChars_interpolation`: a printed interpolation comes out as one part;
* `Interpolation.split_inverts_prints`: both directions, for every text.
-/

namespace LiveMarkup

namespace Interpolation

open Template (Node)
open Text (isBlank)

/-! ## Parts and their printed forms -/

/-- The texts that one part is printed as. -/
inductive Written : Node → List Char → Prop where
  | text (value : String) : Written (.text value) value.toList
  | interpolation (code : String) (raw : Bool) {before after : List Char}
      (hBefore : ∀ c ∈ before, isBlank c = true) (hAfter : ∀ c ∈ after, isBlank c = true) :
      Written (.interpolation code raw)
        (opening raw ++ (before ++ code.toList ++ after) ++ closing raw)

/-- The texts that a list of parts is printed as. -/
inductive Prints : List Node → List Char → Prop where
  | nil : Prints [] []
  | cons {node : Node} {nodes : List Node} {cs rest : List Char} (hHead : Written node cs)
      (hTail : Prints nodes rest) : Prints (node :: nodes) (cs ++ rest)

/-- A part that a text can have: a text with a character in it, or an interpolation of trimmed code
that is not empty. -/
inductive Part : Node → Prop where
  | text {value : String} (hne : value.toList ≠ []) : Part (.text value)
  | interpolation {code : String} (raw : Bool) (hne : code.toList ≠ [])
      (hTrimmed : Text.Trimmed code.toList) : Part (.interpolation code raw)

def isText : Node → Bool
  | .text _ => true
  | _ => false

/-- The parts of a text, of which no two texts stand side by side. -/
structure Tidy (nodes : List Node) : Prop where
  part : ∀ node ∈ nodes, Part node
  apart : nodes.IsChain fun a b => ¬ (isText a = true ∧ isText b = true)

/-- What is written in a part. -/
def content : Node → List Char
  | .text value => value.toList
  | .interpolation code _ => code.toList
  | .element .. => []

/-- A text without braces. -/
structure Braceless (cs : List Char) : Prop where
  opening : '\x7b' ∉ cs
  closing : '\x7d' ∉ cs

/-! ## Literal text in front -/

theorem consText_text {cs : List Char} (hne : cs ≠ []) (value : String) (nodes : List Node) :
    consText cs (.text value :: nodes) = .text (String.ofList cs ++ value) :: nodes := by
  rw [consText, if_neg (by simpa using hne)]

/-- Literal text is a part of its own before anything else. -/
theorem consText_apart {cs : List Char} (hne : cs ≠ []) {nodes : List Node}
    (h : ∀ node ∈ nodes.head?, isText node = false) :
    consText cs nodes = .text (String.ofList cs) :: nodes := by
  unfold consText
  rw [if_neg (by simpa using hne)]
  rcases nodes with _ | ⟨node, rest⟩
  · rfl
  · cases node with
    | text value => exact absurd (h _ rfl) (by simp [isText])
    | element | interpolation => rfl

theorem begins_with_text_or (nodes : List Node) :
    (∃ value rest, nodes = .text value :: rest) ∨ ∀ node ∈ nodes.head?, isText node = false := by
  rcases nodes with _ | ⟨node, rest⟩
  · exact .inr (by simp)
  · cases node with
    | text value => exact .inl ⟨value, rest, rfl⟩
    | element | interpolation => exact .inr (by simp [isText])

theorem consText_append (cs ds : List Char) (nodes : List Node) :
    consText (cs ++ ds) nodes = consText cs (consText ds nodes) := by
  rcases eq_or_ne cs [] with rfl | hcs
  · rfl
  rcases eq_or_ne ds [] with rfl | hds
  · rw [List.append_nil]
    rfl
  have hne : cs ++ ds ≠ [] := List.append_ne_nil_of_left_ne_nil hcs ds
  rcases begins_with_text_or nodes with ⟨value, rest, rfl⟩ | hApart
  · rw [consText_text hne, consText_text hds, consText_text hcs, String.ofList_append,
      String.append_assoc]
  · rw [consText_apart hne hApart, consText_apart hds hApart, consText_text hcs,
      String.ofList_append]

theorem Tidy.nil : Tidy [] where
  part _ h := absurd h List.not_mem_nil
  apart := .nil

theorem Tidy.cons {node : Node} {nodes : List Node} (hPart : Part node) (h : Tidy nodes)
    (hApart : ∀ next ∈ nodes.head?, ¬ (isText node = true ∧ isText next = true)) :
    Tidy (node :: nodes) where
  part a ha := by
    rcases List.mem_cons.mp ha with rfl | ha
    · exact hPart
    · exact h.part a ha
  apart := List.isChain_cons.mpr ⟨hApart, h.apart⟩

theorem Tidy.tail {node : Node} {nodes : List Node} (h : Tidy (node :: nodes)) : Tidy nodes where
  part a ha := h.part a (List.mem_cons_of_mem _ ha)
  apart := (List.isChain_cons.mp h.apart).2

theorem Tidy.consText {nodes : List Node} (h : Tidy nodes) (cs : List Char) :
    Tidy (consText cs nodes) := by
  rcases eq_or_ne cs [] with rfl | hcs
  · exact h
  rcases begins_with_text_or nodes with ⟨value, rest, rfl⟩ | hApart
  · rw [consText_text hcs]
    exact .cons (.text (by simp [hcs])) h.tail (List.isChain_cons.mp h.apart).1
  · rw [consText_apart hcs hApart]
    exact .cons (.text (by simpa using hcs)) h fun next hNext hBoth => by
      simp [hApart next hNext] at hBoth

theorem Prints.consText {nodes : List Node} {rest : List Char} (h : Prints nodes rest)
    (cs : List Char) : Prints (consText cs nodes) (cs ++ rest) := by
  rcases eq_or_ne cs [] with rfl | hcs
  · exact h
  rcases begins_with_text_or nodes with ⟨value, nodes, rfl⟩ | hApart
  · rw [consText_text hcs]
    cases h with
    | cons hHead hTail =>
      cases hHead
      have hBoth := Prints.cons (.text (String.ofList cs ++ value)) hTail
      rwa [String.toList_append, String.toList_ofList, List.append_assoc] at hBoth
  · rw [consText_apart hcs hApart]
    simpa using Prints.cons (.text (String.ofList cs)) h

/-! ## What a text is split into -/

section

variable {cs before inner after : List Char} {raw : Bool}

theorem splitChars_of_none (h : first? cs = none) : splitChars cs = consText cs [] := by
  rw [splitChars]
  split
  · rfl
  next hSome => exact absurd (h.symm.trans hSome) (Option.some_ne_none _).symm

/-- An interpolation with nothing but blanks in it stays text. -/
theorem splitChars_of_blank (h : first? cs = some (before, raw, inner, after))
    (hBlank : Text.trim inner = []) :
    splitChars cs =
      consText (before ++ opening raw ++ inner ++ closing raw) (splitChars after) := by
  rw [splitChars]
  split
  next hNone => exact absurd (h.symm.trans hNone) (Option.some_ne_none _)
  next hSome =>
    obtain ⟨rfl, rfl, rfl, rfl⟩ : before = _ ∧ raw = _ ∧ inner = _ ∧ after = _ := by
      simpa using h.symm.trans hSome
    exact if_pos (by rw [hBlank, List.isEmpty_nil])

theorem splitChars_of_code (h : first? cs = some (before, raw, inner, after))
    (hCode : Text.trim inner ≠ []) :
    splitChars cs = consText before
      (.interpolation (String.ofList (Text.trim inner)) raw :: splitChars after) := by
  rw [splitChars]
  split
  next hNone => exact absurd (h.symm.trans hNone) (Option.some_ne_none _)
  next hSome =>
    obtain ⟨rfl, rfl, rfl, rfl⟩ : before = _ ∧ raw = _ ∧ inner = _ ∧ after = _ := by
      simpa using h.symm.trans hSome
    exact if_neg (by simpa using hCode)

end

/-- The parts of a text are tidy and printed as the text. The recursion is that of the splitting;
the blanks around the code of an interpolation are those that `trim` takes off. -/
theorem splitChars_spec (cs : List Char) : Tidy (splitChars cs) ∧ Prints (splitChars cs) cs := by
  induction cs using splitChars.induct with
  | case1 cs hNone =>
    rw [splitChars_of_none hNone]
    refine ⟨Tidy.nil.consText cs, ?_⟩
    simpa using Prints.nil.consText cs
  | case2 cs before raw inner after hFirst hLess code hBlank ih =>
    rw [splitChars_of_blank hFirst (List.isEmpty_iff.mp hBlank), first?_eq_append hFirst]
    exact ⟨ih.1.consText _, ih.2.consText _⟩
  | case3 cs before raw inner after hFirst hLess code hCode ih =>
    have hne : code ≠ [] := fun hNil => hCode (List.isEmpty_iff.mpr hNil)
    rw [splitChars_of_code hFirst hne]
    obtain ⟨left, right, hInner, hLeft, hRight⟩ := Text.exists_trim inner
    have hPart : Part (.interpolation (String.ofList code) raw) :=
      .interpolation raw (by simpa using hne) (by simpa using Text.trimmed_trim inner)
    have hPrinted : Written (.interpolation (String.ofList code) raw)
        (opening raw ++ inner ++ closing raw) := by
      have hWritten := Written.interpolation (String.ofList code) raw hLeft hRight
      rwa [String.toList_ofList, ← hInner] at hWritten
    have hTidy := ih.1.cons hPart fun _ _ hBoth => by simp [isText] at hBoth
    refine ⟨hTidy.consText before, ?_⟩
    rw [first?_eq_append hFirst]
    simpa using (Prints.cons hPrinted ih.2).consText before

/-! ## Printed parts are found again -/

/-- The first interpolation is not sought in text without braces. -/
theorem first?_append {cs : List Char} (h : Braceless cs) (rest : List Char) :
    first? (cs ++ rest) =
      (first? rest).map fun (before, found) => (cs ++ before, found) := by
  rw [first?, first?, opening, if_neg Bool.false_ne_true, Text.cut_append h.opening]
  cases Text.cut ['\x7b', '\x7b'] rest with
  | none => rfl
  | some found =>
    obtain ⟨before, after⟩ := found
    simp only [Option.map_some]
    split <;> simp [Option.map_map, Function.comp_def]

/-- A text without braces only joins what comes after it. -/
theorem splitChars_append {cs : List Char} (h : Braceless cs) (rest : List Char) :
    splitChars (cs ++ rest) = consText cs (splitChars rest) := by
  have hFirst := first?_append h rest
  cases hRest : first? rest with
  | none =>
    rw [hRest, Option.map_none] at hFirst
    rw [splitChars_of_none hFirst, splitChars_of_none hRest, consText_append]
  | some found =>
    obtain ⟨before, raw, inner, after⟩ := found
    rw [hRest, Option.map_some] at hFirst
    by_cases hBlank : Text.trim inner = []
    · rw [splitChars_of_blank hFirst hBlank, splitChars_of_blank hRest hBlank]
      simp only [List.append_assoc, consText_append]
    · rw [splitChars_of_code hFirst hBlank, splitChars_of_code hRest hBlank, consText_append]

/-- A text without braces between the markers of an interpolation at the front is what is found
first. The shorter marker is not taken for the longer one, as no brace follows it. -/
theorem first?_interpolation (raw : Bool) {inner : List Char} (hne : inner ≠ [])
    (h : Braceless inner) (rest : List Char) :
    first? (opening raw ++ inner ++ closing raw ++ rest) = some ([], raw, inner, rest) := by
  cases raw with
  | true =>
    have hOpen : Text.cut (opening false) (opening true ++ inner ++ closing true ++ rest) =
        some ([], '\x7b' :: (inner ++ closing true ++ rest)) := Text.cut_pattern _ _ _
    have hClose : Text.cut (closing true) (inner ++ closing true ++ rest) = some (inner, rest) :=
      Text.cut_append_pattern h.closing rest
    simp only [first?, hOpen, hClose, Option.map_some]
  | false =>
    have hOpen : Text.cut (opening false) (opening false ++ inner ++ closing false ++ rest) =
        some ([], inner ++ closing false ++ rest) := Text.cut_pattern _ _ _
    have hClose : Text.cut (closing false) (inner ++ closing false ++ rest) = some (inner, rest) :=
      Text.cut_append_pattern h.closing rest
    simp only [first?, hOpen]
    split
    next hBrace =>
      obtain ⟨c, inner, rfl⟩ := List.exists_cons_of_ne_nil hne
      obtain ⟨rfl, -⟩ := List.cons_eq_cons.mp hBrace
      exact absurd List.mem_cons_self h.opening
    next => rw [hClose, Option.map_some]

theorem Braceless.of_blank {cs : List Char} (h : ∀ c ∈ cs, isBlank c = true) : Braceless cs where
  opening hMem := absurd (h _ hMem) (by decide)
  closing hMem := absurd (h _ hMem) (by decide)

theorem Braceless.append {cs ds : List Char} (hcs : Braceless cs) (hds : Braceless ds) :
    Braceless (cs ++ ds) where
  opening := by simp [hcs.opening, hds.opening]
  closing := by simp [hcs.closing, hds.closing]

/-- A printed interpolation comes out as one part. -/
theorem splitChars_interpolation {code : String} {before after : List Char} (raw : Bool)
    (hne : code.toList ≠ []) (hTrimmed : Text.Trimmed code.toList)
    (hCode : Braceless code.toList) (hBefore : ∀ c ∈ before, isBlank c = true)
    (hAfter : ∀ c ∈ after, isBlank c = true) (rest : List Char) :
    splitChars (opening raw ++ (before ++ code.toList ++ after) ++ closing raw ++ rest) =
      .interpolation code raw :: splitChars rest := by
  have hInner : Braceless (before ++ code.toList ++ after) :=
    ((Braceless.of_blank hBefore).append hCode).append (.of_blank hAfter)
  have hTrim : Text.trim (before ++ code.toList ++ after) = code.toList :=
    hTrimmed.trim_eq hBefore hAfter
  rw [splitChars_of_code (first?_interpolation raw (by simp [hne]) hInner rest)
    (hTrim.symm ▸ hne), hTrim, String.ofList_toList]
  rfl

/-- Tidy parts without braces in them are found again. The induction is on what is printed; a text
joins nothing, as no other text stands next to it. -/
theorem splitChars_of_prints {nodes : List Node} {cs : List Char} (hTidy : Tidy nodes)
    (hBraceless : ∀ node ∈ nodes, Braceless (content node)) (h : Prints nodes cs) :
    splitChars cs = nodes := by
  induction h with
  | nil => rw [splitChars_of_none rfl]; rfl
  | @cons node nodes cs rest hHead hTail ih =>
    have hRest : splitChars rest = nodes :=
      ih hTidy.tail fun a ha => hBraceless a (List.mem_cons_of_mem _ ha)
    have hPart := hTidy.part node List.mem_cons_self
    have hHere := hBraceless node List.mem_cons_self
    cases hHead with
    | text value =>
      have hText : Braceless value.toList := hHere
      cases hPart with
      | text hne =>
        have hApart : ∀ next ∈ nodes.head?, isText next = false := fun next hNext =>
          Bool.eq_false_iff.mpr fun hText =>
            (List.isChain_cons.mp hTidy.apart).1 next hNext ⟨rfl, hText⟩
        rw [splitChars_append hText, hRest, consText_apart hne hApart,
          String.ofList_toList]
    | interpolation code raw hBefore hAfter =>
      cases hPart with
      | interpolation _ hne hTrimmed =>
        rw [splitChars_interpolation raw hne hTrimmed hHere hBefore hAfter, hRest]

/-- Splitting a text yields tidy parts that are printed as the text; and tidy parts without braces
in them are what every text is split into that they are printed as. -/
theorem split_inverts_prints (text : String) :
    (Tidy (split text) ∧ Prints (split text) text.toList) ∧
      ∀ nodes, Tidy nodes → (∀ node ∈ nodes, Braceless (content node)) →
        Prints nodes text.toList → split text = nodes :=
  ⟨splitChars_spec text.toList, fun _ hTidy hBraceless h => splitChars_of_prints hTidy hBraceless h⟩

/-- Both markers side by side after a text, with blanks on one side only and none at all. -/
theorem split_inverts_prints_mixed :
    Tidy [.text "a", .interpolation "b" false, .interpolation "c" true] ∧
      Prints [.text "a", .interpolation "b" false, .interpolation "c" true]
        "a\x7b\x7b  b\x7d\x7d\x7b\x7b\x7bc\x7d\x7d\x7d".toList ∧
      split "a\x7b\x7b  b\x7d\x7d\x7b\x7b\x7bc\x7d\x7d\x7d" =
        [.text "a", .interpolation "b" false, .interpolation "c" true] := by
  have hTidy : Tidy [.text "a", .interpolation "b" false, .interpolation "c" true] :=
    .cons (.text (by decide))
      (.cons (.interpolation false (by decide) ⟨by simp [isBlank], by simp [isBlank]⟩)
        (.cons (.interpolation true (by decide) ⟨by simp [isBlank], by simp [isBlank]⟩) .nil
          (by simp))
        (by simp [isText]))
      (by simp [isText])
  have hSpaces : ∀ c ∈ [' ', ' '], isBlank c = true := by simp [isBlank]
  have hNone : ∀ c ∈ ([] : List Char), isBlank c = true := by simp
  have hPrints : Prints [.text "a", .interpolation "b" false, .interpolation "c" true]
      "a\x7b\x7b  b\x7d\x7d\x7b\x7b\x7bc\x7d\x7d\x7d".toList :=
    .cons (.text "a")
      (.cons (.interpolation "b" false hSpaces hNone)
        (.cons (.interpolation "c" true hNone hNone) .nil))
  refine ⟨hTidy, hPrints, (split_inverts_prints _).2 _ hTidy ?_ hPrints⟩
  simp only [List.forall_mem_cons, content]
  exact ⟨⟨by decide, by decide⟩, ⟨by decide, by decide⟩, ⟨by decide, by decide⟩,
    fun _ h => absurd h List.not_mem_nil⟩

end Interpolation

end LiveMarkup
