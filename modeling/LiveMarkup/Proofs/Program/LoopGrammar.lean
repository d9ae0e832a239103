import LiveMarkup.Program.Loop
import LiveMarkup.Proofs.Text.Splitting
import Mathlib.Data.List.Forall2
import Mathlib.Data.List.ReduceOption

/-!
# The grammar of loop expressions

A loop expression is cut at its semicolons. The first piece is the head, `let item of iterable`; a
later piece gives another name to the index in one of two ways, or is blank. Blanks are free around
all words. The scanner reads exactly these texts, and a text that it refuses is refused at the
first piece that is none of them.

* `Loop.Head`, `Loop.Shape`, `Loop.Clause`: what a head and a clause look like;
* `parseHead?_eq_some_iff`, `parseAlias?_eq_some_iff`: the scanner finds what is written there;
* `Loop.Written`, `Loop.Refused`: the texts that are a given loop, and those that are none;
* `Loop.parse_grammar`: every text is read as the loop that it is or refused for what is wrong, and
  every loop that can be written is read back from its printed form.
-/

namespace LiveMarkup

namespace Loop

open Text (Blanks Gap Begins Stops Identifier isBlank isIdentRest)

variable {cs rest word : List Char} {a b : Alias} {item iterable : String}

/-! ## Words and blanks -/

theorem afterBlanks?_eq_some_iff :
    afterBlanks? cs = some rest ↔ ∃ gap, Gap gap ∧ cs = gap ++ rest ∧ Begins rest := by
  constructor
  · intro h
    cases cs with
    | nil => cases h
    | cons c cs =>
      rw [afterBlanks?] at h
      split at h
      next hBlank =>
        obtain rfl := Option.some.inj h
        obtain ⟨gap, hGap, hEq⟩ := Text.exists_trimLeft cs
        refine ⟨c :: gap, ⟨by simp, ?_⟩, by rw [List.cons_append, ← hEq], Text.begins_trimLeft cs⟩
        rintro d (_ | ⟨_, hd⟩)
        · exact hBlank
        · exact hGap d hd
      next => cases h
  · rintro ⟨gap, hGap, rfl, hBegins⟩
    obtain ⟨c, gap, rfl⟩ := List.exists_cons_of_ne_nil hGap.nonempty
    have hTail : Blanks gap := fun d hd => hGap.blanks d (List.mem_cons_of_mem _ hd)
    rw [List.cons_append, afterBlanks?, if_pos (hGap.blanks c List.mem_cons_self),
      hTail.trimLeft_append hBegins]

theorem afterWord?_eq_some_iff :
    afterWord? word cs = some rest ↔
      ∃ gap, Gap gap ∧ cs = word ++ (gap ++ rest) ∧ Begins rest := by
  rw [afterWord?, Option.bind_eq_some_iff]
  constructor
  · rintro ⟨after, hAfter, h⟩
    obtain ⟨gap, hGap, rfl, hBegins⟩ := afterBlanks?_eq_some_iff.mp h
    exact ⟨gap, hGap, Text.after?_eq_append hAfter, hBegins⟩
  · rintro ⟨gap, hGap, rfl, hBegins⟩
    exact ⟨gap ++ rest, Text.after?_append _ _,
      afterBlanks?_eq_some_iff.mpr ⟨gap, hGap, rfl, hBegins⟩⟩

/-! ## The head -/

/-- The text of an iterable: there is one, on one line and without blanks around it. -/
structure Iterable (cs : List Char) : Prop where
  nonempty : cs ≠ []
  trimmed : Text.Trimmed cs
  line : '\n' ∉ cs

/-- The text is `let item of iterable`. -/
inductive Head (item iterable : String) (cs : List Char) : Prop where
  | mk {b₀ b₁ b₂ b₃ b₄ : List Char} (h₀ : Blanks b₀) (h₁ : Gap b₁)
      (hItem : Identifier item.toList) (h₂ : Gap b₂) (h₃ : Gap b₃)
      (hIterable : Iterable iterable.toList) (h₄ : Blanks b₄)
      (hText : cs = b₀ ++ (['l', 'e', 't'] ++ (b₁ ++ (item.toList ++
        (b₂ ++ (['o', 'f'] ++ (b₃ ++ (iterable.toList ++ b₄))))))))

theorem begins_word (c : Char) (h : isBlank c = false) (word rest : List Char) :
    Begins (c :: word ++ rest) := by
  rintro d ⟨⟩
  exact h

theorem Iterable.begins (h : Iterable cs) (rest : List Char) : Begins (cs ++ rest) :=
  Begins.append h.trimmed.head h.nonempty rest

/-- The scanner of a head finds the item and the iterable that are written there. -/
theorem parseHead?_eq_some_iff :
    parseHead? cs = some (item, iterable) ↔ Head item iterable cs := by
  simp only [parseHead?, Option.bind_eq_bind, Option.bind_eq_some_iff, Prod.exists]
  constructor
  · rintro ⟨cs₁, hLet, name, cs₂, hName, cs₃, hGap, cs₄, hOf, hIterable⟩
    obtain ⟨b₀, h₀, hStart⟩ := Text.exists_trimLeft cs
    obtain ⟨b₁, h₁, hLet, -⟩ := afterWord?_eq_some_iff.mp hLet
    obtain ⟨hItem, rfl, -⟩ := Text.identifier?_eq_some_iff.mp hName
    obtain ⟨b₂, h₂, rfl, -⟩ := afterBlanks?_eq_some_iff.mp hGap
    obtain ⟨b₃, h₃, rfl, hBegins⟩ := afterWord?_eq_some_iff.mp hOf
    obtain ⟨b₄, h₄, hEnd, hLast⟩ := Text.exists_trimRight cs₄
    split at hIterable
    next => cases hIterable
    next hSome =>
      obtain ⟨rfl, rfl⟩ := Prod.mk.inj (Option.some.inj hIterable)
      simp only [Bool.or_eq_true, not_or, List.isEmpty_iff, List.contains_iff_mem] at hSome
      have hHead : Begins (Text.trimRight cs₄) := fun c hc => hBegins c <| by
        rw [hEnd, List.head?_append, hc, Option.some_or]
        rfl
      have hText : Iterable (Text.trimRight cs₄) := ⟨hSome.1, ⟨hHead, hLast⟩, hSome.2⟩
      refine ⟨h₀, h₁, by simpa using hItem, h₂, h₃, by simpa using hText, h₄, ?_⟩
      rw [String.toList_ofList, String.toList_ofList, ← hEnd, ← hLet, ← hStart]
  · rintro @⟨b₀, b₁, b₂, b₃, b₄, h₀, h₁, hItem, h₂, h₃, hIterable, h₄, rfl⟩
    have hTrim : Text.trimRight (iterable.toList ++ b₄) = iterable.toList := by
      rw [Text.trimRight_append_of_blank h₄, hIterable.trimmed.trimRight_eq]
    rw [h₀.trimLeft_append (begins_word 'l' (by decide) _ _)]
    refine ⟨_, afterWord?_eq_some_iff.mpr ⟨b₁, h₁, rfl, hItem.begins _⟩, _, _,
      Text.identifier?_eq_some_iff.mpr ⟨hItem, rfl, h₂.stops _⟩, _,
      afterBlanks?_eq_some_iff.mpr ⟨b₂, h₂, rfl, begins_word 'o' (by decide) _ _⟩, _,
      afterWord?_eq_some_iff.mpr ⟨b₃, h₃, rfl, hIterable.begins _⟩, ?_⟩
    simp [hTrim, hIterable.nonempty, hIterable.line]

/-! ## Aliases -/

/-- The text is `target as name`. -/
inductive AsShape (a : Alias) (cs : List Char) : Prop where
  | mk {b₀ b₁ b₂ b₃ : List Char} (h₀ : Blanks b₀) (hTarget : Identifier a.target.toList)
      (h₁ : Gap b₁) (h₂ : Gap b₂) (hName : Identifier a.name.toList) (h₃ : Blanks b₃)
      (hText : cs = b₀ ++ (a.target.toList ++ (b₁ ++ (['a', 's'] ++
        (b₂ ++ (a.name.toList ++ b₃))))))

/-- The text is `let name = target`; no blanks are needed around the sign. -/
inductive LetShape (a : Alias) (cs : List Char) : Prop where
  | mk {b₀ b₁ b₂ b₃ b₄ : List Char} (h₀ : Blanks b₀) (h₁ : Gap b₁)
      (hName : Identifier a.name.toList) (h₂ : Blanks b₂) (h₃ : Blanks b₃)
      (hTarget : Identifier a.target.toList) (h₄ : Blanks b₄)
      (hText : cs = b₀ ++ (['l', 'e', 't'] ++ (b₁ ++ (a.name.toList ++
        (b₂ ++ (['='] ++ (b₃ ++ (a.target.toList ++ b₄))))))))

/-- The text is an alias in one of the two ways of writing it. -/
def Shape (a : Alias) (cs : List Char) : Prop :=
  AsShape a cs ∨ LetShape a cs

theorem stops_of_blanks (h : Blanks cs) : Stops cs := by
  have hNil : Stops [] := by rintro c ⟨⟩
  simpa using h.stops hNil

theorem parseAs?_eq_some_iff : parseAs? cs = some a ↔ AsShape a cs := by
  simp only [parseAs?, Option.bind_eq_bind, Option.bind_eq_some_iff, Prod.exists]
  constructor
  · rintro ⟨target, cs₁, hFirst, cs₂, hGap, cs₃, hAs, name, cs₄, hSecond, hEnd⟩
    obtain ⟨b₀, h₀, hStart⟩ := Text.exists_trimLeft cs
    obtain ⟨hTarget, hRest, -⟩ := Text.identifier?_eq_some_iff.mp hFirst
    obtain ⟨b₁, h₁, rfl, -⟩ := afterBlanks?_eq_some_iff.mp hGap
    obtain ⟨b₂, h₂, rfl, -⟩ := afterWord?_eq_some_iff.mp hAs
    obtain ⟨hName, rfl, -⟩ := Text.identifier?_eq_some_iff.mp hSecond
    split at hEnd
    next hBlank =>
      obtain rfl := Option.some.inj hEnd
      refine ⟨h₀, by simpa using hTarget, h₁, h₂, by simpa using hName,
        Text.blanks_iff_all.mpr hBlank, ?_⟩
      rw [String.toList_ofList, String.toList_ofList, ← hRest, ← hStart]
    next => cases hEnd
  · rintro @⟨b₀, b₁, b₂, b₃, h₀, hTarget, h₁, h₂, hName, h₃, rfl⟩
    rw [h₀.trimLeft_append (hTarget.begins _)]
    refine ⟨_, _, Text.identifier?_eq_some_iff.mpr ⟨hTarget, rfl, h₁.stops _⟩, _,
      afterBlanks?_eq_some_iff.mpr ⟨b₁, h₁, rfl, begins_word 'a' (by decide) _ _⟩, _,
      afterWord?_eq_some_iff.mpr ⟨b₂, h₂, rfl, hName.begins _⟩, _, _,
      Text.identifier?_eq_some_iff.mpr ⟨hName, rfl, stops_of_blanks h₃⟩, ?_⟩
    rw [if_pos (Text.blanks_iff_all.mp h₃), String.ofList_toList, String.ofList_toList]
    rfl

theorem parseLet?_eq_some_iff : parseLet? cs = some a ↔ LetShape a cs := by
  simp only [parseLet?, Option.bind_eq_bind, Option.bind_eq_some_iff, Prod.exists]
  constructor
  · rintro ⟨cs₁, hLet, name, cs₂, hFirst, cs₃, hSign, target, cs₄, hSecond, hEnd⟩
    obtain ⟨b₀, h₀, hStart⟩ := Text.exists_trimLeft cs
    obtain ⟨b₁, h₁, hLet, -⟩ := afterWord?_eq_some_iff.mp hLet
    obtain ⟨hName, rfl, -⟩ := Text.identifier?_eq_some_iff.mp hFirst
    obtain ⟨b₂, h₂, hMiddle⟩ := Text.exists_trimLeft cs₂
    obtain ⟨b₃, h₃, hBehind⟩ := Text.exists_trimLeft cs₃
    obtain ⟨hTarget, hRest, -⟩ := Text.identifier?_eq_some_iff.mp hSecond
    split at hEnd
    next hBlank =>
      obtain rfl := Option.some.inj hEnd
      refine ⟨h₀, h₁, by simpa using hName, h₂, h₃, by simpa using hTarget,
        Text.blanks_iff_all.mpr hBlank, ?_⟩
      rw [String.toList_ofList, String.toList_ofList, ← hRest, ← hBehind,
        ← Text.after?_eq_append hSign, ← hMiddle, ← hLet, ← hStart]
    next => cases hEnd
  · rintro @⟨b₀, b₁, b₂, b₃, b₄, h₀, h₁, hName, h₂, h₃, hTarget, h₄, rfl⟩
    have hStops : Stops (['='] ++ (b₃ ++ (a.target.toList ++ b₄))) := by
      rintro c ⟨⟩
      decide +kernel
    have hSign : Text.after? ['='] (Text.trimLeft
        (b₂ ++ (['='] ++ (b₃ ++ (a.target.toList ++ b₄))))) =
          some (b₃ ++ (a.target.toList ++ b₄)) := by
      rw [h₂.trimLeft_append (begins_word '=' (by decide) _ _), Text.after?_append]
    have hFound : Text.identifier? (Text.trimLeft (b₃ ++ (a.target.toList ++ b₄))) =
        some (a.target.toList, b₄) := by
      rw [h₃.trimLeft_append (hTarget.begins _)]
      exact Text.identifier?_eq_some_iff.mpr ⟨hTarget, rfl, stops_of_blanks h₄⟩
    rw [h₀.trimLeft_append (begins_word 'l' (by decide) _ _)]
    refine ⟨_, afterWord?_eq_some_iff.mpr ⟨b₁, h₁, rfl, hName.begins _⟩, _, _,
      Text.identifier?_eq_some_iff.mpr ⟨hName, rfl, h₂.stops hStops⟩, _, hSign, _, _, hFound, ?_⟩
    rw [if_pos (Text.blanks_iff_all.mp h₄), String.ofList_toList, String.ofList_toList]
    rfl

/-- The sign stands in one of the two shapes only. -/
theorem not_letShape (h : AsShape a cs) : ¬ LetShape b cs := by
  have hNone : ∀ {name : List Char}, Identifier name → '=' ∉ name := fun hName =>
    hName.not_mem (by decide) (by decide +kernel)
  have hBlank : ∀ {blanks : List Char}, Blanks blanks → '=' ∉ blanks := fun hBlanks hMem =>
    absurd (hBlanks _ hMem) (by decide)
  rintro @⟨_, _, _, _, _, -, -, -, -, -, -, -, hText⟩
  obtain @⟨b₀, b₁, b₂, b₃, h₀, hTarget, h₁, h₂, hName, h₃, rfl⟩ := h
  have hSign : '=' ∈ b₀ ++ (a.target.toList ++ (b₁ ++ (['a', 's'] ++
      (b₂ ++ (a.name.toList ++ b₃))))) := by
    rw [hText]
    simp
  simp [hNone hTarget, hNone hName, hBlank h₀, hBlank h₁.blanks, hBlank h₂.blanks,
    hBlank h₃] at hSign

/-- The scanners of aliases find the alias that is written there. -/
theorem parseAlias?_eq_some_iff : (parseAs? cs).or (parseLet? cs) = some a ↔ Shape a cs := by
  rw [Option.or_eq_some_iff, parseAs?_eq_some_iff, parseLet?_eq_some_iff]
  refine or_congr_right (and_iff_right_of_imp fun hLet => ?_)
  refine Option.eq_none_iff_forall_ne_some.mpr fun b hAs => ?_
  exact not_letShape (parseAs?_eq_some_iff.mp hAs) hLet

/-! ## Clauses -/

/-- A clause that is as it should be, and the alias in it, if any. -/
inductive Clause (cs : List Char) : Option Alias → Prop where
  | blank (h : Blanks cs) : Clause cs none
  | renames {a : Alias} (h : Shape a cs) (hIndex : a.target = "index") : Clause cs (some a)

/-- A clause that is not, and how it is reported. -/
inductive Offence (cs : List Char) : SyntaxError → Prop where
  | unknown {a : Alias} (h : Shape a cs) (hOther : a.target ≠ "index") :
      Offence cs (.unknownVariable (quoted cs) a.target)
  | malformed (hBlanks : ¬ Blanks cs) (h : ∀ a, ¬ Shape a cs) :
      Offence cs (.malformed (quoted cs) false)

theorem not_blanks_of_shape (h : Shape a cs) : ¬ Blanks cs := by
  have hLetter : ∀ c, isBlank c = false → c ∈ cs → ¬ Blanks cs := fun c hc hMem hBlanks => by
    rw [hBlanks _ hMem] at hc
    cases hc
  rcases h with
    @⟨_, _, _, _, _, _, _, _, _, _, hText⟩ | @⟨_, _, _, _, _, _, _, _, _, _, _, _, hText⟩
  · exact hLetter 's' (by decide) (by simp [hText])
  · exact hLetter 'l' (by decide) (by simp [hText])

theorem clause_or_offence (cs : List Char) : (∃ found, Clause cs found) ∨ ∃ e, Offence cs e := by
  by_cases hBlanks : Blanks cs
  · exact .inl ⟨none, .blank hBlanks⟩
  by_cases hShape : ∃ a, Shape a cs
  · obtain ⟨a, ha⟩ := hShape
    by_cases hIndex : a.target = "index"
    · exact .inl ⟨some a, .renames ha hIndex⟩
    · exact .inr ⟨_, .unknown ha hIndex⟩
  · exact .inr ⟨_, .malformed hBlanks (not_exists.mp hShape)⟩

/-- A clause with something in it is judged by the alias that is found. -/
theorem parseClause_of_shape (h : Shape a cs) :
    parseClause cs = if locals.contains a.target then .ok (some a)
      else .error (.unknownVariable (quoted cs) a.target) := by
  rw [parseClause, if_neg (mt Text.blanks_iff_all.mpr (not_blanks_of_shape h)),
    parseAlias?_eq_some_iff.mpr h]

theorem contains_locals_iff {name : String} : locals.contains name = true ↔ name = "index" := by
  simp [locals]

variable {found : Option Alias} {e : SyntaxError} {clauses : List (List Char)}

theorem Clause.parse (h : Clause cs found) : parseClause cs = .ok found := by
  rcases h with hBlanks | ⟨hShape, hIndex⟩
  · rw [parseClause, if_pos (Text.blanks_iff_all.mp hBlanks)]
  · rw [parseClause_of_shape hShape, if_pos (contains_locals_iff.mpr hIndex)]

theorem Offence.parse (h : Offence cs e) : parseClause cs = .error e := by
  rcases h with ⟨hShape, hOther⟩ | ⟨hBlanks, hNone⟩
  · rw [parseClause_of_shape hShape, if_neg (mt contains_locals_iff.mp hOther)]
  · have hFound : (parseAs? cs).or (parseLet? cs) = none :=
      Option.eq_none_iff_forall_ne_some.mpr fun a ha => hNone a (parseAlias?_eq_some_iff.mp ha)
    rw [parseClause, if_neg (mt Text.blanks_iff_all.mpr hBlanks), hFound]

theorem parseClauses_cons (cs : List Char) (clauses : List (List Char)) :
    parseClauses (cs :: clauses) = (do
      let first ← parseClause cs
      let others ← parseClauses clauses
      pure (first.toList ++ others)) :=
  rfl

theorem parseClauses_ok {founds : List (Option Alias)} (h : List.Forall₂ Clause clauses founds) :
    parseClauses clauses = .ok founds.reduceOption := by
  induction h with
  | nil => rfl
  | @cons cs found clauses founds hFirst _ ih =>
    rw [parseClauses_cons, hFirst.parse, ih]
    cases found <;> rfl

/-- The first clause that is not is reported. -/
theorem parseClauses_error {before after : List (List Char)} {bad : List Char}
    (hBefore : ∀ clause ∈ before, ∃ found, Clause clause found) (hBad : Offence bad e) :
    parseClauses (before ++ bad :: after) = .error e := by
  induction before with
  | nil =>
    rw [List.nil_append, parseClauses_cons, hBad.parse]
    rfl
  | cons first before ih =>
    obtain ⟨found, hFirst⟩ := hBefore first List.mem_cons_self
    rw [List.cons_append, parseClauses_cons, hFirst.parse,
      ih fun clause hMem => hBefore clause (List.mem_cons_of_mem _ hMem)]
    rfl

/-- All clauses are as they should be, or there is a first one that is not. -/
theorem clauses_or_offence (clauses : List (List Char)) :
    (∃ founds, List.Forall₂ Clause clauses founds) ∨ ∃ before bad after e,
      clauses = before ++ bad :: after ∧ (∀ clause ∈ before, ∃ found, Clause clause found) ∧
        Offence bad e := by
  induction clauses with
  | nil => exact .inl ⟨[], .nil⟩
  | cons first clauses ih =>
    rcases clause_or_offence first with ⟨found, hFirst⟩ | ⟨e, hBad⟩
    · rcases ih with ⟨founds, hRest⟩ | ⟨before, bad, after, e, rfl, hBefore, hBad⟩
      · exact .inl ⟨found :: founds, .cons hFirst hRest⟩
      · refine .inr ⟨first :: before, bad, after, e, rfl, ?_, hBad⟩
        rintro clause (_ | ⟨_, hMem⟩)
        · exact ⟨found, hFirst⟩
        · exact hBefore clause hMem
    · exact .inr ⟨[], first, clauses, e, rfl, by simp, hBad⟩

/-! ## Loop expressions -/

/-- A text is made of pieces with semicolons between them, the head and the clauses. -/
structure Pieces (code : String) (head : List Char) (clauses : List (List Char)) : Prop where
  text : code.toList = [';'].intercalate (head :: clauses)
  apart : ∀ piece ∈ head :: clauses, ';' ∉ piece

/-- Where the value comes from that a loop goes over. -/
def sourceOf (isExpression : Bool) (iterable : String) : ValueSource :=
  if isExpression then .expression iterable else .reference iterable

/-- The text is a loop expression for this loop. -/
inductive Written (isExpression : Bool) (l : Loop) (code : String) : Prop where
  | mk {head : List Char} {clauses : List (List Char)} {founds : List (Option Alias)}
      {iterable : String} (hPieces : Pieces code head clauses) (hHead : Head l.item iterable head)
      (hIterable : l.iterable = sourceOf isExpression iterable)
      (hClauses : List.Forall₂ Clause clauses founds) (hAliases : l.aliases = founds.reduceOption)

/-- The text is no loop expression, and what is reported: the head, or the first clause that is not
as it should be. -/
inductive Refused (code : String) : SyntaxError → Prop where
  | head {head : List Char} {clauses : List (List Char)} (hPieces : Pieces code head clauses)
      (h : ∀ item iterable, ¬ Head item iterable head) :
      Refused code (.malformed (quoted head) true)
  | clause {head bad : List Char} {before after : List (List Char)} {item iterable : String}
      {e : SyntaxError} (hPieces : Pieces code head (before ++ bad :: after))
      (hHead : Head item iterable head)
      (hBefore : ∀ clause ∈ before, ∃ found, Clause clause found) (hBad : Offence bad e) :
      Refused code e

theorem pieces_iff {code : String} {head : List Char} :
    Pieces code head clauses ↔ Text.pieces (· == ';') code.toList = head :: clauses :=
  ⟨fun h => Text.pieces_eq_cons_iff.mpr ⟨h.text, h.apart⟩, fun h =>
    ⟨(Text.pieces_eq_cons_iff.mp h).1, (Text.pieces_eq_cons_iff.mp h).2⟩⟩

theorem exists_pieces (code : String) : ∃ head clauses, Pieces code head clauses := by
  cases hPieces : Text.pieces (· == ';') code.toList with
  | nil => exact absurd (Text.pieces_eq_splitOnP _ _ ▸ hPieces) (List.splitOnP_ne_nil _ _)
  | cons head clauses => exact ⟨head, clauses, pieces_iff.mpr hPieces⟩

variable {isExpression : Bool} {l : Loop} {code : String}

/-- A text is read by its head and its clauses. -/
theorem Pieces.parse {head : List Char} (h : Pieces code head clauses)
    (hHead : Head item iterable head) :
    Loop.parse isExpression code = (parseClauses clauses).map fun aliases =>
      ⟨item, sourceOf isExpression iterable, aliases⟩ := by
  rw [Loop.parse, pieces_iff.mp h]
  simp only [parseHead?_eq_some_iff.mpr hHead]
  cases parseClauses clauses <;> rfl

theorem Written.parse (h : Written isExpression l code) : Loop.parse isExpression code = .ok l := by
  obtain ⟨hPieces, hHead, hIterable, hClauses, hAliases⟩ := h
  rw [hPieces.parse hHead, parseClauses_ok hClauses, Except.map, ← hIterable, ← hAliases]

theorem Refused.parse (h : Refused code e) : Loop.parse isExpression code = .error e := by
  rcases h with ⟨hPieces, hNone⟩ | ⟨hPieces, hHead, hBefore, hBad⟩
  · rename_i head clauses
    have hHead : parseHead? head = none :=
      Option.eq_none_iff_forall_ne_some.mpr fun ⟨item, iterable⟩ hSome =>
        hNone item iterable (parseHead?_eq_some_iff.mp hSome)
    rw [Loop.parse, pieces_iff.mp hPieces]
    simp only [hHead]
  · rw [hPieces.parse hHead, parseClauses_error hBefore hBad, Except.map]

theorem written_or_refused (isExpression : Bool) (code : String) :
    (∃ l, Written isExpression l code) ∨ ∃ e, Refused code e := by
  obtain ⟨head, clauses, hPieces⟩ := exists_pieces code
  by_cases hHead : ∃ item iterable, Head item iterable head
  · obtain ⟨item, iterable, hHead⟩ := hHead
    rcases clauses_or_offence clauses with ⟨founds, hClauses⟩ |
      ⟨before, bad, after, e, rfl, hBefore, hBad⟩
    · exact .inl ⟨⟨item, sourceOf isExpression iterable, founds.reduceOption⟩,
        .mk hPieces hHead rfl hClauses rfl⟩
    · exact .inr ⟨e, .clause hPieces hHead hBefore hBad⟩
  · exact .inr ⟨_, .head hPieces fun item iterable h => hHead ⟨item, iterable, h⟩⟩

/-! ## Printing -/

/-- The text of an alias, as a clause after the head. -/
def Alias.print (a : Alias) : List Char :=
  " ".toList ++ a.target.toList ++ " as ".toList ++ a.name.toList

/-- The text of a loop. -/
def print (l : Loop) : String :=
  String.ofList ([';'].intercalate
    (("let ".toList ++ l.item.toList ++ " of ".toList ++ l.iterable.code.toList) ::
      l.aliases.map Alias.print))

/-- A loop that can be written: its names are identifiers, its aliases are other names of the
index, and the text of its iterable is one and holds no semicolon. -/
structure Sayable (isExpression : Bool) (l : Loop) : Prop where
  item : Identifier l.item.toList
  source : l.iterable = sourceOf isExpression l.iterable.code
  iterable : Iterable l.iterable.code.toList
  apart : ';' ∉ l.iterable.code.toList
  index : ∀ a ∈ l.aliases, a.target = "index"
  name : ∀ a ∈ l.aliases, Identifier a.name.toList

theorem code_sourceOf (isExpression : Bool) (iterable : String) :
    (sourceOf isExpression iterable).code = iterable := by
  cases isExpression <;> rfl

theorem Shape.name (h : Shape a cs) : Identifier a.name.toList := by
  rcases h with
    @⟨_, _, _, _, _, _, _, _, hName, _, _⟩ | @⟨_, _, _, _, _, _, _, hName, _, _, _, _, _⟩
  · exact hName
  · exact hName

theorem exists_clause {founds : List (Option Alias)} (h : List.Forall₂ Clause clauses founds)
    (hMem : found ∈ founds) : ∃ clause, Clause clause found := by
  induction h with
  | nil => exact absurd hMem List.not_mem_nil
  | cons hFirst _ ih =>
    rcases List.mem_cons.mp hMem with rfl | hMem
    · exact ⟨_, hFirst⟩
    · exact ih hMem

/-- What is written can be written. -/
theorem Written.sayable (h : Written isExpression l code) : Sayable isExpression l := by
  obtain @⟨head, clauses, founds, iterable, hPieces, hHead, hIterable, hClauses, hAliases⟩ := h
  obtain @⟨_, _, _, _, _, -, -, hItem, -, -, hText, -, hEq⟩ := hHead
  have hCode : l.iterable.code = iterable := hIterable ▸ code_sourceOf isExpression iterable
  have hAlias : ∀ a ∈ l.aliases, a.target = "index" ∧ Identifier a.name.toList := by
    intro a ha
    rw [hAliases, List.reduceOption_mem_iff] at ha
    obtain ⟨clause, hClause⟩ := exists_clause hClauses ha
    cases hClause with
    | renames hShape hIndex => exact ⟨hIndex, hShape.name⟩
  have hApart : ';' ∉ head := hPieces.apart head List.mem_cons_self
  refine ⟨hItem, hCode.symm ▸ hIterable, hCode.symm ▸ hText, ?_, fun a ha => (hAlias a ha).1,
    fun a ha => (hAlias a ha).2⟩
  rw [hCode]
  exact fun hMem => hApart (by simp [hEq, hMem])

theorem blanks_nil : Blanks [] :=
  fun _ h => absurd h List.not_mem_nil

theorem gap_space : Gap [' '] := by
  refine ⟨List.cons_ne_nil _ _, fun c hc => ?_⟩
  obtain rfl := List.mem_singleton.mp hc
  decide

theorem identifier_index : Identifier ['i', 'n', 'd', 'e', 'x'] :=
  .mk (by decide) (List.all_eq_true.mp (by decide +kernel))

theorem not_semicolon {name : List Char} (h : Identifier name) : ';' ∉ name :=
  h.not_mem (by decide) (by decide +kernel)

theorem clause_print (hIndex : a.target = "index") (hName : Identifier a.name.toList) :
    Clause a.print (some a) := by
  have hTarget : Identifier a.target.toList := by
    rw [hIndex]
    exact identifier_index
  refine .renames (.inl ⟨gap_space.blanks, hTarget, gap_space, gap_space, hName, blanks_nil, ?_⟩)
    hIndex
  simp [Alias.print]

theorem head_print {text : String} (hItem : Identifier item.toList)
    (hIterable : Iterable text.toList) :
    Head item text ("let ".toList ++ item.toList ++ " of ".toList ++ text.toList) := by
  refine ⟨blanks_nil, gap_space, hItem, gap_space, gap_space, hIterable, blanks_nil, ?_⟩
  simp

/-- A loop that can be written is what its printed form says. -/
theorem Sayable.written (h : Sayable isExpression l) : Written isExpression l l.print := by
  have hClauses : List.Forall₂ Clause (l.aliases.map Alias.print) (l.aliases.map some) := by
    rw [List.forall₂_map_left_iff, List.forall₂_map_right_iff, List.forall₂_same]
    exact fun a ha => clause_print (h.index a ha) (h.name a ha)
  have hAliases : l.aliases = (l.aliases.map some).reduceOption := by
    rw [List.reduceOption, List.filterMap_map]
    simp
  refine .mk ⟨String.toList_ofList, ?_⟩ (head_print h.item h.iterable) h.source hClauses hAliases
  rintro piece (_ | ⟨_, hPiece⟩)
  · simp [not_semicolon h.item, h.apart]
  · obtain ⟨a, ha, rfl⟩ := List.mem_map.mp hPiece
    simp [Alias.print, h.index a ha, not_semicolon (h.name a ha)]

/-- Every text is read as the loop that it is, or refused for the first thing that is wrong with it.
The loops that are read are those that can be written, and each is read back from its printed
form. -/
theorem parse_grammar (isExpression : Bool) :
    (∀ code l, parse isExpression code = .ok l ↔ Written isExpression l code) ∧
      (∀ code e, parse isExpression code = .error e ↔ Refused code e) ∧
      (∀ l, (∃ code, parse isExpression code = .ok l) ↔ Sayable isExpression l) ∧
      ∀ l, Sayable isExpression l → parse isExpression l.print = .ok l := by
  have hOk : ∀ code l, parse isExpression code = .ok l ↔ Written isExpression l code := by
    refine fun code l => ⟨fun h => ?_, Written.parse⟩
    rcases written_or_refused isExpression code with ⟨l', hWritten⟩ | ⟨e, hRefused⟩
    · obtain rfl := Except.ok.inj (hWritten.parse.symm.trans h)
      exact hWritten
    · cases hRefused.parse.symm.trans h
  have hError : ∀ code e, parse isExpression code = .error e ↔ Refused code e := by
    refine fun code e => ⟨fun h => ?_, Refused.parse⟩
    rcases written_or_refused isExpression code with ⟨l, hWritten⟩ | ⟨e', hRefused⟩
    · cases hWritten.parse.symm.trans h
    · obtain rfl := Except.error.inj (hRefused.parse.symm.trans h)
      exact hRefused
  exact ⟨hOk, hError, fun l => ⟨fun ⟨code, h⟩ => ((hOk code l).mp h).sayable,
    fun h => ⟨l.print, h.written.parse⟩⟩, fun l h => h.written.parse⟩

/-- A loop with an item of one letter and one other name for the index. -/
theorem parse_grammar_rows :
    Sayable false ⟨"r", .reference "t.rows", [⟨"index", "i"⟩]⟩ ∧
      print ⟨"r", .reference "t.rows", [⟨"index", "i"⟩]⟩ = "let r of t.rows; index as i" ∧
      parse false "let r of t.rows; index as i" =
        .ok ⟨"r", .reference "t.rows", [⟨"index", "i"⟩]⟩ := by
  have hSayable : Sayable false ⟨"r", .reference "t.rows", [⟨"index", "i"⟩]⟩ :=
    { item := .mk (by decide) (by simp)
      source := rfl
      iterable := ⟨by decide,
        ⟨by simp [ValueSource.code, isBlank], by simp [ValueSource.code, isBlank]⟩, by decide⟩
      apart := by decide
      index := by simp
      name := by simpa using Identifier.mk (by decide) (by simp) }
  have hPrint :
      print ⟨"r", .reference "t.rows", [⟨"index", "i"⟩]⟩ = "let r of t.rows; index as i" := by
    decide
  exact ⟨hSayable, hPrint, hPrint ▸ (parse_grammar false).2.2.2 _ hSayable⟩

end Loop

end LiveMarkup
