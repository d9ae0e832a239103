import LiveMarkup.Dom.Style
import LiveMarkup.Proofs.Dom.Attributes
import LiveMarkup.Proofs.Text.Splitting

/-!
# Style declarations

A style property is set or cleared by reading all declarations of the `style` attribute, changing
one and printing them back. What is read off any text at all is proper, and proper declarations are
read again as they were printed, so a change is a change of the list and nothing else.

* `Style.declarations_print`: printing and reading agree on proper declarations;
* `Style.proper_declarations`: every text has proper declarations;
* `Dom.styles_setStyle`: the declarations of an element after a change.

A property can be declared more than once. The first declaration is the one that counts, and
clearing a property takes away that one only: the next declaration of the property shows up.
-/

namespace LiveMarkup

namespace Style

variable {name property value : String} {ds : List (String × String)}

/-! ## Proper declarations -/

/-- A name that a declaration can have: not empty, without blanks around it, and without the
characters that end a name or a declaration. -/
structure IsName (name : String) : Prop where
  ne_nil : name.toList ≠ []
  trimmed : Text.Trimmed name.toList
  colon : ':' ∉ name.toList
  semicolon : ';' ∉ name.toList

/-- A value that a declaration can have. -/
structure IsText (value : String) : Prop where
  trimmed : Text.Trimmed value.toList
  semicolon : ';' ∉ value.toList

instance (name : String) : Decidable (IsName name) :=
  decidable_of_iff (name.toList ≠ [] ∧ Text.Trimmed name.toList ∧ ':' ∉ name.toList ∧
    ';' ∉ name.toList)
    ⟨fun ⟨hne, hTrimmed, hColon, hSemicolon⟩ => ⟨hne, hTrimmed, hColon, hSemicolon⟩,
      fun ⟨hne, hTrimmed, hColon, hSemicolon⟩ => ⟨hne, hTrimmed, hColon, hSemicolon⟩⟩

instance (value : String) : Decidable (IsText value) :=
  decidable_of_iff (Text.Trimmed value.toList ∧ ';' ∉ value.toList)
    ⟨fun ⟨hTrimmed, hSemicolon⟩ => ⟨hTrimmed, hSemicolon⟩,
      fun ⟨hTrimmed, hSemicolon⟩ => ⟨hTrimmed, hSemicolon⟩⟩

/-- Declarations each of which is read as it is printed. -/
def Proper (ds : List (String × String)) : Prop :=
  ∀ d ∈ ds, IsName d.1 ∧ IsText d.2

theorem Proper.set (h : Proper ds) (hName : IsName name) (hValue : IsText value) :
    Proper (Attributes.set name value ds) := by
  intro d hd
  rcases Attributes.mem_set hd with rfl | hd
  · exact ⟨hName, hValue⟩
  · exact h d hd

theorem eraseFirst_sublist (property : String) (ds : List (String × String)) :
    (eraseFirst property ds).Sublist ds := by
  induction ds with
  | nil => exact .slnil
  | cons d ds ih =>
    rw [eraseFirst]
    split
    · exact .cons _ (.refl ds)
    · exact .cons_cons _ ih

theorem Proper.eraseFirst (h : Proper ds) (property : String) : Proper (eraseFirst property ds) :=
  fun d hd => h d ((eraseFirst_sublist property ds).subset hd)

/-! ## Printing and reading -/

/-- The characters of one printed declaration. -/
def printed (d : String × String) : List Char :=
  d.1.toList ++ ':' :: ' ' :: d.2.toList

theorem toList_print (ds : List (String × String)) :
    (print ds).toList = [';', ' '].intercalate (ds.map printed) := by
  rw [print, String.toList_intercalate, List.map_map]
  congr 1
  refine List.map_congr_left fun d _ => ?_
  simp [printed]

theorem isBlank_space : ∀ c ∈ [' '], Text.isBlank c = true :=
  List.forall_mem_singleton.mpr rfl

/-- A proper declaration is read from its text, whatever blanks stand before it. -/
theorem declaration?_printed (before : List Char) {d : String × String}
    (hBefore : ∀ c ∈ before, Text.isBlank c = true) (hName : IsName d.1) (hValue : IsText d.2) :
    declaration? (before ++ printed d) = some d := by
  have hColon : ':' ∉ before ++ d.1.toList := fun h =>
    (List.mem_append.mp h).elim (fun hMem => absurd (hBefore _ hMem) (by decide)) hName.colon
  have hCut : Text.cut [':'] (before ++ printed d) =
      some (before ++ d.1.toList, ' ' :: d.2.toList) := by
    simpa [printed] using @Text.cut_append_pattern ':' [] _ hColon (' ' :: d.2.toList)
  have hLeft : Text.trim (before ++ d.1.toList ++ []) = d.1.toList :=
    hName.trimmed.trim_eq hBefore (by simp)
  have hRight : Text.trim ([' '] ++ d.2.toList ++ []) = d.2.toList :=
    hValue.trimmed.trim_eq isBlank_space (by simp)
  rw [List.append_nil] at hLeft
  rw [List.append_nil, List.singleton_append] at hRight
  rw [declaration?, hCut]
  simp only [hLeft, hRight, List.isEmpty_iff, hName.ne_nil, if_false, String.ofList_toList]

/-- Joining with a blank behind every semicolon leaves that blank at the front of the pieces. -/
theorem pieces_intercalate {first : List Char} {others : List (List Char)}
    (h : ∀ piece ∈ first :: others, ';' ∉ piece) :
    Text.pieces (· == ';') ([';', ' '].intercalate (first :: others)) =
      first :: others.map (' ' :: ·) := by
  refine Text.pieces_eq_cons_iff.mpr ⟨?_, ?_⟩
  · clear h
    induction others generalizing first with
    | nil => simp
    | cons second others ih => simp [ih]
  · intro piece hPiece
    rcases List.mem_cons.mp hPiece with rfl | hPiece
    · exact h _ List.mem_cons_self
    · obtain ⟨other, hOther, rfl⟩ := List.mem_map.mp hPiece
      simpa using h other (List.mem_cons_of_mem _ hOther)

theorem not_mem_printed {d : String × String} (hName : IsName d.1) (hValue : IsText d.2) :
    ';' ∉ printed d := by
  simp [printed, hName.semicolon, hValue.semicolon]

/-- Proper declarations are read as they were printed. -/
theorem declarations_print (h : Proper ds) : declarations (print ds) = ds := by
  cases ds with
  | nil => rfl
  | cons d ds =>
    have hApart : ∀ piece ∈ printed d :: ds.map printed, ';' ∉ piece := by
      rw [← List.map_cons]
      intro piece hPiece
      obtain ⟨e, he, rfl⟩ := List.mem_map.mp hPiece
      exact not_mem_printed (h e he).1 (h e he).2
    -- all pieces but the first have the blank of the separator in front
    have hFirst : declaration? (printed d) = some d :=
      declaration?_printed [] (by simp) (h d List.mem_cons_self).1
        (h d List.mem_cons_self).2
    have hOthers : ∀ e ∈ ds, declaration? (' ' :: printed e) = some e := fun e he =>
      declaration?_printed [' '] isBlank_space (h e (List.mem_cons_of_mem _ he)).1
        (h e (List.mem_cons_of_mem _ he)).2
    rw [declarations, toList_print, List.map_cons, pieces_intercalate hApart,
      List.filterMap_cons_some hFirst, List.map_map, List.filterMap_map]
    exact congrArg _ ((List.filterMap_congr hOthers).trans List.filterMap_some)

/-- What a piece of a text stands for is proper: the name ends before the first colon, and both
sides of it are trimmed. -/
theorem proper_of_declaration? {piece : List Char} (hPiece : ';' ∉ piece)
    (h : declaration? piece = some (name, value)) : IsName name ∧ IsText value := by
  rw [declaration?] at h
  split at h
  next => exact absurd h (by simp)
  next before after hCut =>
    dsimp only at h
    split at h
    next => exact absurd h (by simp)
    next hne =>
      obtain ⟨rfl, rfl⟩ := Prod.mk.inj (Option.some.inj h)
      obtain rfl := Text.cut_eq_append hCut
      have hBefore : ';' ∉ before := fun hMem => hPiece (by simp [hMem])
      have hAfter : ';' ∉ after := fun hMem => hPiece (by simp [hMem])
      constructor <;> constructor <;> simp only [String.toList_ofList]
      · simpa using hne
      · exact Text.trimmed_trim before
      · exact fun hMem => Text.not_mem_of_cut hCut (Text.mem_of_mem_trim hMem)
      · exact fun hMem => hBefore (Text.mem_of_mem_trim hMem)
      · exact Text.trimmed_trim after
      · exact fun hMem => hAfter (Text.mem_of_mem_trim hMem)

/-- Whatever a text is, its declarations are proper. -/
theorem proper_declarations (text : String) : Proper (declarations text) := by
  intro d hd
  obtain ⟨piece, hPiece, hSome⟩ := List.mem_filterMap.mp hd
  exact proper_of_declaration? (Text.not_mem_pieces hPiece) hSome

/-! ## The values of a property -/

/-- The values that are declared for a property, in order. -/
def values (property : String) (ds : List (String × String)) : List String :=
  (ds.filter (·.1 == property)).map (·.2)

@[simp] theorem values_cons (property : String) (d : String × String)
    (ds : List (String × String)) :
    values property (d :: ds) =
      if d.1 = property then d.2 :: values property ds else values property ds := by
  by_cases h : d.1 = property <;> simp [values, h]

theorem get?_eq_head? (property : String) (ds : List (String × String)) :
    Attributes.get? property ds = (values property ds).head? := by
  induction ds with
  | nil => rfl
  | cons d ds ih => by_cases h : d.1 = property <;> simp [Attributes.get?, h, ih]

/-- Only the first value of a property goes, and no value of another one. -/
theorem values_eraseFirst (property : String) (ds : List (String × String)) (other : String) :
    values other (eraseFirst property ds) =
      if property = other then (values other ds).tail else values other ds := by
  induction ds with
  | nil => simp [values, eraseFirst]
  | cons d ds ih =>
    by_cases hProperty : d.1 = property
    · rw [eraseFirst, if_pos (beq_iff_eq.mpr hProperty), values_cons, hProperty]
      split <;> rfl
    · rw [eraseFirst, if_neg (mt beq_iff_eq.mp hProperty), values_cons, values_cons, ih]
      by_cases hOther : d.1 = other
      · rw [if_pos hOther, if_pos hOther, if_neg fun hEq => hProperty (hOther.trans hEq.symm),
          if_neg fun hEq => hProperty (hOther.trans hEq.symm)]
      · rw [if_neg hOther, if_neg hOther]

theorem get?_eraseFirst (property : String) (ds : List (String × String)) (other : String) :
    Attributes.get? other (eraseFirst property ds) =
      if property = other then (values other ds)[1]? else Attributes.get? other ds := by
  rw [get?_eq_head?, values_eraseFirst]
  split
  · rw [List.head?_tail]
  · rw [get?_eq_head?]

theorem eraseFirst_eq_self (h : Attributes.get? property ds = none) :
    eraseFirst property ds = ds := by
  rw [Attributes.get?_eq_none_iff] at h
  induction ds with
  | nil => rfl
  | cons d ds ih =>
    obtain ⟨hne, hRest⟩ : property ≠ d.1 ∧ property ∉ ds.map (·.1) := by simpa using h
    rw [eraseFirst, if_neg (by simpa using hne.symm), ih hRest]

/-! ### Properties that are declared once -/

theorem nodup_set (h : (ds.map (·.1)).Nodup) (property : String) (value : Option String) :
    ((set property value ds).map (·.1)).Nodup := by
  cases value with
  | none => exact h.sublist ((eraseFirst_sublist property ds).map _)
  | some text =>
    rw [set, Attributes.map_fst_set]
    split
    next => exact h
    next hNew =>
      refine List.nodup_append.mpr ⟨h, by simp, fun other hOther last hLast => ?_⟩
      obtain rfl := List.mem_singleton.mp hLast
      rintro rfl
      exact hNew hOther

theorem length_values_le_one (h : (ds.map (·.1)).Nodup) (property : String) :
    (values property ds).length ≤ 1 := by
  induction ds with
  | nil => exact Nat.zero_le _
  | cons d ds ih =>
    obtain ⟨hNew, hRest⟩ := List.nodup_cons.mp h
    rw [values_cons]
    split
    next hEq =>
      have hNone : (values d.1 ds).head? = none := by
        rw [← get?_eq_head?, Attributes.get?_eq_none_iff]
        exact hNew
      rw [hEq] at hNone
      rw [List.head?_eq_none_iff.mp hNone]
      exact Nat.le_refl 1
    next => exact ih hRest

/-- Declarations are a map if no property is declared twice. -/
theorem get?_set (h : (ds.map (·.1)).Nodup) (property : String) (value : Option String)
    (other : String) :
    Attributes.get? other (set property value ds) =
      if property = other then value else Attributes.get? other ds := by
  cases value with
  | none =>
    rw [set, get?_eraseFirst, List.getElem?_eq_none (length_values_le_one h other)]
  | some text => rw [set, Attributes.get?_set]

end Style

/-! ## Declarations of an element -/

namespace Dom

variable {d : Dom} {n : NodeId} {property : String}

theorem styles_setAttribute (h : (d.label n).isElement = true) (text : String) :
    (d.setAttribute n "style" text).styles n = Style.declarations text := by
  rw [styles, attribute?_setAttribute h, if_pos rfl]
  rfl

theorem styles_removeAttribute (h : (d.label n).isElement = true) :
    (d.removeAttribute n "style").styles n = [] := by
  rw [styles, attribute?_removeAttribute h, if_pos rfl]
  rfl

theorem proper_styles (d : Dom) (n : NodeId) : Style.Proper (d.styles n) := by
  rw [styles]
  cases d.attribute? n "style" with
  | none => exact fun _ h => absurd h List.not_mem_nil
  | some text => exact Style.proper_declarations text

/-- Setting or clearing a style property changes the declarations of the element, and what is
printed is read again as it is. -/
theorem styles_setStyle (hElement : (d.label n).isElement = true) (hName : Style.IsName property)
    {value : Option String} (hValue : ∀ text ∈ value, Style.IsText text) :
    (d.setStyle n property value).styles n = Style.set property value (d.styles n) := by
  have hProper : Style.Proper (Style.set property value (d.styles n)) := by
    cases value with
    | none => exact (proper_styles d n).eraseFirst property
    | some text => exact (proper_styles d n).set hName (hValue text rfl)
  rw [setStyle]
  split
  next hNone =>
    obtain ⟨rfl, hAbsent⟩ : value = none ∧ d.style? n property = none := by simpa using hNone
    exact (Style.eraseFirst_eq_self hAbsent).symm
  next =>
    split
    next hNil => rw [styles_removeAttribute hElement, hNil]
    next => rw [styles_setAttribute hElement, Style.declarations_print hProper]

@[simp] theorem tag?_setStyle (d : Dom) (n m : NodeId) (property : String)
    (value : Option String) : ((d.setStyle n property value).label m).tag? = (d.label m).tag? := by
  rw [setStyle]
  split
  · rfl
  · split <;> exact tag?_withAttributes ..

/-- On any element, a property that is set has the value that was set. A property that is cleared
has the value of its second declaration, so nothing exactly if it was declared at most once. Every
other property is left as it is. -/
theorem style?_setStyle (hElement : (d.label n).isElement = true)
    (hName : Style.IsName property) :
    (∀ value, Style.IsText value →
      (d.setStyle n property (some value)).style? n property = some value) ∧
    (d.setStyle n property none).style? n property =
      (Style.values property (d.styles n))[1]? ∧
    ((d.setStyle n property none).style? n property = none ↔
      (Style.values property (d.styles n)).length ≤ 1) ∧
    ∀ value : Option String, (∀ text ∈ value, Style.IsText text) → ∀ other, other ≠ property →
      (d.setStyle n property value).style? n other = d.style? n other := by
  have hCleared : (d.setStyle n property none).style? n property =
      (Style.values property (d.styles n))[1]? := by
    rw [style?, styles_setStyle hElement hName (by simp), Style.set, Style.get?_eraseFirst,
      if_pos rfl]
  refine ⟨fun value hValue => ?_, hCleared, ?_, fun value hValue other hOther => ?_⟩
  · rw [style?, styles_setStyle hElement hName (by simpa using hValue), Style.set,
      Attributes.get?_set, if_pos rfl]
  · rw [hCleared, List.getElem?_eq_none_iff]
  · rw [style?, styles_setStyle hElement hName hValue, style?]
    cases value with
    | none => rw [Style.set, Style.get?_eraseFirst, if_neg hOther.symm]
    | some text => rw [Style.set, Attributes.get?_set, if_neg hOther.symm]

/-- A paragraph that declares one property twice. -/
def twiceStyled : Dom :=
  (({} : Dom).createElement "p").1.setAttribute 0 "style" "a: 1; a: 2"

/-- The paragraph whose property is set, and then cleared. -/
theorem style?_setStyle_twiceStyled :
    (twiceStyled.label 0).isElement = true ∧ Style.IsName "a" ∧ Style.IsText "3" ∧
      (twiceStyled.setStyle 0 "a" (some "3")).style? 0 "a" = some "3" ∧
      (twiceStyled.setStyle 0 "a" none).style? 0 "a" =
        (Style.values "a" (twiceStyled.styles 0))[1]? := by
  have hElement : (twiceStyled.label 0).isElement = true := rfl
  have hName : Style.IsName "a" := by decide
  have hText : Style.IsText "3" := by decide
  obtain ⟨hSet, hCleared, -⟩ := style?_setStyle hElement hName
  exact ⟨hElement, hName, hText, hSet "3" hText, hCleared⟩

/-- A cleared property can still have a value: the one of a second declaration. -/
theorem cleared_twiceStyled :
    ¬ ∀ (d : Dom) (n : NodeId) (property : String), (d.label n).isElement = true →
      Style.IsName property → (d.setStyle n property none).style? n property = none := by
  intro h
  exact absurd (h twiceStyled 0 "a" rfl (by decide)) (by decide)

end Dom

end LiveMarkup
