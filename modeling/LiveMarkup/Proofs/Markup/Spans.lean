import LiveMarkup.Markup.StartTag

/-!
# Where the start tags of a text stand

The scan of a markup text follows the text from character to character: what it has read and what
is left are the text, and its byte offsets are those of the characters. So the range of an attribute
begins with its name, and the range of a start tag with `<`.

* `Source.Stands`: what a text is from a byte offset on;
* `Source.Begins`: what a range of a text begins with;
* `StartTag.readAttributes_begins`: the ranges of the attributes of a tag begin with their names;
* `StartTag.begins_of_scan`: so they do in all start tags of a text.
-/

namespace LiveMarkup

namespace Source

theorem byteLength_append (xs ys : List Char) :
    byteLength (xs ++ ys) = byteLength xs + byteLength ys := by
  induction xs with
  | nil => simp [byteLength]
  | cons x xs ih =>
    simp only [byteLength, List.cons_append, List.foldr_cons] at ih ⊢
    omega

theorem byteLength_cons (c : Char) (cs : List Char) :
    byteLength (c :: cs) = c.utf8Size + byteLength cs :=
  rfl

theorem dropBytes_cons (n : Nat) (c : Char) (cs : List Char) :
    dropBytes (c.utf8Size + n) (c :: cs) = dropBytes n cs := by
  have hPos := c.utf8Size_pos
  obtain ⟨k, hk⟩ : ∃ k, c.utf8Size + n = k + 1 := ⟨c.utf8Size + n - 1, by omega⟩
  rw [hk, dropBytes, if_pos (by omega), show k + 1 - c.utf8Size = n by omega]

theorem takeBytes_cons (n : Nat) (c : Char) (cs : List Char) :
    takeBytes (c.utf8Size + n) (c :: cs) = (takeBytes n cs).map (c :: ·) := by
  have hPos := c.utf8Size_pos
  obtain ⟨k, hk⟩ : ∃ k, c.utf8Size + n = k + 1 := ⟨c.utf8Size + n - 1, by omega⟩
  rw [hk, takeBytes, if_pos (by omega), show k + 1 - c.utf8Size = n by omega]

theorem dropBytes_append (xs cs : List Char) : dropBytes (byteLength xs) (xs ++ cs) = some cs := by
  induction xs with
  | nil => cases cs <;> rfl
  | cons x xs ih => rw [byteLength_cons, List.cons_append, dropBytes_cons, ih]

theorem takeBytes_append (xs cs : List Char) : takeBytes (byteLength xs) (xs ++ cs) = some xs := by
  induction xs with
  | nil => cases cs <;> rfl
  | cons x xs ih => rw [byteLength_cons, List.cons_append, takeBytes_cons, ih, Option.map_some]

/-- A text is `cs` from a byte offset on. -/
def Stands (text : List Char) (offset : Nat) (cs : List Char) : Prop :=
  ∃ before, text = before ++ cs ∧ byteLength before = offset

/-- A range of a text begins with some characters. -/
def Begins (text : List Char) (start stop : Nat) (front : List Char) : Prop :=
  ∃ more rest, Stands text start (front ++ more ++ rest) ∧
    stop = start + byteLength (front ++ more)

variable {text : List Char} {offset : Nat}

theorem Stands.refl (text : List Char) : Stands text 0 text :=
  ⟨[], rfl, rfl⟩

theorem Stands.after (xs : List Char) {cs : List Char} (h : Stands text offset (xs ++ cs)) :
    Stands text (offset + byteLength xs) cs := by
  obtain ⟨before, rfl, rfl⟩ := h
  exact ⟨before ++ xs, by simp, byteLength_append before xs⟩

/-- The text of a range. -/
theorem Stands.slice? {text : String} (xs : List Char) {cs : List Char}
    (h : Stands text.toList offset (xs ++ cs)) :
    Source.slice? text offset (offset + byteLength xs) = some (String.ofList xs) := by
  obtain ⟨before, hText, rfl⟩ := h
  rw [Source.slice?, if_pos (Nat.le_add_right _ _), hText, dropBytes_append, Option.bind_some,
    Nat.add_sub_cancel_left, takeBytes_append, Option.map_some]

theorem Begins.slice? {text : String} {start stop : Nat} {front : List Char}
    (h : Begins text.toList start stop front) :
    ∃ more, Source.slice? text start stop = some (String.ofList (front ++ more)) := by
  obtain ⟨more, rest, hStands, rfl⟩ := h
  exact ⟨more, hStands.slice? _⟩

end Source

theorem Text.breakAt_append (p : List Char → Bool) (cs : List Char) :
    (Text.breakAt p cs).1 ++ (Text.breakAt p cs).2 = cs := by
  induction cs with
  | nil => rfl
  | cons c cs ih =>
    rw [Text.breakAt]
    split
    · rfl
    · exact congrArg (c :: ·) ih

namespace StartTag

open Source

/-! ## What the readers leave -/

theorem readValue_append (cs : List Char) : (readValue cs).1 ++ (readValue cs).2 = cs := by
  have hGap := List.takeWhile_append_dropWhile (p := isSpace) (l := cs)
  rw [readValue]
  split
  · rename_i hNil
    rwa [hNil] at hGap
  · rename_i c rest hRest
    rw [hRest] at hGap
    split
    · split
      · rename_i inner after hCut
        rw [Text.cut_eq_append hCut] at hGap
        simpa using hGap
      · simpa using hGap
    · rw [List.append_assoc, List.takeWhile_append_dropWhile, hGap]

theorem readAssignment_append (cs : List Char) :
    (readAssignment cs).1 ++ (readAssignment cs).2 = cs := by
  rw [readAssignment]
  split
  · rename_i rest hRest
    have hGap := List.takeWhile_append_dropWhile (p := isSpace) (l := cs)
    rw [hRest] at hGap
    simpa [readValue_append] using hGap
  · rfl

theorem attribute_append {cs rest : List Char} {c : Char} (h : cs.dropWhile isGap = c :: rest) :
    let name := c :: (Text.breakAt endsName rest).1
    let assignment := readAssignment (Text.breakAt endsName rest).2
    cs.takeWhile isGap ++ (name ++ assignment.1 ++ assignment.2) = cs := by
  intro name assignment
  have hName : name ++ assignment.1 ++ assignment.2 = c :: rest := by
    rw [List.append_assoc, readAssignment_append]
    exact congrArg (c :: ·) (Text.breakAt_append endsName rest)
  rw [hName, ← h, List.takeWhile_append_dropWhile]

/-- The attributes of a tag end at `>` or with the text. -/
theorem readAttributes_rest (cs : List Char) (offset : Nat) :
    (readAttributes cs offset).2.rest = [] ∨
      ∃ after, (readAttributes cs offset).2.rest = '>' :: after := by
  fun_induction readAttributes cs offset with
  | case1 => exact .inl rfl
  | case2 cs offset start c rest h hc => exact .inr ⟨rest, by rw [beq_iff_eq.mp hc]⟩
  | case3 cs offset start c rest h hc hlt name assignment stop others ih => exact ih

theorem readAttributes_append (cs : List Char) (offset : Nat) :
    ∃ taken, taken ++ (readAttributes cs offset).2.rest = cs ∧
      (readAttributes cs offset).2.offset = offset + byteLength taken := by
  fun_induction readAttributes cs offset with
  | case1 cs offset start h =>
    refine ⟨cs.takeWhile isGap, ?_, rfl⟩
    rw [← h, List.takeWhile_append_dropWhile]
  | case2 cs offset start c rest h hc =>
    refine ⟨cs.takeWhile isGap, ?_, rfl⟩
    rw [← h, List.takeWhile_append_dropWhile]
  | case3 cs offset start c rest h hc hlt name assignment stop others ih =>
    obtain ⟨taken, hTaken, hOffset⟩ := ih
    refine ⟨cs.takeWhile isGap ++ (name ++ assignment.1) ++ taken, ?_, ?_⟩
    · have hAll : cs.takeWhile isGap ++ (name ++ assignment.1 ++ assignment.2) = cs :=
        attribute_append h
      rw [← hTaken, ← List.append_assoc, ← List.append_assoc] at hAll
      exact hAll
    · rw [hOffset, byteLength_append, byteLength_append]
      omega

/-- The range of each attribute of a tag begins with its name. -/
theorem readAttributes_begins {text cs : List Char} {offset : Nat} (h : Stands text offset cs) :
    ∀ a ∈ (readAttributes cs offset).1, Begins text a.start a.stop a.name.toList := by
  fun_induction readAttributes cs offset with
  | case1 => simp
  | case2 => simp
  | case3 cs offset start c rest hDrop hc hlt name assignment stop others ih =>
    have hAll : cs.takeWhile isGap ++ (name ++ assignment.1 ++ assignment.2) = cs :=
      attribute_append hDrop
    rw [← hAll] at h
    have hName : Stands text start (name ++ assignment.1 ++ assignment.2) := h.after _
    intro a ha
    rcases List.mem_cons.mp ha with rfl | ha
    · refine ⟨assignment.1, assignment.2, ?_, ?_⟩ <;> rw [String.toList_ofList]
      exact hName
    · exact ih (hName.after _) a ha

/-! ## The scan -/

theorem splitRawText_append (tag : String) (cs : List Char) :
    (splitRawText tag cs).1 ++ (splitRawText tag cs).2 = cs := by
  rw [splitRawText]
  split
  · exact Text.breakAt_append _ cs
  · rfl

theorem skipComment_append (body : List Char) : ∃ taken, taken ++ (skipComment body).1 = body ∧
    (skipComment body).2 = byteLength taken := by
  rw [skipComment]
  split
  · rename_i inner after hCut
    refine ⟨inner ++ ['-', '-', '>'], (Text.cut_eq_append hCut).symm, ?_⟩
    rw [byteLength_append]
    rfl
  · exact ⟨body, List.append_nil body, rfl⟩

/-- The start tags of a text and their attributes stand where the scan says that they do. -/
theorem scanFrom_begins {text cs : List Char} {offset : Nat} (h : Stands text offset cs) :
    ∀ t ∈ scanFrom cs offset, Begins text t.start t.stop ['<'] ∧
      ∀ a ∈ t.attributes, Begins text a.start a.stop a.name.toList := by
  fun_induction scanFrom cs offset with
  | case1 => simp
  | case2 offset rest body hBody ih =>
    obtain ⟨taken, hTaken, hLength⟩ := skipComment_append body
    have hRest : rest = ['!', '-', '-'] ++ body := Text.after?_eq_append hBody
    rw [hRest, ← hTaken] at h
    have hAfter : Stands text (offset + byteLength ('<' :: ['!', '-', '-'] ++ taken))
        (skipComment body).1 := Stands.after _ (by simpa using h)
    rw [byteLength_append, ← hLength, ← Nat.add_assoc] at hAfter
    exact ih hAfter
  | case3 offset rest hBody hAlpha name tag attributes content ih =>
    have hName : name ++ rest.dropWhile inTagName = rest := List.takeWhile_append_dropWhile
    obtain ⟨taken, hTaken, hOffset⟩ := readAttributes_append (rest.dropWhile inTagName)
      (offset + 1 + byteLength name)
    have hAttributes : Stands text (offset + 1 + byteLength name) (rest.dropWhile inTagName) := by
      rw [← hName] at h
      exact (Stands.after ['<'] h).after _
    have hEnd : Stands text attributes.2.offset attributes.2.rest := by
      rw [← hTaken] at hAttributes
      rw [hOffset]
      exact hAttributes.after _
    have hContent : content.1 ++ content.2 = attributes.2.rest.tail := splitRawText_append _ _
    intro t ht
    rcases List.mem_cons.mp ht with rfl | ht
    · refine ⟨⟨name ++ taken, attributes.2.rest, ?_, ?_⟩, readAttributes_begins hAttributes⟩
      · rw [← hName, ← hTaken] at h
        simpa using h
      · rw [hOffset, byteLength_append, byteLength_append, ← Nat.add_assoc, ← Nat.add_assoc]
        rfl
    · -- A tag that is not closed goes to the end of the text, where nothing is left to scan.
      rcases readAttributes_rest (rest.dropWhile inTagName) (offset + 1 + byteLength name) with
        hNil | ⟨after, hAfter⟩
      · have hNone : content.2 = [] := by
          rw [hNil] at hContent
          exact (List.append_eq_nil_iff.mp hContent).2
        rw [hNone, scanFrom] at ht
        cases ht
      · rw [hAfter] at hContent hEnd
        have hTail : Stands text (attributes.2.offset + 1) (content.1 ++ content.2) := by
          rw [hContent]
          exact Stands.after ['>'] hEnd
        exact ih (hTail.after _) t ht
  | case4 offset rest hBody hAlpha ih => exact ih (Stands.after ['<'] h)
  | case5 offset c rest hc ih => exact ih (Stands.after [c] h)

/-- In each start tag of a text the range of an attribute begins with its name, and that of the tag
with `<`. -/
theorem begins_of_scan {markup : String} {t : StartTag} (ht : t ∈ scan markup) :
    Begins markup.toList t.start t.stop ['<'] ∧
      ∀ a ∈ t.attributes, Begins markup.toList a.start a.stop a.name.toList :=
  scanFrom_begins (.refl markup.toList) t ht

end StartTag

end LiveMarkup
