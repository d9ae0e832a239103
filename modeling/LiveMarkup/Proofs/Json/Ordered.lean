import LiveMarkup.Json.Record
import LiveMarkup.Proofs.Json.Scalars

/-!
# Values in order

A value is written without blanks, and reading takes the shortest way through its text: what is
found is the value itself, with the fields of its objects in the order in which they stand. The
only way to fail is to be nested too deep.

What is read from a text is put in order: the fields of every object stand in increasing order of
their names. Putting it in order again changes nothing, and its integers are those of 64 bits.

* `Value.numbers`: the numbers in a value;
* `Json.readValue_chars`: reading the text of a value, whatever follows it;
* `Json.read?_text`: the whole text: a value is read back if and only if it nests at most 127 deep;
* `Fields.ofList_of_sorted`: fields that are in order stay as they are;
* `Value.ordered_ordered`: order is reached in one step;
* `Json.fits_of_read?`: integers that are read have 64 bits.
-/

/-! ## Values are read as they were written -/

namespace LiveMarkup

namespace Value

mutual

/-- The numbers in a value. -/
def numbers : Value → List Number
  | number n => [n]
  | array vs => numbersOfItems vs
  | object fields => numbersOfFields fields
  | _ => []

def numbersOfItems : List Value → List Number
  | [] => []
  | v :: vs => v.numbers ++ numbersOfItems vs

def numbersOfFields : List (String × Value) → List Number
  | [] => []
  | (_, v) :: rest => v.numbers ++ numbersOfFields rest

end

/-- All numbers in a value are faithful. -/
def Faithful (v : Value) : Prop :=
  ∀ n ∈ v.numbers, n.Faithful

theorem numbersOfItems_eq (vs : List Value) : numbersOfItems vs = vs.flatMap numbers := by
  induction vs with
  | nil => rfl
  | cons v vs ih =>
    rw [List.flatMap_cons, ← ih]
    rfl

theorem numbersOfFields_eq (fields : List (String × Value)) :
    numbersOfFields fields = fields.flatMap fun x => x.2.numbers := by
  induction fields with
  | nil => rfl
  | cons x fields ih =>
    rw [List.flatMap_cons, ← ih]
    rfl

theorem faithful_array {vs : List Value} : (array vs).Faithful ↔ ∀ v ∈ vs, v.Faithful := by
  change (∀ n ∈ numbersOfItems vs, n.Faithful) ↔ _
  simp only [numbersOfItems_eq, List.mem_flatMap]
  constructor
  · intro h v hv n hn
    exact h n ⟨v, hv, hn⟩
  · rintro h n ⟨v, hv, hn⟩
    exact h v hv n hn

theorem faithful_object {fields : List (String × Value)} :
    (object fields).Faithful ↔ ∀ x ∈ fields, x.2.Faithful := by
  change (∀ n ∈ numbersOfFields fields, n.Faithful) ↔ _
  simp only [numbersOfFields_eq, List.mem_flatMap]
  constructor
  · intro h x hx n hn
    exact h n ⟨x, hx, hn⟩
  · rintro h n ⟨x, hx, hn⟩
    exact h x hx n hn

theorem faithful_number {n : Number} : (number n).Faithful ↔ n.Faithful := by
  simp [Faithful, numbers]

theorem faithful_string (s : String) : (string s).Faithful := by
  intro n h
  cases h

/-! ### Depth -/

theorem depth_lt_of_mem_items {vs : List Value} {v : Value} (h : v ∈ vs) :
    v.depth < (array vs).depth := by
  apply Nat.lt_succ_of_le
  induction vs with
  | nil => cases h
  | cons w vs ih =>
    change v.depth ≤ max w.depth (depth.itemDepth vs)
    rcases List.mem_cons.mp h with rfl | h
    · exact Nat.le_max_left _ _
    · exact Nat.le_trans (ih h) (Nat.le_max_right _ _)

theorem depth_lt_of_mem_fields {fields : List (String × Value)} {x : String × Value}
    (h : x ∈ fields) : x.2.depth < (object fields).depth := by
  apply Nat.lt_succ_of_le
  induction fields with
  | nil => cases h
  | cons y fields ih =>
    change x.2.depth ≤ max y.2.depth (depth.fieldDepth fields)
    rcases List.mem_cons.mp h with rfl | h
    · exact Nat.le_max_left _ _
    · exact Nat.le_trans (ih h) (Nat.le_max_right _ _)

end Value

namespace Json

theorem head_chars {v : Value} (h : v.Faithful) :
    ∃ c rest, v.chars = c :: rest ∧ isJsonBlank c = false ∧ c ≠ ']' := by
  cases v with
  | null => exact ⟨_, _, rfl, rfl, by decide⟩
  | bool b => cases b <;> exact ⟨_, _, rfl, rfl, by decide⟩
  | string s => exact ⟨_, _, rfl, rfl, by decide⟩
  | array vs => exact ⟨_, _, rfl, rfl, by decide⟩
  | object fields => exact ⟨_, _, rfl, rfl, by decide⟩
  | number n =>
    have hRead := readNumber_text (Value.faithful_number.mp h) follows_nil
    rw [List.append_nil] at hRead
    obtain ⟨c, rest, hText, hHead⟩ := head_of_readNumber hRead
    refine ⟨c, rest, hText, ?_⟩
    rcases hHead with rfl | hDigit
    · decide
    · refine ⟨not_blank_of_isDigit hDigit, ?_⟩
      rintro rfl
      exact absurd hDigit (by decide)

theorem follows_itemChars (vs : List Value) (rest : List Char) :
    Follows (Value.itemChars false vs ++ ']' :: rest) := by
  cases vs <;> simp [Value.itemChars, follows_cons]

theorem follows_fieldChars (fields : List (String × Value)) (rest : List Char) :
    Follows (Value.fieldChars false fields ++ '\x7d' :: rest) := by
  cases fields <;> simp [Value.fieldChars, follows_cons]

theorem readValue_number {n d : Nat} {cs rest : List Char} {x : Number}
    (h : readNumber cs = some (x, rest)) : readValue (n + 1) d cs = some (.number x, rest) := by
  obtain ⟨c, cs, rfl, hHead⟩ := head_of_readNumber h
  have hBlank : isJsonBlank c = false := by
    rcases hHead with rfl | hDigit
    · rfl
    · exact not_blank_of_isDigit hDigit
  have hNe : ∀ d ∈ ['n', 't', 'f', '"', '[', '\x7b'], c ≠ d := by
    rcases hHead with rfl | hDigit
    · simp
    · intro d hd hEq
      have hNone : ∀ d ∈ ['n', 't', 'f', '"', '[', '\x7b'], d.isDigit = false := by simp
      rw [hEq, hNone d hd] at hDigit
      cases hDigit
  have hSkip : skipBlanks (c :: cs) = c :: cs := by simp [skipBlanks, hBlank]
  rw [readValue, hSkip]
  split
  case h_7 => simp [h]
  all_goals
    rename_i hEq
    exact absurd (List.cons.inj hEq).1 (hNe _ (by decide))

theorem quote_append (s : String) (rest : List Char) :
    quote s ++ rest = '"' :: (s.toList.flatMap escapeChar ++ '"' :: rest) := by
  simp [quote]

/-- A written string is read back. -/
theorem readString_text (s : String) (rest : List Char) :
    readString ((s.toList.flatMap escapeChar ++ '"' :: rest).length + 1)
      (s.toList.flatMap escapeChar ++ '"' :: rest) = some (s.toList, rest) := by
  have hLength := length_le_flatMap_escapeChar s.toList
  apply readString_quote
  simp only [List.length_append, List.length_cons]
  omega

/-! ### The first character tells the kind -/

theorem readValue_string {n d : Nat} {cs s rest : List Char}
    (h : readString (cs.length + 1) cs = some (s, rest)) :
    readValue (n + 1) d ('"' :: cs) = some (.string (String.ofList s), rest) := by
  change (readString (cs.length + 1) cs).bind _ = _
  rw [h]
  rfl

theorem readValue_emptyArray (n d : Nat) (rest : List Char) :
    readValue (n + 1) d ('[' :: ']' :: rest) = if d ≤ 1 then none else some (.array [], rest) :=
  rfl

theorem readValue_array {n d : Nat} {c : Char} {cs : List Char} (hBlank : isJsonBlank c = false)
    (hEnd : c ≠ ']') :
    readValue (n + 1) d ('[' :: c :: cs) =
      if d ≤ 1 then none else (readItems n (d - 1) (c :: cs)).map fun x => (.array x.1, x.2) := by
  have hSkip : skipBlanks (c :: cs) = c :: cs := by simp [skipBlanks, hBlank]
  have hOpen : skipBlanks ('[' :: c :: cs) = '[' :: c :: cs := by simp [skipBlanks, isJsonBlank]
  cases hItems : readItems n (d - 1) (c :: cs) with
  | none => simp [readValue, hOpen, hSkip, hEnd, hItems]
  | some items => simp [readValue, hOpen, hSkip, hEnd, hItems]

theorem readValue_emptyObject (n d : Nat) (rest : List Char) :
    readValue (n + 1) d ('\x7b' :: '\x7d' :: rest) =
      if d ≤ 1 then none else some (.object [], rest) :=
  rfl

theorem readValue_object (n d : Nat) (cs : List Char) :
    readValue (n + 1) d ('\x7b' :: '"' :: cs) =
      if d ≤ 1 then none else (readFields n (d - 1) ('"' :: cs)).map fun x => (.object x.1, x.2) := by
  rw [Option.map_eq_bind]
  rfl

/-! ### What stands after an item or a field -/

section Steps

variable {n d : Nat} {cs rest : List Char} {v : Value}

theorem readItems_none (h : readValue n d cs = none) : readItems (n + 1) d cs = none := by
  change (readValue n d cs).bind _ = none
  rw [h]
  rfl

theorem readItems_last (h : readValue n d cs = some (v, ']' :: rest)) :
    readItems (n + 1) d cs = some ([v], rest) := by
  change (readValue n d cs).bind _ = _
  rw [h]
  rfl

theorem readItems_more (h : readValue n d cs = some (v, ',' :: rest)) :
    readItems (n + 1) d cs = (readItems n d rest).map fun x => (v :: x.1, x.2) := by
  change (readValue n d cs).bind _ = _
  rw [h, Option.map_eq_bind]
  rfl

variable {name : String}

theorem readFields_none (h : readValue n d cs = none) :
    readFields (n + 1) d (quote name ++ ':' :: cs) = none := by
  rw [quote_append]
  change (readString (_ + 1) _).bind _ = _
  rw [readString_text]
  change (readValue n d cs).bind _ = _
  rw [h]
  rfl

theorem readFields_last (h : readValue n d cs = some (v, '\x7d' :: rest)) :
    readFields (n + 1) d (quote name ++ ':' :: cs) = some ([(name, v)], rest) := by
  rw [quote_append]
  change (readString (_ + 1) _).bind _ = _
  rw [readString_text]
  change (readValue n d cs).bind _ = _
  rw [h]
  simp only [Option.bind_some, String.ofList_toList]
  rfl

theorem readFields_more (h : readValue n d cs = some (v, ',' :: rest)) :
    readFields (n + 1) d (quote name ++ ':' :: cs) =
      (readFields n d rest).map fun x => ((name, v) :: x.1, x.2) := by
  rw [quote_append]
  change (readString (_ + 1) _).bind _ = _
  rw [readString_text]
  change (readValue n d cs).bind _ = _
  rw [h, Option.map_eq_bind]
  simp only [Option.bind_some, String.ofList_toList]
  rfl

end Steps

/-! ### Texts of values -/

theorem itemChars_false_cons (v : Value) (vs : List Value) :
    Value.itemChars false (v :: vs) = ',' :: Value.itemChars true (v :: vs) :=
  rfl

theorem fieldChars_false_cons (x : String × Value) (fields : List (String × Value)) :
    Value.fieldChars false (x :: fields) = ',' :: Value.fieldChars true (x :: fields) :=
  rfl

mutual

/-- The text of a value is read as the value, unless it nests too deep. -/
theorem readValue_chars : ∀ (v : Value) (n d : Nat) (rest : List Char), v.Faithful →
    2 * v.chars.length ≤ n → 0 < d → Follows rest →
    readValue n d (v.chars ++ rest) = if v.depth < d then some (v, rest) else none
  | v, 0, d, rest, h, hFuel, _, _ => by
    obtain ⟨c, cs, hText, -⟩ := head_chars h
    simp [hText] at hFuel
  | .null, n + 1, d, rest, _, _, hDepth, _ => by
    simp [readValue, Value.chars, skipBlanks, isJsonBlank, Value.depth, hDepth]
  | .bool b, n + 1, d, rest, _, _, hDepth, _ => by
    cases b <;> simp [readValue, Value.chars, skipBlanks, isJsonBlank, Value.depth, hDepth]
  | .number x, n + 1, d, rest, h, _, hDepth, hRest => by
    have hRead := readNumber_text (Value.faithful_number.mp h) hRest
    rw [Value.chars, readValue_number hRead]
    simp [Value.depth, hDepth]
  | .string s, n + 1, d, rest, _, _, hDepth, _ => by
    rw [Value.chars, quote_append, readValue_string (readString_text s rest)]
    simp [Value.depth, hDepth]
  | .array [], n + 1, d, rest, _, _, _, _ => by
    change readValue (n + 1) d ('[' :: ']' :: rest) = _
    rw [readValue_emptyArray]
    by_cases hDeep : d ≤ 1
    · rw [if_pos hDeep, if_neg (by simp [Value.depth, Value.depth.itemDepth]; omega)]
    · rw [if_neg hDeep, if_pos (by simp [Value.depth, Value.depth.itemDepth]; omega)]
  | .array (v :: vs), n + 1, d, rest, h, hFuel, hDepth, _ => by
    have hAll := Value.faithful_array.mp h
    have hText : (Value.array (v :: vs)).chars ++ rest =
        '[' :: (Value.itemChars true (v :: vs) ++ ']' :: rest) := by
      simp [Value.chars]
    have hItems := readItems_chars (v :: vs) n (d - 1) rest (by simp) hAll
      (by simp only [Value.chars, List.length_append, List.length_cons] at hFuel; omega)
    obtain ⟨c, cs, hHead, hBlank, hEnd⟩ := head_chars (hAll v (by simp))
    have hStart : Value.itemChars true (v :: vs) ++ ']' :: rest =
        c :: (cs ++ Value.itemChars false vs ++ ']' :: rest) := by
      simp [Value.itemChars, hHead]
    rw [hText, hStart, readValue_array hBlank hEnd, ← hStart, Value.depth]
    by_cases hDeep : d ≤ 1
    · rw [if_pos hDeep, if_neg (by omega)]
    · rw [if_neg hDeep, hItems (by omega)]
      by_cases hLess : Value.depth.itemDepth (v :: vs) < d - 1
      · rw [if_pos hLess, if_pos (by omega)]
        rfl
      · rw [if_neg hLess, if_neg (by omega)]
        rfl
  | .object [], n + 1, d, rest, _, _, _, _ => by
    change readValue (n + 1) d ('\x7b' :: '\x7d' :: rest) = _
    rw [readValue_emptyObject]
    by_cases hDeep : d ≤ 1
    · rw [if_pos hDeep, if_neg (by simp [Value.depth, Value.depth.fieldDepth]; omega)]
    · rw [if_neg hDeep, if_pos (by simp [Value.depth, Value.depth.fieldDepth]; omega)]
  | .object ((name, v) :: fields), n + 1, d, rest, h, hFuel, hDepth, _ => by
    have hAll := Value.faithful_object.mp h
    have hText : (Value.object ((name, v) :: fields)).chars ++ rest =
        '\x7b' :: (Value.fieldChars true ((name, v) :: fields) ++ '\x7d' :: rest) := by
      simp [Value.chars]
    have hFields := readFields_chars ((name, v) :: fields) n (d - 1) rest (by simp) hAll
      (by simp only [Value.chars, List.length_append, List.length_cons] at hFuel; omega)
    have hStart : ∃ cs, Value.fieldChars true ((name, v) :: fields) ++ '\x7d' :: rest = '"' :: cs := by
      simp [Value.fieldChars, quote]
    obtain ⟨cs, hStart⟩ := hStart
    rw [hText, hStart, readValue_object, ← hStart, Value.depth]
    by_cases hDeep : d ≤ 1
    · rw [if_pos hDeep, if_neg (by omega)]
    · rw [if_neg hDeep, hFields (by omega)]
      by_cases hLess : Value.depth.fieldDepth ((name, v) :: fields) < d - 1
      · rw [if_pos hLess, if_pos (by omega)]
        rfl
      · rw [if_neg hLess, if_neg (by omega)]
        rfl

/-- The items of an array are read up to its end. -/
theorem readItems_chars : ∀ (vs : List Value) (n d : Nat) (rest : List Char), vs ≠ [] →
    (∀ v ∈ vs, v.Faithful) → 2 * (Value.itemChars true vs).length + 1 ≤ n → 0 < d →
    readItems n d (Value.itemChars true vs ++ ']' :: rest) =
      if Value.depth.itemDepth vs < d then some (vs, rest) else none
  | [], _, _, _, hNe, _, _, _ => absurd rfl hNe
  | v :: vs, 0, _, _, _, _, hFuel, _ => by simp at hFuel
  | v :: vs, n + 1, d, rest, _, h, hFuel, hDepth => by
    have hLength : (Value.itemChars true (v :: vs)).length =
        v.chars.length + (Value.itemChars false vs).length := by
      simp [Value.itemChars]
    have hText : Value.itemChars true (v :: vs) ++ ']' :: rest =
        v.chars ++ (Value.itemChars false vs ++ ']' :: rest) := by
      simp [Value.itemChars]
    have hValue := readValue_chars v n d (Value.itemChars false vs ++ ']' :: rest) (h v (by simp))
      (by omega) hDepth (follows_itemChars vs rest)
    rw [hText, Value.depth.itemDepth]
    by_cases hDeep : v.depth < d
    · rw [if_pos hDeep] at hValue
      cases vs with
      | nil =>
        rw [readItems_last hValue, Value.depth.itemDepth, if_pos (by omega)]
      | cons w vs =>
        rw [itemChars_false_cons] at hLength
        rw [itemChars_false_cons, List.cons_append] at hValue ⊢
        have hMore := readItems_chars (w :: vs) n d rest (by simp)
          (fun x hx => h x (List.mem_cons_of_mem _ hx))
          (by simp only [List.length_cons] at hLength ⊢; omega) hDepth
        rw [readItems_more hValue, hMore]
        by_cases hLess : Value.depth.itemDepth (w :: vs) < d
        · rw [if_pos hLess, if_pos (by omega)]
          rfl
        · rw [if_neg hLess, if_neg (by omega)]
          rfl
    · rw [if_neg hDeep] at hValue
      rw [readItems_none hValue, if_neg (by omega)]

/-- The fields of an object are read up to its end. -/
theorem readFields_chars : ∀ (fields : List (String × Value)) (n d : Nat) (rest : List Char),
    fields ≠ [] → (∀ x ∈ fields, x.2.Faithful) →
    2 * (Value.fieldChars true fields).length + 1 ≤ n → 0 < d →
    readFields n d (Value.fieldChars true fields ++ '\x7d' :: rest) =
      if Value.depth.fieldDepth fields < d then some (fields, rest) else none
  | [], _, _, _, hNe, _, _, _ => absurd rfl hNe
  | (name, v) :: fields, 0, _, _, _, _, hFuel, _ => by simp at hFuel
  | (name, v) :: fields, n + 1, d, rest, _, h, hFuel, hDepth => by
    have hLength : (Value.fieldChars true ((name, v) :: fields)).length =
        (quote name).length + 1 + v.chars.length + (Value.fieldChars false fields).length := by
      simp [Value.fieldChars]
      omega
    have hText : Value.fieldChars true ((name, v) :: fields) ++ '\x7d' :: rest =
        quote name ++ ':' :: (v.chars ++ (Value.fieldChars false fields ++ '\x7d' :: rest)) := by
      simp [Value.fieldChars]
    have hValue := readValue_chars v n d (Value.fieldChars false fields ++ '\x7d' :: rest)
      (h _ (List.mem_cons_self ..)) (by omega) hDepth (follows_fieldChars fields rest)
    rw [hText, Value.depth.fieldDepth]
    by_cases hDeep : v.depth < d
    · rw [if_pos hDeep] at hValue
      cases fields with
      | nil =>
        rw [readFields_last hValue, Value.depth.fieldDepth, if_pos (by omega)]
      | cons x fields =>
        rw [fieldChars_false_cons] at hLength
        rw [fieldChars_false_cons, List.cons_append] at hValue ⊢
        have hMore := readFields_chars (x :: fields) n d rest (by simp)
          (fun y hy => h y (List.mem_cons_of_mem _ hy))
          (by simp only [List.length_cons] at hLength ⊢; omega) hDepth
        rw [readFields_more hValue, hMore]
        by_cases hLess : Value.depth.fieldDepth (x :: fields) < d
        · rw [if_pos hLess, if_pos (by omega)]
          rfl
        · rw [if_neg hLess, if_neg (by omega)]
          rfl
    · rw [if_neg hDeep] at hValue
      rw [readFields_none hValue, if_neg (by omega)]

end

/-- A value is read back if and only if its arrays and objects nest at most 127 deep. -/
theorem read?_text {v : Value} (h : v.Faithful) :
    read? v.text = if v.depth ≤ 127 then some v else none := by
  have hRead := readValue_chars v (2 * v.chars.length + 2) 128 [] h (by omega) (by decide)
    follows_nil
  rw [List.append_nil] at hRead
  simp only [read?, Value.text, String.toList_ofList, hRead]
  by_cases hDeep : v.depth ≤ 127
  · rw [if_pos hDeep, if_pos (by omega)]
    rfl
  · rw [if_neg hDeep, if_neg (by omega)]

end Json

end LiveMarkup

namespace LiveMarkup

theorem Text.lt_of_not_lt_of_ne {a b : String} (h : ¬ a < b) (hNe : a ≠ b) : b < a := by
  by_contra hNot
  exact hNe (String.le_antisymm (String.not_lt.mp hNot) (String.not_lt.mp h))

namespace Fields

variable {α : Type} {name : String} {value : α} {fields : List (String × α)}

/-- The names of fields increase. -/
def Sorted (fields : List (String × α)) : Prop :=
  fields.Pairwise fun x y => x.1 < y.1

theorem mem_insert {x : String × α} (h : x ∈ insert name value fields) :
    x = (name, value) ∨ x ∈ fields := by
  induction fields with
  | nil => exact .inl (List.mem_singleton.mp h)
  | cons y fields ih =>
    rw [insert] at h
    split at h
    · exact List.mem_cons.mp h
    · split at h
      · rcases List.mem_cons.mp h with h | h
        · exact .inl h
        · exact .inr (List.mem_cons_of_mem _ h)
      · rcases List.mem_cons.mp h with rfl | h
        · exact .inr List.mem_cons_self
        · rcases ih h with h | h
          · exact .inl h
          · exact .inr (List.mem_cons_of_mem _ h)

theorem mem_of_get? (h : get? name fields = some value) : (name, value) ∈ fields := by
  induction fields with
  | nil => cases h
  | cons x fields ih =>
    rw [get?] at h
    split at h
    · rename_i hEq
      obtain rfl := eq_of_beq hEq
      obtain rfl := Option.some.inj h
      exact List.mem_cons_self
    · exact List.mem_cons_of_mem _ (ih h)

theorem sorted_insert (h : Sorted fields) : Sorted (insert name value fields) := by
  induction fields with
  | nil => exact List.pairwise_singleton _ _
  | cons y fields ih =>
    obtain ⟨other, old⟩ := y
    obtain ⟨hFirst, hRest⟩ := List.pairwise_cons.mp h
    rw [insert]
    split
    · rename_i hLt
      apply List.pairwise_cons.mpr ⟨?_, h⟩
      intro x hx
      rcases List.mem_cons.mp hx with rfl | hx
      · exact hLt
      · exact String.lt_trans hLt (hFirst x hx)
    · rename_i hNot
      split
      · rename_i hEq
        obtain rfl := eq_of_beq hEq
        exact List.pairwise_cons.mpr ⟨hFirst, hRest⟩
      · rename_i hNe
        have hLt : other < name := Text.lt_of_not_lt_of_ne hNot (by simpa using hNe)
        apply List.pairwise_cons.mpr ⟨?_, ih hRest⟩
        intro x hx
        rcases mem_insert hx with rfl | hx
        · exact hLt
        · exact hFirst x hx

theorem sorted_ofList (fields : List (String × α)) : Sorted (ofList fields) := by
  have h : ∀ acc : List (String × α), Sorted acc →
      Sorted (fields.foldl (fun acc x => insert x.1 x.2 acc) acc) := by
    induction fields with
    | nil =>
      intro acc hAcc
      exact hAcc
    | cons x fields ih =>
      intro acc hAcc
      exact ih _ (sorted_insert hAcc)
  exact h [] List.Pairwise.nil

theorem mem_ofList {x : String × α} (h : x ∈ ofList fields) : x ∈ fields := by
  have hAll : ∀ acc : List (String × α), x ∈ fields.foldl (fun acc x => insert x.1 x.2 acc) acc →
      x ∈ acc ∨ x ∈ fields := by
    clear h
    induction fields with
    | nil =>
      intro acc hx
      exact .inl hx
    | cons y fields ih =>
      intro acc hx
      rcases ih _ hx with hx | hx
      · rcases mem_insert hx with rfl | hx
        · exact .inr List.mem_cons_self
        · exact .inl hx
      · exact .inr (List.mem_cons_of_mem _ hx)
  rcases hAll [] h with hx | hx
  · cases hx
  · exact hx

theorem insert_of_last (h : ∀ x ∈ fields, x.1 < name) :
    insert name value fields = fields ++ [(name, value)] := by
  induction fields with
  | nil => rfl
  | cons x fields ih =>
    obtain ⟨other, old⟩ := x
    have hLt : other < name := h (other, old) List.mem_cons_self
    have hNe : ¬ (name == other) = true := by
      intro hEq
      rw [eq_of_beq hEq] at hLt
      exact String.lt_irrefl _ hLt
    rw [insert, if_neg (String.lt_asymm hLt), if_neg hNe,
      ih fun y hy => h y (List.mem_cons_of_mem _ hy)]
    rfl

/-- Fields that are in order stay as they are. -/
theorem ofList_of_sorted (h : Sorted fields) : ofList fields = fields := by
  have hAll : ∀ acc : List (String × α), Sorted (acc ++ fields) →
      fields.foldl (fun acc x => insert x.1 x.2 acc) acc = acc ++ fields := by
    clear h
    induction fields with
    | nil =>
      intro acc _
      simp
    | cons x fields ih =>
      intro acc hAcc
      have hLast : ∀ y ∈ acc, y.1 < x.1 := by
        intro y hy
        exact (List.pairwise_append.mp hAcc).2.2 y hy x List.mem_cons_self
      rw [List.foldl_cons, insert_of_last hLast, ih _ (by simpa using hAcc)]
      simp
  exact hAll [] h

end Fields

namespace Value

theorem orderedFields_eq (fields : List (String × Value)) :
    orderedFields fields = fields.map fun x => (x.1, x.2.ordered) := by
  induction fields with
  | nil => rfl
  | cons x fields ih => rw [orderedFields, ih, List.map_cons]

theorem orderedFields_of_fixed {fields : List (String × Value)}
    (h : ∀ x ∈ fields, x.2.ordered = x.2) : orderedFields fields = fields := by
  have hMap : fields.map (fun x => (x.1, x.2.ordered)) = fields.map id := by
    apply List.map_congr_left
    intro x hx
    rw [h x hx]
    rfl
  rw [orderedFields_eq, hMap, List.map_id]

mutual

/-- Order is reached in one step. -/
theorem ordered_ordered : ∀ v : Value, v.ordered.ordered = v.ordered
  | null => rfl
  | bool _ => rfl
  | number _ => rfl
  | string _ => rfl
  | array vs => by
    simp only [ordered]
    rw [orderedItems_orderedItems vs]
  | object fields => by
    have hFixed : ∀ x ∈ Fields.ofList (orderedFields fields), x.2.ordered = x.2 := by
      intro x hx
      exact ordered_of_mem fields x (Fields.mem_ofList hx)
    simp only [ordered]
    rw [orderedFields_of_fixed hFixed, Fields.ofList_of_sorted (Fields.sorted_ofList _)]

theorem orderedItems_orderedItems : ∀ vs : List Value,
    orderedItems (orderedItems vs) = orderedItems vs
  | [] => rfl
  | v :: vs => by
    simp only [orderedItems]
    rw [ordered_ordered v, orderedItems_orderedItems vs]

theorem ordered_of_mem : ∀ (fields : List (String × Value)), ∀ x ∈ orderedFields fields,
    x.2.ordered = x.2
  | [], _, hx => by cases hx
  | (name, v) :: fields, x, hx => by
    rcases List.mem_cons.mp hx with rfl | hx
    · exact ordered_ordered v
    · exact ordered_of_mem fields x hx

end

mutual

/-- Putting a value in order adds no number. -/
theorem mem_numbers_of_ordered : ∀ (v : Value) (n : Number), n ∈ v.ordered.numbers → n ∈ v.numbers
  | null, _, h => h
  | bool _, _, h => h
  | number _, _, h => h
  | string _, _, h => h
  | array vs, n, h => mem_numbersOfItems_of_ordered vs n h
  | object fields, n, h => by
    rw [ordered, numbers, numbersOfFields_eq, List.mem_flatMap] at h
    obtain ⟨x, hx, hn⟩ := h
    exact mem_numbersOfFields_of_ordered fields x (Fields.mem_ofList hx) n hn

theorem mem_numbersOfItems_of_ordered : ∀ (vs : List Value) (n : Number),
    n ∈ numbersOfItems (orderedItems vs) → n ∈ numbersOfItems vs
  | [], _, h => h
  | v :: vs, n, h => by
    rcases List.mem_append.mp h with h | h
    · exact List.mem_append_left _ (mem_numbers_of_ordered v n h)
    · exact List.mem_append_right _ (mem_numbersOfItems_of_ordered vs n h)

theorem mem_numbersOfFields_of_ordered : ∀ (fields : List (String × Value)),
    ∀ x ∈ orderedFields fields, ∀ n ∈ x.2.numbers, n ∈ numbersOfFields fields
  | [], _, hx, _, _ => by cases hx
  | (name, v) :: fields, x, hx, n, hn => by
    rcases List.mem_cons.mp hx with rfl | hx
    · exact List.mem_append_left _ (mem_numbers_of_ordered v n hn)
    · exact List.mem_append_right _ (mem_numbersOfFields_of_ordered fields x hx n hn)

end

/-- All integers in a value have 64 bits. -/
def Fits (v : Value) : Prop :=
  ∀ i, .int i ∈ v.numbers → (Number.int i).Faithful

theorem Fits.ordered {v : Value} (h : v.Fits) : v.ordered.Fits := by
  intro i hi
  exact h i (mem_numbers_of_ordered v _ hi)

theorem fits_array {vs : List Value} : (array vs).Fits ↔ ∀ v ∈ vs, v.Fits := by
  simp only [Fits, numbers, numbersOfItems_eq, List.mem_flatMap]
  constructor
  · intro h v hv i hi
    exact h i ⟨v, hv, hi⟩
  · rintro h i ⟨v, hv, hi⟩
    exact h v hv i hi

theorem fits_object {fields : List (String × Value)} :
    (object fields).Fits ↔ ∀ x ∈ fields, x.2.Fits := by
  simp only [Fits, numbers, numbersOfFields_eq, List.mem_flatMap]
  constructor
  · intro h x hx i hi
    exact h i ⟨x, hx, hi⟩
  · rintro h i ⟨x, hx, hi⟩
    exact h x hx i hi

end Value

namespace Json

theorem faithful_of_number? {n : Numeral} {i : Int} (h : n.number? = some (.int i)) :
    (Number.int i).Faithful := by
  have hFloat : ∀ x : Option Float, x.map Number.float ≠ some (.int i) := by
    intro x hx
    obtain ⟨y, -, hy⟩ := Option.map_eq_some_iff.mp hx
    cases hy
  unfold Numeral.number? at h
  dsimp only at h
  split at h
  · exact absurd h (hFloat _)
  · split at h
    · split at h
      · rename_i hRange
        cases h
        simp only [Bool.and_eq_true, decide_eq_true_eq] at hRange
        constructor <;> omega
      · exact absurd h (hFloat _)
    · split at h
      · rename_i hRange
        cases h
        constructor <;> omega
      · exact absurd h (hFloat _)

section Reading

variable {n d : Nat} {cs r : List Char}

theorem readValue_fits {v : Value}
    (hItems : ∀ d cs vs r, readItems n d cs = some (vs, r) → ∀ v ∈ vs, v.Fits)
    (hFields : ∀ d cs fields r, readFields n d cs = some (fields, r) → ∀ x ∈ fields, x.2.Fits)
    (h : readValue (n + 1) d cs = some (v, r)) : v.Fits := by
  rw [readValue] at h
  split at h
  case h_5 =>
    split at h
    · cases h
    split at h
    · cases h
      exact Value.fits_array.mpr (by simp)
    · obtain ⟨⟨vs, rest⟩, hRead, hEq⟩ := Option.bind_eq_some_iff.mp h
      cases hEq
      exact Value.fits_array.mpr (hItems _ _ _ _ hRead)
  case h_6 =>
    split at h
    · cases h
    split at h
    · cases h
      exact Value.fits_object.mpr (by simp)
    · obtain ⟨⟨fields, rest⟩, hRead, hEq⟩ := Option.bind_eq_some_iff.mp h
      cases hEq
      exact Value.fits_object.mpr (hFields _ _ _ _ hRead)
  case h_7 =>
    obtain ⟨⟨x, rest⟩, hNumber, hEq⟩ := Option.bind_eq_some_iff.mp h
    cases hEq
    intro i hi
    obtain rfl := List.mem_singleton.mp hi
    obtain ⟨_, _, _, _, _, _, _, _, hRead⟩ := readNumber_eq_some_iff.mp hNumber
    exact faithful_of_number? hRead
  case h_4 =>
    obtain ⟨⟨s, rest⟩, -, hEq⟩ := Option.bind_eq_some_iff.mp h
    cases hEq
    intro i hi
    cases hi
  all_goals
    cases h
    intro i hi
    cases hi

theorem readItems_fits {vs : List Value}
    (hValues : ∀ d cs v r, readValue n d cs = some (v, r) → v.Fits)
    (hItems : ∀ d cs vs r, readItems n d cs = some (vs, r) → ∀ v ∈ vs, v.Fits)
    (h : readItems (n + 1) d cs = some (vs, r)) : ∀ v ∈ vs, v.Fits := by
  rw [readItems] at h
  obtain ⟨⟨v, rest⟩, hValue, h⟩ := Option.bind_eq_some_iff.mp h
  have hFirst := hValues _ _ _ _ hValue
  dsimp only at h
  split at h
  · obtain ⟨⟨ws, rest⟩, hRead, hEq⟩ := Option.bind_eq_some_iff.mp h
    cases hEq
    exact List.forall_mem_cons.mpr ⟨hFirst, hItems _ _ _ _ hRead⟩
  · cases h
    exact List.forall_mem_singleton.mpr hFirst
  · cases h

theorem readFields_fits {fields : List (String × Value)}
    (hValues : ∀ d cs v r, readValue n d cs = some (v, r) → v.Fits)
    (hFields : ∀ d cs fields r, readFields n d cs = some (fields, r) → ∀ x ∈ fields, x.2.Fits)
    (h : readFields (n + 1) d cs = some (fields, r)) : ∀ x ∈ fields, x.2.Fits := by
  rw [readFields] at h
  split at h
  · obtain ⟨⟨name, rest⟩, -, h⟩ := Option.bind_eq_some_iff.mp h
    dsimp only at h
    split at h
    · obtain ⟨⟨v, rest⟩, hValue, h⟩ := Option.bind_eq_some_iff.mp h
      have hFirst := hValues _ _ _ _ hValue
      dsimp only at h
      split at h
      · obtain ⟨⟨more, rest⟩, hRead, hEq⟩ := Option.bind_eq_some_iff.mp h
        cases hEq
        exact List.forall_mem_cons.mpr ⟨hFirst, hFields _ _ _ _ hRead⟩
      · cases h
        exact List.forall_mem_singleton.mpr hFirst
      · cases h
    · cases h
  · cases h

end Reading

theorem fits_of_reading (n : Nat) :
    (∀ d cs v r, readValue n d cs = some (v, r) → v.Fits) ∧
    (∀ d cs vs r, readItems n d cs = some (vs, r) → ∀ v ∈ vs, v.Fits) ∧
    (∀ d cs fields r, readFields n d cs = some (fields, r) → ∀ x ∈ fields, x.2.Fits) := by
  induction n with
  | zero =>
    refine ⟨?_, ?_, ?_⟩
    all_goals
      intro d cs v r h
      cases h
  | succ n ih =>
    obtain ⟨ihValue, ihItems, ihFields⟩ := ih
    refine ⟨?_, ?_, ?_⟩
    · intro d cs v r h
      exact readValue_fits ihItems ihFields h
    · intro d cs vs r h
      exact readItems_fits ihValue ihItems h
    · intro d cs fields r h
      exact readFields_fits ihValue ihFields h

/-- Integers that are read have 64 bits. -/
theorem fits_of_read? {s : String} {v : Value} (h : read? s = some v) : v.Fits := by
  unfold read? at h
  dsimp only at h
  split at h
  · rename_i hRead
    split at h
    · obtain rfl := Option.some.inj h
      exact (fits_of_reading _).1 _ _ _ _ hRead
    · cases h
  · cases h

end Json

end LiveMarkup
