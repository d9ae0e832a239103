import LiveMarkup.Proofs.Json.Shortest
import LiveMarkup.Proofs.Json.Ordered

/-!
# Values are told apart by their text

The text of a value says where the value ends, whatever follows it, and which value it is. No
number has to be read back for this; it only has to be finite.

* `Number.text_inj`: finite numbers are told apart by their texts;
* `Value.chars_inj`: what is written alike was written for the same value;
* `Value.key_inj`: items with one key are the same.
-/

namespace LiveMarkup

namespace Number

/-- A number of arithmetic: all but the infinite ones and those that are no numbers. -/
def Finite : Number → Prop
  | .int _ => True
  | .float x => x.isFinite = true

/-! ## The text of numbers -/

theorem int_text (i : Int) : (Number.int i).text.toList =
    (if i < 0 then ['-'] else []) ++ Nat.toDigits 10 i.natAbs := by
  cases i with
  | ofNat m =>
    rw [if_neg (by simp)]
    exact Nat.toList_repr
  | negSucc m =>
    rw [if_pos (Int.negSucc_lt_zero m)]
    change ("-" ++ (m + 1).repr).toList = _
    rw [String.toList_append, Nat.toList_repr]
    rfl

theorem mem_text {n : Number} {c : Char} (h : c ∈ n.text.toList) :
    c.isDigit = true ∨ c ∈ Decimal.marks := by
  cases n with
  | int i =>
    rw [int_text] at h
    rcases List.mem_append.mp h with h | h
    · split at h
      · exact .inr (List.mem_singleton.mp h ▸ by decide)
      · cases h
    · exact .inl (Nat.isDigit_of_mem_toDigits (by decide) (by decide) h)
  | float x => exact (Decimal.mem_ofFloat x).1 c h

theorem head_text (n : Number) : ∃ c cs, n.text.toList = c :: cs ∧
    (c.isDigit = true ∨ c ∈ Decimal.marks) := by
  have hMem : ∀ c ∈ n.text.toList, c.isDigit = true ∨ c ∈ Decimal.marks := fun c => mem_text
  have hNe : n.text.toList ≠ [] := by
    cases n with
    | int i =>
      rw [int_text]
      exact List.append_ne_nil_of_right_ne_nil _ Nat.toDigits_ne_nil
    | float x =>
      obtain ⟨c, hc, -⟩ := (Decimal.mem_ofFloat x).2
      exact List.ne_nil_of_mem hc
  obtain ⟨c, cs, hText⟩ := List.exists_cons_of_ne_nil hNe
  exact ⟨c, cs, hText, hMem c (hText ▸ List.mem_cons_self)⟩

theorem int_text_inj {i j : Int} (h : (Number.int i).text = (Number.int j).text) : i = j := by
  have hList := congrArg String.toList h
  rw [int_text, int_text] at hList
  have hMinus : ∀ m n : Nat, Nat.toDigits 10 m ≠ '-' :: Nat.toDigits 10 n := fun m n hSame => by
    have hDigit := Nat.isDigit_of_mem_toDigits (b := 10) (n := m) (c := '-') (by decide) (by decide)
      (hSame ▸ List.mem_cons_self)
    cases hDigit
  have hDigits : ∀ {m n : Nat}, Nat.toDigits 10 m = Nat.toDigits 10 n → m = n := fun hSame => by
    have hValue := congrArg (Nat.ofDigitChars 10 · 0) hSame
    simpa using hValue
  split at hList <;> split at hList
  · have := hDigits (List.append_cancel_left hList)
    omega
  · exact absurd hList.symm (hMinus _ _)
  · exact absurd hList (hMinus _ _)
  · have := hDigits hList
    omega

theorem int_text_ne (i : Int) (x : Float) : (Number.int i).text ≠ (Number.float x).text := by
  intro h
  obtain ⟨c, hc, hMark⟩ := (Decimal.mem_ofFloat x).2
  have hIn : c ∈ (Number.int i).text.toList := h ▸ hc
  rw [int_text] at hIn
  rcases List.mem_append.mp hIn with hIn | hIn
  · split at hIn
    · rw [List.mem_singleton.mp hIn] at hMark
      revert hMark
      decide
    · cases hIn
  · have hDigit := Nat.isDigit_of_mem_toDigits (by decide) (by decide) hIn
    rcases hMark with rfl | rfl <;> cases hDigit

/-- Finite numbers are told apart by their texts. -/
theorem text_inj {m n : Number} (hm : m.Finite) (hn : n.Finite) (h : m.text = n.text) : m = n := by
  cases m with
  | int i =>
    cases n with
    | int j => rw [int_text_inj h]
    | float y => exact absurd h (int_text_ne i y)
  | float x =>
    cases n with
    | int j => exact absurd h.symm (int_text_ne j x)
    | float y => rw [Decimal.ofFloat_inj hm hn h]

end Number

namespace Value

/-- A value with finite numbers only, as JSON has them. -/
def Finite (v : Value) : Prop :=
  ∀ n ∈ v.numbers, n.Finite

theorem finite_array {vs : List Value} : (array vs).Finite ↔ ∀ v ∈ vs, v.Finite := by
  simp only [Finite, numbers, numbersOfItems_eq, List.mem_flatMap]
  exact ⟨fun h v hv n hn => h n ⟨v, hv, hn⟩, fun h n ⟨v, hv, hn⟩ => h v hv n hn⟩

theorem finite_object {fields : List (String × Value)} :
    (object fields).Finite ↔ ∀ x ∈ fields, x.2.Finite := by
  simp only [Finite, numbers, numbersOfFields_eq, List.mem_flatMap]
  exact ⟨fun h x hx n hn => h n ⟨x, hx, hn⟩, fun h n ⟨x, hx, hn⟩ => h x hx n hn⟩

theorem finite_number {n : Number} : (number n).Finite ↔ n.Finite := by
  simp [Finite, numbers]

/-! ## The first character -/

/-- The kinds of values. -/
def kind : Value → Nat
  | null => 0
  | bool true => 1
  | bool false => 2
  | string _ => 3
  | array _ => 4
  | object _ => 5
  | number _ => 6

theorem kind_lt (v : Value) : v.kind < 7 := by
  unfold kind
  split <;> decide

/-- The kind of value that starts with a character, if any does. -/
def kindOf (c : Char) : Nat :=
  if c = 'n' then 0 else if c = 't' then 1 else if c = 'f' then 2 else if c = '"' then 3
  else if c = '[' then 4 else if c = '\x7b' then 5
  else if c.isDigit = true ∨ c ∈ Decimal.marks then 6 else 7

theorem kindOf_mark {c : Char} (h : c.isDigit = true ∨ c ∈ Decimal.marks) : kindOf c = 6 := by
  have hNe : ∀ {d : Char}, ¬ (d.isDigit = true ∨ d ∈ Decimal.marks) → c ≠ d := by
    rintro d hd rfl
    exact hd h
  rw [kindOf, if_neg (hNe (by simp [Decimal.marks])), if_neg (hNe (by simp [Decimal.marks])),
    if_neg (hNe (by simp [Decimal.marks])), if_neg (hNe (by simp [Decimal.marks])),
    if_neg (hNe (by simp [Decimal.marks])), if_neg (hNe (by simp [Decimal.marks])), if_pos h]

theorem kindOf_head (v : Value) : ∃ c cs, v.chars = c :: cs ∧ kindOf c = v.kind := by
  cases v with
  | null => exact ⟨_, _, rfl, rfl⟩
  | bool b => cases b <;> exact ⟨_, _, rfl, rfl⟩
  | string s => exact ⟨_, _, rfl, rfl⟩
  | array vs => exact ⟨_, _, rfl, rfl⟩
  | object fields => exact ⟨_, _, rfl, rfl⟩
  | number n =>
    obtain ⟨c, cs, hText, hMark⟩ := n.head_text
    exact ⟨c, cs, hText, kindOf_mark hMark⟩

theorem kind_eq_of_chars {v w : Value} {r r' : List Char} (h : v.chars ++ r = w.chars ++ r') :
    v.kind = w.kind := by
  obtain ⟨c, cs, hText, hKind⟩ := v.kindOf_head
  obtain ⟨c', cs', hText', hKind'⟩ := w.kindOf_head
  rw [hText, hText'] at h
  rw [← hKind, ← hKind', (List.cons.inj h).1]

/-! ## The end of a value -/

open Json in
/-- A number ends where its characters do. -/
theorem number_chars_inj {m n : Number} {r r' : List Char} (hm : m.Finite) (hn : n.Finite)
    (hr : Follows r) (hr' : Follows r')
    (h : (number m).chars ++ r = (number n).chars ++ r') : m = n ∧ r = r' := by
  let mark := fun c : Char => c.isDigit || decide (c ∈ Decimal.marks)
  have hMark : ∀ {n : Number}, ∀ c ∈ n.text.toList, mark c = true := fun c hc => by
    simpa [mark] using Number.mem_text hc
  have hTake : ∀ {n : Number} {r : List Char}, Follows r →
      (n.text.toList ++ r).takeWhile mark = n.text.toList := by
    intro n r hr
    rw [List.takeWhile_append_of_pos hMark]
    cases r with
    | nil => exact List.append_nil _
    | cons c r =>
      have hNot : mark c = false := by
        rcases hr c rfl with rfl | rfl | rfl <;> simp [mark, Decimal.marks]
      rw [List.takeWhile_cons_of_neg (by simp [hNot]), List.append_nil]
  change m.text.toList ++ r = n.text.toList ++ r' at h
  have hText : m.text.toList = n.text.toList := by
    rw [← hTake hr, h, hTake hr']
  rw [hText] at h
  exact ⟨Number.text_inj hm hn (String.toList_inj.mp hText), List.append_cancel_left h⟩

open Json in
theorem quote_inj {s t : String} {r r' : List Char} (h : quote s ++ r = quote t ++ r') :
    s = t ∧ r = r' := by
  rw [quote_append, quote_append] at h
  have hRest := (List.cons.inj h).2
  have hRead := readString_text s r
  rw [hRest, readString_text t r'] at hRead
  obtain ⟨hSame, hEnd⟩ := Prod.mk.inj (Option.some.inj hRead)
  exact ⟨String.toList_inj.mp hSame.symm, hEnd.symm⟩

theorem itemChars_ne (v : Value) (vs : List Value) (first : Bool) (r r' : List Char) :
    itemChars first (v :: vs) ++ r ≠ ']' :: r' := by
  intro h
  cases first with
  | false => exact absurd (List.cons.inj h).1 (by decide)
  | true =>
    obtain ⟨c, cs, hText, hKind⟩ := v.kindOf_head
    rw [itemChars, hText] at h
    obtain rfl : c = ']' := (List.cons.inj h).1
    have hNone : kindOf ']' = 7 := by simp [kindOf, Decimal.marks]
    have hLt := v.kind_lt
    omega

theorem fieldChars_ne (x : String × Value) (fields : List (String × Value)) (first : Bool)
    (r r' : List Char) : fieldChars first (x :: fields) ++ r ≠ '\x7d' :: r' := by
  intro h
  cases first <;> exact absurd (List.cons.inj h).1 (by decide)

mutual

/-- What is written alike, whatever follows, was written for the same value. -/
theorem chars_inj : ∀ (v w : Value) {r r' : List Char}, v.Finite → w.Finite → Json.Follows r →
    Json.Follows r' → v.chars ++ r = w.chars ++ r' → v = w ∧ r = r'
  | null, w, _, _, _, _, _, _, h => by
    have hKind := kind_eq_of_chars h
    cases w with
    | null => exact ⟨rfl, List.append_cancel_left h⟩
    | bool b => cases b <;> cases hKind
    | _ => cases hKind
  | bool a, w, _, _, _, _, _, _, h => by
    have hKind := kind_eq_of_chars h
    cases w with
    | bool b =>
      obtain rfl : a = b := by cases a <;> cases b <;> first | rfl | cases hKind
      exact ⟨rfl, List.append_cancel_left h⟩
    | _ => cases a <;> cases hKind
  | number m, w, _, _, hv, hw, hr, hr', h => by
    have hKind := kind_eq_of_chars h
    cases w with
    | number n =>
      obtain ⟨hSame, hRest⟩ := number_chars_inj (finite_number.mp hv) (finite_number.mp hw) hr hr' h
      exact ⟨congrArg number hSame, hRest⟩
    | bool b => cases b <;> cases hKind
    | _ => cases hKind
  | string s, w, _, _, _, _, _, _, h => by
    have hKind := kind_eq_of_chars h
    cases w with
    | string t =>
      obtain ⟨hSame, hRest⟩ := quote_inj h
      exact ⟨congrArg string hSame, hRest⟩
    | bool b => cases b <;> cases hKind
    | _ => cases hKind
  | array vs, w, r, r', hv, hw, _, _, h => by
    have hKind := kind_eq_of_chars h
    cases w with
    | array ws =>
      have hItems : itemChars true vs ++ ']' :: r = itemChars true ws ++ ']' :: r' := by
        simpa [chars] using h
      obtain ⟨hSame, hRest⟩ := itemChars_inj vs ws true (finite_array.mp hv)
        (finite_array.mp hw) hItems
      exact ⟨congrArg array hSame, hRest⟩
    | bool b => cases b <;> cases hKind
    | _ => cases hKind
  | object fs, w, r, r', hv, hw, _, _, h => by
    have hKind := kind_eq_of_chars h
    cases w with
    | object gs =>
      have hFields : fieldChars true fs ++ '\x7d' :: r = fieldChars true gs ++ '\x7d' :: r' := by
        simpa [chars] using h
      obtain ⟨hSame, hRest⟩ :=
        fieldChars_inj fs gs true (finite_object.mp hv) (finite_object.mp hw) hFields
      exact ⟨congrArg object hSame, hRest⟩
    | bool b => cases b <;> cases hKind
    | _ => cases hKind

/-- The items of arrays that are written alike are the same. -/
theorem itemChars_inj : ∀ (vs ws : List Value) (first : Bool) {r r' : List Char},
    (∀ v ∈ vs, v.Finite) → (∀ w ∈ ws, w.Finite) →
      itemChars first vs ++ ']' :: r = itemChars first ws ++ ']' :: r' → vs = ws ∧ r = r'
  | [], [], _, _, _, _, _, h => ⟨rfl, (List.cons.inj h).2⟩
  | [], w :: ws, first, _, _, _, _, h => absurd h.symm (itemChars_ne w ws first _ _)
  | v :: vs, [], first, _, _, _, _, h => absurd h (itemChars_ne v vs first _ _)
  | v :: vs, w :: ws, first, r, r', hv, hw, h => by
    obtain ⟨hFirst, hRest⟩ := List.forall_mem_cons.mp hv
    obtain ⟨hFirst', hRest'⟩ := List.forall_mem_cons.mp hw
    rw [itemChars, itemChars, List.append_assoc, List.append_assoc, List.append_assoc,
      List.append_assoc] at h
    obtain ⟨rfl, hItems⟩ := chars_inj v w hFirst hFirst' (Json.follows_itemChars vs r)
      (Json.follows_itemChars ws r') (List.append_cancel_left h)
    obtain ⟨rfl, hEnd⟩ := itemChars_inj vs ws false hRest hRest' hItems
    exact ⟨rfl, hEnd⟩

/-- The fields of objects that are written alike are the same. -/
theorem fieldChars_inj : ∀ (fs gs : List (String × Value)) (first : Bool) {r r' : List Char},
    (∀ x ∈ fs, x.2.Finite) → (∀ x ∈ gs, x.2.Finite) →
      fieldChars first fs ++ '\x7d' :: r = fieldChars first gs ++ '\x7d' :: r' → fs = gs ∧ r = r'
  | [], [], _, _, _, _, _, h => ⟨rfl, (List.cons.inj h).2⟩
  | [], x :: gs, first, _, _, _, _, h => absurd h.symm (fieldChars_ne x gs first _ _)
  | x :: fs, [], first, _, _, _, _, h => absurd h (fieldChars_ne x fs first _ _)
  | (name, v) :: fs, (name', w) :: gs, first, r, r', hv, hw, h => by
    obtain ⟨hFirst, hRest⟩ := List.forall_mem_cons.mp hv
    obtain ⟨hFirst', hRest'⟩ := List.forall_mem_cons.mp hw
    rw [fieldChars, fieldChars] at h
    simp only [List.append_assoc, List.cons_append] at h
    obtain ⟨rfl, hValue⟩ := quote_inj (List.append_cancel_left h)
    obtain ⟨rfl, hFields⟩ := chars_inj v w hFirst hFirst' (Json.follows_fieldChars fs r)
      (Json.follows_fieldChars gs r') (List.cons.inj hValue).2
    obtain ⟨rfl, hEnd⟩ := fieldChars_inj fs gs false hRest hRest' hFields
    exact ⟨rfl, hEnd⟩

end

/-- Values are told apart by their texts. -/
theorem text_inj {v w : Value} (hv : v.Finite) (hw : w.Finite) (h : v.text = w.text) : v = w := by
  have hChars : v.chars ++ [] = w.chars ++ [] := by
    rw [List.append_nil, List.append_nil]
    exact String.ofList_inj.mp h
  exact (chars_inj v w hv hw Json.follows_nil Json.follows_nil hChars).1

/-- Items with one key are the same. -/
theorem key_inj {v w : Value} (hv : v.Finite) (hw : w.Finite) (h : v.key = w.key) : v = w :=
  text_inj hv hw h

end Value

end LiveMarkup
