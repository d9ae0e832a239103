import LiveMarkup.Program.Codec
import LiveMarkup.Proofs.Json.Ordered
import LiveMarkup.Proofs.Program.Names

/-!
# Programs are read as they were written

Each record is written as an object with its fields in a fixed order, and reading finds every field
by its name. So a program is found again in its written form, if its symbols and the values of its
cases are in order, which is what they are put into when they are read.

* `Value.record?_object`, `Value.variant?_tagged`: records and variants;
* `Instruction.caseValues`: the values of all cases in an instruction;
* `Instruction.ofValueTo?_toValue`, `Program.ofValue?_toValue`: instructions and programs;
* `Program.faithful_toValue`: the numbers in a written program are those of its cases.
-/

namespace LiveMarkup

namespace Value

variable {fields : List (String × Value)}

theorem onlyField?_of_mem (hNodup : (fields.map Prod.fst).Nodup) {name : String} {v : Value}
    (h : (name, v) ∈ fields) : onlyField? name fields = some (some v) := by
  have hFilter : fields.filter (·.1 == name) = [(name, v)] := by
    induction fields with
    | nil => cases h
    | cons x fields ih =>
      obtain ⟨hNot, hRest⟩ := List.nodup_cons.mp hNodup
      rcases List.mem_cons.mp h with rfl | h
      · rw [List.filter_cons_of_pos (by simp)]
        congr 1
        apply List.filter_eq_nil_iff.mpr
        intro y hy hEq
        exact hNot (List.mem_map.mpr ⟨y, hy, eq_of_beq hEq⟩)
      · have hNe : ¬ (x.1 == name) = true := by
          intro hEq
          apply hNot
          rw [eq_of_beq hEq]
          exact List.mem_map.mpr ⟨_, h, rfl⟩
        rw [List.filter_cons_of_neg (by exact hNe), ih hRest h]
  rw [onlyField?, hFilter]

/-- All fields of a record are found. -/
theorem record?_object (names : List String) (hNames : fields.map Prod.fst = names)
    (hNodup : names.Nodup) :
    (object fields).record? names = some (fields.map fun x => some x.2) := by
  have hFind : ∀ xs : List (String × Value), (∀ x ∈ xs, x ∈ fields) →
      (xs.map Prod.fst).mapM (fun name => onlyField? name fields) =
        some (xs.map fun x => some x.2) := by
    intro xs
    induction xs with
    | nil =>
      intro _
      rfl
    | cons x xs ih =>
      intro hAll
      have hFirst := onlyField?_of_mem (hNames ▸ hNodup) (hAll x List.mem_cons_self)
      simp [List.mapM_cons, hFirst, ih fun y hy => hAll y (List.mem_cons_of_mem _ hy)]
  subst hNames
  exact hFind fields fun _ h => h

/-- The tag of a variant is found, and what is left is the record. -/
theorem variant?_tagged {tag name : String} (h : tag ∉ fields.map Prod.fst) :
    (tagged tag name fields).variant? tag = some (name, object fields) := by
  have hNone : fields.filter (·.1 == tag) = [] := by
    apply List.filter_eq_nil_iff.mpr
    intro x hx hEq
    exact h (List.mem_map.mpr ⟨x, hx, eq_of_beq hEq⟩)
  have hAll : fields.filter (·.1 != tag) = fields := by
    apply List.filter_eq_self.mpr
    intro x hx
    rw [bne_iff_ne]
    rintro rfl
    exact h (List.mem_map.mpr ⟨x, hx, rfl⟩)
  simp [tagged, variant?, onlyField?, hNone, hAll]

end Value

theorem mapM_map_eq_some {α β : Type} {f : β → Option α} {g : α → β} {l : List α}
    (h : ∀ a ∈ l, f (g a) = some a) : (l.map g).mapM f = some l := by
  induction l with
  | nil => rfl
  | cons a l ih =>
    simp [List.mapM_cons, h a List.mem_cons_self, ih fun b hb => h b (List.mem_cons_of_mem _ hb)]

/-! ## Sources, loops and operations -/

theorem ValueSource.ofValue?_toValue (source : ValueSource) :
    ValueSource.ofValue? source.toValue = some source := by
  rw [ValueSource.ofValue?, ValueSource.toValue, Value.tagged,
    Value.record?_object ["kind", "code"] rfl (by decide)]
  cases source <;> rfl

theorem ValueSource.faithful_toValue (source : ValueSource) : source.toValue.Faithful := by
  rw [toValue, Value.tagged]
  simp [Value.faithful_object, Value.faithful_string]

theorem Loop.Alias.ofValue?_toValue (a : Loop.Alias) : Loop.Alias.ofValue? a.toValue = some a := by
  rw [Loop.Alias.ofValue?, Loop.Alias.toValue,
    Value.record?_object ["local", "alias"] rfl (by decide)]
  rfl

theorem Loop.ofValue?_toValue (l : Loop) : Loop.ofValue? l.toValue = some l := by
  have hAliases : (l.aliases.map Loop.Alias.toValue).mapM Loop.Alias.ofValue? = some l.aliases :=
    mapM_map_eq_some fun a _ => a.ofValue?_toValue
  rw [Loop.ofValue?, Loop.toValue,
    Value.record?_object ["item", "iterable", "aliases"] rfl (by decide)]
  simp [ValueSource.ofValue?_toValue, hAliases]

theorem Loop.faithful_toValue (l : Loop) : l.toValue.Faithful := by
  simp [Loop.toValue, Loop.Alias.toValue, Value.faithful_object, Value.faithful_array,
    Value.faithful_string, ValueSource.faithful_toValue]

namespace Operation

theorem ofNamed?_eq (make : String → Target) (name : String) (source : ValueSource) :
    ofNamed? make (.object [("name", .string name), ("source", source.toValue)]) =
      some (bind (make name) source) := by
  rw [ofNamed?, Value.record?_object ["name", "source"] rfl (by decide)]
  simp [ValueSource.ofValue?_toValue]

theorem ofUnnamed?_eq (target : Target) (source : ValueSource) :
    ofUnnamed? target (.object [("source", source.toValue)]) = some (bind target source) := by
  rw [ofUnnamed?, Value.record?_object ["source"] rfl (by decide)]
  simp [ValueSource.ofValue?_toValue]

theorem ofValue?_toValue (op : Operation) : ofValue? op.toValue = some op := by
  cases op with
  | setAttribute name value =>
    rw [ofValue?, toValue, Value.variant?_tagged (by simp)]
    simp [opName, Value.record?_object ["name", "value"]]
  | listen event handler =>
    rw [ofValue?, toValue, Value.variant?_tagged (by simp)]
    simp [opName, Value.record?_object ["event", "handler"]]
  | bind target source =>
    rw [ofValue?, toValue, Value.variant?_tagged (by cases target <;> simp [Target.fields])]
    cases target with
    | style property unit =>
      simp [opName, Target.opName, Target.fields, Value.record?_object ["name", "unit", "source"],
        ValueSource.ofValue?_toValue]
      cases unit <;> rfl
    | _ =>
      simp [opName, Target.opName, Target.fields, ofNamed?_eq, ofUnnamed?_eq]

theorem faithful_toValue (op : Operation) : op.toValue.Faithful := by
  cases op with
  | setAttribute name value =>
    simp [toValue, Value.tagged, Value.faithful_object, Value.faithful_string]
  | listen event handler =>
    simp [toValue, Value.tagged, Value.faithful_object, Value.faithful_string]
  | bind target source =>
    have hUnit : ∀ unit, (Value.ofString? unit).Faithful := by
      intro unit n hn
      cases unit <;> cases hn
    cases target <;>
      simp [toValue, Value.tagged, Target.fields, Value.faithful_object, Value.faithful_string,
        ValueSource.faithful_toValue, hUnit]

end Operation

namespace Instruction

/-! ## Values of cases -/

mutual

/-- The values of all cases in an instruction. -/
def caseValues : Instruction → List Value
  | element _ _ children => caseValuesOfAll children
  | text _ => []
  | dynamicText _ => []
  | conditional _ body => body.caseValues
  | forLoop _ body => body.caseValues
  | switch _ cases default => caseValuesOfCases cases ++ caseValuesOfDefault default

/-- The values of all cases in a list of instructions. -/
def caseValuesOfAll : List Instruction → List Value
  | [] => []
  | i :: rest => i.caseValues ++ caseValuesOfAll rest

/-- The values of the cases of a switch and of all cases in them. -/
def caseValuesOfCases : List (Value × Instruction) → List Value
  | [] => []
  | (value, body) :: rest => value :: body.caseValues ++ caseValuesOfCases rest

/-- The values of all cases in the default of a switch. -/
def caseValuesOfDefault : Option Instruction → List Value
  | none => []
  | some body => body.caseValues

end

theorem caseValuesOfAll_eq (is : List Instruction) : caseValuesOfAll is = is.flatMap caseValues := by
  induction is with
  | nil => rfl
  | cons i rest ih => rw [caseValuesOfAll, ih, List.flatMap_cons]

theorem caseValuesOfCases_eq (cases : List (Value × Instruction)) :
    caseValuesOfCases cases = cases.flatMap fun x => x.1 :: x.2.caseValues := by
  induction cases with
  | nil => rfl
  | cons x rest ih => rw [caseValuesOfCases, ih, List.flatMap_cons]

theorem caseValuesOfDefault_eq (default : Option Instruction) :
    caseValuesOfDefault default = default.toList.flatMap caseValues := by
  cases default <;> simp [caseValuesOfDefault]

/-- The values of the cases of a switch, without those of its parts. -/
def ownCaseValues : Instruction → List Value
  | switch _ cases _ => cases.map (·.1)
  | _ => []

theorem mem_caseValues_iff {i : Instruction} {v : Value} :
    v ∈ i.caseValues ↔ v ∈ i.ownCaseValues ∨ ∃ x ∈ i.parts, v ∈ x.2.caseValues := by
  cases i with
  | switch value cases default =>
    simp only [caseValues, caseValuesOfCases_eq, caseValuesOfDefault_eq, ownCaseValues, parts,
      List.mem_append, List.mem_flatMap, List.mem_cons, List.mem_map]
    grind
  | _ => simp [caseValues, caseValuesOfAll_eq, ownCaseValues, parts]

/-! ## Instructions -/

theorem toValues_eq (is : List Instruction) : toValues is = is.map toValue := by
  induction is with
  | nil => rfl
  | cons i rest ih => rw [toValues, ih, List.map_cons]

theorem casesToValues_eq (cases : List (Value × Instruction)) :
    casesToValues cases =
      cases.map fun x => .object [("value", x.1), ("body", x.2.toValue)] := by
  induction cases with
  | nil => rfl
  | cons x rest ih => rw [casesToValues, ih, List.map_cons]

theorem depth_lt_of_field (name : String) {v : Value} {fields : List (String × Value)}
    (h : (name, v) ∈ fields) : v.depth < (Value.object fields).depth :=
  Value.depth_lt_of_mem_fields h

/-- The written form of a part is less deep than that of the instruction. -/
theorem depth_part_lt {i : Instruction} {x : Option Loop × Instruction} (h : x ∈ i.parts) :
    x.2.toValue.depth < i.toValue.depth := by
  cases i with
  | text => cases h
  | dynamicText => cases h
  | conditional condition body =>
    obtain rfl := List.mem_singleton.mp h
    rw [toValue, Value.tagged]
    exact depth_lt_of_field "body" (by simp)
  | forLoop loop body =>
    obtain rfl := List.mem_singleton.mp h
    rw [toValue, Value.tagged]
    exact depth_lt_of_field "body" (by simp)
  | element tag operations children =>
    obtain ⟨c, hc, rfl⟩ := List.mem_map.mp h
    have hItem : c.toValue.depth < (Value.array (toValues children)).depth := by
      apply Value.depth_lt_of_mem_items
      rw [toValues_eq]
      exact List.mem_map_of_mem hc
    rw [toValue, Value.tagged]
    exact Nat.lt_trans hItem (depth_lt_of_field "children" (by simp))
  | switch value cases default =>
    rw [toValue, Value.tagged]
    rcases List.mem_append.mp h with h | h
    · obtain ⟨y, hy, rfl⟩ := List.mem_map.mp h
      have hItem : (Value.object [("value", y.1), ("body", y.2.toValue)]).depth <
          (Value.array (casesToValues cases)).depth := by
        apply Value.depth_lt_of_mem_items
        rw [casesToValues_eq]
        exact List.mem_map_of_mem hy
      calc y.2.toValue.depth
        _ < (Value.object [("value", y.1), ("body", y.2.toValue)]).depth :=
          depth_lt_of_field "body" (by simp)
        _ < (Value.array (casesToValues cases)).depth := hItem
        _ < _ := depth_lt_of_field "cases" (by simp)
    · obtain ⟨body, hBody, rfl⟩ := List.mem_map.mp h
      obtain rfl := Option.mem_toList.mp hBody
      exact depth_lt_of_field "default" (by simp [defaultToValue])

/-- An instruction is read as it was written, with room for its depth. -/
theorem ofValueTo?_toValue (i : Instruction) : ∀ d, i.toValue.depth < d →
    (∀ v ∈ i.caseValues, v.ordered = v) → ofValueTo? d i.toValue = some i := by
  -- over the parts; a part is less deep and has fewer cases
  induction i using parts_induction with
  | step i ih =>
    intro d hd hOrdered
    obtain ⟨d, rfl⟩ : ∃ n, d = n + 1 := ⟨d - 1, by omega⟩
    have hPart : ∀ x ∈ i.parts, ofValueTo? d x.2.toValue = some x.2 := by
      intro x hx
      have hLt := depth_part_lt hx
      apply ih x hx d (by omega)
      intro v hv
      exact hOrdered v (mem_caseValues_iff.mpr (.inr ⟨x, hx, hv⟩))
    clear ih hd
    cases i with
    | text value =>
      rw [ofValueTo?, toValue, Value.variant?_tagged (by simp)]
      simp [Value.record?_object ["value"]]
    | dynamicText source =>
      rw [ofValueTo?, toValue, Value.variant?_tagged (by simp)]
      simp [Value.record?_object ["source"], ValueSource.ofValue?_toValue]
    | conditional condition body =>
      have hBody := hPart (none, body) (by simp [parts])
      rw [ofValueTo?, toValue, Value.variant?_tagged (by simp)]
      simp [Value.record?_object ["condition", "body"], ValueSource.ofValue?_toValue, hBody]
    | forLoop loop body =>
      have hBody := hPart (some loop, body) (by simp [parts])
      rw [ofValueTo?, toValue, Value.variant?_tagged (by simp)]
      simp [Value.record?_object ["binding", "body"], Loop.ofValue?_toValue, hBody]
    | element tag operations children =>
      have hOperations : (operations.map Operation.toValue).mapM Operation.ofValue? =
          some operations :=
        mapM_map_eq_some fun op _ => op.ofValue?_toValue
      have hChildren : (children.map toValue).mapM (ofValueTo? d) = some children :=
        mapM_map_eq_some fun c hc => hPart (none, c) (by simpa [parts] using hc)
      rw [ofValueTo?, toValue, Value.variant?_tagged (by simp)]
      simp [Value.record?_object ["tag", "operations", "children"], toValues_eq, hOperations,
        hChildren]
    | switch value cases default =>
      have hCase : ∀ x ∈ cases, ofValueTo? d x.2.toValue = some x.2 ∧ x.1.ordered = x.1 := by
        intro x hx
        constructor
        · exact hPart (none, x.2) (List.mem_append_left _ (List.mem_map.mpr ⟨x, hx, rfl⟩))
        · exact hOrdered x.1
            (mem_caseValues_iff.mpr (.inl (List.mem_map.mpr ⟨x, hx, rfl⟩)))
      have hDefault : ∀ body ∈ default, ofValueTo? d body.toValue = some body := by
        intro body hBody
        apply hPart (none, body)
        apply List.mem_append_right
        exact List.mem_map.mpr ⟨body, Option.mem_toList.mpr hBody, rfl⟩
      rw [ofValueTo?, toValue, Value.variant?_tagged (by simp)]
      simp only [casesToValues_eq, Option.bind_eq_bind, Option.bind_some]
      rw [Value.record?_object ["value", "cases", "default"] rfl (by decide)]
      simp only [List.map_cons, List.map_nil, Option.bind_some, ValueSource.ofValue?_toValue]
      rw [mapM_map_eq_some]
      · cases default with
        | none => simp [defaultToValue]
        | some body =>
          have hBody := hDefault body rfl
          cases body <;> simp_all [defaultToValue, toValue, Value.tagged]
      · intro x hx
        obtain ⟨hBody, hValue⟩ := hCase x hx
        simp [Value.record?_object ["value", "body"], hBody, hValue]

/-- An instruction is read as it was written. -/
theorem ofValue?_toValue {i : Instruction} (h : ∀ v ∈ i.caseValues, v.ordered = v) :
    ofValue? i.toValue = some i :=
  ofValueTo?_toValue i _ (Nat.lt_succ_self _) h

/-- The only numbers in the written form of an instruction are those of its cases. -/
theorem faithful_toValue (i : Instruction) (h : ∀ v ∈ i.caseValues, v.Faithful) :
    i.toValue.Faithful := by
  induction i using parts_induction with
  | step i ih =>
    have hPart : ∀ x ∈ i.parts, x.2.toValue.Faithful := by
      intro x hx
      apply ih x hx
      intro v hv
      exact h v (mem_caseValues_iff.mpr (.inr ⟨x, hx, hv⟩))
    cases i with
    | text value => simp [toValue, Value.tagged, Value.faithful_object, Value.faithful_string]
    | dynamicText source =>
      simp [toValue, Value.tagged, Value.faithful_object, Value.faithful_string,
        ValueSource.faithful_toValue]
    | conditional condition body =>
      have hBody := hPart (none, body) (by simp [parts])
      simp [toValue, Value.tagged, Value.faithful_object, Value.faithful_string,
        ValueSource.faithful_toValue, hBody]
    | forLoop loop body =>
      have hBody := hPart (some loop, body) (by simp [parts])
      simp [toValue, Value.tagged, Value.faithful_object, Value.faithful_string,
        Loop.faithful_toValue, hBody]
    | element tag operations children =>
      have hChildren : ∀ c ∈ children, c.toValue.Faithful :=
        fun c hc => hPart (none, c) (by simpa [parts] using hc)
      simpa [toValue, Value.tagged, Value.faithful_object, Value.faithful_string, toValues_eq,
        Value.faithful_array, Operation.faithful_toValue] using hChildren
    | switch value cases default =>
      have hCases : (Value.array (casesToValues cases)).Faithful := by
        rw [casesToValues_eq, Value.faithful_array]
        intro v hv
        obtain ⟨x, hx, rfl⟩ := List.mem_map.mp hv
        have hValue := h x.1 (mem_caseValues_iff.mpr (.inl (List.mem_map.mpr ⟨x, hx, rfl⟩)))
        have hBody := hPart (none, x.2) (List.mem_append_left _ (List.mem_map.mpr ⟨x, hx, rfl⟩))
        simp [Value.faithful_object, hValue, hBody]
      have hDefault : (defaultToValue default).Faithful := by
        cases default with
        | none => simp [defaultToValue, Value.Faithful, Value.numbers]
        | some body => exact hPart (none, body) (by simp [parts])
      simp [toValue, Value.tagged, Value.faithful_object, Value.faithful_string,
        ValueSource.faithful_toValue, hCases, hDefault]

end Instruction

namespace Program

/-! ## Programs -/

/-- Names are put in order as fields are. -/
theorem insertSymbol_eq (name : String) (names : List String) :
    (insertSymbol name names).map (fun n => (n, ())) =
      Fields.insert name () (names.map fun n => (n, ())) := by
  induction names with
  | nil => rfl
  | cons other rest ih =>
    rw [insertSymbol, List.map_cons, Fields.insert]
    split
    · rfl
    · split
      · rename_i hEq
        rw [eq_of_beq hEq]
        rfl
      · rw [List.map_cons, ih]

theorem sortSymbols_eq (names : List String) :
    (sortSymbols names).map (fun n => (n, ())) = Fields.ofList (names.map fun n => (n, ())) := by
  have h : ∀ acc : List String,
      (names.foldl (fun acc n => insertSymbol n acc) acc).map (fun n => (n, ())) =
        (names.map fun n => (n, ())).foldl (fun acc x => Fields.insert x.1 x.2 acc)
          (acc.map fun n => (n, ())) := by
    induction names with
    | nil =>
      intro acc
      rfl
    | cons name rest ih =>
      intro acc
      rw [List.foldl_cons, ih, insertSymbol_eq]
      rfl
  exact h []

theorem sortSymbols_sortSymbols (names : List String) :
    sortSymbols (sortSymbols names) = sortSymbols names := by
  have hInjective : ∀ a b : String, (a, ()) = (b, ()) → a = b := by
    intro a b h
    exact congrArg Prod.fst h
  apply (List.map_inj_right hInjective).mp
  rw [sortSymbols_eq, sortSymbols_eq, Fields.ofList_of_sorted (Fields.sorted_ofList _)]

/-- The values of all cases in a program. -/
def caseValues (p : Program) : List Value :=
  p.instructions.flatMap Instruction.caseValues

/-- A program is read as it was written. -/
theorem ofValue?_toValue {p : Program} (hSymbols : sortSymbols p.symbols = p.symbols)
    (h : ∀ v ∈ p.caseValues, v.ordered = v) : ofValue? p.toValue = some p := by
  have hInstructions :
      (p.instructions.map Instruction.toValue).mapM Instruction.ofValue? = some p.instructions := by
    apply mapM_map_eq_some
    intro i hi
    apply Instruction.ofValue?_toValue
    intro v hv
    exact h v (List.mem_flatMap.mpr ⟨i, hi, hv⟩)
  have hNames : (p.symbols.map Value.string).mapM Value.string? = some p.symbols :=
    mapM_map_eq_some fun _ _ => rfl
  rw [ofValue?, toValue,
    Value.record?_object ["file", "instructions", "symbols", "requiresHost"] rfl (by decide)]
  simp [hInstructions, Value.strings?, Value.array?, hNames, hSymbols]

theorem faithful_toValue {p : Program} (h : ∀ v ∈ p.caseValues, v.Faithful) :
    p.toValue.Faithful := by
  have hInstructions : ∀ i ∈ p.instructions, i.toValue.Faithful := by
    intro i hi
    apply i.faithful_toValue
    intro v hv
    exact h v (List.mem_flatMap.mpr ⟨i, hi, hv⟩)
  have hHost : (Value.bool p.requiresHost).Faithful := by
    intro n hn
    cases hn
  simpa [toValue, Value.faithful_object, Value.faithful_array, Value.faithful_string, hHost]
    using hInstructions

end Program

end LiveMarkup
