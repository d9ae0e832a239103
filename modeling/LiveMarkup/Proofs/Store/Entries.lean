import LiveMarkup.Proofs.Program.Literals
import LiveMarkup.Store.Cache

/-!
# The store of a cache

A file that was put is found, and no other content comes into the store. A written option text has
no NUL, since strings escape it, so that the first NUL of a key text ends the options. The entry of
a compiled program is read as its key and its program, unless it is nested too deep for the reader.

What a cache compiles and stores, a new cache on the same directory finds again, if the reader can
go as deep as the program. It goes 127 deep into arrays and objects and the entry is one of them, so
that a program may nest 126 deep; the writer has no such limit. An element takes two of them, one
for itself and one for its children.

* `Files.get?_put`, `Files.mem_put`: a file that was put;
* `Cache.keyText_inj`: a key text stands for one markup text with one set of options;
* `Cache.readEntry?_entryText`: an entry is read back if its program nests at most 126 deep;
* `Cache.get?_reopened`: what a new cache finds;
* `Cache.nested_forgotten`: sixty-three elements in each other are not found.
-/

/-! ## Files, key texts and entries of a cache -/

namespace LiveMarkup

/-! ### Files -/

namespace Files

variable {files : Files} {path : String} {content : FileContent}

theorem mem_erase {x : String × FileContent} (h : x ∈ files.erase path) : x ∈ files :=
  (List.mem_filter.mp h).1

theorem mem_of_get? (h : files.get? path = some content) : (path, content) ∈ files := by
  obtain ⟨x, hFind, rfl⟩ := Option.map_eq_some_iff.mp h
  have hPath : x.1 = path := by simpa using List.find?_some hFind
  rw [← hPath]
  exact List.mem_of_find?_eq_some hFind

theorem mem_of_readText? {text : String} (h : files.readText? path = some text) :
    (path, .text text) ∈ files := by
  obtain ⟨content, hGet, hText⟩ := Option.bind_eq_some_iff.mp h
  cases content with
  | text s =>
    obtain rfl := Option.some.inj hText
    exact mem_of_get? hGet
  | binary bytes => cases hText

theorem mem_put {x : String × FileContent} (h : x ∈ files.put path content) :
    x = (path, content) ∨ x ∈ files := by
  rcases List.mem_append.mp h with h | h
  · exact .inr (mem_erase ((List.takeWhile_sublist _).subset h))
  · rcases List.mem_cons.mp h with h | h
    · exact .inl h
    · exact .inr (mem_erase ((List.dropWhile_sublist _).subset h))

/-- A file that was put is found. -/
theorem get?_put (files : Files) (path : String) (content : FileContent) :
    (files.put path content).get? path = some content := by
  have hOthers : ∀ x ∈ (files.erase path).takeWhile (fun x => comesBefore x.1 path),
      ¬ (x.1 == path) = true := by
    intro x hx
    have hErase := (List.takeWhile_sublist _).subset hx
    simpa [erase] using (List.mem_filter.mp hErase).2
  have hNone := List.find?_eq_none.mpr hOthers
  rw [get?, put, List.find?_append, hNone]
  simp

theorem readText?_put (files : Files) (path text : String) :
    (files.put path (.text text)).readText? path = some text := by
  rw [readText?, get?_put]
  rfl

end Files

/-! ### Key texts -/

theorem Json.nul_not_mem_quote (s : String) : '\x00' ∉ quote s := by
  have hDigit : ∀ n < 16, Text.hexDigit n ≠ '\x00' := by decide
  have hEscape : ∀ c : Char, '\x00' ∉ escapeChar c := by
    intro c hc
    unfold escapeChar at hc
    split_ifs at hc with _ _ _ _ _ _ _ hControl
    all_goals try simp at hc
    · rcases hc with hc | hc
      · exact hDigit _ (by omega) hc.symm
      · exact hDigit _ (by omega) hc.symm
    · rw [← hc] at hControl
      exact hControl (by decide)
  simp [quote, hEscape]

theorem Options.nul_not_mem_text (o : Options) : '\x00' ∉ o.toValue.text.toList := by
  obtain ⟨file, keepBlanks, restoreCase⟩ := o
  cases keepBlanks <;> cases restoreCase <;>
    simp [toValue, Value.text, Value.chars, Value.fieldChars, Json.nul_not_mem_quote]

theorem Options.text_inj {o other : Options} (h : o.toValue.text = other.toValue.text) :
    o = other := by
  have hRead : ∀ o : Options, Json.read? o.toValue.text = some o.toValue := by
    intro o
    have hFaithful : o.toValue.Faithful := by
      simp [toValue, Value.Faithful, Value.numbers, Value.numbersOfFields]
    rw [Json.read?_text hFaithful, if_pos]
    simp [toValue, Value.depth, Value.depth.fieldDepth]
  have hValue : o.toValue = other.toValue := by
    apply Option.some.inj
    rw [← hRead, h, hRead]
  cases o
  cases other
  simpa [toValue] using hValue

/-- What stands before and after the first of two equal marks. -/
theorem append_cons_inj {α : Type} {a : α} {xs xs' ys ys' : List α} (h : a ∉ xs) (h' : a ∉ xs')
    (hEq : xs ++ a :: ys = xs' ++ a :: ys') : xs = xs' ∧ ys = ys' := by
  induction xs generalizing xs' with
  | nil =>
    cases xs' with
    | nil => exact ⟨rfl, List.tail_eq_of_cons_eq hEq⟩
    | cons x' xs' =>
      obtain rfl := List.head_eq_of_cons_eq hEq
      exact absurd List.mem_cons_self h'
  | cons x xs ih =>
    cases xs' with
    | nil =>
      obtain rfl := List.head_eq_of_cons_eq hEq
      exact absurd List.mem_cons_self h
    | cons x' xs' =>
      obtain rfl := List.head_eq_of_cons_eq hEq
      obtain ⟨rfl, hRest⟩ := ih (fun hMem => h (List.mem_cons_of_mem _ hMem))
        (fun hMem => h' (List.mem_cons_of_mem _ hMem)) (List.tail_eq_of_cons_eq hEq)
      exact ⟨rfl, hRest⟩

namespace Cache

/-- A key text stands for one markup text with one set of options. -/
theorem keyText_inj {markup other : String} {options others : Options}
    (h : keyText markup options = keyText other others) : markup = other ∧ options = others := by
  have hList : options.toValue.text.toList ++ '\x00' :: markup.toList =
      others.toValue.text.toList ++ '\x00' :: other.toList := by
    simpa [keyText] using congrArg String.toList h
  obtain ⟨hOptions, hMarkup⟩ :=
    append_cons_inj options.nul_not_mem_text others.nul_not_mem_text hList
  exact ⟨String.toList_inj.mp hMarkup, Options.text_inj (String.toList_inj.mp hOptions)⟩

/-! ### Entries -/

theorem depth_entry (key : String) (v : Value) :
    (Value.object [("hash", .string key), ("program", v)]).depth = v.depth + 1 := by
  simp [Value.depth, Value.depth.fieldDepth]

/-- The entry of a compiled program is read back, unless it is nested too deep. -/
theorem readEntry?_entryText {markup : String} {options : Options} {p : Program}
    (h : Program.compile markup options = .ok p) (hFloats : p.FaithfulFloats) (key : String) :
    readEntry? (entryText key p) = if p.toValue.depth ≤ 126 then some (key, p) else none := by
  have hFaithful :
      (Value.object [("hash", .string key), ("program", p.toValue)]).Faithful := by
    simp [Value.faithful_object, Value.faithful_string, Program.faithful_of_compile h hFloats]
  unfold readEntry?
  rw [entryText, Json.read?_text hFaithful, depth_entry]
  by_cases hDeep : p.toValue.depth ≤ 126
  · rw [if_pos hDeep, if_pos (by omega)]
    simp [Value.record?_object ["hash", "program"], Program.ofValue?_of_compile h]
  · rw [if_neg hDeep, if_neg (by omega)]
    rfl

end Cache

end LiveMarkup

/-! ## A new cache on the directory of another -/

namespace LiveMarkup.Cache

variable {c : Cache} {files : Files} {directory markup : String} {options : Options} {p : Program}

/-- A cache with nothing in memory finds the program that is stored for a request. -/
theorem get?_stored (hDirectory : c.directory = some directory)
    (hCompile : Program.compile markup options = .ok p) (hFloats : p.FaithfulFloats) :
    (({ directory := some directory } : Cache).get? (c.store files (key markup options) p) markup
      options).1 = if p.toValue.depth ≤ 126 then some p else none := by
  have hPath : c.path? (key markup options) =
      some (directory ++ "/" ++ key markup options ++ ".json") := by
    rw [path?, hDirectory]
    rfl
  rw [get?, Fields.get?, store, hPath]
  simp only [load, path?, Option.map_some, Files.readText?_put,
    readEntry?_entryText hCompile hFloats]
  by_cases hDeep : p.toValue.depth ≤ 126 <;> simp [hDeep]

/-- A request that is not there is compiled and stored. -/
theorem getOrCompile_of_miss (hMiss : (c.get? files markup options).1 = none)
    (hCompile : Program.compile markup options = .ok p) :
    (c.getOrCompile files markup options).1 = .ok p ∧
      (c.getOrCompile files markup options).2.2 =
        (c.get? files markup options).2.1.store (c.get? files markup options).2.2
          (key markup options) p := by
  generalize hGet : c.get? files markup options = found at hMiss
  obtain ⟨program, c', files'⟩ := found
  obtain rfl : program = none := hMiss
  simp [getOrCompile, hGet, hCompile, store, path?]

theorem directory_get? (c : Cache) (files : Files) (markup : String) (options : Options) :
    (c.get? files markup options).2.1.directory = c.directory := by
  rw [get?]
  split
  · rfl
  · split <;> rfl

/-- A new cache on the directory finds what the first one compiled and stored, if it does not nest
too deep. -/
theorem get?_reopened (hDirectory : c.directory = some directory)
    (hMiss : (c.get? files markup options).1 = none)
    (hCompile : Program.compile markup options = .ok p) (hFloats : p.FaithfulFloats) :
    (({ directory := some directory } : Cache).get? (c.getOrCompile files markup options).2.2 markup
      options).1 = if p.toValue.depth ≤ 126 then some p else none := by
  rw [(getOrCompile_of_miss hMiss hCompile).2]
  apply get?_stored _ hCompile hFloats
  rw [directory_get?, hDirectory]

theorem nested_reopened :
    ∃ p, Program.compile "<q><q></q></q>" {} = .ok p ∧
      (({ directory := some "cache" } : Cache).get?
        (({ directory := some "cache" } : Cache).getOrCompile [] "<q><q></q></q>" {}).2.2
        "<q><q></q></q>" {}).1 = some p := by
  obtain ⟨p, hCompile, hFloats, hDepth⟩ : ∃ p, Program.compile "<q><q></q></q>" {} = .ok p ∧
      p.FaithfulFloats ∧ p.toValue.depth = 2 * 1 + 4 :=
    Program.of_isNest (by decide +kernel)
  refine ⟨p, hCompile, ?_⟩
  rw [get?_reopened rfl rfl hCompile hFloats, if_pos (by omega)]

/-- Sixty-three elements in each other, which the end of the text closes. -/
def deepMarkup : String :=
  String.join (List.replicate 63 "<q>")

/-- They are compiled and stored, but a new cache does not find them. -/
theorem nested_forgotten :
    ∃ p, (({ directory := some "cache" } : Cache).getOrCompile [] deepMarkup {}).1 = .ok p ∧
      (({ directory := some "cache" } : Cache).getOrCompile [] deepMarkup {}).2.2 =
        ({ directory := some "cache" } : Cache).store [] (key deepMarkup {}) p ∧
      (({ directory := some "cache" } : Cache).get?
        (({ directory := some "cache" } : Cache).getOrCompile [] deepMarkup {}).2.2
        deepMarkup {}).1 = none := by
  obtain ⟨p, hCompile, hFloats, hDepth⟩ : ∃ p, Program.compile deepMarkup {} = .ok p ∧
      p.FaithfulFloats ∧ p.toValue.depth = 2 * 62 + 4 :=
    Program.of_isNest (by decide +kernel)
  have hMiss : (({ directory := some "cache" } : Cache).get? [] deepMarkup {}).1 = none := rfl
  obtain ⟨hFirst, hFiles⟩ := getOrCompile_of_miss hMiss hCompile
  refine ⟨p, hFirst, hFiles, ?_⟩
  rw [hFiles, get?_stored rfl hCompile hFloats, if_neg (by omega)]

end LiveMarkup.Cache
