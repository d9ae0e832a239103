import LiveMarkup.Proofs.Store.Entries

/-!
# A cache answers as the compiler does

Whatever is asked of a cache, in whatever order, and whatever becomes of its files in between: as
long as no file gets an entry that the cache did not write, a program that it answers is the one
that the compiler makes of the same markup text with the same options. The digest must not collide
on the requests of the run, and floating-point literals must be read back as they were written.

* `Cache.Deed`, `Cache.Desk.play`: what is done with a cache, and the answers to it;
* `Cache.Vouched`: all that is kept, in memory and on file, is what the compiler makes;
* `Cache.Desk.play_right`: every answer of a run is right, and every key text stands for one request.
-/

namespace LiveMarkup.Cache

/-! ## Deeds -/

/-- What is done with a cache: requests, forgetting what is in memory, opening a new cache on the
directory, and a change of the files from outside. -/
inductive Deed where
  | getOrCompile (markup : String) (options : Options)
  | get (markup : String) (options : Options)
  | precompile (sources : List (String × Options))
  | clear
  | reopen
  | meddle (files : Files)

/-- What a deed is answered. -/
inductive Answer where
  | compiled (result : Except Diagnostic Program)
  | found (program : Option Program)
  | all (results : List (Except Diagnostic Program))
  | done

/-- The markup texts with their options that a deed asks for. -/
def Deed.requests : Deed → List (String × Options)
  | getOrCompile markup options => [(markup, options)]
  | get markup options => [(markup, options)]
  | precompile sources => sources
  | clear => []
  | reopen => []
  | meddle _ => []

/-- An answer is what the compiler gives; only a `get` may have none. -/
def Deed.Right : Deed → Answer → Prop
  | getOrCompile markup options, .compiled result => result = Program.compile markup options
  | get markup options, .found program =>
    ∀ p, program = some p → Program.compile markup options = .ok p
  | precompile sources, .all results =>
    results = sources.map fun x => Program.compile x.1 x.2
  | clear, .done => True
  | reopen, .done => True
  | meddle _, .done => True
  | _, _ => False

/-- A content that is not read as an entry. -/
def Unreadable (content : FileContent) : Prop :=
  ∀ text, content.text? = some text → readEntry? text = none

/-- A cache with its files, and all contents that the files have had so far. -/
structure Desk where
  cache : Cache
  files : Files
  seen : List FileContent

namespace Desk

/-- A cache that is opened on some files. -/
def opened (directory : Option String) (files : Files) : Desk :=
  ⟨{ directory }, files, files.map (·.2)⟩

/-- The desk with another cache and other files. -/
def moveTo (d : Desk) (cache : Cache) (files : Files) : Desk :=
  ⟨cache, files, d.seen ++ files.map (·.2)⟩

/-- Does a deed. -/
def perform (d : Desk) : Deed → Answer × Desk
  | .getOrCompile markup options =>
    let (result, cache, files) := d.cache.getOrCompile d.files markup options
    (.compiled result, d.moveTo cache files)
  | .get markup options =>
    let (program, cache, files) := d.cache.get? d.files markup options
    (.found program, d.moveTo cache files)
  | .precompile sources =>
    let (results, cache, files) := d.cache.precompile d.files sources
    (.all results, d.moveTo cache files)
  | .clear => (.done, d.moveTo d.cache.clear d.files)
  | .reopen => (.done, d.moveTo { directory := d.cache.directory } d.files)
  | .meddle files => (.done, d.moveTo d.cache files)

/-- The answers to a series of deeds. -/
def play (d : Desk) : List Deed → List (Deed × Answer)
  | [] => []
  | deed :: rest => (deed, (d.perform deed).1) :: (d.perform deed).2.play rest

/-- Changes from outside leave only contents that some file has had before, whatever its name, and
contents that are not read as entries. -/
def Fair (d : Desk) : List Deed → Prop
  | [] => True
  | deed :: rest =>
    (∀ files, deed = .meddle files → ∀ x ∈ files, x.2 ∈ d.seen ∨ Unreadable x.2) ∧
      (d.perform deed).2.Fair rest

theorem fair_cons {d : Desk} {deed : Deed} {rest : List Deed} (h : ∀ files, deed ≠ .meddle files) :
    d.Fair (deed :: rest) ↔ (d.perform deed).2.Fair rest := by
  constructor
  · intro hFair
    exact hFair.2
  · intro hRest
    exact ⟨fun files hEq => absurd hEq (h files), hRest⟩

end Desk

/-! ## What is kept -/

/-- The digest does not collide on some requests, and the floating-point literals of their programs
are read back. -/
structure Clean (asked : List (String × Options)) : Prop where
  distinct : ∀ x ∈ asked, ∀ y ∈ asked, key x.1 x.2 = key y.1 y.2 → keyText x.1 x.2 = keyText y.1 y.2
  floats : ∀ x ∈ asked, ∀ p, Program.compile x.1 x.2 = .ok p → p.FaithfulFloats

/-- A program under a key is the one that the compiler makes of a request with this key. -/
def Stems (asked : List (String × Options)) (key : String) (p : Program) : Prop :=
  ∃ x ∈ asked, Cache.key x.1 x.2 = key ∧ Program.compile x.1 x.2 = .ok p

/-- If a content is read as an entry, its program stems from a request. -/
def Genuine (asked : List (String × Options)) (content : FileContent) : Prop :=
  ∀ text, content.text? = some text → ∀ key p, readEntry? text = some (key, p) → Stems asked key p

/-- All programs in memory and on file stem from requests. -/
structure Vouched (asked : List (String × Options)) (c : Cache) (files : Files) : Prop where
  memory : ∀ x ∈ c.programs, Stems asked x.1 x.2
  files : ∀ x ∈ files, Genuine asked x.2

variable {asked : List (String × Options)} {c : Cache} {files : Files} {markup : String}
  {options : Options}

theorem genuine_of_unreadable {content : FileContent} (h : Unreadable content) :
    Genuine asked content := by
  intro text hText key p hRead
  rw [h text hText] at hRead
  cases hRead

theorem stems_of_asked {p : Program} (hAsked : (markup, options) ∈ asked)
    (h : Program.compile markup options = .ok p) : Stems asked (key markup options) p :=
  ⟨(markup, options), hAsked, rfl, h⟩

namespace Clean

/-- What stems from a request under the key of another is what the compiler makes of the other. -/
theorem compile_of_stems (hClean : Clean asked) (hAsked : (markup, options) ∈ asked) {p : Program}
    (h : Stems asked (key markup options) p) : Program.compile markup options = .ok p := by
  obtain ⟨x, hx, hKey, hCompile⟩ := h
  obtain ⟨rfl, rfl⟩ := keyText_inj (hClean.distinct x hx (markup, options) hAsked hKey)
  exact hCompile

theorem genuine_entry (hClean : Clean asked) (hAsked : (markup, options) ∈ asked) {p : Program}
    (h : Program.compile markup options = .ok p) :
    Genuine asked (.text (entryText (key markup options) p)) := by
  intro text hText other q hRead
  obtain rfl := Option.some.inj hText
  rw [readEntry?_entryText h (hClean.floats _ hAsked p h)] at hRead
  split at hRead
  · obtain ⟨rfl, rfl⟩ := Prod.mk.inj (Option.some.inj hRead)
    exact stems_of_asked hAsked h
  · cases hRead

end Clean

namespace Vouched

theorem remember (h : Vouched asked c files) {key : String} {p : Program}
    (hStems : Stems asked key p) : Vouched asked (c.remember key p) files := by
  constructor
  · intro x hx
    rcases Fields.mem_insert hx with rfl | hx
    · exact hStems
    · exact h.memory x hx
  · exact h.files

/-- What is loaded stems from a request, and loading leaves no new content. -/
theorem load (h : Vouched asked c files) (key : String) :
    (∀ p, (c.load files key).1 = some p → Stems asked key p) ∧
      Vouched asked c (c.load files key).2 := by
  rw [Cache.load]
  split
  · exact ⟨by simp, h⟩
  · rename_i path _
    split
    · exact ⟨by simp, h⟩
    · rename_i text hText
      split
      · refine ⟨by simp, h.memory, ?_⟩
        intro x hx
        exact h.files x (Files.mem_erase hx)
      · rename_i other q hRead
        refine ⟨?_, h⟩
        intro p hp
        split at hp
        · rename_i hEq
          obtain rfl := Option.some.inj hp
          rw [← eq_of_beq hEq]
          exact h.files _ (Files.mem_of_readText? hText) text rfl _ _ hRead
        · cases hp

theorem get? (h : Vouched asked c files) (markup : String) (options : Options) :
    (∀ p, (c.get? files markup options).1 = some p → Stems asked (key markup options) p) ∧
      Vouched asked (c.get? files markup options).2.1 (c.get? files markup options).2.2 := by
  rw [Cache.get?]
  split
  · rename_i p hp
    refine ⟨?_, h⟩
    intro q hq
    obtain rfl := Option.some.inj hq
    exact h.memory _ (Fields.mem_of_get? hp)
  · obtain ⟨hProgram, hAfter⟩ := h.load (key markup options)
    split
    · rename_i p files' hLoad
      rw [hLoad] at hProgram hAfter
      have hStems := hProgram p rfl
      refine ⟨?_, hAfter.remember hStems⟩
      intro q hq
      obtain rfl := Option.some.inj hq
      exact hStems
    · rename_i files' hLoad
      rw [hLoad] at hAfter
      exact ⟨by simp, hAfter⟩

theorem store (h : Vouched asked c files) {key : String} {p : Program}
    (hEntry : Genuine asked (.text (entryText key p))) :
    Vouched asked c (c.store files key p) := by
  refine ⟨h.memory, ?_⟩
  rw [Cache.store]
  split
  · exact h.files
  · intro x hx
    rcases Files.mem_put hx with rfl | hx
    · exact hEntry
    · exact h.files x hx

/-- A request is answered as the compiler does, and what is kept stems from it. -/
theorem getOrCompile (h : Vouched asked c files) (hClean : Clean asked)
    (hAsked : (markup, options) ∈ asked) :
    (c.getOrCompile files markup options).1 = Program.compile markup options ∧
      Vouched asked (c.getOrCompile files markup options).2.1
        (c.getOrCompile files markup options).2.2 := by
  obtain ⟨hFound, hAfter⟩ := h.get? markup options
  rw [Cache.getOrCompile]
  split
  · rename_i p c' files' hGet
    rw [hGet] at hFound hAfter
    have hCompile := hClean.compile_of_stems hAsked (hFound p rfl)
    exact ⟨hCompile.symm, hAfter.memory, hAfter.files⟩
  · rename_i c' files' hGet
    rw [hGet] at hAfter
    have hMissed : Vouched asked { c' with misses := c'.misses + 1 } files' :=
      ⟨hAfter.memory, hAfter.files⟩
    dsimp only
    split
    · rename_i e hCompile
      exact ⟨hCompile.symm, hMissed⟩
    · rename_i p hCompile
      have hStored := hMissed.store (hClean.genuine_entry hAsked hCompile)
      exact ⟨hCompile.symm, hStored.remember (stems_of_asked hAsked hCompile)⟩

theorem precompile (hClean : Clean asked) : ∀ {sources : List (String × Options)} {c : Cache}
    {files : Files}, Vouched asked c files → (∀ x ∈ sources, x ∈ asked) →
    (c.precompile files sources).1 = sources.map (fun x => Program.compile x.1 x.2) ∧
      Vouched asked (c.precompile files sources).2.1 (c.precompile files sources).2.2 := by
  intro sources
  induction sources with
  | nil =>
    intro c files h _
    exact ⟨rfl, h⟩
  | cons x rest ih =>
    intro c files h hSources
    obtain ⟨hFirst, hAfter⟩ := h.getOrCompile hClean (hSources x List.mem_cons_self)
    obtain ⟨hRest, hEnd⟩ := ih hAfter fun y hy => hSources y (List.mem_cons_of_mem _ hy)
    refine ⟨?_, hEnd⟩
    rw [List.map_cons, ← hFirst, ← hRest]
    rfl

end Vouched

/-! ## Runs -/

namespace Desk

/-- All that is kept, and all that has been on file, stems from requests. -/
structure Vouched (asked : List (String × Options)) (d : Desk) : Prop where
  kept : Cache.Vouched asked d.cache d.files
  seen : ∀ content ∈ d.seen, Genuine asked content

variable {d : Desk}

theorem Vouched.moveTo (h : d.Vouched asked) (hKept : Cache.Vouched asked c files) :
    (d.moveTo c files).Vouched asked := by
  refine ⟨hKept, ?_⟩
  intro content hContent
  rcases List.mem_append.mp hContent with hContent | hContent
  · exact h.seen content hContent
  · obtain ⟨x, hx, rfl⟩ := List.mem_map.mp hContent
    exact hKept.files x hx

theorem mem_seen_perform (d : Desk) (deed : Deed) {x : String × FileContent}
    (h : x ∈ (d.perform deed).2.files) : x.2 ∈ (d.perform deed).2.seen := by
  cases deed <;> exact List.mem_append_right _ (List.mem_map.mpr ⟨x, h, rfl⟩)

/-- A deed is answered rightly, and afterwards all that is kept stems from requests again. -/
theorem Vouched.perform (h : d.Vouched asked) (hClean : Clean asked) {deed : Deed}
    (hAsked : ∀ x ∈ deed.requests, x ∈ asked)
    (hFair : ∀ files, deed = .meddle files → ∀ x ∈ files, x.2 ∈ d.seen ∨ Unreadable x.2) :
    deed.Right (d.perform deed).1 ∧ (d.perform deed).2.Vouched asked := by
  cases deed with
  | getOrCompile markup options =>
    obtain ⟨hRight, hAfter⟩ := h.kept.getOrCompile hClean (hAsked _ List.mem_cons_self)
    exact ⟨hRight, h.moveTo hAfter⟩
  | get markup options =>
    obtain ⟨hFound, hAfter⟩ := h.kept.get? markup options
    refine ⟨?_, h.moveTo hAfter⟩
    intro p hp
    exact hClean.compile_of_stems (hAsked _ List.mem_cons_self) (hFound p hp)
  | precompile sources =>
    obtain ⟨hRight, hAfter⟩ := Cache.Vouched.precompile hClean h.kept hAsked
    exact ⟨hRight, h.moveTo hAfter⟩
  | clear =>
    have hEmpty : Cache.Vouched asked d.cache.clear d.files := ⟨by simp [Cache.clear], h.kept.files⟩
    exact ⟨trivial, h.moveTo hEmpty⟩
  | reopen =>
    exact ⟨trivial, h.moveTo ⟨by simp, h.kept.files⟩⟩
  | meddle files =>
    refine ⟨trivial, h.moveTo ⟨h.kept.memory, ?_⟩⟩
    intro x hx
    rcases hFair files rfl x hx with hSeen | hUnreadable
    · exact h.seen _ hSeen
    · exact genuine_of_unreadable hUnreadable

theorem Vouched.play (hClean : Clean asked) : ∀ {deeds : List Deed} {d : Desk}, d.Vouched asked →
    (∀ x ∈ deeds.flatMap Deed.requests, x ∈ asked) → d.Fair deeds →
    ∀ e ∈ d.play deeds, e.1.Right e.2 := by
  intro deeds
  induction deeds with
  | nil =>
    intro d _ _ _ e he
    cases he
  | cons deed rest ih =>
    intro d h hAsked hFair e he
    rw [List.flatMap_cons] at hAsked
    obtain ⟨hRight, hAfter⟩ :=
      h.perform hClean (fun x hx => hAsked x (List.mem_append_left _ hx)) hFair.1
    rcases List.mem_cons.mp he with rfl | he
    · exact hRight
    · exact ih hAfter (fun x hx => hAsked x (List.mem_append_right _ hx)) hFair.2 e he

/-- Every answer of a cache is the one of the compiler, in every run that starts from files without
entries, as long as the digest does not collide on the requests and floating-point literals are
read back. A key text stands for one markup text with one set of options. -/
theorem play_right {directory : Option String} {files : Files} {deeds : List Deed}
    (hFiles : ∀ x ∈ files, Unreadable x.2) (hFair : (opened directory files).Fair deeds)
    (hClean : Clean (deeds.flatMap Deed.requests)) :
    (∀ e ∈ (opened directory files).play deeds, e.1.Right e.2) ∧
      ∀ x y : String × Options, keyText x.1 x.2 = keyText y.1 y.2 → x = y := by
  constructor
  · have hGenuine : ∀ x ∈ files, Genuine (deeds.flatMap Deed.requests) x.2 :=
      fun x hx => genuine_of_unreadable (hFiles x hx)
    apply Vouched.play hClean _ (fun x hx => hx) hFair
    refine ⟨⟨by simp [opened], hGenuine⟩, ?_⟩
    intro content hContent
    obtain ⟨x, hx, rfl⟩ := List.mem_map.mp hContent
    exact hGenuine x hx
  · intro x y h
    obtain ⟨hMarkup, hOptions⟩ := keyText_inj h
    exact Prod.ext hMarkup hOptions

/-- A text is compiled, its file is copied and something else is put beside it. Then the text is
asked for from a cache that is opened anew, alone and together with another. -/
def copying (d : Desk) (x other : String × Options) : List Deed :=
  let first := Deed.getOrCompile x.1 x.2
  let copies := (d.perform first).2.files.map fun y => ("cache/copy.json", y.2)
  [first, .meddle (("cache/other.json", .text "no entry") :: copies), .reopen, .get x.1 x.2,
    .precompile [other, x]]

theorem copying_fair (d : Desk) (x other : String × Options) : d.Fair (d.copying x other) := by
  have hText : Unreadable (.text "no entry") := by
    intro text hText
    obtain rfl := Option.some.inj hText
    have hNone : Json.read? "no entry" = none := by decide +kernel
    unfold readEntry?
    rw [hNone]
    rfl
  rw [copying, fair_cons (by simp)]
  constructor
  · intro files hEq y hy
    obtain rfl := Deed.meddle.inj hEq
    rcases List.mem_cons.mp hy with rfl | hy
    · exact .inr hText
    · obtain ⟨z, hz, rfl⟩ := List.mem_map.mp hy
      have hSeen := d.mem_seen_perform _ hz
      exact .inl hSeen
  · rw [fair_cons (by simp), fair_cons (by simp), fair_cons (by simp)]
    trivial

theorem requests_copying (d : Desk) (x other : String × Options) :
    ∀ y ∈ (d.copying x other).flatMap Deed.requests, y = x ∨ y = other := by
  intro y hy
  simp only [copying, Deed.requests, List.flatMap_cons, List.flatMap_nil, List.append_nil,
    List.nil_append, List.mem_append, List.mem_cons, List.not_mem_nil, or_false] at hy
  rcases hy with rfl | rfl | rfl | rfl
  · exact .inl rfl
  · exact .inl rfl
  · exact .inr rfl
  · exact .inl rfl

theorem clean_copying (d : Desk) {x other : String × Options}
    (hKeys : key x.1 x.2 ≠ key other.1 other.2)
    (hFirst : ∀ p, Program.compile x.1 x.2 = .ok p → p.FaithfulFloats)
    (hOther : ∀ p, Program.compile other.1 other.2 = .ok p → p.FaithfulFloats) :
    Clean ((d.copying x other).flatMap Deed.requests) := by
  have hCases := d.requests_copying x other
  constructor
  · intro y hy z hz hEq
    rcases hCases y hy with rfl | rfl <;> rcases hCases z hz with rfl | rfl
    · rfl
    · exact absurd hEq hKeys
    · exact absurd hEq.symm hKeys
    · rfl
  · intro y hy
    rcases hCases y hy with rfl | rfl
    · exact hFirst
    · exact hOther

theorem copied_right :
    (∀ e ∈ (opened (some "cache") []).play
        ((opened (some "cache") []).copying ("<q><q></q></q>", {}) ("<q *nope>", {})),
      e.1.Right e.2) ∧
      ∀ x y : String × Options, keyText x.1 x.2 = keyText y.1 y.2 → x = y := by
  apply play_right (by simp) (copying_fair _ _ _)
  apply clean_copying
  · decide +kernel
  · intro p hp
    obtain ⟨q, hq, hFloats, -⟩ : ∃ q, Program.compile "<q><q></q></q>" {} = .ok q ∧
        q.FaithfulFloats ∧ q.toValue.depth = 2 * 1 + 4 :=
      Program.of_isNest (by decide +kernel)
    obtain rfl := Except.ok.inj (hp.symm.trans hq)
    exact hFloats
  · have hError : (Program.compile "<q *nope>" {}).isOk = false := by decide +kernel
    intro p hp
    dsimp only at hp
    rw [hp] at hError
    cases hError

end Desk

end LiveMarkup.Cache
