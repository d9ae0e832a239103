import LiveMarkup.Proofs.Live.Sustaining
import LiveMarkup.Proofs.Live.Session
import LiveMarkup.Proofs.Program.Roots

/-!
# Serving what is rendered

An instruction is served in a scope if every reference in it leads to a signal in the scope in
which it is read there, and a host is there if something asks for it. A compiled program is served
in every scope that binds its symbols, and what is served stays so when it is rendered, at once or
later on.

* `Scope.Entered`: the scope that the body of loops is rendered in;
* `Served`: what an instruction needs is there;
* `served_ofInstructions`: a program is served where its symbols are bound;
* `stocked_upkeep`: all operations put aside only what is served;
* `compiled_served`: all of this for compiled programs, with the converse.
-/

namespace LiveMarkup

/-! ## Fields -/

namespace Fields

variable {α : Type} {name : String}

theorem get?_insert_self (value : α) (fields : List (String × α)) :
    get? name (insert name value fields) = some value := by
  induction fields with
  | nil => simp [insert, get?]
  | cons x rest ih =>
    obtain ⟨other, old⟩ := x
    unfold insert
    split
    · simp [get?]
    · split
      next => simp [get?]
      next hNe => rw [get?, if_neg hNe, ih]

theorem isSome_get?_insert {other : String} (value : α) {fields : List (String × α)}
    (h : (get? name fields).isSome = true) :
    (get? name (insert other value fields)).isSome = true := by
  induction fields with
  | nil => cases h
  | cons x rest ih =>
    obtain ⟨first, old⟩ := x
    unfold insert
    split
    · rw [get?]
      split
      · rfl
      · exact h
    · split
      next hEq =>
        rw [get?] at h ⊢
        obtain rfl := beq_iff_eq.mp hEq
        split
        · rfl
        next hNe =>
          rw [if_neg hNe] at h
          exact h
      next =>
        rw [get?] at h ⊢
        split
        · rfl
        next hNe =>
          rw [if_neg hNe] at h
          exact ih h

theorem isSome_get?_ofList {fields : List (String × α)} (h : name ∈ fields.map (·.1)) :
    (get? name (ofList fields)).isSome = true := by
  have hFold : ∀ acc : List (String × α),
      name ∈ fields.map (·.1) ∨ (get? name acc).isSome = true →
      (get? name (fields.foldl (fun acc x => insert x.1 x.2 acc) acc)).isSome = true := by
    clear h
    induction fields with
    | nil =>
      rintro acc (h | h)
      · cases h
      · exact h
    | cons x rest ih =>
      rintro acc (h | h)
      · rcases List.mem_cons.mp h with rfl | h
        · exact ih _ (.inr (by rw [get?_insert_self]; rfl))
        · exact ih _ (.inl h)
      · exact ih _ (.inr (isSome_get?_insert x.2 h))
  exact hFold [] (.inl h)

end Fields

namespace Live

variable {κ σ : Type}

/-! ## Scopes of loops -/

namespace Scope

theorem lookup?_extend (s : Scope) (bindings : List (String × SignalId)) (name : String) :
    (s.extend bindings).lookup? name =
      (Fields.get? name (Fields.ofList bindings)).or (s.lookup? name) :=
  rfl

theorem isSome_lookup?_extend_of_mem {s : Scope} {bindings : List (String × SignalId)}
    {name : String} (h : name ∈ bindings.map (·.1)) :
    ((s.extend bindings).lookup? name).isSome = true := by
  rw [lookup?_extend, Option.isSome_or, Fields.isSome_get?_ofList h, Bool.true_or]

theorem isSome_lookup?_extend {s : Scope} (bindings : List (String × SignalId)) {name : String}
    (h : (s.lookup? name).isSome = true) :
    ((s.extend bindings).lookup? name).isSome = true := by
  rw [lookup?_extend, Option.isSome_or, Bool.or_eq_true]
  exact .inr h

theorem isSome_lookup?_frame {s : Scope} {loop : Loop} {item index : SignalId} {name : String}
    (h : name ∈ loop.names ∨ (s.lookup? name).isSome = true) :
    ((s.extend (loop.frame item index)).lookup? name).isSome = true := by
  rcases h with h | h
  · refine isSome_lookup?_extend_of_mem ?_
    simpa [Loop.frame, Loop.names, Function.comp_def] using h
  · exact isSome_lookup?_extend _ h

/-- The scopes that what is inside some loops, the innermost first, is rendered in: each loop adds
a frame with its item and its index. -/
inductive Entered (base : Scope) : List Loop → Scope → Prop where
  | base : Entered base [] base
  | item {loops : List Loop} {s : Scope} (h : Entered base loops s) (loop : Loop)
      (item index : SignalId) : Entered base (loop :: loops) (s.extend (loop.frame item index))

variable {base : Scope} {loops : List Loop} {s : Scope}

theorem Entered.isSome_lookup? (h : Entered base loops s) {name : String}
    (hName : name ∈ loops.flatMap Loop.names ∨ (base.lookup? name).isSome = true) :
    (s.lookup? name).isSome = true := by
  induction h with
  | base =>
    rcases hName with hName | hName
    · cases hName
    · exact hName
  | item h loop item index ih =>
    rw [List.flatMap_cons, List.mem_append, or_assoc] at hName
    exact isSome_lookup?_frame (hName.imp_right ih)

theorem Entered.under {loop : Loop} {item index : SignalId}
    (h : Entered (base.extend (loop.frame item index)) loops s) :
    Entered base (loops ++ [loop]) s := by
  induction h with
  | base => exact Entered.base.item loop item index
  | item _ inner item' index' ih => exact ih.item inner item' index'

end Scope

/-! ## What is served -/

/-- The references of an instruction itself lead to signals in a scope, and a host is there if it
asks for one. -/
structure Met (scope : Scope) (hosted : Bool) (i : Instruction) : Prop where
  resolves : ∀ path, .reference path ∈ i.ownSources → (DataPath.parse? path).isSome = true →
    scope.Resolves path
  hosted : i.AsksHost → hosted = true

/-- Whatever stands in an instruction is met in the scopes that it is rendered in. -/
def Served (scope : Scope) (hosted : Bool) (i : Instruction) : Prop :=
  ∀ loops j s, i.Within loops j → scope.Entered loops s → Met s hosted j

namespace Served

variable {scope : Scope} {hosted : Bool} {i j : Instruction}

theorem met (h : Served scope hosted i) : Met scope hosted i :=
  h [] i scope (.refl i) .base

theorem part (h : Served scope hosted i) (hPart : (none, j) ∈ i.parts) : Served scope hosted j := by
  intro loops k s hk hs
  refine h loops k s ?_ hs
  simpa using ((Instruction.Within.refl i).part hPart).trans hk

theorem item {loop : Loop} {body : Instruction} (h : Served scope hosted (.forLoop loop body))
    (item index : SignalId) : Served (scope.extend (loop.frame item index)) hosted body := by
  intro loops k s hk hs
  refine h (loops ++ [loop]) k s ?_ hs.under
  have hBody : (some loop, body) ∈ (Instruction.forLoop loop body).parts :=
    List.mem_singleton.mpr rfl
  simpa using ((Instruction.Within.refl (.forLoop loop body)).part hBody).trans hk

end Served

/-- A program is served in a scope that binds its symbols, with a host if it needs one. -/
theorem served_ofInstructions {file : String} {instructions : List Instruction} {base : Scope}
    {hosted : Bool}
    (hBase : ∀ name ∈ (Program.ofInstructions file instructions).symbols,
      (base.lookup? name).isSome = true)
    (hHost : (Program.ofInstructions file instructions).requiresHost = true → hosted = true)
    {i : Instruction} (hi : i ∈ instructions) : Served base hosted i := by
  intro loops j s hj hs
  constructor
  · intro path hPath hParse
    obtain ⟨p, hp⟩ := Option.isSome_iff_exists.mp hParse
    refine ⟨p, hp, hs.isSome_lookup? ?_⟩
    -- Either a loop on the way binds the root, or the program takes it from its data.
    by_cases hBound : p.root ∈ loops.flatMap Loop.names
    · exact .inl hBound
    · refine .inr (hBase p.root (Program.mem_symbols_iff.mpr ?_))
      exact ⟨i, hi, loops, j, hj, ⟨_, hPath, DataPath.parse?_root hp⟩, hBound⟩
  · intro hAsks
    exact hHost (Program.requiresHost_iff.mpr ⟨i, hi, loops, j, hj, hAsks⟩)

/-! ## Documents that serve what they render -/

/-- The faults that come up where all is served: operations on nodes are refused, a path cannot be
parsed, or the client refuses. -/
inductive Fault.Served (own : Fault → Prop) : Fault → Prop where
  | structural {e : Fault} (h : e.IsStructural) : Served own e
  | unparsed {path : String} (h : DataPath.parse? path = none) :
      Served own (.unresolvedSymbol ((ValueSource.reference path).root?.getD path))
  | own {e : Fault} (h : own e) : Served own e

/-- The terms of a client that renders only what is served, with faults of its own. -/
def Terms.serving (own : Fault → Prop) : Terms κ where
  fault := Fault.Served own
  rendered := Live.Served
  loose _ := True

theorem Stocked.congr {B : Scope → Bool → Instruction → Prop} {l l' : Live κ σ} (h : Stocked B l)
    (hConditionals : l'.conditionals = l.conditionals) (hSwitches : l'.switches = l.switches)
    (hSeries : l'.series = l.series) : Stocked B l' := by
  constructor
  · rw [hConditionals]
    exact h.conditionals
  · rw [hSwitches]
    exact h.cases
  · rw [hSwitches]
    exact h.defaults
  · rw [hSeries]
    exact h.series

theorem exists_of_mem_modify {α : Type} {xs : Array α} {i : Nat} {f : α → α} {x : α}
    (h : x ∈ xs.modify i f) : ∃ y ∈ xs, x = y ∨ x = f y := by
  obtain ⟨j, hj, rfl⟩ := Array.mem_iff_getElem.mp h
  rw [Array.size_modify] at hj
  refine ⟨xs[j], Array.getElem_mem hj, ?_⟩
  rw [Array.getElem_modify]
  split
  · exact .inr rfl
  · exact .inl rfl

theorem stocked_upkeep (own : Fault → Prop) :
    Upkeep (Stocked Live.Served : Live κ σ → Prop) (Fault.Served own) Live.Served where
  congr h hAside := h.congr hAside.conditionals hAside.switches hAside.series
  newSignal _ _ h := h.congr rfl rfl rfl
  setValue _ _ _ h := h.congr rfl rfl rfl
  setSource _ _ _ h := h.congr rfl rfl rfl
  watchDerived _ _ _ _ h := h.congr rfl rfl rfl
  unwatch _ _ _ h := h.congr rfl rfl rfl
  newSubscription _ _ h := h.congr rfl rfl rfl
  register h _ := h.congr rfl rfl rfl
  unregister h _ := h.congr rfl rfl rfl
  setListening _ h _ _ := h.congr rfl rfl rfl
  stocked h := h
  addConditional h hFits := by
    refine ⟨fun x hx => ?_, h.cases, h.defaults, h.series⟩
    rcases Array.mem_push.mp hx with hx | rfl
    · exact h.conditionals x hx
    · exact hFits
  addSwitch h hCases hDefaults := by
    refine ⟨h.conditionals, fun x hx => ?_, fun x hx => ?_, h.series⟩
    · rcases Array.mem_push.mp hx with hx | rfl
      · exact h.cases x hx
      · exact hCases
    · rcases Array.mem_push.mp hx with hx | rfl
      · exact h.defaults x hx
      · exact hDefaults
  addSeries h hFits := by
    refine ⟨h.conditionals, h.cases, h.defaults, fun x hx => ?_⟩
    rcases Array.mem_push.mp hx with hx | rfl
    · exact h.series x hx
    · exact hFits
  modifyConditional c f hSame l h := by
    refine ⟨fun x hx => ?_, h.cases, h.defaults, h.series⟩
    obtain ⟨y, hy, rfl | rfl⟩ := exists_of_mem_modify hx
    · exact h.conditionals _ hy
    · rw [hSame]
      exact h.conditionals y hy
  modifySwitch s f hSame l h := by
    refine ⟨h.conditionals, fun x hx => ?_, fun x hx => ?_, h.series⟩
    · obtain ⟨y, hy, rfl | rfl⟩ := exists_of_mem_modify hx
      · exact h.cases _ hy
      · rw [(hSame y).1]
        exact h.cases y hy
    · obtain ⟨y, hy, rfl | rfl⟩ := exists_of_mem_modify hx
      · exact h.defaults _ hy
      · rw [(hSame y).2]
        exact h.defaults y hy
  modifySeries s f hSame l h := by
    refine ⟨h.conditionals, h.cases, h.defaults, fun x hx => ?_⟩
    obtain ⟨y, hy, rfl | rfl⟩ := exists_of_mem_modify hx
    · exact h.series _ hy
    · rw [hSame]
      exact h.series y hy
  structural h := .structural h
  part h hPart := h.part hPart
  item item index h := h.item item index
  unresolved {scope hosted i path} h hPath hNot := by
    refine .unparsed (Option.not_isSome_iff_eq_none.mp fun hParse => ?_)
    exact hNot (h.met.resolves path hPath hParse)
  unhosted h hAsks := absurd (h.met.hosted hAsks) Bool.false_ne_true

/-- Calls of a client that renders only what is served. -/
theorem serving_upTo {own : Fault → Prop} {client : Client κ σ}
    (hClient : client.Scripted (.serving own)) (depth : Nat) :
    Keeping (Stocked Live.Served) (Fault.Served own) Live.Served (Calls.upTo client depth) :=
  (stocked_upkeep own).upTo (T := .serving own) (fun _ _ _ _ h => h.congr rfl rfl rfl) hClient depth

theorem serving_script {own : Fault → Prop} {client : Client κ σ}
    (hClient : client.Scripted (.serving own)) (depth : Nat) {α : Type} {op : Act κ σ α}
    (h : Script (Calls.upTo client depth) (.serving own) op) :
    Sustains (Stocked Live.Served) (Fault.Served own) op :=
  (stocked_upkeep own).script (T := .serving own) (fun _ _ _ _ h => h.congr rfl rfl rfl)
    (serving_upTo hClient depth) h

/-- In a scope that binds the symbols of a compiled program, with a host if it requires one, every
reference whose path can be parsed resolves where it is read, and nothing misses the host: neither
when the program is rendered nor in whatever comes after it. Its symbols are the roots of references
that no loop around them binds, it requires a host only where something asks for one, and parsing a
path finds the root that it is compiled with. -/
theorem compiled_served {α : Type} {registry : Registry} {markup : String} {options : Options}
    {program : Program} (h : Program.compileWith registry markup options = .ok program) :
    (∀ (base : Scope) (hosted : Bool),
      (∀ name ∈ program.symbols, (base.lookup? name).isSome = true) →
      (program.requiresHost = true → hosted = true) →
      (∀ i ∈ program.instructions, ∀ loops j scope, i.Within loops j → base.Entered loops scope →
        (∀ path p, .reference path ∈ j.ownSources → DataPath.parse? path = some p →
          ∀ l : Live κ σ, After (resolve scope path) l fun found _ => found.isSome = true) ∧
        (j.AsksHost → hosted = true)) ∧
      ∀ (own : Fault → Prop) (client : Client κ σ), client.Scripted (.serving own) → ∀ depth,
        Keeping (Stocked Served) (Fault.Served own) Served (Calls.upTo client depth) ∧
        ∀ after : Instance → Act κ σ α,
          (∀ i, Script (Calls.upTo client depth) (.serving own) (after i)) →
          ∀ l, l.Stocked Served → After
            (renderProgram (Calls.upTo client depth) program base hosted >>= after).run l
            fun out l' => l'.Stocked Served ∧ ∀ e, out = .error e → e.Served own) ∧
    (∀ name ∈ program.symbols, ∃ i ∈ program.instructions, ∃ loops j path, i.Within loops j ∧
      .reference path ∈ j.ownSources ∧ (ValueSource.reference path).root? = some name ∧
      name ∉ loops.flatMap Loop.names) ∧
    (program.requiresHost = true →
      ∃ i ∈ program.instructions, ∃ loops j, i.Within loops j ∧ j.AsksHost) ∧
    ∀ path p, DataPath.parse? path = some p →
      (ValueSource.reference path).root? = some p.root := by
  obtain ⟨instructions, rfl⟩ := Program.compileWith_eq_ok h
  refine ⟨fun base hosted hBase hHost => ?_, fun name hName => ?_, Program.requiresHost_iff.mp,
    fun path p hParse => DataPath.parse?_root hParse⟩
  · have hServed : ∀ i ∈ instructions, Served base hosted i :=
      fun i hi => served_ofInstructions hBase hHost hi
    constructor
    · intro i hi loops j scope hj hScope
      have hMet := hServed i hi loops j scope hj hScope
      refine ⟨fun path p hPath hParse l => ?_, hMet.hosted⟩
      exact (hMet.resolves path hPath (Option.isSome_iff_exists.mpr ⟨p, hParse⟩)).isSome l
    · intro own client hClient depth
      refine ⟨serving_upTo hClient depth, fun after hAfter => ?_⟩
      refine serving_script hClient depth (.bind (.renderProgram (fun hRequires hNot => ?_) hServed)
        hAfter)
      rw [hHost hRequires] at hNot
      cases hNot
  · obtain ⟨i, hi, loops, j, hj, ⟨source, hSource, hRoot⟩, hFree⟩ :=
      Program.mem_symbols_iff.mp hName
    cases source with
    | reference path => exact ⟨i, hi, loops, j, path, hj, hSource, hRoot, hFree⟩
    | expression code => cases hRoot

/-! ## A hosted list -/

/-- A client that gives each expression its code as a value, and builds nothing. -/
def Client.hosting : Client κ σ :=
  { Client.still with
    build := fun _ _ => throw (.host "")
    buildItem := fun _ _ _ _ => throw (.host "")
    evaluate := fun _ code _ => sure (newSignal (.string code))
    invoke := fun _ _ _ event => pure event }

theorem Script.idle {calls : Calls κ σ} {T : Terms κ} {α : Type} (a : α) :
    Script calls T (sure (Pure.pure a)) :=
  .change fun _ => ⟨rfl, rfl, rfl, rfl, rfl⟩

theorem Client.hosting_scripted :
    (Client.hosting : Client κ σ).Scripted (.serving (· = .host "")) where
  hook _ _ _ := .idle _
  receive _ _ _ := .idle _
  handle _ _ _ := .idle _
  run _ _ := .idle _
  build _ _ := .throw (.own rfl)
  buildItem _ _ _ _ := .throw (.own rfl)
  evaluate _ code _ := .newSignal (.string code)
  invoke _ _ _ event := .pure event

theorem create_stocked (B : Scope → Bool → Instruction → Prop) (config : Config) (client : σ) :
    Stocked B (create config client : Live κ σ) :=
  ⟨fun x hx => absurd hx (Array.not_mem_empty x), fun x hx => absurd hx (Array.not_mem_empty x),
    fun x hx => absurd hx (Array.not_mem_empty x), fun x hx => absurd hx (Array.not_mem_empty x)⟩

/-- A list whose items read their own field, a name from the data and an expression. -/
def hostedList : Except Diagnostic Program :=
  Program.compileWith .standard
    "<li *for=\"let x of xs; index as i\" (click)=\"go\">{{x.name}}<b [$id]=\"i\">{{y}}</b></li>" {}

theorem hostedList_served : ∃ program, hostedList = .ok program ∧
    program.symbols = ["xs", "y"] ∧ program.requiresHost = true ∧
    let calls := Calls.upTo (Client.hosting : Client Unit Unit) 3
    After (renderProgram calls program (.ofList [("xs", 0), ("y", 1)]) true >>= fun i =>
        mountInstance calls i (.node 2) none).run (create {} ())
      fun out l' => l'.Stocked Served ∧ ∀ e, out = .error e → e.Served (· = .host "") := by
  have hCompiled : hostedList.toOption.map (fun p => (p.symbols, p.requiresHost)) =
      some (["xs", "y"], true) := by decide +kernel
  cases hProgram : hostedList with
  | error e =>
    rw [hProgram] at hCompiled
    cases hCompiled
  | ok program =>
    rw [hProgram] at hCompiled
    obtain ⟨hNames, hHost⟩ := Prod.mk.inj (Option.some.inj hCompiled)
    refine ⟨program, rfl, hNames, hHost, ?_⟩
    have hServed := (compiled_served (κ := Unit) (σ := Unit) (α := Unit) hProgram).1
      (.ofList [("xs", 0), ("y", 1)]) true (by rw [hNames]; decide) fun _ => rfl
    exact (hServed.2 (· = .host "") Client.hosting Client.hosting_scripted 3).2 _
      (fun i => .attach (.container i.box) (.node 2) none) (create {} ())
      (create_stocked Served {} ())

end Live

end LiveMarkup
