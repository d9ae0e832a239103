import LiveMarkup.Live.Rendering
import LiveMarkup.Proofs.Dom.Family
import LiveMarkup.Proofs.Program.Names
import LiveMarkup.Proofs.Program.Roots

/-!
# What a program shows

A program without bindings of attributes, listeners and code is plain: its markup depends on the
values of names alone. It is told here without a tree, signals or time.

* `Instruction.Plain` and `Instruction.height`: plain instructions, and how deep conditions, loops
  and switches are nested in them;
* `Instruction.html`: the markup of an instruction where its names have some values;
* `Instruction.Plain.of_symbols`: a plain instruction needs no names but its free ones.
-/

namespace LiveMarkup

/-! ## Names with values -/

/-- Names with their values. -/
abbrev Env := String → Option Value

/-- Names in front of others, of several with one name the last. -/
def Env.extend (env : Env) (names : List (String × Value)) : Env := fun name =>
  (Fields.get? name (Fields.ofList names)).or (env name)

/-- The value that a path leads to. -/
def Env.read (env : Env) (path : String) : Value :=
  ((DataPath.parse? path).bind fun p => (env p.root).map fun v => DataPath.follow v p.steps).getD
    .null

/-- The value of a source. -/
def ValueSource.valueIn (env : Env) : ValueSource → Value
  | .reference path => env.read path
  | .expression _ => .null

/-- What the body of a loop calls an item and its index. -/
def Loop.binds (loop : Loop) (item index : α) : List (String × α) :=
  (loop.item, item) :: loop.aliases.map fun a => (a.name, index)

/-! ## Plain instructions -/

/-- A path, the first name of which is known. -/
def ValueSource.Plain (known : String → Prop) : ValueSource → Prop
  | .reference path => ∃ p, DataPath.parse? path = some p ∧ known p.root
  | .expression _ => False

/-- An attribute with a fixed value. -/
def Operation.Plain : Operation → Prop
  | .setAttribute _ _ => True
  | _ => False

/-- The attributes that operations give to an element. -/
def Operation.attributes (operations : List Operation) : List (String × String) :=
  operations.foldl (fun attributes op =>
    match op with
    | .setAttribute name value => Attributes.set name value attributes
    | _ => attributes) []

namespace Instruction

mutual

/-- An instruction that sets fixed attributes and reads paths, the first names of which are known
or belong to a loop around it. -/
def Plain (known : String → Prop) : Instruction → Prop
  | element _ operations children => (∀ op ∈ operations, op.Plain) ∧ AllPlain known children
  | text _ => True
  | dynamicText source => source.Plain known
  | conditional condition body => condition.Plain known ∧ body.Plain known
  | forLoop loop body =>
    loop.iterable.Plain known ∧ body.Plain fun name => name ∈ loop.names ∨ known name
  | switch value cases default =>
    value.Plain known ∧ CasesPlain known cases ∧ DefaultPlain known default

def AllPlain (known : String → Prop) : List Instruction → Prop
  | [] => True
  | i :: rest => i.Plain known ∧ AllPlain known rest

def CasesPlain (known : String → Prop) : List (Value × Instruction) → Prop
  | [] => True
  | (_, body) :: rest => body.Plain known ∧ CasesPlain known rest

def DefaultPlain (known : String → Prop) : Option Instruction → Prop
  | none => True
  | some body => body.Plain known

end

mutual

/-- How deep conditions, loops and switches are nested. -/
def height : Instruction → Nat
  | element _ _ children => heightOfAll children
  | text _ => 0
  | dynamicText _ => 0
  | conditional _ body => body.height + 1
  | forLoop _ body => body.height + 1
  | switch _ cases default => max (heightOfCases cases) (heightOfDefault default) + 1

def heightOfAll : List Instruction → Nat
  | [] => 0
  | i :: rest => max i.height (heightOfAll rest)

def heightOfCases : List (Value × Instruction) → Nat
  | [] => 0
  | (_, body) :: rest => max body.height (heightOfCases rest)

def heightOfDefault : Option Instruction → Nat
  | none => 0
  | some body => body.height

end

/-! ## Markup -/

def boxHtml (content : String) : String :=
  "<!---->" ++ content ++ "<!---->"

mutual

/-- The markup of what an instruction makes. -/
def html (env : Env) : Instruction → String
  | element tag operations children =>
    Dom.elementHtml (Text.lowerAscii tag) (Operation.attributes operations) (htmlOfAll env children)
  | text value => Dom.textHtml value
  | dynamicText source => Dom.textHtml (source.valueIn env).display
  | conditional condition body =>
    boxHtml (if (condition.valueIn env).truthy then body.html env else "")
  | forLoop loop body =>
    boxHtml (String.join ((loop.iterable.valueIn env).items.zipIdx.map fun (item, index) =>
      body.html (env.extend (loop.binds item (.nat index)))))
  | switch value cases default =>
    boxHtml ((htmlOfCase env (value.valueIn env) cases).getD (htmlOfDefault env default))

def htmlOfAll (env : Env) : List Instruction → String
  | [] => ""
  | i :: rest => i.html env ++ htmlOfAll env rest

/-- The markup of the first case for a value, if there is one. -/
def htmlOfCase (env : Env) (v : Value) : List (Value × Instruction) → Option String
  | [] => none
  | (case, body) :: rest =>
    if Live.selects case v then some (body.html env) else htmlOfCase env v rest

def htmlOfDefault (env : Env) : Option Instruction → String
  | none => ""
  | some body => body.html env

end

end Instruction

namespace ValueSource

theorem Plain.mono {known known' : String → Prop} {source : ValueSource} (h : source.Plain known)
    (hKnown : ∀ name, known name → known' name) : source.Plain known' := by
  cases source with
  | reference path =>
    obtain ⟨p, hParse, hRoot⟩ := h
    exact ⟨p, hParse, hKnown _ hRoot⟩
  | expression _ => exact h

end ValueSource

namespace Instruction

mutual

/-- A plain instruction stays so where more names are known. -/
theorem Plain.mono {known known' : String → Prop} : ∀ {i : Instruction}, i.Plain known →
    (∀ name, known name → known' name) → i.Plain known'
  | element _ _ _, h, hKnown => ⟨h.1, h.2.mono hKnown⟩
  | text _, _, _ => trivial
  | dynamicText _, h, hKnown => ValueSource.Plain.mono h hKnown
  | conditional _ _, h, hKnown => ⟨h.1.mono hKnown, h.2.mono hKnown⟩
  | forLoop _ _, h, hKnown =>
    ⟨h.1.mono hKnown, h.2.mono fun name => Or.imp_right (hKnown name)⟩
  | switch _ _ _, h, hKnown => ⟨h.1.mono hKnown, h.2.1.mono hKnown, h.2.2.mono hKnown⟩

theorem AllPlain.mono {known known' : String → Prop} : ∀ {is : List Instruction},
    AllPlain known is → (∀ name, known name → known' name) → AllPlain known' is
  | [], _, _ => trivial
  | _ :: _, h, hKnown => ⟨h.1.mono hKnown, h.2.mono hKnown⟩

theorem CasesPlain.mono {known known' : String → Prop} : ∀ {cases : List (Value × Instruction)},
    CasesPlain known cases → (∀ name, known name → known' name) → CasesPlain known' cases
  | [], _, _ => trivial
  | (_, _) :: _, h, hKnown => ⟨h.1.mono hKnown, h.2.mono hKnown⟩

theorem DefaultPlain.mono {known known' : String → Prop} : ∀ {default : Option Instruction},
    DefaultPlain known default → (∀ name, known name → known' name) → DefaultPlain known' default
  | none, _, _ => trivial
  | some _, h, hKnown => Plain.mono h hKnown

end

end Instruction

/-! ## Deciding plainness -/

instance ValueSource.decidablePlain (known : String → Prop) [DecidablePred known] :
    (source : ValueSource) → Decidable (source.Plain known)
  | .reference path =>
    match h : DataPath.parse? path with
    | some p => decidable_of_iff (known p.root)
        ⟨fun hRoot => ⟨p, h, hRoot⟩, fun ⟨_, hParse, hRoot⟩ =>
          Option.some.inj (h.symm.trans hParse) ▸ hRoot⟩
    | none => isFalse fun ⟨_, hParse, _⟩ => nomatch h.symm.trans hParse
  | .expression _ => isFalse id

instance Operation.decidablePlain : (op : Operation) → Decidable op.Plain
  | .setAttribute _ _ => isTrue trivial
  | .bind _ _ => isFalse id
  | .listen _ _ => isFalse id

namespace Instruction

mutual

/-- Whether an instruction is plain can be computed. -/
def decidePlain : (known : String → Prop) → [DecidablePred known] → (i : Instruction) →
    Decidable (i.Plain known)
  | known, _, element _ operations children =>
    have := decideAllPlain known children
    inferInstanceAs (Decidable ((∀ op ∈ operations, op.Plain) ∧ AllPlain known children))
  | _, _, text _ => isTrue trivial
  | known, _, dynamicText source => inferInstanceAs (Decidable (source.Plain known))
  | known, _, conditional condition body =>
    have := decidePlain known body
    inferInstanceAs (Decidable (condition.Plain known ∧ body.Plain known))
  | known, _, forLoop loop body =>
    have := decidePlain (fun name => name ∈ loop.names ∨ known name) body
    inferInstanceAs (Decidable (loop.iterable.Plain known ∧
      body.Plain fun name => name ∈ loop.names ∨ known name))
  | known, _, switch value cases default =>
    have := decideCasesPlain known cases
    have := decideDefaultPlain known default
    inferInstanceAs (Decidable (value.Plain known ∧ CasesPlain known cases ∧
      DefaultPlain known default))

/-- Whether instructions are plain. -/
def decideAllPlain : (known : String → Prop) → [DecidablePred known] → (is : List Instruction) →
    Decidable (AllPlain known is)
  | _, _, [] => isTrue trivial
  | known, _, i :: rest =>
    have := decidePlain known i
    have := decideAllPlain known rest
    inferInstanceAs (Decidable (i.Plain known ∧ AllPlain known rest))

/-- Whether cases are plain. -/
def decideCasesPlain : (known : String → Prop) → [DecidablePred known] →
    (cases : List (Value × Instruction)) → Decidable (CasesPlain known cases)
  | _, _, [] => isTrue trivial
  | known, _, (_, body) :: rest =>
    have := decidePlain known body
    have := decideCasesPlain known rest
    inferInstanceAs (Decidable (body.Plain known ∧ CasesPlain known rest))

/-- Whether a default is plain. -/
def decideDefaultPlain : (known : String → Prop) → [DecidablePred known] →
    (default : Option Instruction) → Decidable (DefaultPlain known default)
  | _, _, none => isTrue trivial
  | known, _, some body => decidePlain known body

end

instance (known : String → Prop) [DecidablePred known] (is : List Instruction) :
    Decidable (AllPlain known is) :=
  decideAllPlain known is

end Instruction

/-! ## Free names -/

namespace ValueSource

theorem Plain.of_free {known known₀ : String → Prop} {bound : List String} {source : ValueSource}
    (h : source.Plain known₀) (hBound : ∀ name ∈ bound, known name)
    (hFree : ∀ name ∈ source.free bound, known name) : source.Plain known := by
  cases source with
  | expression _ => exact h
  | reference path =>
    obtain ⟨p, hParse, -⟩ := h
    refine ⟨p, hParse, ?_⟩
    by_cases hIn : p.root ∈ bound
    · exact hBound _ hIn
    · refine hFree _ (List.mem_filter.mpr ⟨?_, by simpa using hIn⟩)
      rw [DataPath.parse?_root hParse]
      exact List.mem_singleton_self _

end ValueSource

namespace Instruction

mutual

/-- A plain instruction needs no names but its free ones. -/
theorem Plain.of_symbols {known known₀ : String → Prop} {bound : List String} :
    ∀ {i : Instruction}, i.Plain known₀ → (∀ name ∈ bound, known name) →
      (∀ name ∈ i.symbols bound, known name) → i.Plain known
  | element _ _ _, h, hBound, hFree =>
    ⟨h.1, allPlain_of_symbols h.2 hBound fun name hName =>
      hFree name (List.mem_append_right _ hName)⟩
  | text _, _, _, _ => trivial
  | dynamicText _, h, hBound, hFree => h.of_free hBound hFree
  | conditional _ _, h, hBound, hFree =>
    ⟨h.1.of_free hBound fun name hName => hFree name (List.mem_append_left _ hName),
      h.2.of_symbols hBound fun name hName => hFree name (List.mem_append_right _ hName)⟩
  | forLoop loop _, h, hBound, hFree =>
    ⟨h.1.of_free hBound fun name hName => hFree name (List.mem_append_left _ hName),
      h.2.of_symbols (fun name (hName : name ∈ loop.names ++ _) =>
        (List.mem_append.mp hName).imp_right (hBound name)) fun name hName =>
          .inr (hFree name (List.mem_append_right _ hName))⟩
  | switch _ _ _, h, hBound, hFree =>
    ⟨h.1.of_free hBound fun name hName => hFree name
        (List.mem_append_left _ (List.mem_append_left _ hName)),
      casesPlain_of_symbols h.2.1 hBound fun name hName => hFree name
        (List.mem_append_left _ (List.mem_append_right _ hName)),
      defaultPlain_of_symbols h.2.2 hBound fun name hName => hFree name
        (List.mem_append_right _ hName)⟩

theorem allPlain_of_symbols {known known₀ : String → Prop} {bound : List String} :
    ∀ {is : List Instruction}, AllPlain known₀ is → (∀ name ∈ bound, known name) →
      (∀ name ∈ symbolsOfAll bound is, known name) → AllPlain known is
  | [], _, _, _ => trivial
  | _ :: _, h, hBound, hFree =>
    ⟨h.1.of_symbols hBound fun name hName => hFree name (List.mem_append_left _ hName),
      allPlain_of_symbols h.2 hBound fun name hName => hFree name (List.mem_append_right _ hName)⟩

theorem casesPlain_of_symbols {known known₀ : String → Prop} {bound : List String} :
    ∀ {cases : List (Value × Instruction)}, CasesPlain known₀ cases →
      (∀ name ∈ bound, known name) → (∀ name ∈ symbolsOfCases bound cases, known name) →
        CasesPlain known cases
  | [], _, _, _ => trivial
  | (_, _) :: _, h, hBound, hFree =>
    ⟨h.1.of_symbols hBound fun name hName => hFree name (List.mem_append_left _ hName),
      casesPlain_of_symbols h.2 hBound fun name hName => hFree name (List.mem_append_right _ hName)⟩

theorem defaultPlain_of_symbols {known known₀ : String → Prop} {bound : List String} :
    ∀ {default : Option Instruction}, DefaultPlain known₀ default →
      (∀ name ∈ bound, known name) → (∀ name ∈ symbolsOfDefault bound default, known name) →
        DefaultPlain known default
  | none, _, _, _ => trivial
  | some _, h, hBound, hFree => Plain.of_symbols h hBound hFree

end

end Instruction

end LiveMarkup
