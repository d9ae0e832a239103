import LiveMarkup.Proofs.Mirror.Mirrored
import LiveMarkup.Proofs.Json.Distinct

/-!
# As if made afresh

A document begins with its three nodes and nothing that follows anything. Signals are made, and an
instance of a program that reads them. From then on the document is kept up to date.

Signals are set, an instance is mounted and taken out again, and time passes, in any order. While
the instance is mounted it shows what a new instance of its program would show in a new document,
where the signals have had their present values from the start.

* `Maintained.create`: a document with signals;
* `newInstance`: signals and an instance of a program;
* `newInstance_upheld`: all of it can be made, and is kept up to date;
* `Instance.Turn`: what is done to an instance, one thing after another;
* `Upheld.turn`, `Upheld.turns`: one turn, and many of them;
* `mountAfresh_shows`: a new instance that is mounted;
* `turns_show_afresh`: an instance after many turns, and a new one.
-/

/-! ## Instances that are made -/

namespace LiveMarkup

/-! ### Hosts -/

theorem ValueSource.Plain.isExpression_eq {known : String → Prop} {source : ValueSource}
    (h : source.Plain known) : source.isExpression = false := by
  cases source with
  | reference _ => rfl
  | expression _ => exact h.elim

namespace Instruction

mutual

/-- Plain instructions need no host. -/
theorem Plain.needsHost_eq {known : String → Prop} : ∀ {i : Instruction}, i.Plain known →
    i.needsHost = false
  | element _ operations children, h => by
    have hOperations : operations.any Operation.needsHost = false :=
      List.any_eq_false.mpr fun op hop => by
        have hop := h.1 op hop
        cases op with
        | setAttribute _ _ => exact Bool.false_ne_true
        | bind _ _ => exact hop.elim
        | listen _ _ => exact hop.elim
    rw [needsHost, hOperations, AllPlain.needsHost_eq h.2]
    rfl
  | text _, _ => by rw [needsHost]
  | dynamicText source, h => by rw [needsHost, ValueSource.Plain.isExpression_eq h]
  | conditional condition body, h => by
    rw [needsHost, h.1.isExpression_eq, h.2.needsHost_eq]
    rfl
  | forLoop loop body, h => by
    rw [needsHost, h.1.isExpression_eq, h.2.needsHost_eq]
    rfl
  | switch value cases default, h => by
    rw [needsHost, h.1.isExpression_eq, CasesPlain.needsHost_eq h.2.1,
      DefaultPlain.needsHost_eq h.2.2]
    rfl

theorem AllPlain.needsHost_eq {known : String → Prop} : ∀ {is : List Instruction},
    AllPlain known is → anyNeedsHost is = false
  | [], _ => by rw [anyNeedsHost]
  | _ :: _, h => by
    rw [anyNeedsHost, h.1.needsHost_eq, AllPlain.needsHost_eq h.2]
    rfl

theorem CasesPlain.needsHost_eq {known : String → Prop} : ∀ {cases : List (Value × Instruction)},
    CasesPlain known cases → caseNeedsHost cases = false
  | [], _ => by rw [caseNeedsHost]
  | (_, _) :: _, h => by
    rw [caseNeedsHost, h.1.needsHost_eq, CasesPlain.needsHost_eq h.2]
    rfl

theorem DefaultPlain.needsHost_eq {known : String → Prop} : ∀ {default : Option Instruction},
    DefaultPlain known default → defaultNeedsHost default = false
  | none, _ => by rw [defaultNeedsHost]
  | some _, h => by rw [defaultNeedsHost, Plain.needsHost_eq h]

end

end Instruction

namespace Live

variable {κ σ : Type} {l l' : Live κ σ}

/-! ### A document with signals -/

/-- A plan in which all signals have some room and all nodes some height. -/
def Plan.even (values : Value → Prop) (fixed : SignalId → Option Value) (k : Nat) : Plan where
  role s := { fixed := fixed s, room := k + 1 }
  cap _ := k
  values

theorem kin_create (config : Config) (c : σ) :
    (create config c : Live κ σ).dom.kin (.node 0) = [.node 1] ∧
      (create config c : Live κ σ).dom.kin (.node 1) = [.node 2] ∧
        (create config c : Live κ σ).dom.kin (.node 2) = [] :=
  ⟨rfl, rfl, rfl⟩

/-- The nodes of a document that was just made, from the document down. -/
theorem edge_create (config : Config) (c : σ) {p r : NodeRef}
    (hp : (create config c : Live κ σ).dom.Known p)
    (hr : r ∈ (create config c : Live κ σ).dom.kin p) :
    (create config c : Live κ σ).dom.key p < (create config c : Live κ σ).dom.key r := by
  obtain ⟨hRoot, hBody, hRest⟩ := kin_create (κ := κ) config c
  cases p with
  | container b => exact absurd hp (Nat.not_lt_zero b)
  | node n =>
    have hn : n < 3 := hp.lt_size
    match n, hn with
    | 0, _ =>
      rw [hRoot, List.mem_singleton] at hr
      rw [hr]
      exact Nat.lt_succ_self 0
    | 1, _ =>
      rw [hBody, List.mem_singleton] at hr
      rw [hr]
      exact Nat.lt_succ_self 1
    | 2, _ =>
      rw [hRest] at hr
      cases hr

/-- A document that was just made is kept up to date. -/
theorem Maintained.create (config : Config) (c : σ) {values : Value → Prop}
    (hClosed : Plan.Closed values) (fixed : SignalId → Option Value) (k : Nat) :
    Maintained (Plan.even values fixed k) {} (create config c : Live κ σ) := by
  have h := create_unobserved (κ := κ) config c
  have hNone : ∀ u s sink r, ¬ Keeper (Live.create config c : Live κ σ) u s sink r := by
    rintro u s sink r ⟨⟨_, hSub⟩, -⟩
    cases hSub
  have hNoSignal : ∀ (s : Nat) g, (Live.create config c : Live κ σ).signals[s]? ≠ some g := nofun
  have hAlive : ∀ n, ¬ Dead (fun _ => False) (Live.create config c : Live κ σ).trackedOf n := by
    rintro n (hNo | hState)
    · exact hNo
    · rw [h.tracked] at hState
      cases hState
  exact {
    running := rfl
    closed := hClosed
    rooted := {
      sound := h.sound
      plain := h.plain
      top := h.top
      zero := rfl
      edge := fun p r hp hr => ⟨edge_create config c hp hr, Nat.le_refl _⟩
      marked := fun b hb => absurd hb (Nat.not_lt_zero b) }
    graves := {
      state := fun n => .inl (by rw [h.tracked])
      up := fun _ _ _ _ hDead => absurd hDead (hAlive _)
      down := fun _ _ _ _ hDead => absurd hDead (hAlive _)
      top := hAlive _
      fresh := fun n _ => ⟨h.tracked n, id⟩
      noted := fun _ _ hNo => hNo.elim }
    wires := ⟨fun s g hg => absurd hg (hNoSignal s g), fun s g hg => absurd hg (hNoSignal s g),
      fun s g _ _ _ hg => absurd hg (hNoSignal s g), fun s g _ _ _ hg => absurd hg (hNoSignal s g),
      fun s g _ hg => absurd hg (hNoSignal s g), nofun⟩
    feeds := ⟨fun s g _ hg => absurd hg (hNoSignal s g), nofun⟩
    rigs := {
      observers_size := rfl
      binding := fun _ => rfl
      follower := fun u hu => absurd hu (Nat.not_lt_zero u)
      known := fun u s sink r hu => absurd hu (hNone u s sink r)
      writes := nofun
      reads := fun u s sink r hu => absurd hu (hNone u s sink r)
      rising := fun u s sink r _ _ _ _ hu => absurd hu (hNone u s sink r)
      text := fun u s p n hu => absurd hu (hNone u s _ _)
      alive := fun u s sink r hu => absurd hu (hNone u s sink r)
      dead := fun u s sink r hu => absurd hu (hNone u s sink r)
      tracked := fun n u hu => by
        rw [h.tracked] at hu
        cases hu
      hooks := fun u s sink r _ hu => absurd hu (hNone u s sink r)
      asleep := fun _ _ => rfl
      awake := fun u s sink r hu => absurd hu (hNone u s sink r) }
    shelves := {
      able := fun u s sink r hu => absurd hu (hNone u s sink r)
      known := fun u s sink r _ hu => absurd hu (hNone u s sink r)
      placed := fun u s sink r _ hu => absurd hu (hNone u s sink r)
      apart := fun u s sink r _ _ _ _ _ hu => absurd hu (hNone u s sink r)
      shape := fun u s sink _ hu => absurd hu (hNone u s sink _)
      child := fun u s _ r _ _ hu => absurd hu (hNone u s _ r)
      arm := fun u s _ r _ _ _ hu => absurd hu (hNone u s _ r)
      item := fun u s _ r _ _ hu => absurd hu (hNone u s _ r)
      cursor := fun u s _ r _ _ hu => absurd hu (hNone u s _ r)
      cursors := fun u s _ r _ hu => absurd hu (hNone u s _ r)
      nodes := fun u s _ r _ hu => absurd hu (hNone u s _ r)
      handed := fun u s _ r _ hu => absurd hu (hNone u s _ r)
      alive := fun u s sink r _ hu => absurd hu (hNone u s sink r)
      showing := fun u s _ r _ hu => absurd hu (hNone u s _ r) }
    upkeep := ⟨fun u s sink r hu => absurd hu (hNone u s sink r),
      fun u s sink r hu => absurd hu (hNone u s sink r)⟩
    alarms := ⟨nofun, rfl⟩ }

/-! ### Signals -/

/-- Makes signals with values, one after another. -/
def newSignals (vs : List Value) : LiveM κ σ Unit :=
  vs.forM fun v => do
    let _ ← newSignal v

variable {π : Plan} {values : Value → Prop}

/-- The signals that were made have their values, and those before have theirs. -/
structure Stocks (l l' : Live κ σ) (vs : List Value) : Prop where
  signals : ∃ S, l' = l.withSignals S
  size : l'.signals.size = l.signals.size + vs.length
  old : ∀ s < l.signals.size, l'.valueOf s = l.valueOf s
  value : ∀ j v, vs[j]? = some v → l'.valueOf (l.signals.size + j) = v

theorem newSignals_stocks (vs : List Value) : ∀ {l : Live κ σ}, Maintained π {} l →
    (∀ v ∈ vs, π.values v) →
      (∀ j v w, vs[j]? = some v → (π.role (l.signals.size + j)).fixed = some w → v = w) →
        After (newSignals vs) l fun _ l' => Maintained π {} l' ∧ Stocks l l' vs := by
  induction vs with
  | nil =>
    intro l h _ _
    exact ⟨h, ⟨l.signals, rfl⟩, rfl, fun _ _ => rfl, fun _ _ hAt => by cases hAt⟩
  | cons v vs ih =>
    intro l h hValues hFixed
    let l₁ := l.withSignals (l.signals.push { value := v })
    have h₁ : Maintained π {} l₁ := h.signalled (hValues v List.mem_cons_self)
      fun w => hFixed 0 v w rfl
    have hSize : l₁.signals.size = l.signals.size + 1 := Array.size_push _
    have hOld : ∀ s < l.signals.size, l₁.valueOf s = l.valueOf s := fun s hs =>
      (sprung_push l.signals { value := v }).valueOf hs
    have hNew : l₁.valueOf l.signals.size = v := by
      simp [l₁, withSignals, valueOf, signal?]
    have hRest := ih h₁ (fun w hw => hValues w (List.mem_cons_of_mem v hw)) fun j w w' hw => by
      rw [hSize, Nat.add_assoc, Nat.add_comm 1]
      exact hFixed (j + 1) w w' hw
    refine After.bind (m := fun _ l₂ => l₂ = l₁) rfl fun _ l₂ hSame => ?_
    rw [hSame]
    refine hRest.mono ?_
    rintro _ l' ⟨h', hStocks⟩
    refine ⟨h', ?_, ?_, fun s hs => ?_, fun j w hw => ?_⟩
    · obtain ⟨S, hS⟩ := hStocks.signals
      exact ⟨S, hS⟩
    · rw [hStocks.size, hSize, List.length_cons]
      omega
    · rw [hStocks.old s (by omega), hOld s hs]
    · cases j with
      | zero =>
        rw [Nat.add_zero, hStocks.old _ (by omega), hNew]
        exact Option.some.inj hw
      | succ j =>
        have hValue := hStocks.value j w hw
        rwa [hSize, Nat.add_assoc, Nat.add_comm 1] at hValue

/-! ### Scopes -/

/-- All names that a program needs belong to one of some signals. -/
structure Resolves (program : Program) (names : List (String × SignalId)) (n : Nat) : Prop where
  symbols : ∀ name ∈ program.symbols, (Fields.get? name names).isSome
  bound : ∀ x ∈ names, x.2 < n

theorem lookUp_eq_ok {names : List (String × SignalId)} : ∀ {symbols : List String},
    (∀ name ∈ symbols, (Fields.get? name names).isSome) → ∃ bindings,
      lookUp names symbols = .ok bindings ∧ bindings.map (·.1) = symbols ∧
        ∀ x ∈ bindings, Fields.get? x.1 names = some x.2
  | [], _ => ⟨[], rfl, rfl, nofun⟩
  | name :: rest, h => by
    obtain ⟨hName, hRest⟩ := List.forall_mem_cons.mp h
    obtain ⟨s, hs⟩ := Option.isSome_iff_exists.mp hName
    obtain ⟨bindings, hLook, hNames, hBound⟩ := lookUp_eq_ok hRest
    refine ⟨(name, s) :: bindings, ?_, ?_, List.forall_mem_cons.mpr ⟨hs, hBound⟩⟩
    · rw [lookUp, hs, hLook]
      rfl
    · rw [List.map_cons, hNames]

theorem Scope.lookup?_ofList {bindings : List (String × SignalId)} (name : String) :
    (Scope.ofList bindings).lookup? name = Fields.get? name (Fields.ofList bindings) := by
  rw [Scope.lookup?, Scope.ofList, Scope.lookupIn?, Scope.lookupIn?, Option.or_none]

/-- The scope of a program knows its symbols, and each is one of the signals. -/
theorem Resolves.exists_scope {program : Program} {names : List (String × SignalId)} {n : Nat}
    (h : Resolves program names n) : ∃ bindings, lookUp names program.symbols = .ok bindings ∧
      (∀ name ∈ program.symbols, (Scope.ofList bindings).Knows name) ∧
        ∀ name s, (Scope.ofList bindings).lookup? name = some s → s < n := by
  obtain ⟨bindings, hLook, hNames, hBound⟩ := lookUp_eq_ok h.symbols
  refine ⟨bindings, hLook, fun name hName => ?_, fun name s hs => ?_⟩
  · rw [Scope.Knows, Scope.lookup?_ofList]
    exact Fields.isSome_get?_ofList (hNames ▸ hName)
  · rw [Scope.lookup?_ofList] at hs
    have hIn := Fields.mem_ofList (Fields.mem_of_get? hs)
    exact h.bound _ (Fields.mem_of_get? (hBound _ hIn))

/-! ### Instances -/

/-- Makes signals with values, and an instance of a program that reads them by their names. -/
def newInstance (calls : Calls κ σ) (vs : List Value) (program : Program)
    (names : List (String × SignalId)) (hosted : Bool) : Act κ σ Instance := do
  sure (newSignals vs)
  instantiate calls program names hosted

section Rendering

variable {calls : Calls κ σ} {fixed : SignalId → Option Value} {k n : Nat} {hosted : Bool}

/-- A document that only has signals, and a container that something was rendered into. -/
theorem Fills.framed {config : Config} {c : σ} {rs : List NodeRef} {scope : Scope} {π : Plan}
    {is : List Instruction} (h : Maintained (Plan.even values fixed k) {} l)
    (hDom : l.dom = (create config c : Live κ σ).dom) (hProjectors : l.projectors = #[])
    (hFills : Fills {} (Plan.even values fixed k) (l.withDom l.dom.createContainer.1) scope
      (.container 0) is rs π l') : Framed π l' 0 := by
  have hAdds := hFills.adds
  have hGrown := h.rooted.sound.sprouts_createContainer
  obtain ⟨hRoot, hBody, -⟩ := kin_create (κ := κ) config c
  have hOld : ∀ n < 3, l.dom.Known (.node n) := fun n hn => by
    rw [hDom]
    have hStart := create_unobserved (κ := κ) config c
    have hFirst := hStart.sound.known_of_mem_kin (p := .node 0) hStart.plain
      (hRoot ▸ List.mem_singleton_self (NodeRef.node 1))
    match n, hn with
    | 0, _ => exact hStart.plain
    | 1, _ => exact hFirst
    | 2, _ =>
      exact hStart.sound.known_of_mem_kin hFirst
        (hBody ▸ List.mem_singleton_self (NodeRef.node 2))
  have hKnown : ∀ n < 3, (l.withDom l.dom.createContainer.1).dom.Known (.node n) := fun n hn =>
    hGrown.known (hOld n hn)
  have hStill : ∀ n < 3, ∀ x ∈ (l.withDom l.dom.createContainer.1).projectors, x.node ≠ n := by
    intro n _ x hx
    change x ∈ l.projectors at hx
    rw [hProjectors] at hx
    exact absurd hx (Array.not_mem_empty x)
  have hKin : ∀ n < 3, l'.dom.kin (.node n) = (create config c : Live κ σ).dom.kin (.node n) := by
    intro n hn
    rw [hAdds.lasts.kin n (hKnown n hn) (hStill n hn) nofun, ← hDom]
    exact hGrown.kin_old h.rooted.sound (hOld n hn)
  have hSize : l.dom.nodes.size = 3 := by
    rw [hDom]
    rfl
  have hBox : (l.withDom l.dom.createContainer.1).dom.Known (.container 0) := by
    change 0 < l.dom.createContainer.1.containers.size
    rw [Dom.size_createContainer]
    exact Nat.zero_lt_succ _
  have hKey : (l.withDom l.dom.createContainer.1).dom.key (.container 0) = 3 := by
    have hStart := Dom.part_createContainer l.dom .start
    rw [show l.dom.containers.size = 0 by rw [hDom]; rfl] at hStart
    exact hStart.trans hSize
  have hCap : ∀ n ≤ 3, π.cap n = k := fun n hn => hAdds.plan.cap n
    (Nat.lt_of_le_of_lt hn (hKey ▸ hGrown.sound.key_lt_size hBox))
  exact {
    known := fun n hn => hAdds.lasts.known _ (hKnown n hn)
    still := fun n hn => hAdds.lasts.no_text (hKnown n hn) (hStill n hn) nofun
    root := by
      rw [hKin 0 (by decide), hRoot]
      exact List.mem_singleton_self _
    body := by
      rw [hKin 1 (by decide), hBody]
      exact List.mem_singleton_self _
    box := hAdds.lasts.known _ hBox
    key := (hAdds.lasts.key _ hBox).trans hKey
    alone := hFills.alone
    cap := fun n hn => by
      rw [hCap 3 (Nat.le_refl 3), hCap n (Nat.le_of_lt hn)] }

/-- What is rendered into a new container in a document that only has signals is an instance of
it. -/
theorem renderInto_upheld (config : Config) (c : σ) {scope : Scope} {is : List Instruction}
    (h : Maintained (Plan.even values fixed k) {} l)
    (hDom : l.dom = (create config c : Live κ σ).dom) (hProjectors : l.projectors = #[])
    (hScope : ∀ name s, scope.lookup? name = some s → s < l.signals.size)
    (hPlain : Instruction.AllPlain scope.Knows is) (hHeight : Instruction.heightOfAll is ≤ k) :
    After (do
        let box ← sure (makeInDom Dom.createContainer)
        renderInto calls hosted scope (.container box) is
        pure ⟨box, scope⟩ : Act κ σ Instance).run l fun out l' => ∃ i, out = .ok i ∧
      i.scope = scope ∧ l'.stateOf (.container i.box) = .detached ∧
        Upheld values l' i is (fun s role => s < l.signals.size ∧
          role = { fixed := fixed s, room := k + 1 }) k := by
  have hGrown := h.rooted.sound.sprouts_createContainer
  have hAdds : Adds (fun _ => False) {} (Plan.even values fixed k) l (Plan.even values fixed k)
      (l.withDom l.dom.createContainer.1) := .grown h hGrown
  have hKey : l.dom.createContainer.1.key (.container l.dom.containers.size) = l.dom.nodes.size :=
    Dom.part_createContainer l.dom .start
  have hZero : l.dom.containers.size = 0 := by
    rw [hDom]
    rfl
  have hFresh := h.bare hGrown (r := .container l.dom.containers.size)
    (by change l.dom.containers.size < _; rw [Dom.size_createContainer]; exact Nat.lt_succ_self _)
    (Nat.le_of_eq hKey.symm)
  rw [hZero] at hFresh
  refine After.sure_bind (m := fun box l' => box = 0 ∧ l' = l.withDom l.dom.createContainer.1)
    ⟨hZero, rfl⟩ ?_
  rintro _ _ ⟨rfl, rfl⟩
  refine (renderInto_fills hAdds.maintained Pending.under_nothing (Nat.zero_le _)
    (fun name s hs => ⟨hScope name s hs, Nat.zero_le 1, Nat.le_refl 0, Nat.lt_succ_of_le hHeight⟩)
    hPlain hFresh.toStray (fun u s sink => hFresh.alone) hHeight).act_bind ?_
      (by rintro e _ ⟨_, _, ⟨⟩, _⟩)
  rintro _ l' ⟨rs, π', -, hFills⟩
  have hAdds := hFills.adds
  have hFrame := hFills.framed h hDom hProjectors
  have hBox : 3 < l.dom.createContainer.1.nodes.size := by
    have hLt := hGrown.sound.key_lt_size hFresh.known
    rw [← hZero] at hLt
    rw [show 3 = l.dom.nodes.size by rw [hDom]; rfl, ← hKey]
    exact hLt
  refine ⟨⟨0, scope⟩, rfl, rfl, (hAdds.strays _ hFresh.toStray).stateOf, π', hAdds.plan.values,
    hAdds.maintained, hFrame, ?_, hAdds.plan.room _ fun _ => Nat.le_refl _, ?_, fun s role hs => ?_⟩
  · change AllMade l' scope (l'.dom.kin (.container 0)) is
    rw [hFills.kin, hFresh.kin]
    exact hFills.made
  · rw [hAdds.plan.cap 3 hBox]
    exact Nat.le_refl k
  · exact ⟨Nat.lt_of_lt_of_le hs.1 hAdds.lasts.signals_size,
      (hAdds.plan.role s hs.1).trans hs.2.symm⟩

/-- A new instance of a plain program that finds all its names is made. -/
theorem newInstance_upheld (fixed : SignalId → Option Value) {config : Config} {c : σ}
    {vs : List Value} {file : String} {is : List Instruction} {names : List (String × SignalId)}
    (hClosed : Plan.Closed values) (hPlain : Instruction.AllPlain (fun _ => True) is)
    (hNames : Resolves (.ofInstructions file is) names vs.length) (hValues : ∀ v ∈ vs, values v)
    (hFixed : ∀ s v w, vs[s]? = some v → fixed s = some w → v = w)
    (hHeight : Instruction.heightOfAll is ≤ k) :
    After (newInstance calls vs (.ofInstructions file is) names hosted).run (create config c)
      fun out l' => ∃ i bindings, out = .ok i ∧
        lookUp names (Program.ofInstructions file is).symbols = .ok bindings ∧
          i.scope = .ofList bindings ∧ l'.stateOf (.container i.box) = .detached ∧
            Upheld values l' i is (fun s role => s < vs.length ∧
              role = { fixed := fixed s, room := k + 1 }) k := by
  obtain ⟨bindings, hLook, hKnown, hBound⟩ := hNames.exists_scope
  have hScope : Instruction.AllPlain (Scope.ofList bindings).Knows is :=
    Instruction.allPlain_of_symbols hPlain (List.forall_mem_nil _) fun name hName =>
      hKnown name (Program.mem_sortSymbols.mpr hName)
  have hHost : (Program.ofInstructions file is).requiresHost = false := hPlain.needsHost_eq
  have hSkip : ∀ {l₁ : Live κ σ}, l₁.tornDown = false →
      After (needHost (Program.ofInstructions file is) hosted).run l₁ fun out l₂ =>
        out = .ok () ∧ l₂ = l₁ := by
    intro l₁ hRunning
    unfold needHost
    refine After.ensureLive (fun hTorn => ?_) fun _ => ?_
    · rw [hRunning] at hTorn
      cases hTorn
    · rw [hHost]
      exact ⟨rfl, rfl⟩
  unfold newInstance
  refine After.sure_bind (newSignals_stocks vs (Maintained.create config c hClosed fixed k) hValues
    fun j v w hv hw => ?_) ?_
  · rw [show (create config c : Live κ σ).signals.size = 0 from rfl, Nat.zero_add] at hw
    exact hFixed j v w hv hw
  rintro _ l ⟨h, hStocks⟩
  obtain ⟨S, hS⟩ := hStocks.signals
  have hSize : l.signals.size = vs.length := hStocks.size.trans (Nat.zero_add _)
  unfold instantiate
  refine (hSkip h.running).act_ok ?_
  rintro l₁ rfl
  rw [hLook]
  refine After.act_ok (b := bindings) (m := (· = l₁)) ⟨rfl, rfl⟩ ?_
  rintro _ rfl
  unfold renderProgram
  refine (hSkip h.running).act_ok ?_
  rintro l₂ rfl
  refine (renderInto_upheld config c h (by rw [hS]; rfl) (by rw [hS]; rfl)
    (fun name s hs => hSize ▸ hBound name s hs) hScope hHeight).mono ?_
  rintro out l' ⟨i, hOut, hIn, hState, hUpheld⟩
  refine ⟨i, bindings, hOut, rfl, hIn, hState, ?_⟩
  rwa [hSize] at hUpheld

end Rendering

end Live

end LiveMarkup

namespace LiveMarkup

/-! ## Finite values -/

theorem Value.Finite.nat (n : Nat) : (Value.nat n).Finite :=
  Value.finite_number.mpr trivial

theorem Value.Finite.items {v : Value} (h : v.Finite) : ∀ item ∈ v.items, item.Finite := by
  intro item hItem
  cases v with
  | array vs => exact Value.finite_array.mp h item hItem
  | number n =>
    obtain ⟨m, -, rfl⟩ := List.mem_map.mp hItem
    exact .nat m
  | _ => cases hItem

theorem Value.Finite.into {v next : Value} {step : DataPath.Step} (h : v.Finite)
    (hNext : step.into? v = some next) : next.Finite := by
  cases step with
  | key name =>
    cases v with
    | object fields => exact Value.finite_object.mp h _ (Fields.mem_of_get? hNext)
    | _ => cases hNext
  | index n =>
    cases v with
    | array vs => exact Value.finite_array.mp h _ (List.mem_of_getElem? hNext)
    | object fields => exact Value.finite_object.mp h _ (Fields.mem_of_get? hNext)
    | _ => cases hNext

theorem Value.Finite.follow (steps : List DataPath.Step) : ∀ {v : Value}, v.Finite →
    (DataPath.follow v steps).Finite := by
  induction steps with
  | nil => exact id
  | cons step rest ih =>
    intro v h
    unfold DataPath.follow
    split
    · exact .nat _
    · split
      · exact ih (h.into ‹_›)
      · nofun

namespace Live

theorem Plan.closed_finite : Plan.Closed Value.Finite where
  nat := .nat
  item _ h := h.items
  follow _ steps h := h.follow steps

/-! ## Turns -/

/-- What is done to an instance: a signal is set, it is mounted, it is taken out of its place, or
time passes. -/
inductive Instance.Turn where
  | set (s : SignalId) (v : Value)
  | mount (parent : NodeId) (before : Option NodeRef)
  | unmount
  | advance (delay : Nat)

variable {κ σ : Type} {l : Live κ σ} {client : Client κ σ} {n : Nat}

/-- Does one thing to an instance. -/
def Instance.Turn.act (calls : Calls κ σ) (i : Instance) : Turn → Act κ σ Unit
  | set s v => sure (setSignal calls s v)
  | mount parent before => mountInstance calls i (.node parent) before
  | unmount => detachIfAttached calls (.container i.box)
  | advance delay => sure (Live.advance calls delay)

/-- The document after some turns, whether they were refused or not. -/
def afterTurns (calls : Calls κ σ) (i : Instance) (l : Live κ σ) (turns : List Instance.Turn) :
    Live κ σ :=
  turns.foldl (fun l turn => ((turn.act calls i).run.run l).2) l

/-- Turns that concern some first signals, with values as JSON has them, and the places that there
are in a document. -/
def Instance.Turn.Fits (size : Nat) : Turn → Prop
  | set s v => s < size ∧ v.Finite
  | mount parent before => (parent, before) ∈ spots
  | unmount => True
  | advance _ => True

/-- The signals that an instance was given, and that anybody may set. -/
def Loose (k size : Nat) (s : SignalId) (role : Role) : Prop :=
  s < size ∧ role = { room := k + 1 }

section Turns

variable {i : Instance} {is : List Instruction} {k size : Nat}

/-- After one turn the document of an instance is kept up to date. -/
theorem Upheld.turn {turn : Instance.Turn} (h : Upheld Value.Finite l i is (Loose k size) k)
    (hFits : turn.Fits size) (hDeep : 3 * k + 4 ≤ n) :
    Upheld Value.Finite ((turn.act (Calls.upTo client (n + 1)) i).run.run l).2 i is
      (Loose k size) k := by
  cases turn with
  | set s v => exact h.set ⟨hFits.1, rfl⟩ hFits.2 (Nat.le_succ_of_le hDeep)
  | mount parent before => exact (h.mount hFits (by omega)).1
  | unmount => exact h.unmount
  | advance delay => exact h.advance (by omega) delay

/-- After many turns, too. -/
theorem Upheld.turns {turns : List Instance.Turn} (h : Upheld Value.Finite l i is (Loose k size) k)
    (hFits : ∀ turn ∈ turns, turn.Fits size) (hDeep : 3 * k + 4 ≤ n) :
    Upheld Value.Finite (afterTurns (Calls.upTo client (n + 1)) i l turns) i is
    (Loose k size) k := by
  induction turns generalizing l with
  | nil => exact h
  | cons turn turns ih =>
    obtain ⟨hTurn, hTurns⟩ := List.forall_mem_cons.mp hFits
    exact ih (h.turn hTurn hDeep) hTurns

end Turns

/-! ## A new instance -/

/-- The present values of the first signals. -/
def valuesOf (l : Live κ σ) (size : Nat) : List Value :=
  (List.range size).map l.valueOf

/-- Makes signals with values and a new instance of a program, and mounts it. -/
def mountAfresh (calls : Calls κ σ) (vs : List Value) (program : Program)
    (names : List (String × SignalId)) (hosted : Bool) (parent : NodeId) (before : Option NodeRef) :
    Act κ σ Instance := do
  let i ← newInstance calls vs program names hosted
  mountInstance calls i (.node parent) before
  pure i

section Afresh

variable {config : Config} {c : σ} {vs : List Value} {file : String} {is : List Instruction}
variable {names : List (String × SignalId)} {hosted : Bool} {parent : NodeId}
variable {before : Option NodeRef} {bindings : List (String × SignalId)}

/-- A new instance that is mounted has the markup of its program, where the names have the values
that the signals were made with. -/
theorem mountAfresh_shows (hPlain : Instruction.AllPlain (fun _ => True) is)
    (hNames : Resolves (.ofInstructions file is) names vs.length) (hValues : ∀ v ∈ vs, v.Finite)
    (hSpot : (parent, before) ∈ spots) (hDeep : 3 * Instruction.heightOfAll is + 2 ≤ n)
    (hLook : lookUp names (Program.ofInstructions file is).symbols = .ok bindings) :
    After (mountAfresh (Calls.upTo client (n + 1)) vs (.ofInstructions file is) names hosted parent
      before).run (create config c) fun out l' => ∃ i, out = .ok i ∧
        l'.stateOf (.container i.box) = .attached ∧
          l'.dom.spanHtml i.box = Instruction.htmlOfAll (fun name =>
            ((Scope.ofList bindings).lookup? name).bind fun s => vs[s]?) is := by
  unfold mountAfresh
  refine (newInstance_upheld (fun s => vs[s]?) Plan.closed_finite hPlain hNames hValues
    (fun s v w hv hw => Option.some.inj (hv.symm.trans hw)) (Nat.le_refl _)).act_bind ?_
      (by rintro e _ ⟨_, _, ⟨⟩, _⟩)
  rintro i l ⟨_, bindings', ⟨⟩, hLook', hScope, hState, hUpheld⟩
  obtain rfl := Except.ok.inj (hLook.symm.trans hLook')
  refine (hUpheld.mount hSpot hDeep).act_bind (fun _ l' hMounted => ?_)
    fun e l' hMounted => by cases (hMounted.2 hState).1
  obtain ⟨hUpheld, hShown⟩ := hMounted
  refine ⟨i, rfl, (hShown hState).2,
    (hUpheld.html_eq (fun _ _ => Value.key_inj) (hShown hState).2).trans ?_⟩
  rw [hScope]
  congr 1
  funext name
  obtain ⟨bindings', hLook', -, hBound⟩ := hNames.exists_scope
  obtain rfl := Except.ok.inj (hLook.symm.trans hLook')
  cases hName : (Scope.ofList bindings).lookup? name with
  | none => rw [Scope.env, hName, Option.map_none, Option.bind_none]
  | some s =>
    have hs := hBound name s hName
    have hv : vs[s]? = some vs[s] := List.getElem?_eq_getElem hs
    rw [Scope.env, hName, Option.map_some, Option.bind_some, hv,
      hUpheld.valueOf_fixed ⟨hs, rfl⟩ hv]

end Afresh

/-- Whatever is done to an instance of a compiled program without bindings of attributes, listeners
and code: while it is mounted, it shows what a new instance shows that is mounted in a new document
where the signals have the present values. -/
theorem turns_show_afresh {registry : Registry} {markup : String} {options : Options}
    {program : Program} (hProgram : Program.compileWith registry markup options = .ok program)
    (hPlain : Instruction.AllPlain (fun _ => True) program.instructions)
    {vs : List Value} {names : List (String × SignalId)} (hNames : Resolves program names vs.length)
    (hValues : ∀ v ∈ vs, v.Finite) {turns : List Instance.Turn}
    (hTurns : ∀ turn ∈ turns, turn.Fits vs.length)
    (config : Config) (c : σ) (client : Client κ σ) (hosted : Bool) {n : Nat}
    (hDeep : 3 * Instruction.heightOfAll program.instructions + 5 ≤ n) :
    After (newInstance (Calls.upTo client n) vs program names hosted).run (create config c)
      fun out l₀ => ∃ i, out = .ok i ∧
        let l := afterTurns (Calls.upTo client n) i l₀ turns
        l.stateOf (.container i.box) = .attached →
          ∀ {κ' σ' : Type} (config' : Config) (c' : σ') (client' : Client κ' σ') (hosted' : Bool)
            (n' : Nat) (parent : NodeId) (before : Option NodeRef),
            3 * Instruction.heightOfAll program.instructions + 3 ≤ n' → (parent, before) ∈ spots →
              After (mountAfresh (Calls.upTo client' n') (l.valuesOf vs.length)
                program names hosted'
                parent before).run (create config' c') fun out' l' => ∃ i', out' = .ok i' ∧
                  l'.stateOf (.container i'.box) = .attached ∧
                    l'.dom.spanHtml i'.box = l.dom.spanHtml i.box := by
  obtain ⟨is, rfl⟩ := Program.compileWith_eq_ok hProgram
  obtain ⟨m, rfl⟩ : ∃ m, n = m + 1 := ⟨n - 1, by omega⟩
  refine (newInstance_upheld (fun _ => none) Plan.closed_finite hPlain hNames hValues
    (fun _ _ _ _ => nofun) (Nat.le_refl _)).mono ?_
  rintro out l₀ ⟨i, bindings, rfl, hLook, hScope, -, hMade⟩
  refine ⟨i, rfl, ?_⟩
  intro l hMounted κ' σ' config' c' client' hosted' n' parent before hDeep' hSpot
  have hUpheld : Upheld Value.Finite l i is (Loose (Instruction.heightOfAll is) vs.length)
      (Instruction.heightOfAll is) := hMade.turns hTurns (Nat.le_of_succ_le_succ hDeep)
  have hLength : (l.valuesOf vs.length).length = vs.length := by
    rw [valuesOf, List.length_map, List.length_range]
  have hFinite : ∀ v ∈ l.valuesOf vs.length, v.Finite := by
    intro v hv
    obtain ⟨s, hs, rfl⟩ := List.mem_map.mp hv
    exact hUpheld.values_valueOf ⟨List.mem_range.mp hs, rfl⟩
  obtain ⟨m', rfl⟩ : ∃ m', n' = m' + 1 := ⟨n' - 1, by omega⟩
  refine (mountAfresh_shows hPlain (hLength.symm ▸ hNames) hFinite hSpot
    (Nat.le_of_succ_le_succ hDeep') hLook).mono ?_
  rintro out' l' ⟨i', rfl, hState, hHtml⟩
  refine ⟨i', rfl, hState, ?_⟩
  rw [hHtml, hUpheld.html_eq (fun _ _ => Value.key_inj) hMounted, hScope]
  congr 1
  funext name
  rw [Scope.env]
  cases hName : (Scope.ofList bindings).lookup? name with
  | none => rfl
  | some s =>
    obtain ⟨bindings', hLook', -, hBound⟩ := hNames.exists_scope
    obtain rfl := Except.ok.inj (hLook.symm.trans hLook')
    simp [valuesOf, hBound name s hName]

/-! ## A list of tasks -/

/-- Tasks with a mark on those that are urgent, and what is said in a mode. -/
def taskProgram : Except Diagnostic Program :=
  Program.compileWith .standard
    ("<li *for=\"let t of ts; index as i\"><b *if=\"t.u\">{{i}}</b>{{t.n}}</li>" ++
      "<p *switch=\"m\"><i *switch-case=\"e\">E</i></p>") {}

/-- A task with a name. -/
def task (name : String) (urgent : Bool) : Value :=
  .object [("n", .string name), ("u", .bool urgent)]

/-- The tasks and the mode before the first turn. -/
def taskValues : List Value :=
  [.array [task "a" true], .string "e"]

/-- The signals of the tasks and of the mode. -/
def taskNames : List (String × SignalId) :=
  [("ts", 0), ("m", 1)]

/-- The tasks change while they are shown and while they are not, and a mark is hidden as soon as
the tasks are mounted again. -/
def taskTurns : List Instance.Turn :=
  [.mount 2 none, .set 0 (.array [task "b" true, task "a" false]), .unmount,
    .set 1 (.string "v"), .set 0 (.array [task "b" false]), .mount 1 (some (.node 2)), .advance 9]

/-- The tasks after their turns: where they are, and their markup. -/
def taskOutcome (program : Program) : Option (NodeState × String) :=
  let calls := Calls.upTo (Client.still : Client Unit Unit) 11
  match (newInstance calls taskValues program taskNames false).run.run
      (create { grace := some 8 } ()) with
  | (.ok i, l₀) =>
    let l := afterTurns calls i l₀ taskTurns
    some (l.stateOf (.container i.box), l.dom.spanHtml i.box)
  | _ => none

theorem tasks_show_afresh : ∃ program, taskProgram = .ok program ∧
    taskOutcome program = some (.attached,
      "<!----><li><!----><!---->b</li><!----><p><!----><!----></p>") ∧
    let calls := Calls.upTo (Client.still : Client Unit Unit) 11
    After (newInstance calls taskValues program taskNames false).run (create { grace := some 8 } ())
      fun out l₀ => ∃ i, out = .ok i ∧
        let l := afterTurns calls i l₀ taskTurns
        l.stateOf (.container i.box) = .attached →
          After (mountAfresh calls (l.valuesOf 2) program taskNames false 2 none).run (create {} ())
            fun out' l' => ∃ i', out' = .ok i' ∧ l'.stateOf (.container i'.box) = .attached ∧
              l'.dom.spanHtml i'.box = l.dom.spanHtml i.box := by
  have hCompiled : taskProgram.toOption.map (fun p => (p.symbols,
      decide (Instruction.AllPlain (fun _ => True) p.instructions),
      Instruction.heightOfAll p.instructions, taskOutcome p)) =
    some (["m", "ts"], true, 2, some (.attached,
      "<!----><li><!----><!---->b</li><!----><p><!----><!----></p>")) := by
    decide +kernel
  cases hProgram : taskProgram with
  | error e =>
    rw [hProgram] at hCompiled
    cases hCompiled
  | ok program =>
    rw [hProgram] at hCompiled
    simp only [Except.toOption, Option.map_some, Option.some.injEq, Prod.mk.injEq,
      decide_eq_true_eq] at hCompiled
    obtain ⟨hSymbols, hPlain, hHeight, hOutcome⟩ := hCompiled
    have hNames : Resolves program taskNames taskValues.length :=
      ⟨by rw [hSymbols]; decide, by decide⟩
    have hValues : ∀ v ∈ taskValues, v.Finite := by
      simp [taskValues, task, Value.Finite, Value.numbers, Value.numbersOfItems,
        Value.numbersOfFields]
    have hTurns : ∀ turn ∈ taskTurns, turn.Fits taskValues.length := by
      simp [taskTurns, taskValues, task, Instance.Turn.Fits, spots, Value.Finite, Value.numbers,
        Value.numbersOfItems, Value.numbersOfFields]
    refine ⟨program, rfl, hOutcome, (turns_show_afresh hProgram hPlain hNames hValues hTurns
      { grace := some 8 } () Client.still false (by omega)).mono ?_⟩
    rintro out l₀ ⟨i, hOut, hShows⟩
    exact ⟨i, hOut, fun hMounted => hShows hMounted {} () Client.still false 11 2 none (by omega)
      (by decide)⟩

end Live

end LiveMarkup
