import LiveMarkup.Proofs.Live.Mounting

/-!
# Switches that choose their arms

A switch follows its value. Its container holds the node of the arm that is active; an arm is built
when it is first shown, and its node is kept while another one is shown. Hooks may cancel that an arm
is shown, and then the container is empty; but they let go of what is shown.

* `Switch.shown?`: the node of the active arm;
* `Choosing`, `Chosen`: a switch with the nodes that it keeps;
* `Collected`: the arms that were built, each of them once;
* `select_chosen`: the switch follows a value that is delivered.
-/

namespace LiveMarkup

variable {κ : Type}

namespace Live.Switch

variable {x : Switch κ} {arm : Nat} {value : Value}

/-- The node of the arm that is shown. -/
def shown? (x : Switch κ) : Option NodeRef :=
  x.active.bind x.built?

theorem factory?_isSome (h : x.armFor? value = some arm) :
    ∃ factory, x.factory? arm = some factory := by
  unfold armFor? at h
  unfold factory?
  rcases Option.or_eq_some_iff.mp h with hCase | ⟨-, hDefault⟩
  · obtain ⟨hLt, -⟩ := List.findIdx?_eq_some_iff_findIdx_eq.mp hCase
    rw [List.getElem?_eq_getElem hLt]
    exact ⟨_, rfl⟩
  · obtain ⟨factory, hFactory, -⟩ := Option.map_eq_some_iff.mp hDefault
    rw [hFactory]
    cases x.cases[arm]?.map (·.2) with
    | none => exact ⟨factory, rfl⟩
    | some other => exact ⟨other, rfl⟩

theorem built?_eq (x : Switch κ) (arm : Nat) :
    x.built? arm = (x.built.find? (·.1 == arm)).map (·.2) :=
  rfl

theorem mem_of_built? {node : NodeRef} (h : x.built? arm = some node) : (arm, node) ∈ x.built := by
  rw [built?_eq] at h
  obtain ⟨⟨number, _⟩, hFind, rfl⟩ := Option.map_eq_some_iff.mp h
  have hNumber : number = arm := by simpa using List.find?_some hFind
  exact hNumber ▸ List.mem_of_find?_eq_some hFind

theorem built?_of_mem {node : NodeRef} (hTags : (x.built.map (·.1)).Nodup)
    (h : (arm, node) ∈ x.built) : x.built? arm = some node := by
  cases hFind : x.built.find? (·.1 == arm) with
  | none =>
    have hNone := List.find?_eq_none.mp hFind _ h
    simp at hNone
  | some other =>
    have hBuilt : x.built? arm = some other.2 := by rw [built?_eq, hFind]; rfl
    have hSame := List.inj_on_of_nodup_map hTags h (mem_of_built? hBuilt) rfl
    rw [hBuilt]
    exact congrArg some (Prod.mk.inj hSame).2.symm

theorem not_mem_of_built? (h : x.built? arm = none) {entry : Nat × NodeRef} (he : entry ∈ x.built) :
    entry.1 ≠ arm := by
  rw [built?_eq, Option.map_eq_none_iff] at h
  simpa using List.find?_eq_none.mp h entry he

theorem setBuilt_of_none {node : NodeRef} (h : x.built? arm = none) :
    x.setBuilt arm node = { x with built := x.built ++ [(arm, node)] } := by
  have hAll : x.built.filter (!·.1 == arm) = x.built :=
    List.filter_eq_self.mpr fun entry he => by simpa using not_mem_of_built? h he
  exact congrArg (fun built => { x with built := built ++ [(arm, node)] }) hAll

theorem built?_append {node : NodeRef} (h : x.built? arm = none) :
    built? { x with built := x.built ++ [(arm, node)] } arm = some node := by
  rw [built?_eq, Option.map_eq_none_iff] at h
  rw [built?_eq, List.find?_append, h]
  simp

end Live.Switch

namespace Live

variable {σ : Type} {client : Client κ σ} {calls : Calls κ σ} {l l₀ l₁ l' : Live κ σ}
variable {w : Leeway κ} {f : Follower κ} {s : SwitchId} {x x' x₀ : Switch κ} {on : Bool} {arm : Nat}
variable {order : List NodeRef}
variable {makings : List (Making Nat κ σ)}

/-- A switch keeps a node for each arm that was built. It has nothing in its container but that of the
active one, and shows it unless hooks cancel that. -/
structure Choosing (client : Client κ σ) (l : Live κ σ) (f : Follower κ) (s : SwitchId) (x : Switch κ)
    (order : List NodeRef) (on : Bool) (w : Leeway κ) : Prop
    extends Poised l f (x.built.map (·.2)) order on w where
  there : l.switch? s = some x
  box : x.box = f.box
  nodes : (x.built.map (·.2)).Nodup
  tags : (x.built.map (·.1)).Nodup
  active : ∀ arm, x.active = some arm → (x.built? arm).isSome = true
  alone : order = [] ∨ order = x.shown?.toList
  shown : client.Consents → order = x.shown?.toList

/-- Between steps the active arm is that of the value, if the container reaches the document. -/
structure Chosen (client : Client κ σ) (l : Live κ σ) (f : Follower κ) (s : SwitchId) (x : Switch κ)
    (order : List NodeRef) (on : Bool) (w : Leeway κ) : Prop
    extends Choosing client l f s x order on w where
  current : on = true → x.active = x.armFor? (l.valueOf f.signal)

/-- The arms of a switch that were built since a state. -/
structure Collected (client : Client κ σ) (l₀ l : Live κ σ) (x₀ x : Switch κ)
    (makings : List (Making Nat κ σ)) : Prop where
  made : Made client x₀.factory? l₀ makings l
  origin : { x with built := [], active := none } = x₀
  built : x.built = (makings.map fun m => (m.tag, m.node)).reverse

namespace Collected

theorem factory?_eq (h : Collected client l₀ l x₀ x makings) : x.factory? = x₀.factory? := by
  rw [← h.origin]
  rfl

theorem armFor?_eq (h : Collected client l₀ l x₀ x makings) : x.armFor? = x₀.armFor? := by
  rw [← h.origin]
  rfl

theorem keep (h : Collected client l₀ l x₀ x makings)
    (hSize : l'.dom.nodes.size = l.dom.nodes.size) (active : Option Nat) :
    Collected client l₀ l' x₀ { x with active } makings :=
  ⟨h.made.later hSize, h.origin, h.built⟩

/-- An arm is built. -/
theorem add (h : Collected client l₀ l x₀ x makings) {factory : NodeFactory κ} {node : NodeRef}
    {depth : Nat} (hFactory : x.factory? arm = some factory)
    (hBuild : ((Calls.upTo client depth).build factory).run.run l = (.ok node, l')) :
    Collected client l₀ l' x₀ { x with built := x.built ++ [(arm, node)] }
      (⟨arm, node, l⟩ :: makings) where
  made := .call h.made (h.factory?_eq ▸ hFactory) hBuild rfl
  origin := h.origin
  built := by
    rw [List.map_cons, List.reverse_cons, ← h.built]

end Collected

/-- What a switch has become. -/
def Follows (client : Client κ σ) (l₀ l' : Live κ σ) (f : Follower κ) (s : SwitchId) (x₀ : Switch κ)
    (makings : List (Making Nat κ σ)) (on : Bool) (w : Leeway κ) : Prop :=
  ∃ x' order' makings', Chosen client l' f s x' order' on w ∧ Collected client l₀ l' x₀ x' makings' ∧
    makings <:+ makings'

/-! ## Following the value -/

/-- No arm of a switch is active any more. -/
structure Hidden (l l' : Live κ σ) (f : Follower κ) (s : SwitchId) (x : Switch κ) (w : Leeway κ) :
    Prop where
  abides : Abides l l' w
  poised : l'.Poised f (x.built.map (·.2)) [] true w
  nodes_size : l'.dom.nodes.size = l.dom.nodes.size
  value : l'.valueOf f.signal = l.valueOf f.signal
  clock : l'.clock = l.clock
  there : l'.switch? s = some { x with active := none }

section Following

variable (hClient : client.Quiet) (hLets : client.LetsGo f.box) (depth : Nat) {value : Value}

/-- A switch is changed, but not what it shows and keeps. -/
theorem Poised.modifySwitch {rs order : List NodeRef} (h : l.Poised f rs order on w)
    (hThere : l.switch? s = some x) (g : Switch κ → Switch κ) :
    After (modifySwitch s g) l fun _ l' => Abides l l' w ∧ l'.Poised f rs order on w ∧
      l'.dom.nodes.size = l.dom.nodes.size ∧ l'.valueOf f.signal = l.valueOf f.signal ∧
      l'.clock = l.clock ∧ l'.switch? s = some (g x) := by
  obtain ⟨hAbides, hPoised⟩ :=
    h.aside l.client l.clock l.conditionals (l.switches.modify s g)
  refine ⟨hAbides, hPoised, rfl, rfl, rfl, ?_⟩
  exact (switch?_modify l s s g).trans (by rw [if_pos rfl, hThere]; rfl)

section Hiding

include hClient hLets

/-- The active arm is hidden, as hooks let go of it. -/
theorem hideArm_hides (h : Choosing client l f s x order true w) :
    After (hideArm (Calls.upTo client (depth + 2)) s).run l fun out l' =>
      out = .ok () ∧ Hidden l l' f s x w := by
  unfold hideArm
  refine After.get_act ?_
  rw [h.there]
  refine After.sure_bind (h.toPoised.modifySwitch h.there _) ?_
  rintro _ l₁ ⟨hAbides, hPoised, hSize, hValue, hClock, hThere⟩
  cases hShown : x.active.bind x.built? with
  | none =>
    obtain rfl : order = [] := by simpa [Switch.shown?, hShown] using h.alone
    exact ⟨rfl, hAbides, hPoised, hSize, hValue, hClock, hThere⟩
  | some node =>
    obtain ⟨arm, -, hBuilt⟩ := Option.bind_eq_some_iff.mp hShown
    have hKept : node ∈ x.built.map (·.2) := List.mem_map_of_mem (Switch.mem_of_built? hBuilt)
    refine (hPoised.withdraw_unless hClient depth hKept).mono ?_
    rintro _ l' ⟨rfl, hStill, order', hPoised', hOrder⟩
    have hLet := hLets node (hPoised.shelf.ne_box hKept).symm
    obtain rfl : order' = [] := by
      rw [hOrder.resolve_right fun hHeld => hHeld.2 hLet]
      rcases h.alone with rfl | rfl <;> simp [Switch.shown?, hShown]
    refine ⟨rfl, hAbides.trans hStill.toAbides, hPoised', hStill.nodes_size.trans hSize,
      (hPoised.signal_eq hStill).trans hValue, hStill.clock.trans hClock, ?_⟩
    rw [switch?, hStill.switches]
    exact hThere

end Hiding

/-- The node of an arm that is kept. -/
theorem nodeOfArm?_kept {rs order : List NodeRef} {node : NodeRef} (hPoised : l.Poised f rs order on w)
    (hNode : node ∈ rs) (hBuilt : x.built? arm = some node) :
    After (nodeOfArm? calls s x arm).run l fun out l' => out = .ok (some node) ∧ l' = l := by
  have hLives := hPoised.stateOf_ne_destroyed hNode
  unfold nodeOfArm?
  refine After.get_act ?_
  rw [hBuilt, Option.filter_some, if_pos (by simpa using hLives)]
  exact ⟨rfl, rfl⟩

/-- Otherwise the arm is built, and kept with the others. -/
theorem nodeOfArm?_built {order : List NodeRef} {factory : NodeFactory κ}
    (hPoised : l.Poised f (x.built.map (·.2)) order on w) (hThere : l.switch? s = some x)
    (hBuilt : x.built? arm = none) (hFactory : x.factory? arm = some factory)
    (hBuilds : Builds calls factory w) :
    After (nodeOfArm? calls s x arm).run l fun out l' => ∃ node l₁, out = .ok (some node) ∧
      (calls.build factory).run.run l = (.ok node, l₁) ∧ node ∉ x.built.map (·.2) ∧ Abides l l' w ∧
      l'.Poised f ((x.built ++ [(arm, node)]).map (·.2)) order on w ∧
      l'.dom.nodes.size = l₁.dom.nodes.size ∧ l'.valueOf f.signal = l.valueOf f.signal ∧
      l'.clock = l.clock ∧ l'.switch? s = some { x with built := x.built ++ [(arm, node)] } := by
  unfold nodeOfArm?
  refine After.get_act ?_
  rw [hBuilt, Option.filter_none, hFactory]
  refine After.act_bind (hPoised.build hBuilds).run_eq ?_ fun _ _ h => by
    obtain ⟨-, _, hEq, -⟩ := h
    cases hEq
  rintro node l₁ ⟨hRun, _, hEq, hB, hNew, hAbides, hPoised₁⟩
  obtain rfl := Except.ok.inj hEq
  have hPoised₂ : l₁.Poised f ((x.built ++ [(arm, node)]).map (·.2)) order on w := by
    have hMap : (x.built ++ [(arm, node)]).map (·.2) = x.built.map (·.2) ++ [node] := List.map_append
    rw [hMap]
    refine hPoised₁.less (fun r hr => ?_) fun r hr => ?_
    · rw [List.mem_append, List.mem_singleton] at hr
      exact List.mem_cons.mpr hr.symm
    · exact List.mem_append_left _ (hPoised.shelf.subset r hr)
  have hLt : s < l.switches.size := (Array.getElem?_eq_some_iff.mp hThere).1
  refine After.sure_bind (hPoised₂.modifySwitch ((hB.switches s hLt).trans hThere) _) ?_
  rintro _ l' ⟨hAbides', hPoised', hSize, hValue, hClock, hThere'⟩
  rw [Switch.setBuilt_of_none hBuilt] at hThere'
  exact ⟨node, l₁, rfl, hRun, hNew, hAbides.trans hAbides', hPoised', hSize,
    hValue.trans (hB.signal_eq hPoised), hClock.trans hB.clock, hThere'⟩

include hClient

/-- The node of an arm is brought into the container, unless that is cancelled. -/
theorem present_arm {node : NodeRef} (hPoised : l.Poised f (x.built.map (·.2)) [] true w)
    (hThere : l.switch? s = some x) (hBox : x.box = f.box) (hNodes : (x.built.map (·.2)).Nodup)
    (hTags : (x.built.map (·.1)).Nodup) (hBuilt : x.built? arm = some node)
    (hArm : x.armFor? (l.valueOf f.signal) = some arm) :
    After (do
        attachAnywhere (Calls.upTo client (depth + 2)) node (.container x.box) none
        sure (modifySwitch s fun x => { x with active := some arm }) : Act κ σ Unit).run l fun _ l' =>
      Abides l l' w ∧ l'.dom.nodes.size = l.dom.nodes.size ∧ l'.clock = l.clock ∧
        ∃ order, Chosen client l' f s { x with active := some arm } order true w := by
  have hKept : node ∈ x.built.map (·.2) := List.mem_map_of_mem (Switch.mem_of_built? hBuilt)
  have hPresent := hPoised.present_unless hClient depth hKept (.inl rfl)
  rw [← hBox] at hPresent
  refine After.act_ok hPresent ?_
  rintro l₁ ⟨hStill, order, hPoised₁, hOrder⟩
  rw [after_sure]
  have hThere₁ : l₁.switch? s = some x := by
    rw [switch?, hStill.switches]
    exact hThere
  refine (hPoised₁.modifySwitch hThere₁ _).mono ?_
  rintro _ l' ⟨hAbides, hPoised', hSize, hValue, hClock, hThere'⟩
  have hShown : Switch.shown? { x with active := some arm } = some node := hBuilt
  have hChoosing : Choosing client l' f s { x with active := some arm } order true w := by
    refine ⟨hPoised', hThere', hBox, hNodes, hTags, ?_, ?_, fun hConsents => ?_⟩
    · rintro _ ⟨⟩
      exact congrArg Option.isSome hBuilt
    · rw [hShown]
      exact hOrder.symm.imp_left And.left
    · rw [hShown]
      exact hOrder.resolve_right fun hCancelled => hCancelled.2 (hConsents.grants _)
  refine ⟨hStill.toAbides.trans hAbides, hSize.trans hStill.nodes_size, hClock.trans hStill.clock, order,
    hChoosing, fun _ => ?_⟩
  rw [hValue, hPoised.signal_eq hStill]
  exact hArm.symm

/-- An arm is shown, and built if it was not. -/
theorem showArm_chosen (hPoised : l.Poised f (x.built.map (·.2)) [] true w)
    (hThere : l.switch? s = some x) (hBox : x.box = f.box) (hNodes : (x.built.map (·.2)).Nodup)
    (hTags : (x.built.map (·.1)).Nodup) (hCollected : Collected client l₀ l x₀ x makings)
    (hBuilds : ∀ arm factory, x₀.factory? arm = some factory →
      Builds (Calls.upTo client (depth + 2)) factory w)
    (hArm : x.armFor? (l.valueOf f.signal) = some arm) :
    After (showArm (Calls.upTo client (depth + 2)) s arm).run l fun _ l' =>
      Abides l l' w ∧ l'.clock = l.clock ∧ Follows client l₀ l' f s x₀ makings true w := by
  unfold showArm
  refine After.get_act ?_
  rw [hThere]
  cases hBuilt : x.built? arm with
  | some node =>
    have hKept : node ∈ x.built.map (·.2) := List.mem_map_of_mem (Switch.mem_of_built? hBuilt)
    refine After.act_ok (nodeOfArm?_kept hPoised hKept hBuilt) ?_
    rintro _ rfl
    refine (present_arm hClient depth hPoised hThere hBox hNodes hTags hBuilt hArm).mono ?_
    rintro _ l' ⟨hAbides, hSize, hClock, order, hChosen⟩
    exact ⟨hAbides, hClock, _, order, makings, hChosen, hCollected.keep hSize _, List.suffix_refl _⟩
  | none =>
    obtain ⟨factory, hFactory⟩ := Switch.factory?_isSome hArm
    refine After.act_bind (nodeOfArm?_built hPoised hThere hBuilt hFactory
      (hBuilds arm factory (hCollected.factory?_eq ▸ hFactory))) ?_ fun _ _ h => by
        obtain ⟨_, _, hEq, -⟩ := h
        cases hEq
    rintro _ l₁ ⟨node, l₂, hEq, hRun, hNew, hAbides, hPoised₁, hSize, hValue, hClock, hThere₁⟩
    obtain rfl := Except.ok.inj hEq
    have hNewTag : arm ∉ x.built.map (·.1) := by
      intro hMem
      obtain ⟨entry, he, hTag⟩ := List.mem_map.mp hMem
      exact Switch.not_mem_of_built? hBuilt he hTag
    let x₁ : Switch κ := { x with built := x.built ++ [(arm, node)] }
    have hMap₁ : x₁.built.map (·.1) = x.built.map (·.1) ++ [arm] := List.map_append
    have hMap₂ : x₁.built.map (·.2) = x.built.map (·.2) ++ [node] := List.map_append
    have hNodes₁ : (x₁.built.map (·.2)).Nodup := by
      rw [hMap₂]
      exact List.concat_eq_append ▸ hNodes.concat hNew
    have hTags₁ : (x₁.built.map (·.1)).Nodup := by
      rw [hMap₁]
      exact List.concat_eq_append ▸ hTags.concat hNewTag
    have hCollected₁ : Collected client l₀ l₁ x₀ x₁ (⟨arm, node, l⟩ :: makings) :=
      (hCollected.add hFactory hRun).keep hSize x.active
    have hArm₁ : x₁.armFor? (l₁.valueOf f.signal) = some arm := by
      rw [hValue]
      exact hArm
    refine (present_arm hClient depth hPoised₁ hThere₁ hBox hNodes₁ hTags₁
      (Switch.built?_append hBuilt) hArm₁).mono ?_
    rintro _ l' ⟨hAbides', hSize', hClock', order, hChosen⟩
    exact ⟨hAbides.trans hAbides', hClock'.trans hClock, _, order, _, hChosen,
      hCollected₁.keep hSize' _, List.suffix_cons _ _⟩

include hLets in
/-- The value is followed. -/
theorem select_chosen (h : Choosing client l f s x order true w)
    (hCollected : Collected client l₀ l x₀ x makings)
    (hBuilds : ∀ arm factory, x₀.factory? arm = some factory →
      Builds (Calls.upTo client (depth + 2)) factory w) :
    After (select (Calls.upTo client (depth + 2)) s (l.valueOf f.signal)).run l fun _ l' =>
      Abides l l' w ∧ l'.clock = l.clock ∧ Follows client l₀ l' f s x₀ makings true w := by
  unfold select
  refine After.get_act ?_
  rw [h.there]
  dsimp only
  split
  · refine After.act_ok (hideArm_hides hClient hLets depth h) ?_
    rintro l₁ hH
    let x₁ : Switch κ := { x with active := none }
    have hCollected₁ : Collected client l₀ l₁ x₀ x₁ makings := hCollected.keep hH.nodes_size none
    have hArm : x₁.armFor? (l₁.valueOf f.signal) = x.armFor? (l.valueOf f.signal) := by
      rw [hH.value]
      rfl
    have hPoised₁ : l₁.Poised f (x₁.built.map (·.2)) [] true w := hH.poised
    rw [← hArm]
    cases hNew : x₁.armFor? (l₁.valueOf f.signal) with
    | none =>
      have hChosen : Chosen client l₁ f s x₁ [] true w := ⟨⟨hPoised₁, hH.there, h.box, h.nodes, h.tags,
        (fun _ hSome => by cases hSome), .inl rfl, fun _ => rfl⟩, fun _ => hNew.symm⟩
      exact ⟨hH.abides, hH.clock, x₁, [], makings, hChosen, hCollected₁, List.suffix_refl _⟩
    | some arm =>
      exact (showArm_chosen hClient depth hPoised₁ hH.there h.box h.nodes h.tags hCollected₁
        hBuilds hNew).mono fun _ l' hPost =>
          ⟨hH.abides.trans hPost.1, hPost.2.1.trans hH.clock, hPost.2.2⟩
  · rename_i hSame
    refine ⟨Abides.refl l, rfl, x, order, makings, ⟨h, fun _ => ?_⟩, hCollected, List.suffix_refl _⟩
    exact (not_not.mp hSame).symm

end Following

end Live

end LiveMarkup
