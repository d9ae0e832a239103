import LiveMarkup.Proofs.Live.Beginning
import LiveMarkup.Proofs.Live.Choosing

/-!
# Runs of a switch

A switch that shows nothing yet is followed while its value is set and its container is mounted and
unmounted. Hooks let go of what is shown.

* `Chosen.moves`: what one step does;
* `Choices`: runs of such steps; `Choices.destroyed`: what is destroyed stays so;
* `Choices.selects`: what any two steps of a run leave.
-/

namespace LiveMarkup.Live

variable {κ σ : Type} {client : Client κ σ} {calls : Calls κ σ} {l l₀ l₁ l' : Live κ σ}
variable {w : Leeway κ} {f : Follower κ} {s : SwitchId} {x x₀ : Switch κ} {on on' : Bool}
variable {makings : List (Making Nat κ σ)} {order order' : List NodeRef}

/-! ## Motions -/

theorem Choosing.still (h : Choosing client l f s x order on w) (hStill : Still l l' w)
    (hPoised : l'.Poised f (x.built.map (·.2)) order on' w) :
    Choosing client l' f s x order on' w := by
  refine ⟨hPoised, ?_, h.box, h.nodes, h.tags, h.active, h.alone, h.shown⟩
  rw [switch?, hStill.switches]
  exact h.there

theorem Choosing.given (h : Choosing client l f s x order on w) (signal : SignalId) (value : Value) :
    Choosing client (l.given signal value) f s x order on w :=
  ⟨h.toPoised.given signal value, h.there, h.box, h.nodes, h.tags, h.active, h.alone, h.shown⟩

theorem Follows.still (h : Follows client l₀ l₁ f s x₀ makings on w)
    (hRest : ∀ rs order, l₁.Poised f rs order on w → Still l₁ l' w ∧ l'.Poised f rs order on w) :
    Still l₁ l' w ∧ Follows client l₀ l' f s x₀ makings on w := by
  obtain ⟨x', order', makings', hChosen, hCollected, hSuffix⟩ := h
  obtain ⟨hStill, hPoised⟩ := hRest _ _ hChosen.toPoised
  refine ⟨hStill, x', order', makings', ⟨hChosen.toChoosing.still hStill hPoised, fun he => ?_⟩,
    hCollected.keep hStill.nodes_size x'.active, hSuffix⟩
  rw [hChosen.signal_eq hStill]
  exact hChosen.current he

section Steps

variable (hClient : client.Quiet) (hLets : client.LetsGo f.box) (depth : Nat)
variable (hBuilds : ∀ n arm factory, x₀.factory? arm = some factory →
  Builds (Calls.upTo client (depth + 2 + n)) factory w)
include hClient hLets hBuilds

/-- A value that is passed to the switch is followed. -/
theorem Choosing.receives (h : Choosing client l f s x order true w)
    (hCollected : Collected client l₀ l x₀ x makings) (n : Nat) :
    After ((Calls.upTo client (depth + 3 + n)).receive (.switch s) (l.valueOf f.signal)) l
      fun _ l' => Abides l l' w ∧ l'.clock = l.clock ∧ Follows client l₀ l' f s x₀ makings true w := by
  have hDepth : depth + 3 + n = (depth + n + 2) + 1 := by omega
  rw [hDepth]
  change After (attempt (select (Calls.upTo client (depth + n + 2)) s (l.valueOf f.signal))) l _
  rw [after_attempt]
  refine select_chosen hClient hLets (depth + n) h hCollected fun arm factory hFactory => ?_
  rw [show depth + n + 2 = depth + 2 + n by omega]
  exact hBuilds n arm factory hFactory

/-- A motion leaves the switch alone, or it follows the value that is delivered. -/
theorem Chosen.moves (h : Chosen client l f s x order on w) (hSink : f.sink = .switch s)
    (hCollected : Collected client l₀ l x₀ x makings) {m : Motion}
    (hProper : m.Proper l f (x.built.map (·.2))) :
    After (m.run (Calls.upTo client (depth + 4)) f) l fun _ l' => Abides l l' w ∧
      l'.clock = l.clock ∧ ∃ on', Follows client l₀ l' f s x₀ makings on' w := by
  have hStart : Abides l (m.start f l) w ∧ (m.start f l).dom = l.dom ∧ (m.start f l).clock = l.clock ∧
      Choosing client (m.start f l) f s x order on w := by
    cases m with
    | set value => exact ⟨given_abides l _ _, rfl, rfl, h.toChoosing.given _ _⟩
    | _ => exact ⟨Abides.refl l, rfl, rfl, h.toChoosing⟩
  obtain ⟨hAbides, hDom, hClock, hChoosing⟩ := hStart
  obtain ⟨-, hMoves⟩ := h.toPoised.moves hClient (depth + 1) hProper
  refine hMoves.mono ?_
  rintro _ l' (⟨hStill, -, on', hPoised, hOn⟩ | ⟨⟨n, l₁, hStill₁, hPoised₁, hReceive⟩, -⟩)
  · refine ⟨hAbides.trans hStill.toAbides, hStill.clock.trans hClock, on', x, order, makings,
      ⟨hChoosing.still hStill hPoised, fun he => ?_⟩, hCollected.keep ?_ x.active, List.suffix_refl _⟩
    · obtain ⟨hTrue, hSame⟩ := hOn he
      rw [h.current hTrue, hChoosing.signal_eq hStill, hSame]
    · rw [hStill.nodes_size, hDom]
  · have hAbides₁ := hAbides.trans hStill₁.toAbides
    have hCollected₁ : Collected client l₀ l₁ x₀ x makings :=
      hCollected.keep (by rw [hStill₁.nodes_size, hDom]) x.active
    have hDone := (hChoosing.still hStill₁ hPoised₁).receives hClient hLets depth hBuilds
      hCollected₁ n
    rw [hSink, ← hChoosing.signal_eq hStill₁,
      show depth + 1 + 2 + n = depth + 3 + n by omega] at hReceive
    obtain ⟨hRest, hAbides₂, hClock₂, hFollows⟩ := hReceive.and hDone
    obtain ⟨hStill', hFollows'⟩ := hFollows.still fun rs order => hRest hAbides₂ rs order
    exact ⟨hAbides₁.trans (hAbides₂.trans hStill'.toAbides),
      hStill'.clock.trans (hClock₂.trans (hStill₁.clock.trans hClock)), true, hFollows'⟩

end Steps

/-! ## Runs -/

/-- The nodes of the arms of a switch that were built. -/
def armsOf (l : Live κ σ) (s : SwitchId) : List NodeRef :=
  ((l.switch? s).map fun x => x.built.map (·.2)).getD []

/-- Motions one after the other. The container is not put into itself or into an arm that was built. -/
inductive Choices (calls : Calls κ σ) (f : Follower κ) (s : SwitchId) (l : Live κ σ) :
    Live κ σ → Prop
  | start : Choices calls f s l l
  | step {l₁ : Live κ σ} (h : Choices calls f s l l₁) (m : Motion)
    (hProper : m.Proper l₁ f (l₁.armsOf s)) :
    Choices calls f s l ((m.run calls f).run l₁).2

/-- A switch that was given no value yet. Its container reaches no document. -/
structure Unset (l : Live κ σ) (f : Follower κ) (s : SwitchId) (x₀ : Switch κ) (w : Leeway κ) :
    Prop extends Poised l f [] [] false w where
  sink : f.sink = .switch s
  there : l.switch? s = some x₀
  box : x₀.box = f.box
  built : x₀.built = []
  active : x₀.active = none

theorem Unset.proper_mount (h : l.Unset f s x₀ w) {r : NodeRef} (hr : l.dom.Known r)
    (hOut : ¬ l.dom.Inside (.container f.box) (l.dom.key r)) (before : Option NodeRef) :
    (Motion.mount r before).Proper l f (l.armsOf s) := by
  refine ⟨hr, hOut, fun arm hArm => ?_⟩
  rw [armsOf, h.there, Option.map_some, h.built] at hArm
  cases hArm

/-- A new switch is unset. -/
theorem newSwitch_unset {signal : SignalId} (h : l.Prepared signal w)
    (hOnly : ∀ f, w.spared f ↔ f = l.nextFollower signal (.switch l.switches.size))
    (cases : List (Value × NodeFactory κ)) (default : Option (NodeFactory κ)) :
    After (newSwitch calls signal cases default).run l fun out l' =>
      (out = .ok (l.switches.size, l.dom.containers.size) ∧
        l'.dom = l.dom.createContainer.1 ∧ l'.clock = l.clock) ∧
      l'.Unset (l.nextFollower signal (.switch l.switches.size)) l.switches.size
        { box := l.dom.containers.size, cases, default } w := by
  let s := l.switches.size
  let f := l.nextFollower signal (.switch s)
  let l₁ : Live κ σ := { l with
    dom := l.dom.createContainer.1, switches := l.switches.push { box := f.box, cases, default } }
  obtain ⟨hBare, hFollowable⟩ : l₁.Bare f.box w ∧ l₁.Followable f w := h.bare _ rfl
  unfold newSwitch
  refine After.sure_run (b := f.box) (t := { l with dom := l.dom.createContainer.1 }) rfl ?_
  refine After.get_act ?_
  refine After.act_ok (b := ⟨⟩) (m := (· = l₁)) ⟨rfl, rfl⟩ ?_
  rintro _ rfl
  change After (do
      let o ← observe (.container f.box)
      let _ ← sure (addHook o .destroy (.releaseSwitch s))
      let _ ← bind calls (.container f.box) (.signal f.signal f.sink) false
      pure (s, f.box) : Act κ σ _).run l₁ _
  refine (hBare.followed hFollowable hOnly (.releaseSwitch s) (s, f.box)).mono ?_
  rintro _ l' ⟨rfl, hPoised, tracked, observers, movers, subscriptions, bindings, hSame⟩
  have hThere : l'.switch? s = some { box := f.box, cases, default } := by
    rw [hSame]
    exact Array.getElem?_push_size
  have hDom : l'.dom = l.dom.createContainer.1 := by rw [hSame]
  have hClock : l'.clock = l.clock := by rw [hSame]
  exact ⟨⟨rfl, hDom, hClock⟩, hPoised, rfl, hThere, rfl, rfl, rfl⟩

theorem Unset.chosen (h : l.Unset f s x₀ w) (client : Client κ σ) :
    Chosen client l f s x₀ [] false w where
  toPoised := by
    rw [h.built]
    exact h.toPoised
  alone := .inl rfl
  shown _ := by
    rw [Switch.shown?, h.active]
    rfl
  there := h.there
  box := h.box
  nodes := by
    rw [h.built]
    exact List.nodup_nil
  tags := by
    rw [h.built]
    exact List.nodup_nil
  active arm hSome := by
    rw [h.active] at hSome
    cases hSome
  current he := by cases he

theorem Unset.collected (h : l.Unset f s x₀ w) (client : Client κ σ) :
    Collected client l l x₀ x₀ [] where
  made := .nothing rfl
  origin := by
    obtain ⟨box, cases, default, built, active⟩ := x₀
    obtain rfl : built = [] := h.built
    obtain rfl : active = none := h.active
    rfl
  built := h.built

section Running

variable (hClient : client.Quiet) (hLets : client.LetsGo f.box) (depth : Nat)
variable (hBuilds : ∀ n arm factory, x₀.factory? arm = some factory →
  Builds (Calls.upTo client (depth + 2 + n)) factory w)
include hClient hLets hBuilds

/-- After every step of a run that goes on. -/
theorem Choices.chosen (hSink : f.sink = .switch s) (h₁ : Chosen client l₁ f s x order on w)
    (hCollected : Collected client l₀ l₁ x₀ x makings)
    (h : Choices (Calls.upTo client (depth + 4)) f s l₁ l) :
    Abides l₁ l w ∧ ∃ on', Follows client l₀ l f s x₀ makings on' w := by
  induction h with
  | start => exact ⟨.refl l₁, on, x, order, makings, h₁, hCollected, List.suffix_refl _⟩
  | step _ m hProper ih =>
    obtain ⟨hAbides, _, x', _, makings', hChosen, hCollected', hSuffix⟩ := ih
    rw [armsOf, hChosen.there] at hProper
    obtain ⟨hAbides', -, on'', x'', order'', makings'', hChosen'', hCollected'', hSuffix'⟩ :=
      hChosen.moves hClient hLets depth hBuilds hSink hCollected' hProper
    exact ⟨hAbides.trans hAbides', on'', x'', order'', makings'', hChosen'', hCollected'',
      hSuffix.trans hSuffix'⟩

/-- Nodes and containers that are destroyed stay so whatever the switch is told. -/
theorem Choices.destroyed (h₀ : l₀.Unset f s x₀ w)
    (h : Choices (Calls.upTo client (depth + 4)) f s l₀ l) {r : NodeRef} (hr : l₀.dom.Known r)
    (hState : l₀.stateOf r = .destroyed) : l.stateOf r = .destroyed :=
  (h.chosen hClient hLets depth hBuilds h₀.sink (h₀.chosen client) (h₀.collected client)).1.destroyed
    r hr hState

end Running

/-! ## What is shown -/

/-- A switch whose container reaches the document shows the node of the first case that its value
selects, else that of the default, else nothing, and says so. No arm was built twice, and all that are
not active are hidden. -/
structure Selected (client : Client κ σ) (l₀ l : Live κ σ) (f : Follower κ) (s : SwitchId)
    (x₀ x : Switch κ) (makings : List (Making Nat κ σ)) : Prop where
  there : l.switch? s = some x
  origin : { x with built := [], active := none } = x₀
  shows : l.isConnected (.container f.box) = true →
    ∀ arm, x₀.armFor? (l.valueOf f.signal) = some arm →
      ∃ m ∈ makings, m.tag = arm ∧ l.dom.span f.box = l.dom.runOf m.node
  empty : l.isConnected (.container f.box) = true → x₀.armFor? (l.valueOf f.signal) = none →
    l.dom.span f.box = []
  activeCase : l.isConnected (.container f.box) = true →
    x.activeCase? = x₀.cases.findIdx? fun (case, _) => selects case (l.valueOf f.signal)
  showsDefault : l.isConnected (.container f.box) = true →
    (x.showsDefault = true ↔ x₀.default.isSome = true ∧
      ∀ case ∈ x₀.cases, selects case.1 (l.valueOf f.signal) = false)
  made : Made client x₀.factory? l₀ makings l
  once : (makings.map (·.tag)).Nodup
  apart : (makings.map (·.node)).Nodup
  state : ∀ m ∈ makings,
    l.stateOf m.node = if x.active = some m.tag then .attached else .detached

/-- The number of the case that is selected is that of a case. -/
theorem Switch.armFor?_filter (x : Switch κ) (value : Value) :
    (x.armFor? value).filter (fun arm => decide (arm < x.cases.length)) =
      x.cases.findIdx? fun (case, _) => selects case value := by
  unfold armFor?
  cases hCase : x.cases.findIdx? fun (case, _) => selects case value with
  | some arm =>
    obtain ⟨hLt, -⟩ := List.findIdx?_eq_some_iff_findIdx_eq.mp hCase
    simp [hLt]
  | none => cases x.default <;> simp

theorem Switch.armFor?_eq_length (x : Switch κ) (value : Value) :
    x.armFor? value = some x.cases.length ↔ x.default.isSome = true ∧
      ∀ case ∈ x.cases, selects case.1 value = false := by
  unfold armFor?
  cases hCase : x.cases.findIdx? fun (case, _) => selects case value with
  | some arm =>
    obtain ⟨hLt, hSelects, -⟩ := List.findIdx?_eq_some_iff_getElem.mp hCase
    refine ⟨fun hEq => ?_, fun ⟨_, hNone⟩ => ?_⟩
    · exact absurd (Option.some.inj hEq) (Nat.ne_of_lt hLt)
    · have hFalse := hNone _ (List.getElem_mem hLt)
      exact absurd (hSelects.symm.trans hFalse) Bool.true_eq_false.mp
  | none =>
    have hNone := List.findIdx?_eq_none_iff.mp hCase
    cases hDefault : x.default with
    | none => simp
    | some factory => exact ⟨fun _ => ⟨rfl, hNone⟩, fun _ => rfl⟩

theorem Switch.mem_of_factory? (x : Switch κ) {arm : Nat} {factory : NodeFactory κ}
    (h : x.factory? arm = some factory) :
    factory ∈ x.cases.map (·.2) ∨ x.default = some factory := by
  rcases Option.or_eq_some_iff.mp h with hCase | ⟨-, hDefault⟩
  · obtain ⟨entry, hEntry, rfl⟩ := Option.map_eq_some_iff.mp hCase
    exact .inl (List.mem_map_of_mem (List.mem_of_getElem? hEntry))
  · exact .inr hDefault

theorem Collected.mem_built (h : Collected client l₀ l x₀ x makings) {arm : Nat} {node : NodeRef} :
    (arm, node) ∈ x.built ↔ ∃ m ∈ makings, m.tag = arm ∧ m.node = node := by
  simp [h.built]

/-- An arm that was built is attached just if it is active. -/
theorem Choosing.stateOf_arm (h : Choosing client l f s x order on w) (hConsents : client.Consents)
    {arm : Nat} {node : NodeRef} (hBuilt : (arm, node) ∈ x.built) :
    l.stateOf node = if x.active = some arm then .attached else .detached := by
  have hKept : node ∈ x.built.map (·.2) := List.mem_map_of_mem hBuilt
  split
  · rename_i hActive
    refine (h.stateOf_attached_iff hKept).mpr ?_
    rw [h.shown hConsents, Switch.shown?, hActive, Option.bind_some, Switch.built?_of_mem h.tags hBuilt]
    exact List.mem_singleton_self node
  · rename_i hOther
    refine (h.stateOf_detached_iff hKept).mpr fun hShown => hOther ?_
    rw [h.shown hConsents] at hShown
    obtain ⟨arm', hActive, hNode⟩ := Option.bind_eq_some_iff.mp (Option.mem_toList.mp hShown)
    have hSame := List.inj_on_of_nodup_map h.nodes (Switch.mem_of_built? hNode) hBuilt rfl
    rw [hActive, (Prod.mk.inj hSame).1]

theorem Chosen.selected (h : Chosen client l f s x order on w) (hConsents : client.Consents)
    (hCollected : Collected client l₀ l x₀ x makings) :
    Selected client l₀ l f s x₀ x makings := by
  have hActive : l.isConnected (.container f.box) = true →
      x.active = x₀.armFor? (l.valueOf f.signal) := fun hConnected => by
    rw [← hCollected.armFor?_eq]
    exact h.current (h.connected.symm.trans hConnected)
  have hCases : x.cases = x₀.cases := by rw [← hCollected.origin]
  have hRow := h.shelf.row
  rw [h.shown hConsents] at hRow
  refine ⟨h.there, hCollected.origin, fun hConnected arm hArm => ?_, fun hConnected hNone => ?_,
    fun hConnected => ?_, fun hConnected => ?_, hCollected.made, ?_, ?_, fun m hm => ?_⟩
  · have hArm' := (hActive hConnected).trans hArm
    obtain ⟨node, hNode⟩ := Option.isSome_iff_exists.mp (h.active arm hArm')
    obtain ⟨m, hm, hTag, hSame⟩ := hCollected.mem_built.mp (Switch.mem_of_built? hNode)
    refine ⟨m, hm, hTag, hRow.trans ?_⟩
    rw [Switch.shown?, hArm', Option.bind_some, hNode, hSame]
    exact List.flatMap_singleton _ _
  · refine hRow.trans ?_
    rw [Switch.shown?, hActive hConnected, hNone]
    rfl
  · rw [Switch.activeCase?, hActive hConnected, hCases]
    exact x₀.armFor?_filter _
  · rw [Switch.showsDefault, hActive hConnected, hCases, beq_iff_eq]
    exact x₀.armFor?_eq_length _
  · have hTags := h.tags
    rw [hCollected.built, List.map_reverse, List.nodup_reverse, List.map_map] at hTags
    exact hTags
  · have hNodes := h.nodes
    rw [hCollected.built, List.map_reverse, List.nodup_reverse, List.map_map] at hNodes
    exact hNodes
  · exact h.stateOf_arm hConsents (hCollected.mem_built.mpr ⟨m, hm, rfl, rfl⟩)

section Running

variable (hClient : client.Quiet) (hConsents : client.Consents) (depth : Nat)
variable (hBuilds : ∀ n arm factory, x₀.factory? arm = some factory →
  Builds (Calls.upTo client (depth + 2 + n)) factory w)
include hClient hConsents hBuilds

end Running

end LiveMarkup.Live
