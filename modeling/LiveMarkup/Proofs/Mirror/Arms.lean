import LiveMarkup.Proofs.Mirror.Conditions
import LiveMarkup.Proofs.Mirror.Notifying

/-!
# Switches, and signals that are set

A switch hides the arm that it shows and shows another one, which it builds if it has none. While
an arm is being shown the record of the switch says of none that it is.

A signal that is set passes its value to whatever watches it: followers are brought up to date, and
derived signals are set in turn.

* `withSwitch`: the document with another record of a switch;
* `hideArm_maintained`, `showNode_leads`, `showArm_leads`: the steps;
* `select_leads`: the switch is as its signal says;
* `Pending.Frees`: signals that have to keep their values are not in the way;
* `setSignal_sets`: everything that reads the signal, at once or through derived signals, is up to
  date in the end.
-/

/-! ## Switches that follow signals -/

namespace LiveMarkup.Live

/-! ### Arms by their numbers -/

namespace Switch

variable {κ : Type} {x : Switch κ} {arm : Nat} {n : NodeRef} {v : Value}

theorem mem_built_of_built? (h : x.built? arm = some n) : (arm, n) ∈ x.built := by
  obtain ⟨e, he, rfl⟩ := Option.map_eq_some_iff.mp h
  obtain ⟨hArm, hIn⟩ := And.intro (List.find?_some he) (List.mem_of_find?_eq_some he)
  rw [beq_iff_eq] at hArm
  rwa [← hArm]

theorem built?_setBuilt (arm : Nat) (n : NodeRef) (x : Switch κ) :
    (x.setBuilt arm n).built? arm = some n := by
  have hNone : (x.built.filter fun e => !(e.1 == arm)).find? (·.1 == arm) = none := by
    simp
  simp [built?, setBuilt, List.find?_append, hNone]

theorem mem_built_setBuilt {e : Nat × NodeRef} (h : e ∈ (x.setBuilt arm n).built) :
    e ∈ x.built ∨ e = (arm, n) := by
  rcases List.mem_append.mp h with hOld | hNew
  · exact .inl (List.mem_of_mem_filter hOld)
  · exact .inr (List.mem_singleton.mp hNew)

theorem factory?_of_armFor? (h : x.armFor? v = some arm) : (x.factory? arm).isSome := by
  rw [armFor?, Option.or_eq_some_iff] at h
  rcases h with hCase | ⟨-, hDefault⟩
  · have hLt := (List.findIdx?_eq_some_iff_getElem.mp hCase).1
    simp [factory?, hLt]
  · obtain ⟨f, hf, -⟩ := Option.map_eq_some_iff.mp hDefault
    simp [factory?, hf]

end Switch

variable {κ σ : Type} {π π₁ π' : Plan} {P P₁ P' : Pending} {l l₁ l' : Live κ σ}
variable {u w : BindingId} {s t : SignalId} {r q node : NodeRef} {c : SwitchId} {arm : Nat}
variable {x y : Switch κ} {v : Value} {d : Dom} {client : Client κ σ} {n m : Nat}

/-! ### Records of switches -/

def withSwitch (l : Live κ σ) (c : SwitchId) (x : Switch κ) : Live κ σ :=
  { l with switches := l.switches.modify c fun _ => x }

theorem switch_withSwitch (hy : l.switches[c]? = some y) :
    (l.withSwitch c x).switches[c]? = some x := by
  change (l.switches.modify c fun _ => x)[c]? = _
  rw [Array.getElem?_modify, if_pos rfl, hy]
  rfl

theorem withSwitch_modify (hy : l.switches[c]? = some y) (f : Switch κ → Switch κ) :
    { l with switches := l.switches.modify c f } = l.withSwitch c (f y) := by
  have hSame : l.switches.modify c f = l.switches.modify c fun _ => f y := by
    refine Array.ext_getElem? fun i => ?_
    rw [Array.getElem?_modify, Array.getElem?_modify]
    split
    · rename_i hEq
      rw [← hEq, hy]
      rfl
    · rfl
  rw [hSame, withSwitch]

theorem withSwitch_self (hy : l.switches[c]? = some y) : l.withSwitch c y = l := by
  have hSame : (l.switches.modify c fun _ => y) = l.switches := by
    refine Array.ext_getElem? fun i => ?_
    rw [Array.getElem?_modify]
    split
    · rename_i hEq
      rw [← hEq, hy]
      rfl
    · rfl
  rw [withSwitch, hSame]

theorem ahead_withSwitch : Ahead l (l.withSwitch c x) :=
  ⟨rfl, rfl, rfl, fun _ => rfl, rfl⟩

/-- One more switch is about to show an arm. -/
def Pending.aboutTo (P : Pending) (u : BindingId) (arm : Nat) : Pending :=
  { P with showing := fun w => if w = u then some arm else P.showing w }

section Records

variable (h : Maintained π P₁ l) (hu : Keeper l u s (.switch c) (.container y.box))
variable (hy : l.switches[c]? = some y) (hBox : x.box = y.box) (hCases : x.cases = y.cases)
variable (hDefault : x.default = y.default)
include hy hCases hDefault

include hBox in
theorem restocked_withSwitch (hRefits : l.dom.Refits d (.container y.box)) :
    Restocked l ((l.withSwitch c x).withDom d) (.container y.box) :=
  Restocked.of_switch (f := fun _ => x) hRefits.toSameParts hRefits.sound hRefits.kin hy hBox
    hCases hDefault rfl

include h hu in
/-- The new record says of the switch what it has to. -/
theorem refilled_withSwitch (hDying : P₁.dying = fun _ => False)
    (hBuilt : ∀ e ∈ x.built, e ∈ y.built ∨ Fit π P₁ l (.container y.box) e.2 ∧
      ∃ body scope hosted, y.factory? e.1 = some (.body body scope hosted) ∧
        MadeOf l scope e.2 body)
    (hPlaced : ∀ e ∈ x.built, d.isPlaced e.2 = true → e.2 ∈ d.kin (.container y.box))
    (hActive : P'.showing u ≠ none → x.active = none)
    (hShape : ¬ Dead P₁.dying l.trackedOf (l.dom.key (.container y.box)) →
      d.kin (.container y.box) = ((x.active.or (P'.showing u)).bind x.built?).toList ∧
        ∀ arm, x.active.or (P'.showing u) = some arm → (x.built? arm).isSome)
    (hCurrent : l.statusOf u = .connected → P'.lagging u ∨
      x.active.or (P'.showing u) = y.armFor? (l.valueOf s)) :
    Refilled π P₁ P' l ((l.withSwitch c x).withDom d) (.container y.box) u s (.switch c) := by
  have hx : ((l.withSwitch c x).withDom d).switches[c]? = some x := switch_withSwitch hy
  have hStock : ∀ {l₁ : Live κ σ} {x : Switch κ} {hand n}, l₁.switches[c]? = some x →
      (n ∈ (Sink.switch c).stock l₁ hand ↔ ∃ e ∈ x.built, e.2 = n) := by
    intro l₁ x hand n hx
    rw [Sink.stock, hx, Option.map_some, Option.getD_some, List.mem_map]
  have hFactory : ∀ arm, x.factory? arm = y.factory? arm := fun arm => by
    rw [Switch.factory?, Switch.factory?, hCases, hDefault]
  have hArm : ∀ v, x.armFor? v = y.armFor? v := fun v => by
    rw [Switch.armFor?, Switch.armFor?, hCases, hDefault]
  refine ⟨fun n hn => ?_, fun n hn hOn => ?_, fun b hb hAlive => ?_, fun x' hx' => ?_,
    fun hOn => ?_⟩
  · obtain ⟨e, he, rfl⟩ := (hStock hx).mp hn
    exact (hBuilt e he).imp (fun hOld => (hStock hy).mpr ⟨e, hOld, rfl⟩) And.left
  · obtain ⟨e, he, rfl⟩ := (hStock hx).mp hn
    exact hPlaced e he hOn
  · rw [Sink.shown, hx]
    exact (hShape hAlive).1
  · cases hx.symm.trans hx'
    refine ⟨fun arm n hn hAlive => ?_, hActive, fun hAlive => (hShape hAlive).2⟩
    rw [hFactory]
    rcases hBuilt _ hn with hOld | ⟨-, hNew⟩
    · exact h.shelves.arm u s c _ y arm n hu hy hOld hAlive
    · exact hNew
  · have hAlive := h.rigs.not_dead_of_connected hu hOn (by rw [hDying]; exact id)
    refine (hCurrent hOn).imp_right fun hSame => .inr (.inr fun x' hx' => ?_)
    cases hx.symm.trans hx'
    rw [hArm, ← hSame]
    exact ⟨rfl, fun arm hArm => (hShape hAlive).2 arm hArm⟩

include h hu hBox in
/-- Only a record changed, and the tree did not. -/
theorem Maintained.reswitched (hPend : P₁.Elsewhere P l (.container y.box))
    (hAt : Refilled π P₁ P l ((l.withSwitch c x).withDom l.dom) (.container y.box) u s
      (.switch c)) :
    Maintained π P (l.withSwitch c x) ∧ Endures (fun _ => False) l (l.withSwitch c x) :=
  have hR := restocked_withSwitch hy hBox hCases hDefault
    (.refl h.rooted.sound _)
  ⟨h.refilled hu hR hPend hAt rfl, (hR.endures hu)⟩

end Records

theorem mem_stock_arm (hy : l.switches[c]? = some y) {e : Nat × NodeRef}
    (he : e ∈ y.built) (hand : List Series.Item) : e.2 ∈ (Sink.switch c).stock l hand := by
  rw [Sink.stock, hy]
  exact List.mem_map_of_mem he

/-- An arm that is kept is placed nowhere but in the switch. -/
theorem Maintained.placed_arm (h : Maintained π P₁ l)
    (hu : Keeper l u s (.switch c) (.container y.box)) (hy : l.switches[c]? = some y)
    (hRefits : l.dom.Refits d (.container y.box)) {e : Nat × NodeRef} (he : e ∈ y.built) :
    d.isPlaced e.2 = true → e.2 ∈ d.kin (.container y.box) :=
  have hStock := mem_stock_arm hy he (P₁.hand u)
  hRefits.mem_kin_of_isPlaced h.rooted.sound (h.rigs.known _ _ _ _ hu)
    (h.shelves.known _ _ _ _ _ hu hStock).1 (h.shelves.placed _ _ _ _ _ hu hStock)

section Switch

variable (h : Maintained π (P.behind u) l) (hu : Keeper l u s (.switch c) (.container y.box))
variable (hy : l.switches[c]? = some y) (hv : P.pinned s = some v) (hUnder : P.Under π u)
include h hu hy hUnder

/-- What the switch shows, if it is not dead. -/
theorem Maintained.shown_arm
    (hAlive : ¬ Dead P.dying l.trackedOf (l.dom.key (.container y.box))) :
    l.dom.kin (.container y.box) = (y.active.bind y.built?).toList ∧
      ∀ arm, y.active = some arm → (y.built? arm).isSome := by
  have hIdle : (P.behind u).showing u = none := hUnder.idle.2.2
  have hShape := h.shelves.shape _ _ _ _ hu hAlive
  have hActive := (h.shelves.showing _ _ _ _ y hu hy).2 hAlive
  rw [hIdle, Option.or_none] at hActive
  rw [hIdle, Sink.shown, hy, Option.bind_some, Option.or_none] at hShape
  exact ⟨hShape, hActive⟩

include hv in
/-- A switch that shows the arm that it should is up to date. -/
theorem Maintained.selected
    (hSame : ¬ Dead P.dying l.trackedOf (l.dom.key (.container y.box)) → y.active = y.armFor? v) :
    Maintained π P l := by
  have hIdle : P.showing u = none := hUnder.idle.2.2
  have hAt : Refilled π (P.behind u) P l ((l.withSwitch c y).withDom l.dom) (.container y.box) u s
      (.switch c) := by
    refine refilled_withSwitch h hu hy rfl rfl hUnder.dying (fun e he => .inl he)
      (fun e he => h.placed_arm hu hy (.refl h.rooted.sound _) he) (fun hNe => absurd hIdle hNe)
      (fun hAlive => ?_) fun hOn => .inr ?_
    · rw [hIdle, Option.or_none]
      exact h.shown_arm hu hy hUnder hAlive
    · rw [hIdle, Option.or_none, h.valueOf_pinned hv]
      exact hSame (h.rigs.not_dead_of_connected hu hOn (by
        change ¬ P.dying _
        rw [hUnder.dying]
        exact id))
  have hDone := (h.reswitched hu hy rfl rfl rfl (.caught_up P hu) hAt).1
  rwa [withSwitch_self hy] at hDone

/-- The arm that is shown is hidden. -/
theorem hideArm_maintained : After (hideArm (Calls.upTo client (n + 1)) c).run l fun out l' =>
    out = .ok () ∧ Maintained π (P.behind u) l' ∧ Endures (fun _ => False) l l' ∧
      l'.switches[c]? = some { y with active := none } := by
  have hIdle : (P.behind u).showing u = none := hUnder.idle.2.2
  have hDying : (P.behind u).dying = fun _ => False := hUnder.dying
  have hAt : ∀ d : Dom, l.dom.Refits d (.container y.box) →
      (¬ Dead P.dying l.trackedOf (l.dom.key (.container y.box)) →
        d.kin (.container y.box) = []) →
      Refilled π (P.behind u) (P.behind u) l
        ((l.withSwitch c { y with active := none }).withDom d) (.container y.box) u s
          (.switch c) := fun d hRefits hNone => by
    refine refilled_withSwitch h hu hy rfl rfl hDying (fun e he => .inl he)
      (fun e he => h.placed_arm hu hy hRefits he)
      (fun _ => rfl) (fun hAlive => ?_) fun _ => .inl (.inr rfl)
    rw [hIdle]
    exact ⟨hNone hAlive, nofun⟩
  unfold hideArm
  refine After.get_act ?_
  rw [show l.switch? c = some y from hy]
  dsimp only
  refine After.sure_bind (m := fun _ l₁ => l₁ = l.withSwitch c { y with active := none })
    (withSwitch_modify hy _) ?_
  rintro _ _ rfl
  have hNew : (l.withSwitch c { y with active := none }).switches[c]? =
      some { y with active := none } := switch_withSwitch hy
  rcases Option.eq_none_or_eq_some (y.active.bind y.built?) with hNone | ⟨node, hNode⟩
  · rw [hNone]
    obtain ⟨hMaintained, hEndures⟩ :=
      h.reswitched (x := { y with active := none }) hu hy rfl rfl rfl
      (.refl _ _ _) (hAt l.dom (.refl h.rooted.sound _) fun hAlive => by
        rw [(h.shown_arm hu hy hUnder hAlive).1, hNone]
        rfl)
    exact ⟨rfl, hMaintained, hEndures, hNew⟩
  · rw [hNode]
    obtain ⟨a, -, hBuilt⟩ := Option.bind_eq_some_iff.mp hNode
    have hIn := Switch.mem_built_of_built? hBuilt
    have hStock := mem_stock_arm hy hIn ((P.behind u).hand u)
    obtain ⟨hKnown, hLt, -⟩ := h.shelves.known _ _ _ _ node hu hStock
    have hOnly : ¬ Dead P.dying l.trackedOf (l.dom.key (.container y.box)) →
        l.dom.kin (.container y.box) = [node] := fun hAlive => by
      rw [(h.shown_arm hu hy hUnder hAlive).1, hNode]
      rfl
    refine (detachIfAttached_maintained h hu ahead_withSwitch (.refl _ _ _) hDying hKnown
      (h.key_ne_document hLt) (h.shelves.placed _ _ _ _ node hu hStock) (fun hAlive q hq => ?_)
      (fun hAlive => h.shelves.alive _ _ _ _ node hu hAlive hStock) fun d' hRefits hNone =>
        ⟨restocked_withSwitch (x := { y with active := none }) hy rfl rfl rfl hRefits,
          hAt d' hRefits hNone⟩).mono ?_
    · rw [hOnly hAlive] at hq
      exact List.mem_singleton.mp hq
    · rintro out l' ⟨hOut, hMaintained, hEndures, d', hUnmoved⟩
      refine ⟨hOut, hMaintained, hEndures, ?_⟩
      rw [hUnmoved.switches]
      exact hNew

omit h hUnder in
/-- What is about to be shown is shown, and the record says so. -/
theorem Maintained.activated (h : Maintained π (P.aboutTo u arm) l) (hUnder : P.Under π u)
    (hArm : y.armFor? v = some arm) (hv : P.pinned s = some v) :
    Maintained π P (l.withSwitch c { y with active := some arm }) ∧
      Endures (fun _ => False) l (l.withSwitch c { y with active := some arm }) := by
  have hShowing : (P.aboutTo u arm).showing u = some arm := if_pos rfl
  have hIdle : P.showing u = none := hUnder.idle.2.2
  have hPend : (P.aboutTo u arm).Elsewhere P l (.container y.box) :=
    .of_follower hu (fun _ => id) rfl rfl rfl rfl fun w hw =>
      ⟨rfl, rfl, (if_neg hw).symm, id⟩
  obtain ⟨hNone, hBuilt⟩ := h.shelves.showing _ _ _ _ y hu hy
  rw [hShowing] at hNone hBuilt
  rw [hNone (by nofun)] at hBuilt
  have hShape := h.shelves.shape _ _ _ _ hu
  rw [hShowing, Sink.shown, hy, Option.bind_some, hNone (by nofun)] at hShape
  refine h.reswitched (x := { y with active := some arm }) hu hy rfl rfl rfl hPend
    (refilled_withSwitch h hu hy rfl rfl hUnder.dying (fun e he => .inl he)
      (fun e he => h.placed_arm hu hy (.refl h.rooted.sound _) he) (fun hNe => absurd hIdle hNe)
      (fun hAlive => ?_) fun hOn => .inr ?_)
  · rw [hIdle, Option.or_none]
    exact ⟨hShape hAlive, hBuilt hAlive⟩
  · rw [hIdle, Option.or_none, h.valueOf_pinned hv, hArm]

section Arm

variable (hReceives : Receives (Calls.upTo client n) n)
variable (hCap : 3 * π.cap (l.dom.key (.container y.box)) ≤ n)
variable (hOff : y.active = none) (hArm : y.armFor? v = some arm)
include hReceives hv hCap hOff hArm

/-- The node of an arm is shown. -/
theorem showNode_leads (hNode : y.built? arm = some node) (hState : l.stateOf node ≠ .destroyed) :
    After (do
      attachAnywhere (Calls.upTo client (n + 1)) node (.container y.box) none
      sure (modifySwitch c fun x => { x with active := some arm }) : Act κ σ Unit).run l
      fun _ l' => Leads π P l l' := by
  have hDying := hUnder.dying
  have hIdle : P.showing u = none := hUnder.idle.2.2
  have hShowing : (P.aboutTo u arm).showing u = some arm := if_pos rfl
  have hPend : (P.behind u).Elsewhere (P.aboutTo u arm) l (.container y.box) :=
    .of_follower hu (fun _ => id) rfl rfl rfl rfl fun w hw =>
      ⟨rfl, rfl, if_neg hw, fun hLag => hLag.resolve_right hw⟩
  have hUnder' : (P.aboutTo u arm).Under π (u + 1) :=
    ⟨fun w hw => by
      by_cases hEq : w = u
      · exact hEq ▸ Nat.lt_succ_self u
      · refine Nat.lt_succ_of_lt (hUnder.busy w (hw.imp id (Or.imp id fun hNe => ?_)))
        simpa only [Pending.aboutTo, if_neg hEq] using hNe,
      fun t v ht => Nat.le_succ_of_le (hUnder.pinned t v ht), hDying⟩
  have hIn := Switch.mem_built_of_built? hNode
  have hStock := mem_stock_arm hy hIn ((P.behind u).hand u)
  obtain ⟨hKnown, hLt, hLow⟩ := h.shelves.known _ _ _ _ node hu hStock
  refine After.act_bind (attachAnywhere_leads (P := P.aboutTo u arm) h hu (.refl l) hPend hDying
    hKnown (h.key_ne_document hLt) (h.shelves.placed _ _ _ _ node hu hStock)
    (fun hAlive q hq => ?_) hReceives hUnder' (mt (h.stateOf_of_dead hDying) hState)
    (h.stock_comes hu hStock) (by omega) fun d' hRefits hKin => ?_) ?_ ?_
  · rw [(h.shown_arm hu hy hUnder hAlive).1, hOff] at hq
    cases hq
  · have hAt := refilled_withSwitch (x := y) h hu hy rfl rfl hDying
      (fun e he => .inl he) (fun e he => h.placed_arm hu hy hRefits he) (fun _ => hOff)
      (fun _ => by
        rw [hShowing, hOff, hKin, Option.none_or, Option.bind_some, hNode]
        exact ⟨rfl, fun a ha => by cases ha; rw [hNode]; rfl⟩)
      fun _ => .inr (by
        rw [hShowing, hOff, h.valueOf_pinned hv, hArm]
        rfl)
    have hR := restocked_withSwitch hy rfl rfl rfl hRefits
    rw [withSwitch_self hy] at hAt hR
    exact ⟨hR, hAt⟩
  · rintro ⟨⟩ l₁ (⟨-, π₁, hExtends, hEndures, h₁⟩ | ⟨-, ⟨e, hOut⟩, -⟩)
    · obtain ⟨y₁, hy₁, hBox, hCases, hDefault⟩ := hEndures.switch c y hy
      have hu₁ := hEndures.follower hu
      rw [← hBox] at hu₁
      have hArm₁ : y₁.armFor? v = some arm := by
        rw [Switch.armFor?, hCases, hDefault]
        exact hArm
      obtain ⟨hMaintained, hEndures₁⟩ :=
        h₁.activated hu₁ hy₁ (hUnder.extended h (fun _ _ => id) hExtends) hArm₁ hv
      refine Leads.trans hExtends hEndures ?_
      rw [← withSwitch_modify hy₁ fun x => { x with active := some arm }] at hMaintained hEndures₁
      exact Leads.trans (.refl _ _) hEndures₁ hMaintained.leads
    · cases hOut
  · rintro e l₁ (⟨hOut, -⟩ | ⟨hDead, -, rfl⟩)
    · cases hOut
    · exact (h.selected hu hy hv hUnder fun hAlive => absurd hDead hAlive).leads

/-- An arm is shown, and built before if it is not kept. -/
theorem showArm_leads : After (showArm (Calls.upTo client (n + 1)) c arm).run l
    fun _ l' => Leads π P l l' := by
  unfold showArm
  refine After.get_act ?_
  rw [show l.switch? c = some y from hy]
  dsimp only
  unfold nodeOfArm?
  rw [bind_assoc]
  refine After.get_act ?_
  cases hKept : (y.built? arm).filter fun node => !decide (l.stateOf node = .destroyed) with
  | some node =>
    obtain ⟨hNode, hState⟩ := Option.filter_eq_some_iff.mp hKept
    exact showNode_leads h hu hy hv hUnder hReceives hCap hOff hArm hNode (by simpa using hState)
  | none =>
    obtain ⟨f, hf⟩ := Option.isSome_iff_exists.mp (Switch.factory?_of_armFor? hArm)
    rw [hf]
    simp only [bind_assoc]
    have hAble : f.Able π l u (π.cap (l.dom.key (.container y.box))) := by
      obtain ⟨hCases, hDefault⟩ := h.shelves.able _ _ _ _ hu y hy
      rcases Option.or_eq_some_iff.mp hf with hCase | ⟨-, hDefault'⟩
      · obtain ⟨e, he, rfl⟩ := Option.map_eq_some_iff.mp hCase
        exact hCases e (List.mem_of_getElem? he)
      · exact hDefault f hDefault'
    have hUnder₁ : (P.behind u).Under π u := ⟨hUnder.busy, hUnder.pinned, hUnder.dying⟩
    refine (build_yields h hUnder₁ hu.lt_size hAble).act_bind ?_
      (by rintro e _ ⟨_, _, _, _, _, _, ⟨⟩, _⟩)
    rintro node l₁ ⟨_, body, scope, hosted, π₁, rfl, ⟨⟩, hLow, hY⟩
    have h₁ := hY.adds.maintained
    have hu₁ := hY.adds.lasts.follower hu
    have hy₁ := hY.adds.switch c y hy
    have hFit := hY.fit h hUnder.dying hu hLow
    have hUnder₂ := hUnder.extended h (fun _ _ => id) hY.adds.plan
    have hIdle : (P.behind u).showing u = none := hUnder.idle.2.2
    refine After.sure_bind (m := fun _ l₂ => l₂ = l₁.withSwitch c (y.setBuilt arm node))
      (withSwitch_modify hy₁ _) ?_
    rintro _ _ rfl
    -- the new node is kept, and hidden yet
    obtain ⟨h₂, hEndures₂⟩ := h₁.reswitched (x := y.setBuilt arm node) (P := P.behind u) hu₁ hy₁ rfl
      rfl rfl (.refl _ _ _) (refilled_withSwitch h₁ hu₁ hy₁ rfl rfl hUnder.dying
        (fun e he => (Switch.mem_built_setBuilt he).imp_right fun hNew => by
          cases hNew
          exact ⟨hFit, body, scope, hosted, hf, hY.made⟩)
        (fun e he hOn => by
          rcases Switch.mem_built_setBuilt he with hOld | rfl
          · exact h₁.placed_arm hu₁ hy₁ (.refl h₁.rooted.sound _) hOld hOn
          · exact absurd hOn (by rw [hY.stray.off]; exact Bool.false_ne_true))
        (fun hNe => absurd hIdle hNe)
        (fun hAlive => by
          rw [hIdle, (h₁.shown_arm hu₁ hy₁ hUnder₂ hAlive).1]
          simp only [Switch.setBuilt, hOff]
          exact ⟨rfl, fun _ hf => by cases hf⟩)
        fun _ => .inl (.inr rfl))
    have hy₂ : (l₁.withSwitch c (y.setBuilt arm node)).switches[c]? = some (y.setBuilt arm node) :=
      switch_withSwitch hy₁
    refine (showNode_leads (y := y.setBuilt arm node) h₂ (hEndures₂.follower hu₁) hy₂ hv
      hUnder₂ hReceives ?_ hOff hArm (Switch.built?_setBuilt arm node y) ?_).mono fun _ l' hLeads =>
        Leads.trans hY.adds.plan hY.adds.lasts (Leads.trans (.refl _ _) hEndures₂ hLeads)
    · have hKey := hY.adds.plan.cap_key hY.adds.lasts h.rooted.sound (h.rigs.known _ _ _ _ hu)
      exact hKey ▸ hCap
    · rw [ahead_withSwitch.stateOf, hY.stray.stateOf]
      decide

end Arm

include hv in
/-- A switch follows its value. -/
theorem select_leads (hReceives : Receives (Calls.upTo client n) n)
    (hCap : 3 * π.cap (l.dom.key (.container y.box)) ≤ n) :
    After (select (Calls.upTo client (n + 1)) c v).run l fun _ l' => Leads π P l l' := by
  unfold select
  refine After.get_act ?_
  rw [show l.switch? c = some y from hy]
  dsimp only
  split
  case isFalse hSame =>
    exact (h.selected hu hy hv hUnder fun _ => (not_not.mp hSame).symm).leads
  case isTrue =>
    refine (hideArm_maintained h hu hy hUnder).act_ok ?_
    rintro l₁ ⟨h₁, hEndures₁, hy₁⟩
    have hu₁ := hEndures₁.follower hu
    have hKey := hEndures₁.key _ (h.rigs.known _ _ _ _ hu)
    rcases Option.eq_none_or_eq_some (y.armFor? v) with hArm | ⟨arm, hArm⟩
    · rw [hArm]
      exact Leads.trans (.refl _ _) hEndures₁
        (h₁.selected (y := { y with active := none }) hu₁ hy₁ hv hUnder fun _ => hArm.symm).leads
    · rw [hArm]
      refine (showArm_leads (y := { y with active := none }) h₁ hu₁ hy₁ hv hUnder hReceives ?_ rfl
        hArm).mono fun _ l' hLeads => Leads.trans (.refl _ _) hEndures₁ hLeads
      rw [hKey]
      exact hCap

end Switch

end LiveMarkup.Live

/-! ## Setting signals -/

namespace LiveMarkup.Live

variable {κ σ : Type} {π π₁ π' : Plan} {P P₁ P' : Pending} {l l₁ l' : Live κ σ}
variable {u w : BindingId} {s t : SignalId} {sink sink' : Sink κ} {r q : NodeRef}
variable {client : Client κ σ} {n m : Nat}

/-- The signals that have to keep their values belong to somebody older, or are not derived from a
signal. -/
def Pending.Frees (P : Pending) (π : Plan) (s : SignalId) : Prop :=
  ∀ t v, P.pinned t = some v → (π.role t).owner < (π.role s).owner ∨
    (π.role t).owner = (π.role s).owner ∧ (π.role t).rank ≤ (π.role s).rank

/-- A signal can be set: it is not fixed, nothing keeps its value, and calls are nested deep enough
for whatever reads it. -/
structure Settable (π : Plan) (P : Pending) (l : Live κ σ) (n : Nat) (s : SignalId) (v : Value) :
    Prop where
  lt : s < l.signals.size
  value : π.values v
  fixed : (π.role s).fixed = none
  free : P.pinned s = none
  frees : P.Frees π s
  source : ∀ t k f, ⟨k, .derived s f⟩ ∈ l.watchersOf t → v = f (l.valueOf t)
  owner : ∀ u, (π.role s).owner = u + 1 → P.lagging u
  under : P.Under π (π.role s).owner
  deep : 3 * (π.role s).room + 1 ≤ n + (π.role s).rank
  rank : 2 ≤ n + (π.role s).rank ∧ (π.role s).rank ≤ 2

/-- A derived signal follows one signal through one function. -/
theorem Wires.derived_unique {stale : SignalId → Prop} {pinned : SignalId → Option Value}
    (h : Wires π stale pinned l.signals) {d : SignalId} {f f' : Value → Value} {k k' : Nat}
    (hs : ⟨k, .derived d f⟩ ∈ l.watchersOf s) (ht : ⟨k', .derived d f'⟩ ∈ l.watchersOf t) :
    s = t ∧ f = f' := by
  obtain ⟨g, hg, hIn⟩ := mem_watchersOf.mp hs
  obtain ⟨g', hg', hIn'⟩ := mem_watchersOf.mp ht
  obtain ⟨x, hx, hSource, -⟩ := h.derived s g k d f hg hIn
  obtain ⟨x', hx', hSource', -⟩ := h.derived t g' k' d f' hg' hIn'
  rw [hx] at hx'
  obtain rfl := Option.some.inj hx'
  rw [hSource] at hSource'
  obtain ⟨rfl, rfl⟩ := Prod.mk.inj (Option.some.inj hSource')
  rw [hg] at hg'
  obtain rfl := Option.some.inj hg'
  have hEq := Signal.eq_of_number (h.numbered s g hg).1 hIn hIn' rfl
  cases hEq
  exact ⟨rfl, rfl⟩

/-- What is behind once some watchers got the value. -/
theorem Pending.owing_under {v : Value} {ws : List (Signal.Watcher κ)} (h : P.Under π m)
    (hOwner : (π.role s).owner ≤ m) : (P.owing l s v ws).Under π m where
  busy := h.busy
  pinned t x hx := by
    change (if t = s then some v else P.pinned t) = some x at hx
    split at hx
    · rename_i hEq
      rwa [hEq]
    · exact h.pinned t x hx
  dying := h.dying

/-- A derived signal that is behind can be set to what its source says. -/
theorem Settable.derived {v : Value} {k : Nat} {f : Value → Value} {d : SignalId}
    (ws : List (Signal.Watcher κ)) (h : Settable π P l (n + 1) s v)
    (hMaintained : Maintained π₁ P₁ l₁)
    (hPinned : P₁.pinned = (P.pin s v).pinned)
    (hPins : ∀ t v', P.pinned t = some v' → t < l.signals.size)
    (hExtends : π.Extends π₁ l) (hd : ⟨k, .derived d f⟩ ∈ l₁.watchersOf s) :
    Settable π₁ (P.owing l s v ws) l₁ n d (f v) := by
  obtain ⟨g, hg, hIn⟩ := mem_watchersOf.mp hd
  obtain ⟨hRole, hRank, hf⟩ := hMaintained.wires.roles s g k d f hg hIn
  obtain ⟨x, hx, -⟩ := hMaintained.wires.derived s g k d f hg hIn
  have hRoleS := hExtends.role s h.lt
  rw [hRoleS] at hRole hRank
  have hValue : l₁.valueOf s = v := hMaintained.valueOf_pinned (by rw [hPinned]; exact if_pos rfl)
  -- what is pinned is the source itself, or was pinned before
  have hBelow : ∀ t v', (if t = s then some v else P.pinned t) = some v' →
      (π₁.role t).owner < (π.role s).owner ∨
        (π₁.role t).owner = (π.role s).owner ∧ (π₁.role t).rank ≤ (π.role s).rank := by
    intro t v' hv'
    split at hv'
    · rename_i hEq
      rw [hEq, hRoleS]
      exact .inr ⟨rfl, Nat.le_refl _⟩
    · rw [hExtends.role t (hPins t v' hv')]
      exact h.frees t v' hv'
  have hOwner : (π₁.role d).owner = (π.role s).owner := by rw [hRole]
  have hRankD : (π₁.role d).rank = (π.role s).rank + 1 := by rw [hRole]
  have hRoomD : (π₁.role d).room = (π.role s).room := by rw [hRole]
  have hDeep := h.deep
  have hRanks := h.rank
  exact {
    lt := (Array.getElem?_eq_some_iff.mp hx).1
    value := hf v (hExtends.values ▸ h.value)
    fixed := by rw [hRole]
    free := by
      cases hCase : (P.owing l s v ws).pinned d with
      | none => rfl
      | some v' =>
        have hNot := hBelow d v' hCase
        omega
    frees := fun t v' hv' => by
      have hLe := hBelow t v' hv'
      omega
    source := fun t k' f' ht => by
      obtain ⟨rfl, rfl⟩ := hMaintained.wires.derived_unique hd ht
      rw [hValue]
    owner := fun u hu => .inl (h.owner u (hOwner ▸ hu))
    under := ⟨fun w hw => hOwner ▸ h.under.busy w hw, fun t v' hv' => by
      have hLe := hBelow t v' hv'
      omega, h.under.dying⟩
    deep := by omega
    rank := by omega }

/-- Calls nested to a depth set every signal that can be set: whatever reads it is up to date
then. -/
def Sets (client : Client κ σ) (n : Nat) : Prop :=
  ∀ (π : Plan) (P : Pending) (l : Live κ σ) (s : SignalId) (v : Value),
    Maintained π { P with stale := fun d => P.stale d ∨ d = s } l → Settable π P l n s v →
      After (setSignal (Calls.upTo client n) s v) l fun _ l' => Leads π (P.pin s v) l l'

theorem Plan.Extends.before_value {v : Value} (h : π.Extends π₁ (l.valued s v)) : π.Extends π₁ l :=
  ⟨fun t ht => h.role t ((steady_valued l s v).signals_size.symm ▸ ht), h.cap, h.values,
    h.room⟩

section Watchers

variable {v : Value} {x : Signal.Watcher κ} {ws : List (Signal.Watcher κ)}
variable (hs : Settable π P l n s v) (hReceives : Receives (Calls.upTo client n) n)
variable (hExtends : π.Extends π₁ (l.valued s v)) (h₁ : Maintained π₁ (P.owing l s v (x :: ws)) l₁)
include hs hReceives hExtends h₁

omit hReceives in
/-- A derived signal gets the value of its source. -/
theorem derived_leads {k : Nat} {d : SignalId} {f : Value → Value}
    (hPins : ∀ t v', P.pinned t = some v' → t < l.signals.size)
    (hSets : ∀ k, n = k + 1 → Sets client k) (hSink : x.sink = .derived d f)
    (hd : ⟨k, .derived d f⟩ ∈ l₁.watchersOf s) :
    After ((Calls.upTo client n).receive x.sink v) l₁ fun _ l' =>
      Leads π₁ (P.owing l s v ws) l₁ l' := by
  have hExtends' := hExtends.before_value
  obtain ⟨g, hg, hIn⟩ := mem_watchersOf.mp hd
  have hRank := (h₁.wires.roles s g k d f hg hIn).2.1
  rw [hExtends'.role s hs.lt] at hRank
  obtain ⟨n, rfl⟩ : ∃ k, n = k + 1 := ⟨n - 1, by have := hs.rank; omega⟩
  have hSettable := hs.derived ws h₁ rfl hPins hExtends' hd
  have hStale : Maintained π₁ { P.owing l s v ws with
      stale := fun t => (P.owing l s v ws).stale t ∨ t = d } l₁ :=
    h₁.relax (fun _ => id) (fun _ => id) (fun w hw => by
      rcases hw with hw | ⟨y, hy, r, hr⟩
      · exact .inl hw
      · rcases List.mem_cons.mp hy with rfl | hy
        · exact absurd hSink hr.not_derived
        · exact .inr ⟨y, hy, r, hr⟩) (fun t ht => by
      rcases ht with ht | ⟨y, hy, f', hf'⟩
      · exact .inl (.inl ht)
      · rcases List.mem_cons.mp hy with rfl | hy
        · rw [hSink] at hf'
          cases hf'
          exact .inr rfl
        · exact .inl (.inr ⟨y, hy, f', hf'⟩)) rfl rfl rfl rfl fun _ _ => id
  have hSet := hSets n rfl π₁ _ l₁ d (f v) hStale hSettable
  rw [hSink]
  exact hSet.mono fun _ l' hLeads => hLeads.imp fun π' h' => h'.unpin fun v' hv' => by
    rw [hSettable.free] at hv'
    cases hv'

/-- A follower gets the value of its signal. -/
theorem keeper_leads (h : Maintained π P₁ (l.valued s v))
    (hPinned : P₁.pinned = (P.pin s v).pinned)
    (hLasts : Endures (fun _ => False) (l.valued s v) l₁)
    (hu : Keeper (l.valued s v) u s x.sink r) :
    After ((Calls.upTo client n).receive x.sink v) l₁ fun _ l' =>
      Leads π₁ (P.owing l s v ws) l₁ l' := by
  obtain ⟨-, hOwner, hRoom⟩ := h.rigs.reads u s x.sink r hu
  have hr := h.rigs.known u s x.sink r hu
  have hDeep := hs.deep
  have hRank := hs.rank.2
  have hUnder : (P.owing l s v ws).Under π u := Pending.owing_under (hs.under.mono hOwner) hOwner
  refine hReceives π₁ _ l₁ u s x.sink r v ?_ (hLasts.follower hu) (if_pos rfl)
    (hUnder.extended h (fun _ _ ht => hPinned ▸ ht) hExtends) ?_
  · exact h₁.relax (fun _ => id) (fun _ => id) (fun w hw => by
      rcases hw with hw | ⟨y, hy, q, hq⟩
      · exact .inl (.inl hw)
      · rcases List.mem_cons.mp hy with rfl | hy
        · exact .inr (h.rigs.eq_of_sink ((steady_valued l s v).follower_iff.mpr hq) hu)
        · exact .inl (.inr ⟨y, hy, q, hq⟩)) (fun t ht => by
      rcases ht with ht | ⟨y, hy, f', hf'⟩
      · exact .inl ht
      · rcases List.mem_cons.mp hy with rfl | hy
        · exact absurd hf' hu.not_derived
        · exact .inr ⟨y, hy, f', hf'⟩) rfl rfl rfl rfl fun _ _ => id
  · rw [hExtends.cap_key hLasts h.rooted.sound hr]
    omega

end Watchers

/-- A signal passes its value on to all that watch it. -/
theorem setSignal_sets (hReceives : Receives (Calls.upTo client n) n)
    (hSets : ∀ k, n = k + 1 → Sets client k) : Sets client n := by
  intro π P l s v h hs
  obtain ⟨g, hg⟩ : ∃ g, l.signals[s]? = some g := ⟨_, Array.getElem?_eq_getElem hs.lt⟩
  have hValued := h.valued hg hs.value hs.fixed hs.free hs.source hs.owner
  have hSteady := steady_valued l s v
  have hPins : ∀ t v', P.pinned t = some v' → t < l.signals.size := fun t v' hv' => by
    obtain ⟨g', hg', -⟩ := h.wires.pinned t v' hv'
    exact (Array.getElem?_eq_some_iff.mp hg').1
  have hRun : (setSignal (Calls.upTo client n) s v).run l =
      (g.watchers.forM fun w => (Calls.upTo client n).receive w.sink v).run (l.valued s v) := by
    rw [← watchersOf_eq hg, ← watchersOf_valued l s v s]
    rfl
  have hLoop := Leads.forM (k := fun ws => P.owing l s v ws) hValued
    (f := fun w => (Calls.upTo client n).receive w.sink v)
    fun x rest π₁ l₁ hx hExtends hLasts h₁ => ?_
  · unfold After at hLoop ⊢
    rw [hRun]
    refine Leads.trans (.refl π l) hSteady.lasts (hLoop.imp fun π' h' => ?_)
    exact h'.relax (fun _ => id) (fun _ => id)
      (fun w hw => hw.elim id fun ⟨x, hx, _⟩ => absurd hx List.not_mem_nil)
      (fun d hd => hd.elim id fun ⟨x, hx, _⟩ => absurd hx List.not_mem_nil) rfl rfl rfl rfl
      fun _ _ => id
  · rcases h.feeds.watcher s g x hg hx with ⟨d, f, hSink⟩ | ⟨u, hSub⟩
    · have hDerives : Derives (l.valued s v) s d f := ⟨x.number, by
        rw [watchersOf_valued, watchersOf_eq hg, ← hSink]
        exact hx⟩
      obtain ⟨k, hd⟩ := hLasts.derives s d f hDerives
      exact derived_leads hs hExtends h₁ hPins hSets hSink hd
    · obtain ⟨s', sink, r, hu⟩ := h.rigs.follower u (Array.getElem?_eq_some_iff.mp hSub).1
      obtain ⟨registered, hSub'⟩ := hu.1
      rw [hSub] at hSub'
      cases hSub'
      exact keeper_leads hs hReceives hExtends h₁ hValued rfl hLasts (hSteady.follower_iff.mpr hu)

/-- Calls that bring followers up to date set signals. -/
theorem sets_of_receives (hReceives : ∀ k ≤ n, Receives (Calls.upTo client k) k) :
    Sets client n := by
  induction n with
  | zero => exact setSignal_sets (hReceives 0 (Nat.le_refl _)) nofun
  | succ n ih =>
    refine setSignal_sets (hReceives _ (Nat.le_refl _)) fun k hk => ?_
    cases hk
    exact ih fun k hk => hReceives k (Nat.le_succ_of_le hk)

end LiveMarkup.Live
