import LiveMarkup.Proofs.Dom.Edits
import LiveMarkup.Proofs.Dom.Relabeled
import LiveMarkup.Proofs.Mirror.Growing
import LiveMarkup.Proofs.Mirror.Arms
import LiveMarkup.Proofs.Mirror.Rows

/-!
# Followers that are brought up to date

A text gets the text of a value. Nothing else about the tree changes, and nothing that is made
from instructions depends on it.

Calls that are nested deep enough bring every follower up to date, whatever it follows, and set
every signal. The depth that it takes is that of the instruction a follower was made from: what it
makes is made from less.

A document begins with three nodes, and a container that is made next is in nobody's keeping. It is
mounted in one of the three and taken out again; whatever it holds stays as it is.

* `Dom.Reworded`: a tree with another text;
* `project_leads`: a text that follows a signal is up to date;
* `Framed`: the three nodes, and the container;
* `Framed.mount`, `Framed.unmount`: the container comes to its place and leaves it.
-/

/-! ## Texts that follow signals -/

namespace LiveMarkup

namespace Dom

variable {d d' : Dom} {n : NodeId} {q : NodeRef}

namespace Relabeled

variable (h : Relabeled d d')
include h

theorem kin (q : NodeRef) : d'.kin q = d.kin q := by
  rw [Dom.kin, h.mark, h.childrenOf, Dom.kin]

theorem below_iff {r : NodeRef} : d'.Below r q ↔ d.Below r q := by
  constructor <;> intro hBelow
  · induction hBelow with
    | self => exact .self
    | kin _ hx ih => exact .kin ih (h.kin _ ▸ hx)
  · induction hBelow with
    | self => exact .self
    | kin _ hx ih => exact .kin ih ((h.kin _).symm ▸ hx)

end Relabeled

theorem setText_of_text {old : String} (hLabel : d.label n = .text old) (content : String) :
    Relabeled d (d.setText n content) ∧ (d.setText n content).label n = .text content ∧
      ∀ m, m ≠ n → (d.setText n content).label m = d.label m := by
  obtain ⟨-, -, hReworded⟩ := reworded_setText hLabel content
  exact ⟨relabeled_setText d (by rw [hLabel]; rfl) content, hReworded.label_self, hReworded.label⟩

end Dom

namespace Live

variable {κ σ : Type} {π : Plan} {P : Pending} {l l' : Live κ σ}
variable {u : BindingId} {s : SignalId} {r : NodeRef} {p : ProjectorId} {n : NodeId}

section Relabeled

variable {d' : Dom} (hR : l.dom.Relabeled d') (hu : Keeper l u s (.projector p) (.node n))
variable (hRest : ∀ m, m ≠ n → d'.label m = l.dom.label m)
include hR hu hRest

theorem lasts_relabeled : Endures (fun _ => False) l (l.withDom d') :=
  { (Endures.refl l : Endures (fun _ => False) l l) with
    known := fun _ hr => hR.known_iff.mpr hr
    key := fun _ _ => hR.key _
    label := fun m _ hNone _ => by
      obtain ⟨_, hn, hp⟩ := hu.2.2
      cases hn
      exact hRest m fun hEq => hNone _ (Array.mem_of_getElem? hp) hEq.symm
    kin := fun _ _ _ _ => hR.kin _
    box := fun _ _ h _ => ⟨hR.kin _, h⟩
    nodes_size := Nat.le_of_eq hR.nodes_size.symm }

theorem Maintained.worded {v : Value} (h : Maintained π (P.behind u) l)
    (hLabel : d'.label n = .text v.display) (hValue : l.valueOf s = v) :
    Maintained π P (l.withDom d') := by
  have hKnown : ∀ {q}, d'.Known q ↔ l.dom.Known q := hR.known_iff
  refine ⟨h.running, h.closed, ⟨hR.sound h.rooted.sound, hKnown.mpr h.known_document, ?_,
    h.rooted.zero, fun q x hq hx => ?_, fun c hc a ha => ?_⟩,
    ⟨h.graves.state, fun q x hq hx => ?_, fun q x hq hx => ?_,
      h.graves.top, fun m hm => h.graves.fresh m (hR.nodes_size ▸ hm), fun q hq hd => ?_⟩,
    h.wires, h.feeds, ?_, ?_, ⟨fun w t sink q hw hq => ?_, fun w t sink q hw hOn => ?_⟩,
    ⟨h.alarms.timer, h.alarms.microtask⟩⟩
  · exact (hR.parent _).trans h.rooted.top
  · change d'.key q < d'.key x ∧ π.cap (d'.key x) ≤ π.cap (d'.key q)
    rw [hR.key, hR.key]
    exact h.rooted.edge q x (hKnown.mp hq) (hR.kin q ▸ hx)
  · obtain ⟨text, hText⟩ := h.rigs.text u s p n hu
    have hMark := h.rooted.marked c (by rwa [← hR.containers]) a ha
    change d'.label (d'.part c a) = _
    rw [hR.part, hRest _ fun hEq => ?_, hMark]
    rw [hEq, hText] at hMark
    cases hMark
  · change Dead _ _ (d'.key x) → Dead _ _ (d'.key q)
    rw [hR.key, hR.key]
    exact h.graves.up q x (hKnown.mp hq) (hR.kin q ▸ hx)
  · change Dead _ _ (d'.key q) → Dead _ _ (d'.key x)
    rw [hR.key, hR.key]
    exact h.graves.down q x (hKnown.mp hq) (hR.kin q ▸ hx)
  · change d'.isPlaced q = true ∨ (l.trackedOf (d'.key q)).state ≠ none
    change P.dying (d'.key q) at hd
    rw [hR.key] at hd ⊢
    rw [hR.isPlaced]
    exact h.graves.noted q (hKnown.mp hq) hd
  · refine Rigs.redom hKnown.mpr (fun _ => hR.key _) { h.rigs with } fun m _ ⟨text, hText⟩ => ?_
    by_cases hEq : m = n
    · exact ⟨_, hEq ▸ hLabel⟩
    · exact ⟨text, (hRest m hEq).trans hText⟩
  · exact Shelves.redom hKnown.mpr (fun _ => hR.key _) { h.shelves with } { h.rigs with }
      (fun _ => hR.kin _) (fun _ => hR.isPlaced _) (lasts_relabeled hR hu hRest)
  · exact h.upkeep.told w t sink q hw (hR.below_iff.mp hq)
  · change _ ∨ _ ∨ P.dying (d'.key q) ∨ _
    rw [hR.key]
    by_cases hEq : w = u
    · subst hEq
      obtain ⟨rfl, rfl, rfl⟩ := hu.unique hw
      refine .inr (.inr (.inr fun x hx => ?_))
      obtain ⟨_, hn, hp⟩ := hu.2.2
      cases hn
      cases (show l.projectors[p]? = some x from hx).symm.trans hp
      exact hLabel.trans (congrArg (fun v : Value => Dom.Label.text v.display) hValue.symm)
    · rcases h.upkeep.current w t sink q hw hOn with hLag | hRest'
      · exact .inl (hLag.resolve_right hEq)
      refine .inr (hRest'.imp_right (Or.imp_right fun hCurrent => ?_))
      cases sink with
      | projector c =>
        intro x hx
        refine (hRest _ fun hn => hEq ?_).trans (hCurrent x hx)
        obtain ⟨m, rfl, hc⟩ := hw.2.2
        cases (show l.projectors[c]? = some x from hx).symm.trans hc
        obtain rfl : m = n := hn
        exact h.rigs.eq_of_key hw hu rfl
      | _ => exact hCurrent

end Relabeled

/-- A projector that follows a signal writes a value. -/
theorem project_leads {v : Value} (h : Maintained π (P.behind u) l)
    (hu : Keeper l u s (.projector p) r) (hValue : l.valueOf s = v) :
    After (project p v) l fun _ l' => Leads π P l l' := by
  obtain ⟨n, rfl, hp⟩ := hu.2.2
  obtain ⟨old, hOld⟩ := h.rigs.text u s p n hu
  obtain ⟨hR, hLabel, hRest⟩ := Dom.setText_of_text hOld v.display
  have hSame : l.projectors.modify p (fun q => { q with aspect := .text }) = l.projectors := by
    refine Array.ext_getElem? fun i => ?_
    rw [Array.getElem?_modify]
    split
    · rename_i hEq
      rw [← hEq, hp]
      rfl
    · rfl
  have hWrite : ((do
      let aspect ← writeAspect n v .text
      modify fun l => { l with projectors := l.projectors.modify p fun q => { q with aspect } }
      : LiveM κ σ Unit).run l).2 = { l with
        dom := l.dom.setText n v.display
        projectors := l.projectors.modify p fun q => { q with aspect := .text } } := rfl
  unfold After
  rw [project_reads, hp]
  dsimp only
  rw [hWrite, hSame]
  exact Leads.trans (.refl π l) (lasts_relabeled hR hu hRest)
    (Maintained.leads (h.worded hR hu hRest hLabel hValue))

end Live

end LiveMarkup

namespace LiveMarkup.Live

variable {κ σ : Type} {π : Plan} {P : Pending} {l l' : Live κ σ} {client : Client κ σ} {n : Nat}

/-- Calls nested to a depth bring up to date what is made from instructions of less height. -/
theorem receives (client : Client κ σ) (n : Nat) : Receives (Calls.upTo client n) n := by
  induction n using Nat.strongRecOn with
  | ind n ih =>
    intro π P l u s sink r v h hu hv hUnder hCap
    obtain ⟨k, rfl⟩ : ∃ k, n = k + 2 := ⟨n - 2, by omega⟩
    have hReceives := ih k (by omega)
    have hValue : l.valueOf s = v := h.valueOf_pinned hv
    have hLow : 3 * π.cap (l.dom.key r) ≤ k := by omega
    change After (Calls.pass client (Calls.upTo client (k + 1)) v sink) l _
    cases sink with
    | derived d f => exact absurd rfl hu.not_derived
    | projector p => exact project_leads h hu hValue
    | conditional c =>
      obtain ⟨y, hy, rfl⟩ := hu.2.2
      refine after_attempt.mpr ?_
      rw [← hValue]
      exact setVisible_leads hReceives h hu hy hUnder hLow
    | switch c =>
      obtain ⟨y, hy, rfl⟩ := hu.2.2
      exact after_attempt.mpr (select_leads h hu hy hv hUnder hReceives hLow)
    | series c =>
      obtain ⟨y, hy, rfl⟩ := hu.2.2
      have hFollows := reconcile_leads h hu hy hUnder hReceives
        (sets_of_receives fun j hj => ih j (by omega)) hv (by omega)
      exact after_attempt.mpr (hFollows.act_bind (fun _ _ => id) fun _ _ => id)
    | client k => exact hu.2.2.elim

theorem sets (client : Client κ σ) (n : Nat) : Sets client n :=
  sets_of_receives fun k _ => receives client k

end LiveMarkup.Live

/-! ## Mounting -/

namespace LiveMarkup.Live

variable {κ σ : Type} {π π' : Plan} {P : Pending} {l l' : Live κ σ}
variable {u : BindingId} {s : SignalId} {sink : Sink κ} {r x : NodeRef} {b : ContainerId}
variable {client : Client κ σ} {n m : Nat}

/-- The first three nodes are the document, its root and its body. A container of its own comes
next. Nothing of this follows a signal. -/
structure Framed (π : Plan) (l : Live κ σ) (b : ContainerId) : Prop where
  known : ∀ n < 3, l.dom.Known (.node n)
  still : ∀ n < 3, ∀ x ∈ l.projectors, x.node ≠ n
  root : .node 1 ∈ l.dom.kin (.node 0)
  body : .node 2 ∈ l.dom.kin (.node 1)
  box : l.dom.Known (.container b)
  key : l.dom.key (.container b) = 3
  alone : ∀ u s sink, ¬ Keeper l u s sink (.container b)
  cap : ∀ n < 3, π.cap 3 ≤ π.cap n

namespace Framed

variable (hF : Framed π l b)
include hF

theorem led (hSound : l.dom.Sound) (hExtends : π.Extends π' l)
    (hEndures : Endures (fun _ => False) l l') : Framed π' l' b where
  known n hn := hEndures.known _ (hF.known n hn)
  still n hn := hEndures.no_text (hF.known n hn) (hF.still n hn) id
  root := by
    rw [hEndures.kin 0 (hF.known 0 (by decide)) (hF.still 0 (by decide)) id]
    exact hF.root
  body := by
    rw [hEndures.kin 1 (hF.known 1 (by decide)) (hF.still 1 (by decide)) id]
    exact hF.body
  box := hEndures.known _ hF.box
  key := (hEndures.key _ hF.box).trans hF.key
  alone := (hEndures.box b hF.box hF.alone id).2
  cap n hn := by
    have hBox := hSound.key_lt_size hF.box
    rw [hF.key] at hBox
    rw [hExtends.cap 3 hBox, hExtends.cap n (Nat.lt_trans hn hBox)]
    exact hF.cap n hn

theorem not_kept (hn : n < 3) : ¬ Keeper l u s sink (.node n) := by
  rintro ⟨-, -, hHosts⟩
  cases sink with
  | projector p =>
    obtain ⟨m, hm, hp⟩ := hHosts
    cases hm
    exact hF.still n hn _ (Array.mem_of_getElem? hp) rfl
  | conditional c => obtain ⟨_, _, hEq⟩ := hHosts; cases hEq
  | switch c => obtain ⟨_, _, hEq⟩ := hHosts; cases hEq
  | series c => obtain ⟨_, _, hEq⟩ := hHosts; cases hEq
  | derived _ _ => exact hHosts
  | client _ => exact hHosts

variable (h : Maintained π P l)
include h

/-- What is older than the container is one of the three nodes. -/
theorem eq_node (hr : l.dom.Known r) (hLt : l.dom.key r < 3) : r = .node (l.dom.key r) :=
  h.rooted.sound.key_inj hr (hF.known _ hLt) rfl

theorem eq_of_below (hx : l.dom.Known x) (hn : n < 3) (hBelow : l.dom.Below x (.node n)) :
    ∃ m < 3, x = .node m := by
  have hLe := (h.edge_of_below hx hBelow).1
  exact ⟨_, Nat.lt_of_le_of_lt hLe hn, hF.eq_node h hx (Nat.lt_of_le_of_lt hLe hn)⟩

theorem reaches (hn : n < 3) : l.dom.Below (.node l.document) (.node n) := by
  rw [h.rooted.zero]
  have hRoot : l.dom.Below (.node 0) (.node 1) := .kin .self hF.root
  match n, hn with
  | 0, _ => exact .self
  | 1, _ => exact hRoot
  | 2, _ => exact .kin hRoot hF.body

theorem stock_lt (hu : Keeper l u s sink r) (hx : x ∈ sink.stock l (P.hand u)) :
    3 < l.dom.key x := by
  obtain ⟨-, hLt, -⟩ := h.shelves.known _ _ _ _ _ hu hx
  have hLow : ¬ l.dom.key r < 3 := fun hr => by
    have hEq := hF.eq_node h (h.rigs.known _ _ _ _ hu) hr
    rw [hEq] at hu
    exact hF.not_kept hr hu
  exact Nat.lt_of_le_of_lt (Nat.le_of_not_lt hLow) hLt

theorem free : Free P l (.container b) := fun w t sink q hw hIn => by
  have hLt := hF.stock_lt h hw hIn
  rw [hF.key] at hLt
  exact Nat.lt_irrefl _ hLt

theorem not_dead (hn : n < 3) : ¬ Dead P.dying l.trackedOf n :=
  h.not_dead_of_below (hF.reaches h hn)

theorem exists_host (hOn : l.dom.isPlaced (.container b) = true) :
    ∃ m < 3, .container b ∈ l.dom.kin (.node m) := by
  obtain ⟨q, hq, hIn⟩ := (h.rooted.sound.isPlaced_iff_kin hF.box).mp hOn
  have hLt := (h.rooted.edge _ _ hq hIn).1
  rw [hF.key] at hLt
  exact ⟨_, hLt, hF.eq_node h hq hLt ▸ hIn⟩

theorem comes (hm : m < 3) (hAlive : ¬ Dead P.dying l.trackedOf 3) :
    Comes π P l (.node m) (.container b) where
  known := hF.box
  lt := by
    rw [hF.key]
    exact hm
  cap := by
    rw [hF.key]
    exact hF.cap m hm
  dead_iff := by
    rw [hF.key]
    exact iff_of_false hAlive (hF.not_dead h hm)
  only w t sink q hw hIn := absurd hIn (hF.free h w t sink q hw)

/-- A document stays up to date while the kin of one of the three nodes change. -/
theorem rehoused {P' : Pending} (hm : m < 3) (hR : Restocked l l' (.node m))
    (hPend : P.Elsewhere P' l (.node m)) (hDying : P.dying = fun _ => False)
    (hCame : ∀ x ∈ l'.dom.kin (.node m), x ∉ l.dom.kin (.node m) → Comes π P l (.node m) x)
    (hReach : ∀ u s sink r, Keeper l u s sink r → l'.dom.Below (.node l.document) r →
      P'.untold u ∨ l.dom.Below (.node l.document) r) : Maintained π P' l' := by
  refine h.restocked hR hPend (hF.known m hm) hCame
    (fun k _ w t sink q x hw hIn hBelow => ?_) (.inl hDying)
    (fun w t sink hw => absurd hw (hF.not_kept hm)) hReach
  have hLt := hF.stock_lt h hw hIn
  obtain ⟨k, hk, rfl⟩ := hF.eq_of_below h (h.shelves.known _ _ _ _ _ hw hIn).1 hm hBelow
  exact Nat.lt_irrefl _ (Nat.lt_trans hLt hk)

end Framed

/-! ### What the container holds -/

/-- The frame lasts while something comes to one of the three nodes or leaves it. -/
theorem Framed.restocked (hF : Framed π l b) (hR : Restocked l l' (.node m))
    (hKeeps : ∀ n < 3, .node n ∈ l.dom.kin (.node m) → .node n ∈ l'.dom.kin (.node m)) :
    Framed π l' b where
  known n hn := hR.parts.known_iff.mpr (hF.known n hn)
  still n hn x hx := hF.still n hn x (hR.projectors ▸ hx)
  root := by
    by_cases hEq : NodeRef.node 0 = .node m
    · rw [hEq]
      exact hKeeps 1 (by decide) (hEq ▸ hF.root)
    · rw [hR.kin _ (hF.known 0 (by decide)) hEq]
      exact hF.root
  body := by
    by_cases hEq : NodeRef.node 1 = .node m
    · rw [hEq]
      exact hKeeps 2 (by decide) (hEq ▸ hF.body)
    · rw [hR.kin _ (hF.known 1 (by decide)) hEq]
      exact hF.body
  box := hR.parts.known_iff.mpr hF.box
  key := (hR.parts.key _).trans hF.key
  alone u s sink hu := hF.alone u s sink (hR.follower_iff.mp hu)
  cap := hF.cap

/-- What was made in the container stays so while the kin of one of the three nodes change. -/
theorem Framed.allMade (hF : Framed π l b) (h : Maintained π P l) {scope : Scope}
    {is : List Instruction} (hm : m < 3) (hR : Restocked l l' (.node m))
    (hMade : AllMade l scope (l.dom.kin (.container b)) is) :
    AllMade l' scope (l'.dom.kin (.container b)) is := by
  rw [hR.kin _ hF.box nofun]
  refine hR.lasts.allMade (fun r hr n hBelow hEq => ?_) hMade
  cases hEq
  have hKnown := h.rooted.sound.known_of_mem_kin hF.box hr
  have hLt := (h.rooted.edge _ _ hF.box hr).1
  obtain ⟨k, hk, rfl⟩ := hF.eq_of_below h hKnown hm hBelow
  rw [hF.key] at hLt
  exact Nat.lt_irrefl _ (Nat.lt_trans hLt hk)

/-! ### Mounting and unmounting -/

theorem Framed.reached_of_kin (hF : Framed π l b) (h : Maintained π {} l) (hm : m < 3)
    (hIn : .container b ∈ l.dom.kin (.node m)) : l.dom.Below (.node l.document) (.container b) :=
  .kin (hF.reaches h hm) hIn

theorem Framed.attached_iff (hF : Framed π l b) (h : Maintained π {} l) :
    l.stateOf (.container b) = .attached ↔ ∃ m < 3, .container b ∈ l.dom.kin (.node m) := by
  have hNe := h.key_ne_document (q := .node 0) (r := .container b) (hF.key ▸ Nat.zero_lt_succ 2)
  constructor
  · intro hState
    by_cases hDead : Dead ({} : Pending).dying l.trackedOf (l.dom.key (.container b))
    · rw [h.stateOf_of_dead rfl hDead] at hState
      cases hState
    · rw [h.stateOf_of_alive rfl hDead hNe] at hState
      split at hState
      · exact hF.exists_host h ‹_›
      · cases hState
  · rintro ⟨m, hm, hIn⟩
    rw [h.stateOf_of_alive rfl (h.not_dead_of_below (hF.reached_of_kin h hm hIn)) hNe,
      if_pos (h.rooted.sound.isPlaced_of_mem_kin (hF.known m hm) hIn)]

theorem Pending.under_nothing : ({} : Pending).Under π n where
  busy _ hw := by simp at hw
  pinned _ _ hv := nomatch hv
  dying := rfl

theorem attach_again (calls : Calls κ σ) {parent : NodeRef} {before : Option NodeRef}
    (hState : l.stateOf r ≠ .detached) :
    After (attach calls r parent before).run l fun _ l' => l' = l := by
  unfold attach
  refine After.ensureLive (fun _ => rfl) fun _ => ?_
  exact After.needState (fun _ => rfl) fun hDetached => absurd hDetached hState

/-- The container is mounted in one of the three nodes, last or before what stands there, unless it
is mounted already or was destroyed. -/
theorem Framed.mount {before : Option NodeRef} (hF : Framed π l b)
    (h : Maintained π {} l) (hm : m < 3)
    (hBefore : ∀ q, before = some q → q ∈ l.dom.kin (.node m)) (hCap : 3 * π.cap 3 + 2 ≤ n) :
    After (attach (Calls.upTo client (n + 1)) (.container b) (.node m) before).run l fun out l' =>
      (l.stateOf (.container b) ≠ .detached ∧ l' = l) ∨
        out = .ok () ∧ ∃ d', Dom.Gains l.dom d' (.container b) (.node m) before ∧
          Restocked l (l.withDom d') (.node m) ∧ Leads π {} (l.withDom d') l' := by
  by_cases hState : l.stateOf (.container b) = .detached
  case neg => exact (attach_again _ hState).mono fun _ _ hSame => .inl ⟨hState, hSame⟩
  have hSound := h.rooted.sound
  have hAlive : ¬ Dead ({} : Pending).dying l.trackedOf (l.dom.key (.container b)) :=
    fun hDead => by
    rw [h.stateOf_of_dead rfl hDead] at hState
    cases hState
  have hNe := h.key_ne_document (q := .node m) (r := .container b) (hF.key ▸ hm)
  have hOff : l.dom.isPlaced (.container b) = false := by
    rw [h.stateOf_of_alive rfl hAlive hNe] at hState
    split at hState
    · cases hState
    · exact Bool.eq_false_iff.mpr ‹_›
  have hOut : ¬ l.dom.Below (.container b) (.node m) := fun hBelow => by
    obtain ⟨k, -, hEq⟩ := hF.eq_of_below h hF.box hm hBelow
    cases hEq
  obtain ⟨d', hPlace, hGains⟩ : ∃ d', l.dom.place (.container b) (.node m) before = .ok d' ∧
      Dom.Gains l.dom d' (.container b) (.node m) before :=
    hSound.gains_of_place hF.box (hF.known m hm) hOff hOut hBefore
  have hKey := hGains.key (.container b)
  have hComes := hF.comes h hm (hF.key ▸ hAlive)
  let P' : Pending := { untold := fun w => False ∨ (d'.Below (.node l.document) (.container b) ∧
    ∃ s sink q, Keeper (l.withDom d') w s sink q ∧ d'.Below (.container b) q) }
  have hIn : ∀ q, l.dom.Below (.container b) q → d'.Below (.container b) q :=
    fun q => hGains.below_mono hSound hF.box
  have hBelow := fun {q} => hGains.below_iff (x := q) hSound hF.box (hF.known m hm)
    h.known_document hOff hOut
  have hR : Restocked l (l.withDom d') (.node m) :=
    Restocked.of_dom hGains.toSameParts hGains.sound fun q hq hOther =>
      (hGains.kin q hq).trans (if_neg hOther)
  have hGained : Maintained π P' (l.withDom d') := by
    refine hF.rehoused h hm hR
      ⟨fun _ => False.elim, rfl, rfl, rfl, rfl, fun _ _ _ _ _ _ => ⟨rfl, rfl, rfl, id⟩⟩ rfl
      (fun x hx hNot => ?_) fun w t sink q hw hTop => ?_
    · rcases (hGains.mem_kin (hF.known m hm)).mp hx with ⟨rfl, -⟩ | hOld
      · exact hComes
      · exact absurd hOld hNot
    · rcases hBelow.mp hTop with hOld | ⟨hUp, hDown⟩
      · exact .inr hOld
      · exact .inl (.inr ⟨hBelow.mpr (.inr ⟨hUp, .self⟩), t, sink, q, hR.follower_iff.mpr hw,
          hIn q hDown⟩)
  refine (attach_leads (P := {}) h.running (h.state_of_alive rfl hAlive)
    (h.unasked hAlive) (receives client n) hState
    (h.not_ending (r := .node m) rfl (hF.not_dead h hm)) hPlace hKey
    hGained (hGains.known_iff.mpr hF.box) ?_ fun _ => ⟨?_, fun w t sink q hw _ => ?_⟩).mono ?_
  · rw [hKey]
    exact hAlive
  · rw [hKey, hF.key]
    exact hCap
  · exact Pending.under_nothing
  · rintro out l' ⟨hOut, hLeads⟩
    exact .inr ⟨hOut, d', hGains, hR, hLeads⟩

/-- What is unmounted is taken out of its place, unless it is mounted nowhere. -/
theorem Framed.unmount (hF : Framed π l b) (h : Maintained π {} l) :
    After (detachIfAttached (Calls.upTo client (n + 1)) (.container b)).run l fun _ l' =>
      l' = l ∨ ∃ m < 3, ∃ d', Dom.Loses l.dom d' (.container b) ∧
        Restocked l (l.withDom d') (.node m) ∧ Unmoved (l.withDom d') l' ∧ Maintained π {} l' := by
  have hSound := h.rooted.sound
  unfold detachIfAttached
  refine After.get_act ?_
  by_cases hState : l.stateOf (.container b) = .attached
  case neg =>
    rw [if_neg hState]
    exact .inl rfl
  rw [if_pos hState]
  obtain ⟨m, hm, hIn⟩ := (hF.attached_iff h).mp hState
  have hAlive := h.not_dead_of_below (hF.reached_of_kin h hm hIn)
  have hOn := hSound.isPlaced_of_mem_kin (hF.known m hm) hIn
  have hLoses := hSound.loses_of_takeOut hF.box hOn
  have hR : Restocked l (l.withDom (l.dom.takeOut (.container b))) (.node m) :=
    Restocked.of_dom hLoses.toSameParts hLoses.sound fun q hq hOther => by
      rw [hLoses.kin q hq, List.filter_eq_self]
      intro z hz
      simp only [ne_eq, decide_eq_true_eq]
      rintro rfl
      exact hOther (hSound.kin_inj hq (hF.known m hm) hz hIn)
  have hLost : Maintained π {} (l.withDom (l.dom.takeOut (.container b))) :=
    hF.rehoused h hm hR (.refl _ _ _) rfl
      (fun x hx hNot => absurd ((hLoses.mem_kin (hF.known m hm)).mp hx).1 hNot)
      fun w t sink q _ hTop => .inr (hLoses.below_mono hSound h.known_document hTop)
  refine (detach_steady h.running (h.state_of_alive rfl hAlive) (h.unasked hAlive) hState
    (hLoses.key _) hLost (hLoses.known_iff.mpr hF.box) hAlive (hLoses.isPlaced_self hF.box)
    (by nofun)).mono ?_
  rintro out l' ⟨-, hUnmoved, hMaintained⟩
  exact .inr ⟨m, hm, _, hLoses, hR, hUnmoved, hMaintained⟩

end LiveMarkup.Live
