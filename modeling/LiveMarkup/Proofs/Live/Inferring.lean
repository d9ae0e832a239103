import LiveMarkup.Proofs.Dom.Meddling
import LiveMarkup.Proofs.Live.Glancing

/-!
# Changes from outside are found

The tree is changed without the operations of the document, which then compares the places of all
targets. If every node that got another parent is observed, or nothing at or below it is, all
observers report the truth afterwards: whoever does not yet is below such a node, and has its status.

While a client works on the document, others change the tree behind its back. Whenever they are done
the document is told so. If every node that they gave another parent is observed, or nothing at or
below it is, all observers know afterwards whether their targets are connected.

* `Altered`: statuses and tree are other ones, and nothing else;
* `Catching`: how far comparing has come;
* `Catching.visit`: comparing one place;
* `compareMoves_finds`: comparing all;
* `check`: saying that the tree was changed, and draining the microtasks;
* `Patrol`: sessions with changes from outside;
* `Patrol.orderly`: a checked session is in order and watched;
* `Patrol.truthful`: what observers report once changes are checked;
* `meddling_missed`: changes that are not found.
-/

namespace LiveMarkup.Live

variable {κ σ : Type} {client : Client κ σ} {l l₁ l₂ l' : Live κ σ} {d : Dom}
variable {hosts : List NodeRef} {byHand : List BindingId} {q : ObserverId} {rest : List ObserverId}

/-! ## Other statuses -/

/-- Observers may have other statuses, unless they have ended. -/
def Restated (f : ObserverId → Observer.Core κ → Observer.Core κ) : Prop :=
  ∀ o x, (f o x).target = x.target ∧ (f o x).hooks = x.hooks ∧
    ((f o x).status = .destroyed ↔ x.status = .destroyed)

/-- The tree is another one and observers have other statuses. -/
def Altered (l l' : Live κ σ) (d : Dom) : Prop :=
  ∃ f, Changed l l' d f ∧ Restated f

namespace Altered

theorem refl (h : Changed l l' d fun _ => id) : Altered l l' d :=
  ⟨_, h, fun _ _ => ⟨rfl, rfl, Iff.rfl⟩⟩

variable (h : Altered l l₁ d)
include h

theorem dom : l₁.dom = d := by
  obtain ⟨_, hChanged, -⟩ := h
  exact hChanged.dom

theorem seen (r : NodeRef) : l₁.isConnected r = (l.withDom d).isConnected r ∧
    l₁.observersIn r = (l.withDom d).observersIn r := by
  obtain ⟨_, hChanged, -⟩ := h
  exact hChanged.seen r

theorem before {o : ObserverId} {x : Observer.Core κ} (hx : l₁.core? o = some x) :
    ∃ y, l.core? o = some y ∧ y.target = x.target ∧
      (x.status = .destroyed ↔ y.status = .destroyed) := by
  obtain ⟨f, hChanged, hf⟩ := h
  obtain ⟨y, hy, rfl⟩ := Option.map_eq_some_iff.mp ((hChanged.core o).symm.trans hx)
  exact ⟨y, hy, (hf o y).1.symm, (hf o y).2.2⟩

theorem alike (h₂ : Alike l₁ l₂) : Altered l l₂ d := by
  obtain ⟨f, hChanged, hf⟩ := h
  refine ⟨f, ⟨hChanged.toFrame.trans h₂.toFrame, h₂.dom.trans hChanged.dom, fun n => ?_,
    fun o => ?_⟩, hf⟩
  · exact (h₂.tracked n).trans (hChanged.tracked n)
  · rw [h₂.core_eq, hChanged.core]

theorem turned {os : List ObserverId} {c : Connectivity} (hC : c ≠ .destroyed)
    (h₂ : Changed l₁ l₂ l₁.dom (turnAll os c)) : Altered l l₂ d := by
  obtain ⟨f, hChanged, hf⟩ := h
  refine ⟨fun o x => turnAll os c o (f o x), ⟨hChanged.toFrame.trans h₂.toFrame,
    h₂.dom.trans hChanged.dom, fun n => ?_, fun o => ?_⟩, fun o x => ⟨?_, ?_, ?_⟩⟩
  · exact (h₂.tracked n).trans (hChanged.tracked n)
  · rw [h₂.core, hChanged.core, Option.map_map]
    rfl
  · rw [turnAll_target, (hf o x).1]
  · rw [turnAll_hooks, (hf o x).2.1]
  · rw [turnAll_ended os hC, (hf o x).2.2]

end Altered

/-! ## Catching up -/

/-- An observer reports whether its target reaches a root. -/
def Observer.Core.Truthful (x : Observer.Core κ) (d : Dom) (root : NodeId) : Prop :=
  x.status = .connected ↔ d.nodes.Up (d.key x.target) root

/-- Something that is observed is at or below a node. -/
def Peopled (l : Live κ σ) (n : NodeId) : Prop :=
  ∃ o x, l.core? o = some x ∧ x.status ≠ .destroyed ∧ l.dom.nodes.Up (l.dom.key x.target) n

/-- An observer is below a node that is to be looked at and was seen last with another parent, and
has the status of the observer of that node. -/
def Awaits (l : Live κ σ) (rest : List ObserverId) (x : Observer.Core κ) : Prop :=
  ∃ p ∈ rest, ∃ y m place, l.core? p = some y ∧ y.target = .node m ∧ y.status = x.status ∧
    l.dom.nodes.Up (l.dom.key x.target) m ∧ l.seen? p = some place ∧ place.1 ≠ l.dom.parent? m

/-- The tree has been changed, and the places of some targets are still to be compared. Who does not
report the truth yet waits for one of them. -/
structure Catching (l : Live κ σ) (d : Dom) (hosts : List NodeRef) (byHand : List BindingId)
    (rest : List ObserverId) (l₁ : Live κ σ) : Prop where
  altered : Altered l l₁ d
  wired : Wired l₁ hosts byHand
  tracking : l₁.Tracking
  all : ∀ o x, l₁.core? o = some x → x.status ≠ .destroyed → o ∈ l₁.movers
  places : ∀ o x place, l₁.core? o = some x → l₁.seen? o = some place → x.status ≠ .destroyed →
    o ∈ rest ∨ place.1 = (l₁.dom.position x.target).1
  caught : ∀ o x, l₁.core? o = some x → x.status ≠ .destroyed →
    x.Truthful l₁.dom l.document ∨ l₁.Awaits rest x

section Meddling

variable (hO : l.Observed) (hSound : d.Sound) (hParts : Dom.SameParts l.dom d)
variable (hTop : d.parent? l.document = none)
include hO hSound hParts hTop

/-- Who is below a node reports the same as its observer, truthfully or not. -/
theorem truthful_iff_of_up {x y : Observer.Core κ} {m : NodeId} (hy : l.dom.Known y.target)
    (hTarget : y.target = .node m) (hStatus : y.status = x.status)
    (hUp : d.nodes.Up (d.key x.target) m) :
    x.Truthful d l.document ↔ y.Truthful d l.document := by
  rw [hTarget] at hy
  have hSame := hSound.inside_up_root_iff (hParts.known_iff.mpr hy) (Dom.inside_node.mpr hUp)
    (hParts.plain_iff.mpr hO.plain) hTop
  rw [Observer.Core.Truthful, Observer.Core.Truthful, hStatus, hTarget, hSame]

omit hTop in
/-- Just after the tree was changed all places are to be compared. -/
theorem Catching.start (hW : l.Watched) (hB : Wired l hosts byHand)
    (hSeen : ∀ m, d.parent? m ≠ l.dom.parent? m → l.dom.Plain m ∧ (l.Peopled m →
      (l.withDom d).Peopled m → ∃ o, (l.trackedOf m).observer = some o))
    (hMeddled : Changed l l₁ d fun _ => id) (hTracking : l₁.Tracking) (hSwitches : SameSwitches l l₁)
    (hMovers : l₁.movers = l.movers) (hPlaces : ∀ o, l₁.seen? o = l.seen? o) :
    Catching l d hosts byHand l.movers l₁ := by
  have hCore : ∀ o, l₁.core? o = l.core? o := fun o => by rw [hMeddled.core, Option.map_id, id]
  refine ⟨.refl hMeddled, hB.congr hCore hSwitches, hTracking, fun o x hx hLives => ?_,
    fun o x place hx _ hLives => ?_, fun o x hx hLives => ?_⟩
  · rw [hMovers]
    exact hW.all o x (hCore o ▸ hx) hLives
  · exact .inl (hW.all o x (hCore o ▸ hx) hLives)
  rw [hCore] at hx
  rw [hMeddled.dom]
  by_cases hTruth : x.Truthful d l.document
  · exact .inl hTruth
  -- the first node on the way up that got another parent is observed, with the same report
  have hOther : ¬ (d.nodes.Up (l.dom.key x.target) l.document ↔
      l.dom.nodes.Up (l.dom.key x.target) l.document) := by
    intro hIff
    refine hTruth ?_
    rw [Observer.Core.Truthful, hParts.key, hIff]
    exact hO.reports o x hx hLives
  obtain ⟨m, hUp', hUp, hMoved⟩ := Forest.exists_moved hSound.linked hOther
  obtain ⟨hPlain, hSeen⟩ := hSeen m hMoved
  obtain ⟨p, hp⟩ := hSeen ⟨o, x, hx, hLives, hUp⟩
    ⟨o, x, hx, hLives, (hParts.key x.target).symm ▸ hUp'⟩
  obtain ⟨y, hy, hKey, hLives'⟩ := hO.tracked m p hp
  have hTarget : y.target = .node m := hO.sound.key_inj (hO.known p y hy) hPlain hKey
  have hReport : y.status = .connected ↔ x.status = .connected := by
    rw [hO.reports p y hy hLives', hO.reports o x hx hLives, hTarget]
    exact (hO.sound.inside_up_root_iff (r := .node m) hPlain (Dom.inside_node.mpr hUp) hO.plain
      hO.top).symm
  have hStatus : y.status = x.status := by
    cases hs : x.status <;> cases ht : y.status <;> simp_all
  obtain ⟨z, hz, -⟩ := Option.map_eq_some_iff.mp hy
  have hLast : l.seen? p = some z.lastSeen := by rw [seen?, hz]; rfl
  refine .inr ⟨p, hW.all p y hy hLives', y, m, z.lastSeen, (hCore p).trans hy, hTarget, hStatus, ?_,
    (hPlaces p).trans hLast, ?_⟩
  · rw [hMeddled.dom, hParts.key]
    exact hUp'
  · have hPlace := hW.places p y z.lastSeen hy hLast hLives'
    rw [hTarget] at hPlace
    rw [hMeddled.dom, hPlace]
    exact hMoved.symm

/-- The place of one target was compared, and some observers were told. -/
theorem Catching.step {os : List ObserverId} {c : Connectivity}
    (h : Catching l d hosts byHand (q :: rest) l₁) (hAltered : Altered l l₂ d)
    (hWired : Wired l₂ hosts byHand) (hTracking : l₂.Tracking)
    (hAll : ∀ o x, l₂.core? o = some x → x.status ≠ .destroyed → o ∈ l₂.movers)
    (hCore : ∀ o, l₂.core? o = (l₁.core? o).map (turnAll os c o))
    (hSeen : ∀ o, o ≠ q → l₂.seen? o = l₁.seen? o)
    (hPlace : ∀ x place, l₁.core? q = some x → l₂.seen? q = some place → x.status ≠ .destroyed →
      place.1 = (d.position x.target).1)
    (hBelow : ∀ o x p y m, l₁.core? o = some x → l₁.core? p = some y → x.status ≠ .destroyed →
      y.status ≠ .destroyed → y.target = .node m → d.nodes.Up (d.key x.target) m → p ∈ os → o ∈ os)
    (hTold : ∀ o x, l₁.core? o = some x → x.status ≠ .destroyed → o ∈ os →
      (c = .connected ↔ d.nodes.Up (d.key x.target) l.document))
    (hVisited : ∀ y, l₁.core? q = some y → y.status ≠ .destroyed →
      (∀ place, l₁.seen? q = some place → place.1 = (d.position y.target).1) ∨ q ∈ os ∨
        y.Truthful d l.document) :
    Catching l d hosts byHand rest l₂ := by
  have hDom₁ := h.altered.dom
  have hBefore : ∀ o x', l₂.core? o = some x' → x'.status ≠ .destroyed → ∃ x,
      l₁.core? o = some x ∧ x.status ≠ .destroyed ∧ x' = turnAll os c o x := by
    intro o x' hx' hLives
    obtain ⟨x, hx, rfl⟩ := Option.map_eq_some_iff.mp ((hCore o).symm.trans hx')
    refine ⟨x, hx, fun hEnded => hLives ?_, rfl⟩
    unfold turnAll
    split
    · rw [Observer.Core.turn_of_eq c hEnded, hEnded]
    · exact hEnded
  refine ⟨hAltered, hWired, hTracking, hAll, fun o x' place hx' hSeen' hLives => ?_,
    fun o x' hx' hLives => ?_⟩
  · obtain ⟨x, hx, hOld, rfl⟩ := hBefore o x' hx' hLives
    rw [turnAll_target, hAltered.dom]
    by_cases ho : o = q
    · subst ho
      exact .inr (hPlace x place hx hSeen' hOld)
    · rw [hSeen o ho] at hSeen'
      have hOr := h.places o x place hx hSeen' hOld
      rw [hDom₁] at hOr
      exact hOr.imp_left fun hMem => (List.mem_cons.mp hMem).resolve_left ho
  · obtain ⟨x, hx, hOld, rfl⟩ := hBefore o x' hx' hLives
    rw [hAltered.dom]
    by_cases ho : o ∈ os
    · left
      rw [Observer.Core.Truthful, turnAll_of_mem c ho hOld, turnAll_target]
      exact hTold o x hx hOld ho
    rw [turnAll_of_not_mem c x ho]
    have hCaught := h.caught o x hx hOld
    rw [Awaits, hDom₁] at hCaught
    obtain hTruth | ⟨p, hp, y, m, place, hy, hTarget, hStatus, hUp, hLast, hMoved⟩ := hCaught
    · exact .inl hTruth
    have hNot : p ∉ os := fun hMem => ho (hBelow o x p y m hx hy hOld (hStatus ▸ hOld) hTarget hUp hMem)
    by_cases hpq : p = q
    · -- the node that was waited for is the one that was looked at
      subst hpq
      left
      obtain ⟨z, hz, hzTarget, -⟩ := h.altered.before hy
      rcases hVisited y hy (hStatus ▸ hOld) with hSame | hMem | hTruth
      · have hPosition := hSame place hLast
        rw [hTarget] at hPosition
        exact absurd hPosition hMoved
      · exact absurd hMem hNot
      · exact (truthful_iff_of_up hO hSound hParts hTop (hzTarget ▸ hO.known p z hz) hTarget hStatus
          hUp).mpr hTruth
    · right
      refine ⟨p, (List.mem_cons.mp hp).resolve_left hpq, y, m, place, ?_, hTarget, hStatus, ?_,
        (hSeen p hpq).trans hLast, ?_⟩
      · rw [hCore, hy, Option.map_some, turnAll_of_not_mem c y hNot]
      · rw [hAltered.dom]
        exact hUp
      · rw [hAltered.dom]
        exact hMoved

/-- Nobody is told when there is nothing to see. -/
theorem Catching.pass (h : Catching l d hosts byHand (q :: rest) l₁) (hAlike : Alike l₁ l₂)
    (hWired : Wired l₂ hosts byHand) (hSteady : Steady l₁ l₂)
    (hPlace : ∀ x place, l₁.core? q = some x → l₁.seen? q = some place → x.status ≠ .destroyed →
      place.1 = (d.position x.target).1) : Catching l d hosts byHand rest l₂ := by
  have hNobody : ∀ o, l₂.core? o = (l₁.core? o).map (turnAll [] .connected o) := by
    intro o
    rw [hAlike.core_eq]
    cases l₁.core? o <;> simp [turnAll]
  refine h.step hO hSound hParts hTop (h.altered.alike hAlike) hWired (hSteady.tracking h.tracking)
    (Watched.all_of_steady hSteady (fun o x hx hLives => ⟨x, hAlike.core_eq o ▸ hx, rfl, hLives⟩)
      h.all) hNobody (fun o _ => hSteady.seen o)
    (fun x place hx hLast => hPlace x place hx (hSteady.seen q ▸ hLast))
    (fun _ _ _ _ _ _ _ _ _ _ _ hMem => absurd hMem List.not_mem_nil)
    (fun _ _ _ _ hMem => absurd hMem List.not_mem_nil)
    fun y hy hLives => .inl fun place hLast => hPlace y place hy hLast hLives

/-- The place of a target was noted, and its observer reports the truth. -/
theorem Catching.trust (h : Catching l d hosts byHand (q :: rest) l₁) {x : Observer.Core κ}
    (hx : l₁.core? q = some x) (hTruth : x.Truthful d l.document) (hNoticed : Noticed l₁ l₂ [q])
    (hWired : Wired l₂ hosts byHand) : Catching l d hosts byHand rest l₂ := by
  have hCore := hNoticed.alike.core_eq
  have hNobody : ∀ o, l₂.core? o = (l₁.core? o).map (turnAll [] .connected o) := by
    intro o
    rw [hCore]
    cases l₁.core? o <;> simp [turnAll]
  refine h.step hO hSound hParts hTop (h.altered.alike hNoticed.alike) hWired
    (hNoticed.tracking h.tracking) (fun o y hy hLives => ?_) hNobody
    (fun o ho => hNoticed.seen_of_ne ho) (fun y place hy hLast _ => ?_)
    (fun _ _ _ _ _ _ _ _ _ _ _ hMem => absurd hMem List.not_mem_nil)
    (fun _ _ _ _ hMem => absurd hMem List.not_mem_nil)
    fun y hy _ => .inr (.inr (Option.some.inj (hx.symm.trans hy) ▸ hTruth))
  · rw [hNoticed.movers]
    exact h.all o y (hCore o ▸ hy) hLives
  · rw [hNoticed.seen_self hy] at hLast
    rw [← Option.some.inj hLast, h.altered.dom]

/-- The place of a target was noted, and all observers in it are told whether it is connected. -/
theorem Catching.tell {l' : Live κ σ} (h : Catching l d hosts byHand (q :: rest) l₁)
    {x : Observer.Core κ} (hx : l₁.core? q = some x) (hLives : x.status ≠ .destroyed)
    (hNoticed : Noticed l₁ l₂ [q]) {c : Connectivity}
    (hC : c = .connected ↔ l₂.isConnected x.target = true) (hLasts : c ≠ .destroyed)
    (hChanged : Changed l₂ l' l₂.dom (turnAll (l₂.observersIn x.target) c))
    (hWired : Wired l' hosts byHand) (hSteady : Steady l₂ l') :
    Catching l d hosts byHand rest l' := by
  obtain ⟨z, hz, hTarget, -⟩ := h.altered.before hx
  have hKnown : l.dom.Known x.target := hTarget ▸ hO.known q z hz
  have hKnown' := hParts.known_iff.mpr hKnown
  have hPlain := hParts.plain_iff.mpr hO.plain
  have hAltered := h.altered.alike hNoticed.alike
  have hCore := hNoticed.alike.core_eq
  -- who is told is who is inside the target
  have hMem : ∀ o y, l₁.core? o = some y → y.status ≠ .destroyed →
      (o ∈ l₂.observersIn x.target ↔ d.Inside x.target (d.key y.target)) := by
    intro o y hy hOld
    obtain ⟨w, hw, hwTarget, hEnded⟩ := h.altered.before hy
    rw [(hAltered.seen x.target).2, hO.mem_observersIn hSound hParts hKnown hw (mt hEnded.mpr hOld),
      hwTarget, hParts.key]
  have hSelf : q ∈ l₂.observersIn x.target := (hMem q x hx hLives).mpr (Dom.inside_key _)
  refine h.step hO hSound hParts hTop (hAltered.turned hLasts hChanged) hWired
    (hSteady.tracking (hNoticed.tracking h.tracking))
    (Watched.all_of_steady hSteady hChanged.remains_turnAll fun o y hy hOld => ?_)
    (fun o => by rw [hChanged.core, hCore])
    (fun o ho => (hSteady.seen o).trans (hNoticed.seen_of_ne ho))
    (fun y place hy hLast _ => ?_) (fun o y p w m hy hw hOld hOld' hNode hUp hTold => ?_)
    (fun o y hy hOld hTold => ?_) fun _ _ _ => .inr (.inl hSelf)
  · rw [hNoticed.movers]
    exact h.all o y (hCore o ▸ hy) hOld
  · rw [hSteady.seen, hNoticed.seen_self hy] at hLast
    rw [← Option.some.inj hLast, h.altered.dom]
  · rw [hMem p w hw hOld', hNode] at hTold
    exact (hMem o y hy hOld).mpr (hTold.of_up hUp)
  · have hInside := (hMem o y hy hOld).mp hTold
    rw [hC, (hAltered.seen x.target).1, hO.isConnected_iff hSound hParts hTop hKnown, ← hParts.key]
    exact (hSound.inside_up_root_iff hKnown' hInside hPlain hTop).symm

section Comparing

variable (hClient : client.Quiet) (depth : Nat)
include hClient

/-- What is inferred of the status of an observer whose place was noted, once its hooks have run. -/
theorem Catching.status (h : Catching l d hosts byHand (q :: rest) l₁) {x : Observer.Core κ}
    (hx : l₁.core? q = some x) (hLives : x.status ≠ .destroyed) (hNoticed : Noticed l₁ l₂ [q])
    (hWired : Wired l₂ hosts byHand) :
    After (do
        let l ← get
        match l.statusOf q, l.isConnected x.target with
        | .disconnected, true => notifyConnected (Calls.upTo client (depth + 2)) x.target
        | .connected, false => notifyDisconnected (Calls.upTo client (depth + 2)) x.target
        | _, _ => pure ()) l₂ fun _ l' => Catching l d hosts byHand rest l' := by
  have hQuiet := hWired.quietFor
  have hx₂ := (hNoticed.alike.core_eq q).trans hx
  rw [after_bind, after_get, statusOf_eq hx₂]
  split
  · rename_i hConnected
    refine ((notifyConnected_changed hClient depth hQuiet fun _ _ => trivial).and
      ((notifyConnected_steady hClient depth hQuiet fun _ _ => trivial).and
        ((Wired.stepwise hClient depth).notifyConnected _ l₂ hWired))).mono ?_
    rintro _ l' ⟨hChanged, hSteady, hWired'⟩
    exact h.tell hO hSound hParts hTop hx hLives hNoticed (iff_of_true rfl hConnected) (by decide)
      hChanged hWired' hSteady
  · rename_i hConnected
    refine ((notifyDisconnected_changed hClient depth hQuiet fun _ _ => trivial).and
      ((notifyDisconnected_steady hClient depth hQuiet fun _ _ => trivial).and
        ((Wired.stepwise hClient depth).notifyDisconnected _ l₂ hWired))).mono ?_
    rintro _ l' ⟨hChanged, hSteady, hWired'⟩
    exact h.tell hO hSound hParts hTop hx hLives hNoticed (by simp [hConnected]) (by decide)
      hChanged hWired' hSteady
  · rename_i hNot hNot'
    refine h.trust hO hSound hParts hTop hx ?_ hNoticed hWired
    obtain ⟨z, hz, hTarget, -⟩ := h.altered.before hx
    rw [Observer.Core.Truthful, hParts.key, ← hO.isConnected_iff hSound hParts hTop
      (hTarget ▸ hO.known q z hz), ← ((h.altered.alike hNoticed.alike).seen x.target).1]
    cases hStatus : x.status <;> cases hConnected : l₂.isConnected x.target <;> simp_all

/-- An observer whose place was noted hears of a change that must have happened, and so does all that
is in its target. -/
theorem Catching.infer (h : Catching l d hosts byHand (q :: rest) l₁) {x : Observer.Core κ}
    (hx : l₁.core? q = some x) (hLives : x.status ≠ .destroyed) (hNoticed : Noticed l₁ l₂ [q])
    (hWired : Wired l₂ hosts byHand) (parent lastParent : Option NodeId) :
    After (inferMove (Calls.upTo client (depth + 2)) q x.target parent lastParent) l₂ fun _ l' =>
      Catching l d hosts byHand rest l' := by
  unfold inferMove
  split
  · rw [after_bind]
    refine (hWired.toPlugged.fire hClient depth q _ fun b => ?_).mono ?_
    · split <;> rfl
    · rintro _ l₃ ⟨hCalm, hState⟩
      exact h.status hO hSound hParts hTop hClient depth hx hLives (hNoticed.calm hCalm)
        (hWired.congr hCalm.core?_eq ⟨hCalm.sameFeeds, hState⟩)
  · exact h.status hO hSound hParts hTop hClient depth hx hLives hNoticed hWired

/-- The place of one target is compared. -/
theorem Catching.visit (h : Catching l d hosts byHand (q :: rest) l₁) :
    After (compareMove (Calls.upTo client (depth + 2)) q) l₁ fun _ l' =>
      Catching l d hosts byHand rest l' := by
  -- who has ended is not tracked any more
  have hUntrack : l₁.statusOf q = .destroyed → After (untrackMoves q) l₁ fun _ l' =>
      Catching l d hosts byHand rest l' := by
    intro hEnded
    have hSame : After (untrackMoves q) l₁ fun _ l' => Alike l₁ l' ∧ Wired l' hosts byHand :=
      ⟨⟨Frame.of_eq rfl rfl rfl rfl rfl rfl rfl, rfl, fun _ => rfl, fun o => by
        rw [Option.map_id, id]; rfl⟩, h.wired.congr (fun _ => rfl) (SameSwitches.of_eq rfl rfl)⟩
    refine (hSame.and (untrackMoves_steady hEnded)).mono ?_
    rintro _ l' ⟨⟨hAlike, hWired⟩, hSteady⟩
    refine h.pass hO hSound hParts hTop hAlike hWired hSteady fun x place hx _ hLives => ?_
    rw [statusOf_eq hx] at hEnded
    exact absurd hEnded hLives
  unfold compareMove
  rw [after_bind, after_get]
  split
  · rename_i hNone
    exact hUntrack (by simp [statusOf, hNone])
  · rename_i x hx
    have hCore : l₁.core? q = some x.core := by rw [core?, hx]; rfl
    have hSeen : l₁.seen? q = some x.lastSeen := by rw [seen?, hx]; rfl
    split
    · rename_i hEnded
      exact hUntrack (statusOf_eq hCore ▸ hEnded)
    · rename_i hLives
      dsimp only
      split
      · refine ((notePlace_noticed l₁ q).and (notePlace_alike l₁ q)).bind ?_
        rintro _ l₂ ⟨hNoticed, -, hBindings, hSubscriptions⟩
        exact h.infer hO hSound hParts hTop hClient depth hCore hLives hNoticed
          (h.wired.congr hNoticed.alike.core_eq (SameSwitches.of_eq hBindings hSubscriptions)) _ _
      · rename_i hSame
        rw [Decidable.not_not] at hSame
        refine h.pass hO hSound hParts hTop (Changed.alike_of_calm (Calm.refl l₁)) h.wired (.refl l₁)
          fun y place hy hLast _ => ?_
        rw [hCore] at hy
        rw [hSeen] at hLast
        rw [← Option.some.inj hy, ← Option.some.inj hLast, ← hSame, h.altered.dom]
        rfl

end Comparing

omit hTop in
theorem Catching.settles (hTop : d.parent? l.document = none)
    (h : Catching l d hosts byHand [] l₁) : l₁.Observed ∧ l₁.Watched := by
  refine ⟨?_, h.tracking, h.all, fun o x place hx hLast hLives => ?_⟩
  · obtain ⟨f, hChanged, hf⟩ := h.altered
    refine hO.changed hChanged hSound hParts hTop (fun o x => (hf o x).1) (fun o x => (hf o x).2.2)
      fun o x hx hLives => ?_
    have hx₁ : l₁.core? o = some (f o x) := by rw [hChanged.core, hx]; rfl
    rcases h.caught o _ hx₁ (mt (hf o x).2.2.mp hLives) with hTruth | ⟨p, hp, -⟩
    · rw [Observer.Core.Truthful, (hf o x).1, hChanged.dom, hParts.key] at hTruth
      exact hTruth
    · cases hp
  · exact (h.places o x place hx hLast hLives).resolve_left (by simp)

end Meddling

/-! ## Comparing all places -/

/-- The document with another tree, of which it was told already, and with other microtasks. -/
def told (l : Live κ σ) (d : Dom) (microtasks : List (Task κ)) : Live κ σ :=
  { l.withDom d with clock := { l.clock with microtasks }, comparing := true }

/-- What saying that the tree was changed comes to. -/
theorem reportMoves_told (hTracking : l.Tracking) (d : Dom) :
    After reportMoves (l.withDom d) fun _ l' => ∃ task rest,
      l' = l.told d (task :: rest) ∧ ∀ t ∈ task :: rest, t = .compareMoves := by
  have hTorn : (!(l.withDom d).tornDown) = true := by
    change (!l.tornDown) = true
    rw [hTracking.live]
    rfl
  unfold reportMoves queueMicrotask
  rw [after_bind, after_get]
  by_cases hComparing : l.comparing = true
  · obtain ⟨task, rest, hTasks⟩ := List.exists_cons_of_ne_nil (hTracking.pending hComparing)
    rw [if_neg (by simp [withDom, hComparing])]
    refine ⟨task, rest, ?_, hTasks ▸ hTracking.tasks⟩
    rw [told, ← hTasks, ← hComparing]
    rfl
  · rw [if_pos (by simp [withDom, hComparing, hTracking.tracks]), after_bind, after_modify, after_bind,
      after_get, if_pos hTorn]
    have hAll : ∀ t ∈ l.clock.microtasks ++ [.compareMoves], t = .compareMoves := by
      intro t ht
      rcases List.mem_append.mp ht with ht | ht
      · exact hTracking.tasks t ht
      · exact List.mem_singleton.mp ht
    obtain ⟨task, rest, hTasks⟩ := List.exists_cons_of_ne_nil
      (List.append_ne_nil_of_right_ne_nil l.clock.microtasks (List.cons_ne_nil Task.compareMoves []))
    refine ⟨task, rest, ?_, hTasks ▸ hAll⟩
    rw [← hTasks]
    rfl

section Finding

variable (hO : l.Observed) (hW : l.Watched) (hB : Wired l hosts byHand)
variable (hMeddled : Dom.Meddled l.document l.dom d)
variable (hSeen : ∀ m, d.parent? m ≠ l.dom.parent? m → l.Peopled m → (l.withDom d).Peopled m →
  ∃ o, (l.trackedOf m).observer = some o)
variable (hClient : client.Quiet) (depth : Nat)
include hO hW hB hMeddled hSeen hClient

/-- The tree of a document in order was changed, and all places are compared. -/
theorem compareMoves_finds {rest : List (Task κ)} (hTasks : ∀ t ∈ rest, t = .compareMoves) :
    After (compareMoves (Calls.upTo client (depth + 2))) (l.told d rest) fun _ l' =>
      l'.Observed ∧ l'.Watched ∧ Wired l' hosts byHand := by
  obtain ⟨hSound, hParts⟩ := hMeddled.sound hO.sound
  have hTop := hMeddled.parent_root hO.sound hO.top
  have hChanged : Changed l { l.told d rest with comparing := false } d fun _ => id :=
    ⟨Frame.of_eq rfl rfl rfl rfl rfl rfl rfl, rfl, fun _ => rfl, fun o => by
      rw [Option.map_id, id]; rfl⟩
  have hStart : Catching l d hosts byHand l.movers { l.told d rest with comparing := false } :=
    Catching.start hO hSound hParts hW hB
      (fun m hm => ⟨hMeddled.plain_of_moved hO.sound hm, hSeen m hm⟩) hChanged
      ⟨hW.tracks, hW.live, hTasks, fun hc => nomatch hc⟩ (SameSwitches.of_eq rfl rfl) rfl
      fun _ => rfl
  unfold compareMoves
  rw [after_bind, after_modify, after_bind, after_get]
  refine (After.forM (k := Catching l d hosts byHand) hStart fun q rest l₂ h =>
    h.visit hO hSound hParts hTop hClient depth).mono fun _ l' h => ?_
  obtain ⟨hO', hW'⟩ := h.settles hO hSound hParts hTop
  exact ⟨hO', hW', h.wired⟩

/-- The places are compared by the first microtask. Those that follow find nothing. -/
theorem drain_finds {task : Task κ} {rest : List (Task κ)}
    (hTasks : ∀ t ∈ task :: rest, t = .compareMoves) :
    After (drain (Calls.upTo client (depth + 3))) (l.told d (task :: rest)) fun _ l' =>
      l'.Observed ∧ l'.Watched ∧ Wired l' hosts byHand := by
  obtain rfl := hTasks task List.mem_cons_self
  obtain ⟨n, hn⟩ : ∃ n, max 1 l.config.maxMicrotasks = n + 1 :=
    ⟨max 1 l.config.maxMicrotasks - 1, by omega⟩
  unfold drain
  rw [after_bind, after_get]
  change After (drainTo _ (max 1 l.config.maxMicrotasks)) _ _
  rw [hn]
  unfold drainTo popMicrotask
  rw [after_bind, after_modifyGet]
  refine (compareMoves_finds hO hW hB hMeddled hSeen hClient depth
    fun t ht => hTasks t (List.mem_cons_of_mem _ ht)).bind ?_
  rintro _ l₂ ⟨hO₂, hW₂, hB₂⟩
  refine (drainTo_glanced client (depth + 2) n hW₂ hO₂).bind ?_
  rintro _ l₃ ⟨hGlanced, hW₃⟩
  refine ⟨hO₂.alike hGlanced.alike, hW₃, hB₂.congr hGlanced.core ?_⟩
  obtain ⟨_, _, _, _, rfl⟩ := hGlanced.rest
  exact SameSwitches.of_eq rfl rfl

/-- The tree was changed from outside, the document is told so and microtasks are drained. -/
theorem checked : After (do
      reportMoves
      drain (Calls.upTo client (depth + 3))) (l.withDom d) fun _ l' =>
        l'.Observed ∧ l'.Watched ∧ Wired l' hosts byHand := by
  refine (reportMoves_told hW.toTracking d).bind ?_
  rintro _ _ ⟨task, rest, rfl, hTasks⟩
  exact drain_finds hO hW hB hMeddled hSeen hClient depth hTasks

end Finding

end LiveMarkup.Live

/-! ## Patrols -/

namespace LiveMarkup.Live

variable {κ σ : Type} {client : Client κ σ}

/-- Says that the tree was changed, and drains the microtasks. -/
def check (calls : Calls κ σ) : LiveM κ σ Nat := do
  reportMoves
  drain calls

/-- A node has an observer that has not ended. -/
def Attended (l : Live κ σ) (n : NodeId) : Prop :=
  ∃ o x, l.observer? o = some x ∧ x.target = .node n ∧ x.status ≠ .destroyed

/-- Nodes were put into each other and taken out behind the back of the document. Those that have
another parent now are observed, if something that is observed was and is at or below them. -/
structure Meddled (l : Live κ σ) (d : Dom) : Prop where
  meddled : Dom.Meddled l.document l.dom d
  attended : ∀ n, d.parent? n ≠ l.dom.parent? n → l.Peopled n → (l.withDom d).Peopled n →
    l.Attended n

namespace Meddled

variable {l : Live κ σ} {d : Dom} {child : NodeId}
variable (hSound : l.dom.Sound) (hChild : l.dom.Plain child)
variable (hAttended : l.Peopled child → l.Attended child)
include hSound hChild hAttended

theorem of_put {parent : NodeRef} {reference : Option NodeId} (hNe : child ≠ l.document)
    (hParent : l.dom.Known parent) (hOut : ¬ l.dom.Inside (.node child) (l.dom.key parent))
    (hPut : l.dom.insertUnder parent child reference = .ok d) : l.Meddled d := by
  obtain ⟨-, -, hParents⟩ := hSound.insertUnder hChild hParent hOut hPut
  refine ⟨.put .nothing hChild hNe hParent hOut hPut, fun n hn hWas _ => ?_⟩
  obtain rfl : n = child := Decidable.not_not.mp fun hne => hn (hParents n hne)
  exact hAttended hWas

theorem of_take : l.Meddled (l.dom.remove child) := by
  obtain ⟨-, -, hParents⟩ := hSound.remove hChild
  refine ⟨.take .nothing hChild, fun n hn hWas _ => ?_⟩
  obtain rfl : n = child := Decidable.not_not.mp fun hne => hn (by rw [hParents, if_neg hne])
  exact hAttended hWas

end Meddled

/-- The sessions that come out of one by proper deeds, while at any time it is said that the tree was
changed, and microtasks are drained. Changes from outside are checked before the next deed. -/
inductive Patrol (calls : Calls κ σ) (s₀ : Session κ σ) : Session κ σ → Prop where
  | start : Patrol calls s₀ s₀
  | deed {s : Session κ σ} (h : Patrol calls s₀ s) (d : Deed κ) (hProper : d.Proper s.live) :
      Patrol calls s₀ (s.step calls d)
  | report {s : Session κ σ} (h : Patrol calls s₀ s) :
      Patrol calls s₀ { s with live := (reportMoves.run s.live).2 }
  | drain {s : Session κ σ} (h : Patrol calls s₀ s) :
      Patrol calls s₀ { s with live := ((Live.drain calls).run s.live).2 }
  | meddle {s : Session κ σ} (h : Patrol calls s₀ s) {d : Dom} (hMeddled : s.live.Meddled d) :
      Patrol calls s₀ { s with live := ((check calls).run (s.live.withDom d)).2 }

/-- What was checked is in order and watched. -/
theorem Orderly.checked {s : Session κ σ} (hClient : client.Quiet) (depth : Nat) (hs : Orderly s)
    (hW : s.live.Watched) {d : Dom} (hMeddled : s.live.Meddled d) :
    After (check (Calls.upTo client (depth + 3))) (s.live.withDom d) fun _ l' =>
      Orderly { s with live := l' } ∧ l'.Watched := by
  have hO := hs.observed
  obtain ⟨hosts, hB, hBound⟩ := hs.wired
  refine (Live.checked hO hW hB hMeddled.meddled (fun m hm hWas hIs => ?_) hClient depth).mono ?_
  · obtain ⟨o, x, hx, hTarget, hLives⟩ := hMeddled.attended m hm hWas hIs
    have hKept := hO.kept o x.core (by rw [core?, hx]; rfl) hLives
    rw [show x.core.target = .node m from hTarget] at hKept
    exact ⟨o, hKept⟩
  · rintro _ l' ⟨hO', hW', hB'⟩
    exact ⟨⟨hO', hosts, hB', hBound⟩, hW'⟩

theorem Patrol.orderly {s₀ s : Session κ σ} (hClient : client.Quiet) (depth : Nat)
    (h : Patrol (Calls.upTo client (depth + 3)) s₀ s) (h₀ : Orderly s₀) (hW : s₀.live.Watched) :
    Orderly s ∧ s.live.Watched := by
  induction h with
  | start => exact ⟨h₀, hW⟩
  | deed _ d hProper ih =>
    exact ⟨ih.1.step hClient (depth + 1) d hProper, ih.1.watched hClient (depth + 1) ih.2 d hProper⟩
  | report _ ih =>
    obtain ⟨hGlanced, hWatched⟩ := reportMoves_glanced ih.2
    exact ⟨hGlanced.orderly ih.1, hWatched⟩
  | drain _ ih =>
    obtain ⟨hGlanced, hWatched⟩ := drain_glanced client (depth + 2) ih.2 ih.1.observed
    exact ⟨hGlanced.orderly ih.1, hWatched⟩
  | meddle _ hMeddled ih => exact ih.1.checked hClient depth ih.2 hMeddled

/-- In a session that begins with nothing observed, nodes are put into each other and taken out
behind the back of the document. If those that got another parent are observed, unless nothing at or
below them is, checking makes every observer that has not ended report exactly whether its target is
connected. -/
theorem Patrol.truthful {l : Live κ σ} {s : Session κ σ} (hClient : client.Quiet) (depth : Nat)
    (hFresh : l.Unobserved) (hTracking : l.Tracking)
    (h : Patrol (Calls.upTo client (depth + 3)) { live := l } s) {d : Dom}
    (hMeddled : s.live.Meddled d) :
    After (check (Calls.upTo client (depth + 3))) (s.live.withDom d) fun _ l' =>
      ∀ o x, l'.observer? o = some x → x.status ≠ .destroyed →
        (x.status = .connected ↔ l'.isConnected x.target = true) := by
  obtain ⟨hs, hW⟩ := h.orderly hClient depth hFresh.orderly (hFresh.watched hTracking)
  refine (hs.checked hClient depth hW hMeddled).mono ?_
  rintro _ l' ⟨hs', -⟩ o x hx hLives
  exact hs'.reports hx hLives

/-- A session on a fresh document that tracks moves, after some deeds. -/
def trackingSession (ds : List (Deed Unit)) : Session Unit Unit :=
  ds.foldl (Session.step (Calls.upTo Client.still 3)) { live := create { trackMoves := true } () }

theorem trackingSession_sound {s : Session Unit Unit}
    (h : Patrol (Calls.upTo Client.still 3) (trackingSession []) s) : s.live.dom.Sound := by
  have hFresh : (create { trackMoves := true } () : Live Unit Unit).Unobserved :=
    create_unobserved { trackMoves := true } ()
  exact (h.orderly Client.still_quiet 0 hFresh.orderly
    (hFresh.watched (create_tracking () rfl))).1.observed.sound

theorem plain_of_lt {d : Dom} {n : NodeId} (hn : n < d.nodes.size) (hNone : d.containers.size = 0) :
    d.Plain n :=
  ⟨hn, fun c hc => by rw [hNone] at hc; cases hc⟩

theorem attended_of_any {l : Live κ σ} {n : NodeId} {o : ObserverId}
    (h : (l.observer? o).any (fun x => x.target = .node n ∧ x.status ≠ .destroyed) = true) :
    l.Attended n := by
  obtain ⟨x, hx, hAll⟩ := (Option.any_eq_true _ _).mp h
  exact ⟨o, x, hx, of_decide_eq_true hAll⟩

theorem trackingSession_observe : Patrol (Calls.upTo Client.still 3) (trackingSession [])
    (trackingSession [.observe (.node 2)]) :=
  Patrol.start.deed (.observe (.node 2)) (plain_of_lt (by decide +kernel) (by decide +kernel))

/-- The body is observed. Then it is taken out, which is checked. -/
def bodyTaken : Session Unit Unit :=
  let s := trackingSession [.observe (.node 2)]
  { s with live := ((check (Calls.upTo Client.still 3)).run (s.live.withDom (s.live.dom.remove 2))).2 }

theorem bodyTaken_patrol : Patrol (Calls.upTo Client.still 3) (trackingSession []) bodyTaken :=
  have h := trackingSession_observe
  h.meddle (.of_take (trackingSession_sound h) (plain_of_lt (by decide +kernel) (by decide +kernel))
    fun _ => attended_of_any (o := 0) (by decide +kernel))

/-- Next the body is put under the document. -/
theorem bodyTaken_meddled : bodyTaken.live.Meddled (bodyTaken.live.dom.append 0 2) :=
  have hSound := trackingSession_sound bodyTaken_patrol
  have hRoot : bodyTaken.live.dom.Known (.node 0) :=
    plain_of_lt (by decide +kernel) (by decide +kernel)
  have hPut : bodyTaken.live.dom.insertUnder (.node 0) 2 none = .ok (bodyTaken.live.dom.append 0 2) :=
    rfl
  .of_put hSound (plain_of_lt (by decide +kernel) (by decide +kernel))
    (fun _ => attended_of_any (o := 0) (by decide +kernel)) (by decide +kernel) hRoot
    (hSound.not_inside (by decide +kernel)) hPut

theorem bodyTaken_truthful : After (check (Calls.upTo Client.still 3))
    (bodyTaken.live.withDom (bodyTaken.live.dom.append 0 2)) fun _ l' =>
      ∀ o x, l'.observer? o = some x → x.status ≠ .destroyed →
        (x.status = .connected ↔ l'.isConnected x.target = true) :=
  Patrol.truthful Client.still_quiet 0 (create_unobserved { trackMoves := true } ())
    (create_tracking () rfl) bodyTaken_patrol bodyTaken_meddled

/-- If a node that gets another parent behind the back of the document is not observed, observers in
it are not told: nobody looks at it, and their targets have the parents that they had. If the document
moves a node itself before it is told that the node was put somewhere, it notes where the node is
then, and its observers are not told either. -/
theorem meddling_missed :
    (let s := trackingSession [.observe (.node 2)]
     let d := s.live.dom.remove 1
     let l' := ((check (Calls.upTo Client.still 3)).run (s.live.withDom d)).2
     Patrol (Calls.upTo Client.still 3) (trackingSession []) s ∧
      Dom.Meddled s.live.document s.live.dom d ∧
      (l'.observer? 0).map (·.status) = some .connected ∧ l'.isConnected (.node 2) = false) ∧
    let s := trackingSession [.observe (.node 2), .detach (.node 2)]
    let d := s.live.dom.append 1 2
    let moved := Session.step (Calls.upTo Client.still 3) { s with live := s.live.withDom d }
      (.moveTo (.node 2) (.node 0) none)
    let l' := ((check (Calls.upTo Client.still 3)).run moved.live).2
    Patrol (Calls.upTo Client.still 3) (trackingSession []) s ∧ s.live.Meddled d ∧
      (s.live.withDom d).MovableInto (.node 2) (.node 0) ∧
      (l'.observer? 0).map (·.status) = some .disconnected ∧ l'.isConnected (.node 2) = true := by
  refine ⟨⟨trackingSession_observe,
    .take .nothing (plain_of_lt (by decide +kernel) (by decide +kernel)), by decide +kernel,
    by decide +kernel⟩, ?_⟩
  have hDetached : Patrol (Calls.upTo Client.still 3) (trackingSession [])
      (trackingSession [.observe (.node 2), .detach (.node 2)]) :=
    trackingSession_observe.deed (.detach (.node 2))
      ⟨plain_of_lt (by decide +kernel) (by decide +kernel), by decide +kernel⟩
  have hSound := trackingSession_sound hDetached
  have hHead : (trackingSession [.observe (.node 2), .detach (.node 2)]).live.dom.Known (.node 1) :=
    plain_of_lt (by decide +kernel) (by decide +kernel)
  have hPut : (trackingSession [.observe (.node 2), .detach (.node 2)]).live.dom.insertUnder
      (.node 1) 2 none = .ok _ := rfl
  have hMeddled := Meddled.of_put hSound (plain_of_lt (by decide +kernel) (by decide +kernel))
    (fun _ => attended_of_any (o := 0) (by decide +kernel)) (by decide +kernel) hHead
    (hSound.not_inside (by decide +kernel)) hPut
  refine ⟨hDetached, hMeddled,
    ⟨⟨plain_of_lt (by decide +kernel) (by decide +kernel), by decide +kernel⟩,
    plain_of_lt (by decide +kernel) (by decide +kernel),
    (hMeddled.meddled.sound hSound).1.not_inside (by decide +kernel)⟩, by decide +kernel,
    by decide +kernel⟩

end LiveMarkup.Live
