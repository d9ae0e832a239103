import LiveMarkup.Proofs.Json.Ordered
import LiveMarkup.Proofs.Live.Serving
import LiveMarkup.Proofs.Mirror.Adding

/-!
# What rendering makes

Rendering an instruction adds what the instruction says and nothing else. Nothing is connected
meanwhile, so that nothing is called.

* `Untouched`: a node or container that was just made;
* `render_yields`, `renderInto_fills`: what rendering makes, in nobody's keeping.
-/

namespace LiveMarkup.Live

variable {κ σ : Type} {π π₁ π' : Plan} {P : Pending} {l l₁ l' : Live κ σ}
variable {s t : SignalId} {sink : Sink κ} {r p q : NodeRef} {calls : Calls κ σ}

/-! ## New nodes and containers -/

/-- A node or container that was just made: it holds nothing and nothing is known of it. -/
structure Untouched (P : Pending) (l : Live κ σ) (r : NodeRef) : Prop extends Stray P l r where
  tracked : l.trackedOf (l.dom.key r) = {}
  kin : l.dom.kin r = []
  young : ∀ w t sink q, Keeper l w t sink q → l.dom.key q < l.dom.key r

theorem Maintained.bare {d' : Dom} (h : Maintained π P l) (hGrown : l.dom.Sprouts d')
    (hr : d'.Known r) (hKey : l.dom.nodes.size ≤ d'.key r) : Untouched P (l.withDom d') r := by
  have hTracked := (h.graves.fresh _ hKey).1
  have hNew : ¬ l.dom.Known r := fun hOld => by
    have hLt := h.rooted.sound.key_lt_size hOld
    rw [← hGrown.key hOld] at hLt
    exact absurd hLt (Nat.not_lt.mpr hKey)
  exact {
    known := hr
    off := by
      rw [← Bool.not_eq_true]
      change ¬ d'.isPlaced r = true
      rw [hGrown.sound.isPlaced_iff hr, (hGrown.bare _ hKey).1]
      rintro ⟨_, hNone⟩
      cases hNone
    state := by
      change (l.trackedOf (d'.key r)).state = none
      rw [hTracked]
    ne := fun hEq => by
      have hLt := h.rooted.plain.lt_size
      rw [← show d'.key r = l.document from hEq] at hLt
      exact absurd hLt (Nat.not_lt.mpr hKey)
    free := fun w t sink q hw hIn => hNew (h.shelves.known w t sink q r hw hIn).1
    tracked := hTracked
    kin := ((hGrown.new r hr).resolve_left hNew).2
    young := fun w t sink q hw => by
      have hq := h.rigs.known w t sink q hw
      change d'.key q < d'.key r
      rw [hGrown.key hq]
      exact Nat.lt_of_lt_of_le (h.rooted.sound.key_lt_size hq) hKey }

/-- A plan that gives a node a height. -/
def Plan.raise (π : Plan) (n : NodeId) (cap : Nat) : Plan :=
  { π with cap := fun m => if m = n then cap else π.cap m }

theorem Plan.extends_raise (π : Plan) (l : Live κ σ) {n : NodeId} (h : l.dom.nodes.size ≤ n)
    (cap : Nat) : π.Extends (π.raise n cap) l where
  role _ _ := rfl
  cap _ hm := if_neg (Nat.ne_of_lt (Nat.lt_of_lt_of_le hm h))
  values := rfl
  room _ := id

/-- A new node of some height. -/
theorem Maintained.created (h : Maintained π P l) (label : Dom.Label) (cap : Nat) :
    ∃ π', Adds (fun _ => False) P π l π' (l.withDom (l.dom.create label).1) ∧
      Untouched P (l.withDom (l.dom.create label).1) (.node l.dom.nodes.size) ∧
        π'.cap l.dom.nodes.size = cap ∧
          (l.dom.create label).1.label l.dom.nodes.size = label := by
  have hSound := h.rooted.sound
  have hGrown := hSound.sprouts_create label
  have hE := Plan.extends_raise π l (Nat.le_refl _) cap
  have hMaintained := h.extend hE
  refine ⟨_, (Adds.extend hE h).trans (Adds.grown hMaintained hGrown),
    h.bare hGrown ?_ (Nat.le_refl _),
    if_pos rfl, ?_⟩
  · exact hSound.plain_create label
  · exact Dom.label_create l.dom label

/-- A new container of some height. -/
theorem Maintained.boxed (h : Maintained π P l) (cap : Nat) :
    ∃ π', Adds (fun _ => False) P π l π' (l.withDom l.dom.createContainer.1) ∧
      Untouched P (l.withDom l.dom.createContainer.1) (.container l.dom.containers.size) ∧
        π'.cap l.dom.nodes.size = cap ∧
          l.dom.createContainer.1.key (.container l.dom.containers.size) = l.dom.nodes.size := by
  have hGrown := h.rooted.sound.sprouts_createContainer
  have hE := Plan.extends_raise π l (Nat.le_refl _) cap
  have hKey : l.dom.createContainer.1.key (.container l.dom.containers.size) = l.dom.nodes.size :=
    Dom.part_createContainer l.dom .start
  refine ⟨_, (Adds.extend hE h).trans (Adds.grown (h.extend hE) hGrown), h.bare hGrown ?_ ?_,
    if_pos rfl, hKey⟩
  · change l.dom.containers.size < _
    rw [Dom.size_createContainer]
    exact Nat.lt_succ_self _
  · exact Nat.le_of_eq hKey.symm

theorem Untouched.signals {S : Array (Signal κ)} (h : Untouched P l r) :
    Untouched P (l.withSignals S) r :=
  { known := h.known, off := h.off, state := h.state, ne := h.ne, free := h.free,
    tracked := h.tracked, kin := h.kin, young := h.young }

/-! ## Signals of sources -/

/-- The signals of a scope may be read by what is made for a follower or later, up to a height. -/
def Scope.Offers (scope : Scope) (π : Plan) (l : Live κ σ) (m k : Nat) : Prop :=
  ∀ name s, scope.lookup? name = some s → s < l.signals.size ∧ (π.role s).rank ≤ 1 ∧
    (π.role s).owner ≤ m ∧ k < (π.role s).room

theorem Scope.Offers.adds {scope : Scope} {except : NodeRef → Prop} {m k : Nat}
    (h : scope.Offers π l m k) (hAdds : Adds except P π l π' l') : scope.Offers π' l' m k :=
  fun name s hName => by
    obtain ⟨hLt, hRest⟩ := h name s hName
    rw [hAdds.plan.role s hLt]
    exact ⟨Nat.lt_of_lt_of_le hLt hAdds.lasts.signals_size, hRest⟩

theorem Scope.Offers.mono {scope : Scope} {m k k' : Nat} (h : scope.Offers π l m k)
    (hLe : k' ≤ k) : scope.Offers π l m k' := fun name s hName =>
  have ⟨hLt, hRank, hOwner, hRoom⟩ := h name s hName
  ⟨hLt, hRank, hOwner, Nat.lt_of_le_of_lt hLe hRoom⟩

/-- A plan that gives a signal a role. -/
def Plan.cast (π : Plan) (s : SignalId) (role : Role) : Plan :=
  { π with role := fun t => if t = s then role else π.role t }

theorem Plan.extends_cast (π : Plan) (l : Live κ σ) {role : Role} {t : SignalId}
    (hRoom : role.room ≤ (π.role t).room) : π.Extends (π.cast l.signals.size role) l where
  role _ hs := if_neg (Nat.ne_of_lt hs)
  cap _ _ := rfl
  values := rfl
  room k hk s := by
    change (if s = l.signals.size then role else π.role s).room ≤ k
    split
    · exact Nat.le_trans hRoom (hk t)
    · exact hk s

/-- The role of a signal that is derived from another one. -/
def Role.branch (role : Role) : Role :=
  { owner := role.owner, rank := role.rank + 1, room := role.room }

/-- A new signal. -/
theorem newSignal_adds {v : Value} (h : Maintained π P l) (hv : π.values v) (role : Role)
    (hRoom : role.room ≤ (π.role t).room) (hFixed : ∀ v', role.fixed = some v' → v = v') :
    After (newSignal v) l fun s l' => ∃ π', s = l.signals.size ∧
      l' = l.withSignals (l.signals.push { value := v }) ∧ Adds (fun _ => False) P π l π' l' ∧
        s < l'.signals.size ∧ π'.role s = role ∧ π'.cap = π.cap := by
  have hE := Plan.extends_cast π l hRoom
  have hOwn : (π.cast l.signals.size role).role l.signals.size = role := if_pos rfl
  have hMaintained := (h.extend hE).signalled hv (by rwa [hOwn])
  refine ⟨_, rfl, rfl, (Adds.extend hE h).trans (Adds.signals (sprung_push _ _) hMaintained), ?_,
    hOwn, rfl⟩
  change l.signals.size < (l.signals.push _).size
  rw [Array.size_push]
  exact Nat.lt_succ_self _

/-- A new signal that follows another one. -/
theorem derive_adds {f : Value → Value} (h : Maintained π P l) (hs : s < l.signals.size)
    (hRank : (π.role s).rank ≤ 1) (hf : ∀ v, π.values v → π.values (f v)) :
    After (derive s f) l fun d l' => ∃ π' S, l' = l.withSignals S ∧
      Adds (fun _ => False) P π l π' l' ∧ Derives l' s d f ∧ d < l'.signals.size ∧
        π'.role d = (π.role s).branch ∧ π'.cap = π.cap := by
  obtain ⟨g, hg⟩ : ∃ g, l.signals[s]? = some g := ⟨_, Array.getElem?_eq_getElem hs⟩
  have hE : π.Extends (π.cast l.signals.size (π.role s).branch) l :=
    Plan.extends_cast π l (Nat.le_refl _)
  have hRole := hE.role s hs
  have hOwn : (π.cast l.signals.size (π.role s).branch).role l.signals.size = (π.role s).branch :=
    if_pos rfl
  have hMaintained := (h.extend hE).derived hg (f := f) (by rw [hRole]; exact hRank)
    (by rw [hRole]; exact hOwn) hf
  rw [After, derive_run hg]
  refine ⟨_, _, rfl, (Adds.extend hE h).trans (Adds.signals (sprung_branched hg) hMaintained),
    derives_branched hg, ?_, hOwn, rfl⟩
  change l.signals.size < (branched l.signals s g f).size
  rw [branched, Array.size_modify, Array.size_modify, Array.size_push]
  exact Nat.lt_succ_self _

/-- The signal of a source adds at most a derived signal. -/
theorem sourceSignal_adds {hosted : Bool} {scope : Scope} {source : ValueSource} {m k : Nat}
    (h : Maintained π P l) (hScope : scope.Offers π l m k) (hPlain : source.Plain scope.Knows) :
    After (sourceSignal calls hosted scope source).run l fun out l' => ∃ s π' S,
      out = .ok s ∧ l' = l.withSignals S ∧ Adds (fun _ => False) P π l π' l' ∧
        Reads l' scope source s ∧ s < l'.signals.size ∧ (π'.role s).owner ≤ m ∧
          k < (π'.role s).room ∧ π'.cap = π.cap := by
  cases source with
  | expression code => exact hPlain.elim
  | reference path =>
    obtain ⟨p, hParse, hKnown⟩ := hPlain
    obtain ⟨root, hRoot⟩ := Option.isSome_iff_exists.mp hKnown
    obtain ⟨hLt, hRank, hOwner, hRoom⟩ := hScope p.root root hRoot
    unfold sourceSignal
    cases hSteps : p.steps with
    | nil =>
      refine After.sure_bind (m := fun out l' => out = some root ∧ l' = l) ?_ ?_
      · unfold resolve
        rw [hParse]
        dsimp only
        rw [hRoot]
        dsimp only
        rw [hSteps]
        exact ⟨rfl, rfl⟩
      · rintro _ l₁ ⟨rfl, rfl⟩
        exact ⟨root, π, l₁.signals, rfl, rfl, Adds.refl h,
          ⟨path, p, root, rfl, hParse, hRoot, .inl ⟨hSteps, rfl⟩⟩, hLt, hOwner, hRoom, rfl⟩
    | cons step steps =>
      refine After.sure_bind (m := fun out l' => ∃ d, out = some d ∧ After (derive root fun v =>
        DataPath.follow v p.steps) l fun d' l₁ => d' = d ∧ l₁ = l') ?_ ?_
      · unfold resolve
        rw [hParse]
        dsimp only
        rw [hRoot]
        dsimp only
        rw [hSteps]
        exact ⟨_, rfl, rfl, rfl⟩
      · rintro _ l' ⟨d, rfl, hRun⟩
        obtain ⟨rfl, rfl⟩ := hRun
        obtain ⟨π', S, hEq, hAdds, hDerives, hNew, hRole, hCap⟩ :=
          derive_adds h hLt hRank fun v => h.closed.follow v p.steps
        rw [hEq] at hAdds hDerives hNew ⊢
        refine ⟨_, π', S, rfl, rfl, hAdds, ⟨path, p, root, rfl, hParse, hRoot, .inr ⟨?_, hDerives⟩⟩,
          hNew, ?_, ?_, hCap⟩
        · rw [hSteps]
          exact List.cons_ne_nil _ _
        · rw [hRole]
          exact hOwner
        · rw [hRole]
          exact hRoom

/-! ## Followers of new nodes and containers -/

theorem Untouched.observable (hr : Untouched P l r) (h : Maintained π P l) :
    l.stateOf r ≠ .destroyed ∧ l.isConnected r = false := by
  refine ⟨?_, ?_⟩
  · rw [hr.stateOf]
    decide
  · rw [← Bool.not_eq_true, h.isConnected_iff hr.known]
    exact hr.not_below h

theorem bindAspect_fitted {n : NodeId} (h : Maintained π P l) (hr : Untouched P l (.node n)) :
    After (bindAspect calls n .text s false).run l fun out l' => (∃ b, out = .ok b) ∧
      Fitted l l' s (.projector l.projectors.size) (.node n) := by
  obtain ⟨hState, hOff⟩ := hr.observable h
  let l₀ : Live κ σ := { l with projectors := l.projectors.push ⟨n, .text⟩ }
  unfold bindAspect
  refine After.get_act ?_
  refine After.lift_bind (m := fun _ l₁ => l₁ = l₀) rfl ?_
  rintro _ _ - rfl
  refine (Stationed.bind (l := l₀) (observe_posted h.running hState hr.tracked hOff)).mono ?_
  rintro out l' ⟨rfl, hPosted⟩
  refine ⟨⟨_, rfl⟩, Stationed.fitted h.rigs hPosted (Joins.push ⟨rfl, n, rfl, rfl⟩) (Joins.refl _ _)
    (Joins.refl _ _) (Joins.refl _ _) ?_ ?_⟩
  · exact fun q ⟨n, _, hn⟩ => nomatch Array.getElem?_size.symm.trans hn
  · refine ⟨n, rfl, ?_⟩
    exact Array.getElem?_push_size

section Boxes

variable (h : Maintained π P l)
include h

/-- A conditional, a switch and a series are made in the same way. -/
theorem box_fitted {α : Type} {hook : Hook κ} {a : α} {conditionals : Array (Conditional κ)}
    {switches : Array (Switch κ)} {series : Array (Series κ)}
    (hRelease : sink.release = [(.destroy, hook)])
    (hConditionals : Joins l.conditionals conditionals fun c x => sink = .conditional c ∧
      l.dom.containers.size = x.box ∧ x.child = none ∧ x.visible = false)
    (hSwitches : Joins l.switches switches fun c x => sink = .switch c ∧
      l.dom.containers.size = x.box ∧ x.built = [] ∧ x.active = none)
    (hSeries : Joins l.series series fun c x => sink = .series c ∧
      l.dom.containers.size = x.box ∧ x.items = [])
    (hFresh : ∀ q, ¬ sink.Hosts l q)
    (hHosts : sink.Hosts { l with conditionals, switches, series }
      (.container l.dom.containers.size)) :
    After (do
        let o ← observe (.container l.dom.containers.size)
        let _ ← sure (addHook o .destroy hook)
        let _ ← bind calls (.container l.dom.containers.size) (.signal s sink) false
        pure a : Act κ σ α).run
      { l with dom := l.dom.createContainer.1, conditionals, switches, series } fun out l' =>
        out = .ok a ∧ l'.conditionals = conditionals ∧ l'.switches = switches ∧
          l'.series = series ∧ Fitted (l.withDom l.dom.createContainer.1) l' s sink
            (.container l.dom.containers.size) := by
  obtain ⟨π', hAdds, hBare, -⟩ := h.boxed 0
  obtain ⟨hState, hOff⟩ := hBare.observable hAdds.maintained
  refine (released_posted (l := { l with
    dom := l.dom.createContainer.1, conditionals, switches, series }) h.running hState hBare.tracked
      hOff).mono ?_
  rintro out l' ⟨rfl, hPosted⟩
  refine ⟨rfl, ?_, ?_, ?_, Stationed.fitted (l := l.withDom l.dom.createContainer.1)
    hAdds.maintained.rigs (by
      rw [Sink.rigging, hRelease]
      exact hPosted) (Joins.refl _ _)
      ?_ ?_ ?_ ?_ ?_⟩
  · obtain ⟨x, T, M, -, -, -, -, rfl⟩ := hPosted
    rfl
  · obtain ⟨x, T, M, -, -, -, -, rfl⟩ := hPosted
    rfl
  · obtain ⟨x, T, M, -, -, -, -, rfl⟩ := hPosted
    rfl
  · refine ⟨hConditionals.old, fun c x hx => (hConditionals.cases c x hx).imp_right ?_⟩
    rintro ⟨hNone, rfl, hBox, hRest⟩
    exact ⟨hNone, rfl, by rw [hBox], hRest⟩
  · refine ⟨hSwitches.old, fun c x hx => (hSwitches.cases c x hx).imp_right ?_⟩
    rintro ⟨hNone, rfl, hBox, hRest⟩
    exact ⟨hNone, rfl, by rw [hBox], hRest⟩
  · refine ⟨hSeries.old, fun c x hx => (hSeries.cases c x hx).imp_right ?_⟩
    rintro ⟨hNone, rfl, hBox, hRest⟩
    exact ⟨hNone, rfl, by rw [hBox], hRest⟩
  · intro q hq
    refine hFresh q ?_
    cases sink <;> exact hq
  · cases sink <;> exact hHosts

theorem newConditional_fitted (factory : NodeFactory κ) :
    After (newConditional calls s factory).run l fun out l' =>
      out = .ok (l.conditionals.size, l.dom.containers.size) ∧
        l'.conditionals[l.conditionals.size]? = some { box := l.dom.containers.size, factory } ∧
          Fitted (l.withDom l.dom.createContainer.1) l' s (.conditional l.conditionals.size)
            (.container l.dom.containers.size) := by
  let x : Conditional κ := { box := l.dom.containers.size, factory }
  unfold newConditional
  refine After.sure_run (b := l.dom.containers.size) (t := l.withDom l.dom.createContainer.1) rfl ?_
  refine After.get_act ?_
  refine After.lift_bind (m := fun _ l₁ => l₁ = { l with
    dom := l.dom.createContainer.1, conditionals := l.conditionals.push x }) rfl ?_
  rintro _ _ - rfl
  refine (box_fitted h rfl (Joins.push (y := x) ⟨rfl, rfl, rfl, rfl⟩) (Joins.refl _ _)
    (Joins.refl _ _) ?_ ⟨x, Array.getElem?_push_size, rfl⟩).mono ?_
  · exact fun q ⟨y, hy, _⟩ => nomatch Array.getElem?_size.symm.trans hy
  · rintro out l' ⟨rfl, hEq, -, -, hFitted⟩
    exact ⟨rfl, by rw [hEq, Array.getElem?_push_size], hFitted⟩

theorem newSwitch_fitted (cases : List (Value × NodeFactory κ)) (default : Option (NodeFactory κ)) :
    After (newSwitch calls s cases default).run l fun out l' =>
      out = .ok (l.switches.size, l.dom.containers.size) ∧
        l'.switches[l.switches.size]? = some { box := l.dom.containers.size, cases, default } ∧
          Fitted (l.withDom l.dom.createContainer.1) l' s (.switch l.switches.size)
            (.container l.dom.containers.size) := by
  let x : Switch κ := { box := l.dom.containers.size, cases, default }
  unfold newSwitch
  refine After.sure_run (b := l.dom.containers.size) (t := l.withDom l.dom.createContainer.1) rfl ?_
  refine After.get_act ?_
  refine After.lift_bind (m := fun _ l₁ => l₁ = { l with
    dom := l.dom.createContainer.1, switches := l.switches.push x }) rfl ?_
  rintro _ _ - rfl
  refine (box_fitted h rfl (Joins.refl _ _) (Joins.push (y := x) ⟨rfl, rfl, rfl, rfl⟩)
    (Joins.refl _ _) ?_ ⟨x, Array.getElem?_push_size, rfl⟩).mono ?_
  · exact fun q ⟨y, hy, _⟩ => nomatch Array.getElem?_size.symm.trans hy
  · rintro out l' ⟨rfl, -, hEq, -, hFitted⟩
    exact ⟨rfl, by rw [hEq, Array.getElem?_push_size], hFitted⟩

theorem newSeries_fitted (factory : ItemFactory κ) :
    After (newSeries calls s factory).run l fun out l' =>
      out = .ok (l.series.size, l.dom.containers.size) ∧
        l'.series[l.series.size]? = some { box := l.dom.containers.size, factory } ∧
          Fitted (l.withDom l.dom.createContainer.1) l' s (.series l.series.size)
            (.container l.dom.containers.size) := by
  let x : Series κ := { box := l.dom.containers.size, factory }
  unfold newSeries
  refine After.sure_run (b := l.dom.containers.size) (t := l.withDom l.dom.createContainer.1) rfl ?_
  refine After.get_act ?_
  refine After.lift_bind (m := fun _ l₁ => l₁ = { l with
    dom := l.dom.createContainer.1, series := l.series.push x }) rfl ?_
  rintro _ _ - rfl
  refine (box_fitted h rfl (Joins.refl _ _) (Joins.refl _ _) (Joins.push (y := x) ⟨rfl, rfl, rfl⟩)
    ?_ ⟨x, Array.getElem?_push_size, rfl⟩).mono ?_
  · exact fun q ⟨y, hy, _⟩ => nomatch Array.getElem?_size.symm.trans hy
  · rintro out l' ⟨rfl, -, -, hEq, hFitted⟩
    exact ⟨rfl, by rw [hEq, Array.getElem?_push_size], hFitted⟩

end Boxes

/-- A follower is made for what is bare. -/
theorem Untouched.fit {m : Nat} (hr : Untouched P l r) (h : Maintained π P l)
    (hF : Fitted l l' s sink r)
    (hUnder : P.Under π m) (hm : m ≤ l.subscriptions.size)
    (hReads : s < l.signals.size ∧ (π.role s).owner ≤ m ∧ π.cap (l.dom.key r) < (π.role s).room)
    (hText : ∀ p n, sink = .projector p → r = .node n → ∃ text, l.dom.label n = .text text)
    (hAble : sink.Able π l' l.subscriptions.size (π.cap (l.dom.key r))) :
    Adds (· = r) P π l π l' ∧ Keeper l' l.subscriptions.size s sink r := by
  have hIdle := (hUnder.mono hm).idle
  refine ⟨Adds.fitted h hF hr.toStray hIdle.1 (h.fitted hF hr.known
    ⟨hReads.1, Nat.le_trans hReads.2.1 hm, hReads.2.2⟩ hr.young hText hr.tracked hr.kin hr.off
    hr.ne_document hr.free hAble hIdle), ?_⟩
  exact (hF.follower_iff h.rigs).mpr (.inr ⟨rfl, rfl, rfl, rfl⟩)

/-! ## Instructions -/

/-- An instruction was rendered in a scope: what was made is new and in nobody's keeping. -/
structure Yields (P : Pending) (π : Plan) (l : Live κ σ) (scope : Scope) (i : Instruction)
    (r : NodeRef) (π' : Plan) (l' : Live κ σ) : Prop where
  adds : Adds (fun _ => False) P π l π' l'
  stray : Stray P l' r
  new : l.dom.nodes.size ≤ l'.dom.key r
  cap : π'.cap (l'.dom.key r) = i.height
  made : MadeOf l' scope r i

theorem Adds.not_known {except : NodeRef → Prop} (hA : Adds except P π l π' l')
    (h : Maintained π P l) (hNew : l.dom.nodes.size ≤ l'.dom.key r) :
    ¬ l.dom.Known r := fun hr => by
  have hLt := h.rooted.sound.key_lt_size hr
  rw [← hA.lasts.key r hr] at hLt
  exact absurd hLt (Nat.not_lt.mpr hNew)

/-- A container of its own follows a signal. -/
theorem boxed_yields {scope : Scope} {i : Instruction} {m : Nat} (h : Maintained π P l)
    (hA : Adds (fun _ => False) P π l π₁ l₁) (hUnder : P.Under π m)
    (hm : m ≤ l.subscriptions.size)
    (hF : Fitted (l₁.withDom l₁.dom.createContainer.1) l' s sink
      (.container l₁.dom.containers.size))
    (hReads : s < l₁.signals.size ∧ (π₁.role s).owner ≤ m ∧ i.height < (π₁.role s).room)
    (hBox : ∀ p, sink ≠ .projector p)
    (hAble : ∀ π', Adds (fun _ => False) P π₁ l₁ π' (l₁.withDom l₁.dom.createContainer.1) →
      m ≤ l₁.subscriptions.size → sink.Able π' l' l₁.subscriptions.size i.height)
    (hMade : ∀ u π', Adds (fun _ => False) P π₁ l₁ π' l' →
      Keeper l' u s sink (.container l₁.dom.containers.size) →
        MadeOf l' scope (.container l₁.dom.containers.size) i) :
    ∃ π', Yields P π l scope i (.container l₁.dom.containers.size) π' l' := by
  have hm₁ := Nat.le_trans hm hA.lasts.subscriptions_size
  obtain ⟨π₂, hA₂, hBare, hCap, hKey⟩ := hA.maintained.boxed i.height
  have hUnder₂ := (hUnder.extended h (fun _ _ => id) hA.plan).extended hA.maintained
    (fun _ _ => id) hA₂.plan
  have hCapKey : π₂.cap ((l₁.withDom l₁.dom.createContainer.1).dom.key
      (.container l₁.dom.containers.size)) = i.height := by
    change π₂.cap (l₁.dom.createContainer.1.key _) = _
    rw [hKey, hCap]
  obtain ⟨hFit, hu⟩ := hBare.fit hA₂.maintained hF hUnder₂ hm₁ (by
    rw [hA₂.plan.role s hReads.1, hCapKey]
    exact hReads) (fun p _ hSink => absurd hSink (hBox p)) (by
      rw [hCapKey]
      exact hAble π₂ hA₂ hm₁)
  have hNewKey : l₁.dom.nodes.size ≤ l'.dom.key (.container l₁.dom.containers.size) := by
    rw [hF.dom]
    exact Nat.le_of_eq hKey.symm
  have hOld : ¬ l₁.dom.Known (.container l₁.dom.containers.size) := Nat.lt_irrefl _
  have hAll := hA₂.trans_new hFit fun r hr => hr ▸ hOld
  refine ⟨π₂, hA.trans hAll, hFit.strays _ hBare.toStray,
    Nat.le_trans hA.lasts.nodes_size hNewKey, ?_, hMade _ π₂ hAll hu⟩
  rw [hF.dom]
  exact hCapKey

/-- What a scope offers is enough for the bodies of what is rendered in it. -/
theorem Scope.Offers.makes {scope : Scope} {known : String → Prop} {body : Instruction}
    {m u k cap : Nat} (h : scope.Offers π l m k) (hSize : l.signals.size ≤ l'.signals.size)
    (hu : m ≤ u) (hHeight : body.height ≤ k) (hLow : body.height < cap)
    (hPlain : body.Plain known) :
    Makeable π l' u cap scope known body where
  plain := hPlain
  low := hLow
  signals name s hName := by
    obtain ⟨hLt, hRank, hOwner, hRoom⟩ := h name s hName
    exact ⟨Nat.lt_of_lt_of_le hLt hSize, hRank, Nat.le_trans hOwner hu,
      Nat.lt_of_le_of_lt hHeight hRoom⟩

theorem Instruction.plain_of_mem_cases {known : String → Prop} {e : Value × Instruction} :
    ∀ {cases : List (Value × Instruction)}, Instruction.CasesPlain known cases → e ∈ cases →
      e.2.Plain known ∧ e.2.height ≤ Instruction.heightOfCases cases
  | (_, _) :: _, h, he => by
    rw [Instruction.CasesPlain] at h
    rw [Instruction.heightOfCases]
    rcases List.mem_cons.mp he with rfl | he
    · exact ⟨h.1, Nat.le_max_left _ _⟩
    · have ⟨hPlain, hLe⟩ := plain_of_mem_cases h.2 he
      exact ⟨hPlain, Nat.le_trans hLe (Nat.le_max_right _ _)⟩

/-- A text that follows a signal. -/
theorem render_text_yields {scope : Scope} {source : ValueSource} {hosted : Bool} {m : Nat}
    (h : Maintained π P l) (hUnder : P.Under π m) (hm : m ≤ l.subscriptions.size)
    (hScope : scope.Offers π l m 0) (hPlain : source.Plain scope.Knows) :
    After (render calls hosted scope (.dynamicText source)).run l fun out l' => ∃ r π',
      out = .ok r ∧ Yields P π l scope (.dynamicText source) r π' l' := by
  rw [render]
  refine After.sure_run (b := l.dom.nodes.size) (t := l.withDom (l.dom.create (.text "")).1) rfl ?_
  obtain ⟨π₁, hA₁, hBare₁, hCap₁, hLabel⟩ := h.created (.text "") 0
  refine (sourceSignal_adds hA₁.maintained (hScope.adds hA₁) hPlain).act_bind ?_
    fun e _ ⟨_, _, _, hOut, _⟩ => nomatch hOut
  rintro _ l₂ ⟨s, π₂, S, ⟨⟩, rfl, hA₂, hReads, hLt, hOwner, hRoom, hCap₂⟩
  have hBare₂ := hBare₁.signals (S := S)
  have hA₁₂ := hA₁.trans hA₂
  refine (bindAspect_fitted hA₂.maintained hBare₂).act_bind ?_
    fun e _ ⟨⟨_, hOut⟩, _⟩ => nomatch hOut
  rintro _ l₃ ⟨⟨b, ⟨⟩⟩, hF⟩
  obtain ⟨hFit, hu⟩ := hBare₂.fit hA₂.maintained hF (hUnder.extended h (fun _ _ => id) hA₁₂.plan)
    (Nat.le_trans hm hA₁₂.lasts.subscriptions_size) ⟨hLt, hOwner, by
      change π₂.cap l.dom.nodes.size < _
      rw [hCap₂, hCap₁]
      exact hRoom⟩ (fun p n _ hn => by
        cases hn
        exact ⟨"", hLabel⟩) trivial
  have hNew : l.dom.nodes.size ≤ l₃.dom.key (.node l.dom.nodes.size) := Nat.le_refl _
  have hOld : ¬ l.dom.Known (.node l.dom.nodes.size) := fun hr =>
    Nat.lt_irrefl _ (Dom.Plain.lt_size hr)
  refine ⟨_, π₂, rfl, hA₁₂.trans_new hFit fun r hr => hr ▸ hOld, hFit.strays _ hBare₂.toStray,
    hNew, ?_, ?_⟩
  · change π₂.cap l.dom.nodes.size = _
    rw [hCap₂, hCap₁]
    rfl
  · exact ⟨_, _, _, hu, hFit.lasts.reads hReads⟩

theorem render_conditional_yields {scope : Scope} {condition : ValueSource} {body : Instruction}
    {hosted : Bool} {m : Nat} (h : Maintained π P l) (hUnder : P.Under π m)
    (hm : m ≤ l.subscriptions.size) (hScope : scope.Offers π l m (body.height + 1))
    (hPlain : condition.Plain scope.Knows) (hBody : body.Plain scope.Knows) :
    After (render calls hosted scope (.conditional condition body)).run l fun out l' => ∃ r π',
      out = .ok r ∧ Yields P π l scope (.conditional condition body) r π' l' := by
  rw [render]
  refine (sourceSignal_adds h hScope hPlain).act_bind ?_ fun e _ ⟨_, _, _, hOut, _⟩ => nomatch hOut
  rintro _ l₁ ⟨s, π₁, S, ⟨⟩, rfl, hA, hReads, hLt, hOwner, hRoom, -⟩
  have hOffers := hScope.adds hA
  refine (newConditional_fitted hA.maintained (.body body scope hosted)).act_ok ?_
  rintro l' ⟨hNew, hF⟩
  obtain ⟨π', hYields⟩ := boxed_yields (i := .conditional condition body) h hA
    hUnder hm hF ⟨hLt, hOwner, hRoom⟩ nofun (fun π' hA' hm' x hx => by
      rw [hNew] at hx
      cases hx
      exact ⟨body, scope, hosted, rfl, (hOffers.adds hA').makes (Nat.le_of_eq (by rw [hF.signals]))
        hm' (Nat.le_succ _) (Nat.lt_succ_self _) hBody⟩) fun u π' hA' hu => by
      exact ⟨u, _, _, _, hosted, hu, hA'.lasts.reads hReads, hNew, rfl⟩
  exact ⟨_, π', rfl, hYields⟩

theorem render_loop_yields {scope : Scope} {loop : Loop} {body : Instruction} {hosted : Bool}
    {m : Nat} (h : Maintained π P l) (hUnder : P.Under π m) (hm : m ≤ l.subscriptions.size)
    (hScope : scope.Offers π l m (body.height + 1)) (hPlain : loop.iterable.Plain scope.Knows)
    (hBody : body.Plain fun name => name ∈ loop.names ∨ scope.Knows name) :
    After (render calls hosted scope (.forLoop loop body)).run l fun out l' => ∃ r π',
      out = .ok r ∧ Yields P π l scope (.forLoop loop body) r π' l' := by
  rw [render]
  refine (sourceSignal_adds h hScope hPlain).act_bind ?_ fun e _ ⟨_, _, _, hOut, _⟩ => nomatch hOut
  rintro _ l₁ ⟨s, π₁, S, ⟨⟩, rfl, hA, hReads, hLt, hOwner, hRoom, -⟩
  have hOffers := hScope.adds hA
  refine (newSeries_fitted hA.maintained (.body loop body scope hosted)).act_ok ?_
  rintro l' ⟨hNew, hF⟩
  obtain ⟨π', hYields⟩ := boxed_yields (i := .forLoop loop body) h hA
    hUnder hm hF ⟨hLt, hOwner, hRoom⟩ nofun (fun π' hA' hm' x hx => by
      rw [hNew] at hx
      cases hx
      exact ⟨loop, body, scope, hosted, rfl, (hOffers.adds hA').makes
        (Nat.le_of_eq (by rw [hF.signals])) hm' (Nat.le_succ _) (Nat.lt_succ_self _) hBody⟩)
      fun u π' hA' hu => by
        exact ⟨u, _, _, _, hosted, hu, hA'.lasts.reads hReads, hNew, rfl⟩
  exact ⟨_, π', rfl, hYields⟩

theorem render_switch_yields {scope : Scope} {value : ValueSource}
    {cases : List (Value × Instruction)} {default : Option Instruction} {hosted : Bool} {m : Nat}
    (h : Maintained π P l) (hUnder : P.Under π m) (hm : m ≤ l.subscriptions.size)
    (hScope : scope.Offers π l m
      (max (Instruction.heightOfCases cases) (Instruction.heightOfDefault default) + 1))
    (hPlain : value.Plain scope.Knows) (hCases : Instruction.CasesPlain scope.Knows cases)
    (hDefault : Instruction.DefaultPlain scope.Knows default) :
    After (render calls hosted scope (.switch value cases default)).run l fun out l' => ∃ r π',
      out = .ok r ∧ Yields P π l scope (.switch value cases default) r π' l' := by
  rw [render]
  refine (sourceSignal_adds h hScope hPlain).act_bind ?_ fun e _ ⟨_, _, _, hOut, _⟩ => nomatch hOut
  rintro _ l₁ ⟨s, π₁, S, ⟨⟩, rfl, hA, hReads, hLt, hOwner, hRoom, -⟩
  have hOffers := hScope.adds hA
  refine (newSwitch_fitted hA.maintained _ _).act_ok ?_
  rintro l' ⟨hNew, hF⟩
  obtain ⟨π', hYields⟩ := boxed_yields (i := .switch value cases default) h hA
    hUnder hm hF ⟨hLt, hOwner, hRoom⟩ nofun (fun π' hA' hm' x hx => by
      rw [hNew] at hx
      cases hx
      have hSize := Nat.le_of_eq (congrArg Array.size hF.signals.symm)
      refine ⟨fun e he => ?_, fun f hf => ?_⟩
      · obtain ⟨⟨case, body⟩, hIn, rfl⟩ := List.mem_map.mp he
        obtain ⟨hBody, hLe⟩ := Instruction.plain_of_mem_cases hCases hIn
        have hLe := Nat.le_trans hLe (Nat.le_max_left _ (Instruction.heightOfDefault default))
        exact ⟨body, scope, hosted, rfl, (hOffers.adds hA').makes hSize hm'
          (Nat.le_succ_of_le hLe) (Nat.lt_succ_of_le hLe) hBody⟩
      · cases default with
        | none => cases hf
        | some body =>
          obtain rfl : f = .body body scope hosted := (Option.mem_some.mp hf).symm
          rw [Instruction.DefaultPlain] at hDefault
          have hLe : body.height ≤ max (Instruction.heightOfCases cases)
            (Instruction.heightOfDefault (some body)) := Nat.le_max_right _ _
          exact ⟨body, scope, hosted, rfl, (hOffers.adds hA').makes hSize hm'
            (Nat.le_succ_of_le hLe) (Nat.lt_succ_of_le hLe) hDefault⟩) fun u π' hA' hu => by
        exact ⟨u, _, _, _, hosted, hu, hA'.lasts.reads hReads, hNew, rfl, rfl⟩
  exact ⟨_, π', rfl, hYields⟩

/-! ## Elements -/

/-- What is done to a new element makes it one with the attributes of the operations. -/
theorem perform_attributes {hosted : Bool} {scope : Scope} {tag : String} :
    ∀ (operations : List LiveMarkup.Operation) (attributes : List (String × String)),
      (∀ op ∈ operations, op.Plain) →
        After (operations.forM (perform calls hosted scope l.dom.nodes.size)).run
          (l.withDom (l.dom.create (.element tag attributes)).1) fun out l' => out = .ok ⟨⟩ ∧
            l' = l.withDom (l.dom.create (.element tag (operations.foldl (fun attributes op =>
              match op with
              | .setAttribute name value => Attributes.set name value attributes
              | _ => attributes) attributes))).1
  | [], _, _ => ⟨rfl, rfl⟩
  | .setAttribute name value :: rest, attributes, h => by
    refine After.sure_bind (m := fun _ l' => l' = l.withDom
      (l.dom.create (.element tag (Attributes.set name value attributes))).1) ?_ ?_
    · exact congrArg l.withDom (Dom.setAttribute_create l.dom tag name value attributes)
    · rintro _ _ rfl
      exact perform_attributes rest _ fun op hop => h op (List.mem_cons_of_mem _ hop)
  | .bind _ _ :: _, _, h => (h _ List.mem_cons_self).elim
  | .listen _ _ :: _, _, h => (h _ List.mem_cons_self).elim

/-- Instructions were rendered in a scope and attached to something of its own. -/
structure Fills (P : Pending) (π : Plan) (l : Live κ σ) (scope : Scope) (p : NodeRef)
    (is : List Instruction) (rs : List NodeRef) (π' : Plan) (l' : Live κ σ) : Prop where
  adds : Adds (· = p) P π l π' l'
  kin : l'.dom.kin p = l.dom.kin p ++ rs
  made : AllMade l' scope rs is
  alone : ∀ u s sink, ¬ Keeper l' u s sink p
  label : ∀ n, p = .node n → (∀ x ∈ l.projectors, x.node ≠ n) →
    l'.dom.label n = l.dom.label n ∧ ∀ x ∈ l'.projectors, x.node ≠ n

/-- One more instruction is rendered and attached. -/
theorem attach_fills {scope : Scope} {i : Instruction} {m : Nat} (h : Maintained π P l)
    (hUnder : P.Under π m) (hp : Stray P l p) (hAlone : ∀ u s sink, ¬ Keeper l u s sink p)
    (hCap : i.height ≤ π.cap (l.dom.key p)) (hY : Yields P π l scope i r π₁ l₁) :
    After (attach calls r p none).run l₁ fun out l' => out = .ok () ∧
      Fills P π l scope p [i] [r] π₁ l' := by
  have hMaintained := hY.adds.maintained
  have hp₁ := hY.adds.strays p hp
  have hAlone₁ : ∀ u s sink, ¬ Keeper l₁ u s sink p := fun u s sink hu => by
    rcases hY.adds.followers u s sink p hu with hOld | hNew | hNo
    · exact hAlone u s sink hOld
    · exact hNew hp.known
    · exact hNo
  have hKey := hY.adds.lasts.key p hp.known
  have hLt : l₁.dom.key p < l₁.dom.key r := by
    rw [hKey]
    exact Nat.lt_of_lt_of_le (h.rooted.sound.key_lt_size hp.known) hY.new
  have hCaps : π₁.cap (l₁.dom.key r) ≤ π₁.cap (l₁.dom.key p) := by
    rw [hY.cap, hKey, hY.adds.plan.cap _ (h.rooted.sound.key_lt_size hp.known)]
    exact hCap
  refine (attach_nested hMaintained hUnder.dying hp₁ hY.stray hAlone₁ hLt hCaps calls).mono ?_
  rintro out l' ⟨rfl, d', hGains, hTwin⟩
  have hNested := hMaintained.nested hUnder.dying hp₁ hY.stray hAlone₁ hLt hCaps hGains
  have hAdds : Adds (· = p) P π l π₁ l₁ := hY.adds.mono fun _ => False.elim
  -- nothing of what was made holds what it is attached to
  have hOut : ∀ n, l₁.dom.Below r (.node n) → ¬ .node n = p := by
    rintro n hBelow rfl
    exact absurd (hMaintained.edge_of_below hY.stray.known hBelow).1 (Nat.not_le.mpr hLt)
  have hKin : l₁.dom.kin p = l.dom.kin p := hY.adds.kin p hp.known id
  refine ⟨rfl, hAdds.attached hGains hTwin rfl (hY.adds.not_known h hY.new) hNested,
    (attached_kin hGains hTwin hp₁.known).trans (by rw [hKin]), ?_,
    fun u s sink hu => hAlone₁ u s sink ((attached_followers hGains hTwin).mp hu), ?_⟩
  · rw [AllMade]
    exact ⟨r, [], rfl, (attached_lasts hGains hTwin).made hOut hY.made, by rw [AllMade]⟩
  · rintro n rfl hNone
    have hKnown := hp.known
    rw [hTwin.projectors, attached_label hGains hTwin]
    exact ⟨hY.adds.lasts.label n hKnown hNone id, hY.adds.lasts.no_text hKnown hNone id⟩

theorem Fills.cons {scope : Scope} {i : Instruction} {is : List Instruction} {rs : List NodeRef}
    (hp : l.dom.Known p) (h₁ : Fills P π l scope p [i] [r] π₁ l₁)
    (h₂ : Fills P π₁ l₁ scope p is rs π' l') : Fills P π l scope p (i :: is) (r :: rs) π' l' := by
  have hSound := h₁.adds.maintained.rooted.sound
  have hp₁ := h₁.adds.lasts.known p hp
  have hIn : r ∈ l₁.dom.kin p := by
    rw [h₁.kin]
    exact List.mem_append_right _ (List.mem_singleton_self r)
  have hOut : ∀ n, l₁.dom.Below r (.node n) → ¬ .node n = p := by
    rintro n hBelow rfl
    exact hSound.not_below_kin hp₁ hIn hBelow
  refine ⟨h₁.adds.trans h₂.adds, ?_, ?_, h₂.alone, ?_⟩
  · rw [h₂.kin, h₁.kin, List.append_assoc]
    rfl
  · have hFirst := h₁.made
    rw [AllMade] at hFirst ⊢
    obtain ⟨_, _, hEq, hMade, -⟩ := hFirst
    cases hEq
    exact ⟨r, rs, rfl, h₂.adds.lasts.made hOut hMade, h₂.made⟩
  · intro n hn hNone
    obtain ⟨hLabel₁, hNone₁⟩ := h₁.label n hn hNone
    obtain ⟨hLabel, hNone'⟩ := h₂.label n hn hNone₁
    exact ⟨hLabel.trans hLabel₁, hNone'⟩

theorem Fills.nil (h : Maintained π P l) (scope : Scope)
    (hAlone : ∀ u s sink, ¬ Keeper l u s sink p) :
    Fills P π l scope p [] [] π l where
  adds := .refl h
  kin := (List.append_nil _).symm
  made := by rw [AllMade]
  alone := hAlone
  label _ _ hNone := ⟨rfl, hNone⟩

theorem Untouched.alone (h : Untouched P l r) {u : BindingId} : ¬ Keeper l u s sink r := fun hu =>
  Nat.lt_irrefl _ (h.young u s sink r hu)

theorem Maintained.not_written (h : Maintained π P l) :
    ∀ x ∈ l.projectors, x.node ≠ l.dom.nodes.size :=
  fun x hx => Nat.ne_of_lt (Dom.Plain.lt_size (h.rigs.writes x hx))

theorem Maintained.new_not_known (h : Maintained π P l) : ¬ l.dom.Known (.node l.dom.nodes.size) :=
  fun hr => Nat.lt_irrefl _ (h.rooted.sound.key_lt_size hr)

/-- A new element with something in it. -/
theorem element_yields {scope : Scope} {tag : String} {operations : List LiveMarkup.Operation}
    {children : List Instruction} {rs : List NodeRef} (h : Maintained π P l)
    (hA : Adds (fun _ => False) P π l π₁ (l.withDom
      (l.dom.create (.element (Text.lowerAscii tag) (Operation.attributes operations))).1))
    (hCap : π₁.cap l.dom.nodes.size = Instruction.heightOfAll children)
    (hBare : Untouched P (l.withDom
      (l.dom.create (.element (Text.lowerAscii tag) (Operation.attributes operations))).1)
        (.node l.dom.nodes.size))
    (hFills : Fills P π₁ (l.withDom
      (l.dom.create (.element (Text.lowerAscii tag) (Operation.attributes operations))).1) scope
        (.node l.dom.nodes.size) children rs π' l') :
    Yields P π l scope (.element tag operations children) (.node l.dom.nodes.size) π' l' := by
  have hNew := h.new_not_known
  have hKnown := hFills.adds.lasts.known _ hBare.known
  obtain ⟨hLabel, hNone⟩ := hFills.label _ rfl h.not_written
  have hKin := hFills.kin
  rw [hBare.kin, List.nil_append] at hKin
  refine ⟨hA.trans_new hFills.adds fun r hr => hr ▸ hNew, hFills.adds.strays _ hBare.toStray,
    Nat.le_refl _, ?_, ?_⟩
  · rw [Instruction.height]
    exact (hFills.adds.plan.cap _ (hA.maintained.rooted.sound.key_lt_size hBare.known)).trans hCap
  · refine ⟨_, rfl, hKnown, hNone, hLabel.trans (Dom.label_create l.dom _), ?_⟩
    rw [hKin]
    exact hFills.made

theorem render_plain_text_yields {scope : Scope} {value : String} {hosted : Bool}
    (h : Maintained π P l) :
    After (render calls hosted scope (.text value)).run l fun out l' => ∃ r π',
      out = .ok r ∧ Yields P π l scope (.text value) r π' l' := by
  obtain ⟨π₁, hA, hBare, hCap, hLabel⟩ := h.created (.text value) 0
  rw [render]
  refine After.sure_run (b := l.dom.nodes.size) (t := l.withDom (l.dom.create (.text value)).1) rfl
    ?_
  refine ⟨_, π₁, rfl, hA, hBare.toStray, Nat.le_refl _, hCap, ?_⟩
  exact ⟨_, rfl, hBare.known, h.not_written, hLabel⟩

mutual

/-- Rendering an instruction in a scope that offers enough makes what the instruction says. -/
theorem render_yields {scope : Scope} {hosted : Bool} {m : Nat} {π : Plan} {l : Live κ σ} :
    ∀ {i : Instruction}, Maintained π P l → P.Under π m → m ≤ l.subscriptions.size →
      scope.Offers π l m i.height → i.Plain scope.Knows →
        After (render calls hosted scope i).run l fun out l' => ∃ r π',
          out = .ok r ∧ Yields P π l scope i r π' l'
  | .element tag operations children, h, hUnder, hm, hScope, hPlain => by
    rw [render]
    obtain ⟨π₁, hA, hBare, hCap, -⟩ := h.created
      (.element (Text.lowerAscii tag) (Operation.attributes operations))
      (Instruction.heightOfAll children)
    refine After.sure_run (b := l.dom.nodes.size) (t := l.withDom (l.dom.create (.element
      (Text.lowerAscii tag) [])).1) rfl ?_
    refine (perform_attributes operations [] hPlain.1).act_ok ?_
    rintro _ rfl
    refine (renderInto_fills hA.maintained (hUnder.extended h (fun _ _ => id) hA.plan) hm
      (hScope.adds hA)
      hPlain.2 hBare.toStray (fun _ _ _ => hBare.alone) (Nat.le_of_eq hCap.symm)).act_bind ?_
        (by rintro e _ ⟨_, _, ⟨⟩, _⟩)
    rintro _ l' ⟨rs, π', -, hFills⟩
    exact ⟨_, π', rfl, element_yields h hA hCap hBare hFills⟩
  | .text value, h, _, _, _, _ => render_plain_text_yields h
  | .dynamicText source, h, hUnder, hm, hScope, hPlain => by
    exact render_text_yields h hUnder hm hScope hPlain
  | .conditional condition body, h, hUnder, hm, hScope, hPlain => by
    exact render_conditional_yields h hUnder hm hScope hPlain.1 hPlain.2
  | .forLoop loop body, h, hUnder, hm, hScope, hPlain => by
    exact render_loop_yields h hUnder hm hScope hPlain.1 hPlain.2
  | .switch value cases default, h, hUnder, hm, hScope, hPlain => by
    exact render_switch_yields h hUnder hm hScope hPlain.1 hPlain.2.1 hPlain.2.2

/-- Rendering instructions into something of its own fills it with what they say. -/
theorem renderInto_fills {scope : Scope} {hosted : Bool} {m : Nat} {π : Plan} {l : Live κ σ}
    {p : NodeRef} : ∀ {is : List Instruction}, Maintained π P l → P.Under π m →
      m ≤ l.subscriptions.size → scope.Offers π l m (Instruction.heightOfAll is) →
        Instruction.AllPlain scope.Knows is → Stray P l p →
          (∀ u s sink, ¬ Keeper l u s sink p) →
            Instruction.heightOfAll is ≤ π.cap (l.dom.key p) →
              After (renderInto calls hosted scope p is).run l fun out l' => ∃ rs π',
                out = .ok () ∧ Fills P π l scope p is rs π' l'
  | [], h, _, _, _, _, _, hAlone, _ => by
    rw [renderInto]
    exact ⟨[], π, rfl, .nil h scope hAlone⟩
  | i :: is, h, hUnder, hm, hScope, hPlain, hp, hAlone, hCap => by
    rw [Instruction.heightOfAll] at hScope hCap
    rw [Instruction.AllPlain] at hPlain
    obtain ⟨hCapFirst, hCapRest⟩ := Nat.max_le.mp hCap
    rw [renderInto]
    refine (render_yields h hUnder hm (hScope.mono (Nat.le_max_left _ _)) hPlain.1).act_bind ?_
      (by rintro e _ ⟨_, _, ⟨⟩, _⟩)
    rintro r l₁ ⟨_, π₁, ⟨⟩, hY⟩
    refine (attach_fills h hUnder hp hAlone hCapFirst hY).act_ok fun l₂ hFirst => ?_
    have hA := hFirst.adds
    refine (renderInto_fills hA.maintained (hUnder.extended h (fun _ _ => id) hA.plan)
      (Nat.le_trans hm hA.lasts.subscriptions_size)
      ((hScope.mono (Nat.le_max_right _ _)).adds hA) hPlain.2 (hA.strays p hp) hFirst.alone (by
        rw [hA.lasts.key p hp.known, hA.plan.cap _ (h.rooted.sound.key_lt_size hp.known)]
        exact hCapRest)).mono ?_
    rintro out l' ⟨rs, π', hOut, hRest⟩
    exact ⟨r :: rs, π', hOut, hFirst.cons hp.known hRest⟩

end

/-! ## Items -/

/-- The names of an item and of its index, in a scope. -/
theorem Scope.Offers.binds {scope : Scope} {m k : Nat} (h : scope.Offers π l m k) (loop : Loop)
    (item index : SignalId) (hBoth : ∀ s, s = item ∨ s = index → s < l.signals.size ∧
      (π.role s).rank ≤ 1 ∧ (π.role s).owner ≤ m ∧ k < (π.role s).room) :
    (scope.extend (loop.binds item index)).Offers π l m k := fun name s hName => by
  rw [Scope.lookup?_extend] at hName
  cases hGet : Fields.get? name (Fields.ofList (loop.binds item index)) with
  | none =>
    rw [hGet, Option.none_or] at hName
    exact h name s hName
  | some t =>
    rw [hGet, Option.some_or] at hName
    obtain rfl := Option.some.inj hName
    refine hBoth t ?_
    have hIn := Fields.mem_ofList (Fields.mem_of_get? hGet)
    rcases List.mem_cons.mp hIn with hEq | hIn
    · exact .inl (Prod.mk.inj hEq).2
    · obtain ⟨a, -, hEq⟩ := List.mem_map.mp hIn
      exact .inr (Prod.mk.inj hEq).2.symm

/-- Rendering an item makes a signal for it and one for its index, and then the body. -/
theorem renderItem_yields {scope : Scope} {loop : Loop} {body : Instruction} {hosted : Bool}
    {v : Value} {cursor : SignalId} {m : Nat} (h : Maintained π P l) (hUnder : P.Under π m)
    (hm : m ≤ l.subscriptions.size) (hScope : scope.Offers π l m body.height)
    (hPlain : body.Plain fun name => name ∈ loop.names ∨ scope.Knows name)
    (hCursor : cursor < l.signals.size ∧ (π.role cursor).rank = 0 ∧ (π.role cursor).owner ≤ m ∧
      body.height < (π.role cursor).room) (hv : π.values v) :
    After (renderItem calls hosted scope loop body v cursor).run l fun out l' =>
      ∃ r item index π', out = .ok r ∧
        Yields P π l (scope.extend (loop.binds item index)) body r π' l' ∧
          Derives l' cursor index id ∧ (π'.role item).fixed = some v ∧
            item < l'.signals.size := by
  unfold renderItem
  refine After.sure_bind (derive_adds h hCursor.1 (Nat.le_of_lt_succ (by omega)) fun v hv => hv) ?_
  rintro index _ ⟨π₁, S, rfl, hA₁, hDerives, hIndex, hRole₁, -⟩
  have hv₁ : π₁.values v := by rwa [hA₁.plan.values]
  refine After.sure_bind (newSignal_adds (t := index) hA₁.maintained hv₁
    { fixed := some v, room := body.height + 1 } (by rw [hRole₁]; exact hCursor.2.2.2)
    fun _ => Option.some.inj) ?_
  rintro item _ ⟨π₂, rfl, rfl, hA₂, hItem, hRole₂, -⟩
  have hA := hA₁.trans hA₂
  have hOffers := (hScope.adds hA).binds loop (l.withSignals S).signals.size index (by
    rintro s (rfl | rfl)
    · rw [hRole₂]
      exact ⟨hItem, Nat.zero_le _, Nat.zero_le _, Nat.lt_succ_self _⟩
    · refine ⟨Nat.lt_of_lt_of_le hIndex hA₂.lasts.signals_size, ?_⟩
      rw [hA₂.plan.role _ hIndex, hRole₁]
      exact ⟨Nat.le_of_eq (congrArg (· + 1) hCursor.2.1), hCursor.2.2⟩)
  refine (render_yields hA.maintained (hUnder.extended h (fun _ _ => id) hA.plan) hm hOffers
    (hPlain.mono fun _ => Scope.isSome_lookup?_frame)).mono ?_
  rintro out l' ⟨r, π', rfl, hY⟩
  refine ⟨r, _, index, π', rfl, ⟨hA.trans hY.adds, hY.stray, hY.new, hY.cap, hY.made⟩,
    hY.adds.lasts.derives _ _ _ (hA₂.lasts.derives _ _ _ hDerives), ?_,
    Nat.lt_of_lt_of_le hItem hY.adds.lasts.signals_size⟩
  rw [hY.adds.plan.role _ hItem, hRole₂]

end LiveMarkup.Live
