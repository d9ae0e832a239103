import LiveMarkup.Proofs.Mirror.Switching

/-!
# Changing what is kept at one place

Conditionals, switches and series show, hide, build and drop what they keep. Each such step
changes the kin of one node or container and what the follower there keeps; for all others nothing
changes but that more or less of them reach the document.

* `Restocked`: such a change;
* `Refilled`: what has to hold of the follower there afterwards;
* `Maintained.restocked`: a document that is kept up to date stays so.
-/

namespace LiveMarkup.Live

variable {κ σ : Type} {π : Plan} {P P' : Pending} {l l' : Live κ σ} {p : NodeRef}

/-- The kin of one node or container are others, and what its follower keeps is something else. -/
structure Restocked (l l' : Live κ σ) (p : NodeRef) : Prop where
  tornDown : l'.tornDown = l.tornDown
  document : l'.document = l.document
  parts : Dom.SameParts l.dom l'.dom
  sound : l'.dom.Sound
  kin : ∀ q, l.dom.Known q → q ≠ p → l'.dom.kin q = l.dom.kin q
  tracked : ∀ n, l'.trackedOf n = l.trackedOf n
  core : ∀ o, l'.core? o = l.core? o
  observers_size : l'.observers.size = l.observers.size
  bindings : l'.bindings = l.bindings
  projectors : l'.projectors = l.projectors
  signals : l'.signals = l.signals
  subscriptions : l'.subscriptions = l.subscriptions
  conditionals_size : l'.conditionals.size = l.conditionals.size
  conditional : ∀ (c : ConditionalId) (x x' : Conditional κ), l.conditionals[c]? = some x →
    l'.conditionals[c]? = some x' →
      x'.box = x.box ∧ x'.factory = x.factory ∧ (.container x.box ≠ p → x' = x)
  switches_size : l'.switches.size = l.switches.size
  switch : ∀ (c : SwitchId) (x x' : Switch κ), l.switches[c]? = some x →
    l'.switches[c]? = some x' → x'.box = x.box ∧ x'.cases = x.cases ∧ x'.default = x.default ∧
      (.container x.box ≠ p → x' = x)
  series_size : l'.series.size = l.series.size
  series : ∀ (c : SeriesId) (x x' : Series κ), l.series[c]? = some x →
    l'.series[c]? = some x' →
      x'.box = x.box ∧ x'.factory = x.factory ∧ (.container x.box ≠ p → x' = x)
  timer : ∀ t ∈ l'.clock.timers, t ∈ l.clock.timers ∨
    ∃ c u s r, t.task = .endGrace c ∧ Keeper l u s (.conditional c) r
  microtasks : l'.clock.microtasks = l.clock.microtasks

/-- In arrays of one size there is something at the same places. -/
theorem exists_of_size {α : Type} {xs ys : Array α} (h : ys.size = xs.size) {i : Nat} {x : α}
    (hx : xs[i]? = some x) : ∃ y, ys[i]? = some y := by
  have hi : i < ys.size := h ▸ (Array.getElem?_eq_some_iff.mp hx).1
  exact ⟨ys[i], Array.getElem?_eq_getElem hi⟩

namespace Restocked

variable (h : Restocked l l' p) {sink : Sink κ} {r : NodeRef} {u : BindingId} {s : SignalId}
include h

theorem hosts_iff : sink.Hosts l' r ↔ sink.Hosts l r := by
  cases sink with
  | projector c => simp only [Sink.Hosts, h.projectors]
  | conditional c =>
    constructor
    · rintro ⟨x', hx', rfl⟩
      obtain ⟨x, hx⟩ := exists_of_size h.conditionals_size.symm hx'
      exact ⟨x, hx, by rw [(h.conditional c x x' hx hx').1]⟩
    · rintro ⟨x, hx, rfl⟩
      obtain ⟨x', hx'⟩ := exists_of_size h.conditionals_size hx
      exact ⟨x', hx', by rw [(h.conditional c x x' hx hx').1]⟩
  | switch c =>
    constructor
    · rintro ⟨x', hx', rfl⟩
      obtain ⟨x, hx⟩ := exists_of_size h.switches_size.symm hx'
      exact ⟨x, hx, by rw [(h.switch c x x' hx hx').1]⟩
    · rintro ⟨x, hx, rfl⟩
      obtain ⟨x', hx'⟩ := exists_of_size h.switches_size hx
      exact ⟨x', hx', by rw [(h.switch c x x' hx hx').1]⟩
  | series c =>
    constructor
    · rintro ⟨x', hx', rfl⟩
      obtain ⟨x, hx⟩ := exists_of_size h.series_size.symm hx'
      exact ⟨x, hx, by rw [(h.series c x x' hx hx').1]⟩
    · rintro ⟨x, hx, rfl⟩
      obtain ⟨x', hx'⟩ := exists_of_size h.series_size hx
      exact ⟨x', hx', by rw [(h.series c x x' hx hx').1]⟩
  | derived _ _ => exact Iff.rfl
  | client _ => exact Iff.rfl

theorem follower_iff : Keeper l' u s sink r ↔ Keeper l u s sink r := by
  constructor <;> intro hu
  · exact hu.congr (fun feed hFeed => by rwa [← h.subscriptions]) (by rw [h.core]) h.hosts_iff.mp
  · exact hu.congr (fun feed hFeed => by rwa [h.subscriptions]) (by rw [h.core]) h.hosts_iff.mpr

theorem valueOf (t : SignalId) : l'.valueOf t = l.valueOf t := by
  rw [Live.valueOf, signal?, h.signals]
  rfl

theorem derives_iff {t d : SignalId} {f : Value → Value} : Derives l' t d f ↔ Derives l t d f := by
  simp only [Derives, watchersOf, signal?, h.signals]

theorem statusOf (o : ObserverId) : l'.statusOf o = l.statusOf o := by
  have hCore := congrArg (fun x => (x.map (·.status)).getD .destroyed) (h.core o)
  simpa only [core?, Option.map_map, Function.comp_def, Observer.core, Live.statusOf] using hCore

theorem label (n : NodeId) : l'.dom.label n = l.dom.label n := by
  rw [Dom.label, h.parts.label]
  rfl

theorem lasts : Endures (fun q => p = q) l l' where
  known _ hr := h.parts.known_iff.mpr hr
  key r _ := h.parts.key r
  label n _ _ _ := h.label n
  kin n hn _ hNe := h.kin _ hn fun hEq => hNe hEq.symm
  box c hc hNone hNe := ⟨h.kin _ hc fun hEq => hNe hEq.symm,
    fun u s sink hu => hNone u s sink (h.follower_iff.mp hu)⟩
  feed u feed hFeed := by rwa [h.subscriptions]
  target u r hTarget := by rwa [h.core]
  projector c x hx := by rwa [h.projectors]
  text x hx := .inl (h.projectors ▸ hx)
  conditional c x hx := by
    obtain ⟨x', hx'⟩ := exists_of_size h.conditionals_size hx
    obtain ⟨hBox, hFactory, -⟩ := h.conditional c x x' hx hx'
    exact ⟨x', hx', hBox, hFactory⟩
  switch c x hx := by
    obtain ⟨x', hx'⟩ := exists_of_size h.switches_size hx
    obtain ⟨hBox, hCases, hDefault, -⟩ := h.switch c x x' hx hx'
    exact ⟨x', hx', hBox, hCases, hDefault⟩
  series c x hx := by
    obtain ⟨x', hx'⟩ := exists_of_size h.series_size hx
    obtain ⟨hBox, hFactory, -⟩ := h.series c x x' hx hx'
    exact ⟨x', hx', hBox, hFactory⟩
  derives _ _ _ := h.derives_iff.mpr
  ended u hu := by rwa [h.core]
  buried n hn := by rwa [h.tracked]
  signals_size := Nat.le_of_eq (by rw [h.signals])
  subscriptions_size := Nat.le_of_eq (by rw [h.subscriptions])
  nodes_size := Nat.le_of_eq h.parts.nodes_size.symm

theorem isActive (u : BindingId) : l'.isActive u = l.isActive u := by
  rw [Live.isActive, subscription?, h.subscriptions]
  rfl

theorem same (hHosts : sink.Hosts l r) (hNe : r ≠ p) : sink.Same l l' := by
  cases sink with
  | projector c => exact congrArg (·[c]?) h.projectors
  | conditional c =>
    obtain ⟨x, hx, rfl⟩ := hHosts
    obtain ⟨x', hx'⟩ := exists_of_size h.conditionals_size hx
    obtain rfl := (h.conditional c x x' hx hx').2.2 hNe
    exact hx'.trans hx.symm
  | switch c =>
    obtain ⟨x, hx, rfl⟩ := hHosts
    obtain ⟨x', hx'⟩ := exists_of_size h.switches_size hx
    obtain rfl := (h.switch c x x' hx hx').2.2.2 hNe
    exact hx'.trans hx.symm
  | series c =>
    obtain ⟨x, hx, rfl⟩ := hHosts
    obtain ⟨x', hx'⟩ := exists_of_size h.series_size hx
    obtain rfl := (h.series c x x' hx hx').2.2 hNe
    exact hx'.trans hx.symm
  | derived _ _ => trivial
  | client _ => trivial

theorem able {m cap : Nat} (hAble : sink.Able π l m cap) : sink.Able π l' m cap := by
  have hSize : l.signals.size ≤ l'.signals.size := Nat.le_of_eq (by rw [h.signals])
  cases sink with
  | conditional c =>
    intro x' hx'
    obtain ⟨x, hx⟩ := exists_of_size h.conditionals_size.symm hx'
    rw [(h.conditional c x x' hx hx').2.1]
    exact (hAble x hx).congr hSize
  | switch c =>
    intro x' hx'
    obtain ⟨x, hx⟩ := exists_of_size h.switches_size.symm hx'
    obtain ⟨-, hCases, hDefault, -⟩ := h.switch c x x' hx hx'
    rw [hCases, hDefault]
    exact ⟨fun e he => ((hAble x hx).1 e he).congr hSize, fun f hf =>
      ((hAble x hx).2 f hf).congr hSize⟩
  | series c =>
    intro x' hx'
    obtain ⟨x, hx⟩ := exists_of_size h.series_size.symm hx'
    rw [(h.series c x x' hx hx').2.1]
    obtain ⟨loop, body, scope, hosted, hFactory, hMakes⟩ := hAble x hx
    exact ⟨loop, body, scope, hosted, hFactory, hMakes.congr hSize⟩
  | projector _ => trivial
  | derived _ _ => trivial
  | client _ => trivial

end Restocked

/-! ## Single records -/

/-- A record that is changed was there, the others are the same. -/
theorem modify_cases {α : Type} {xs : Array α} {i j : Nat} {f : α → α} {x y y' : α}
    (hx : xs[i]? = some x) (hy : xs[j]? = some y) (hy' : (xs.modify i f)[j]? = some y') :
    y = x ∧ y' = f x ∨ y' = y := by
  rw [Array.getElem?_modify] at hy'
  split at hy'
  · rename_i hEq
    subst hEq
    rw [hx] at hy hy'
    exact .inl ⟨(Option.some.inj hy).symm, (Option.some.inj hy').symm⟩
  · exact .inr (Option.some.inj (hy'.symm.trans hy))

section Records

variable {d : Dom} {K : Clock κ} (hParts : Dom.SameParts l.dom d) (hSound : d.Sound)
variable (hKin : ∀ q, l.dom.Known q → q ≠ p → d.kin q = l.dom.kin q)
include hParts hSound hKin

theorem Restocked.of_dom : Restocked l { l with dom := d } p where
  tornDown := rfl
  document := rfl
  parts := hParts
  sound := hSound
  kin := hKin
  tracked _ := rfl
  core _ := rfl
  observers_size := rfl
  bindings := rfl
  projectors := rfl
  signals := rfl
  subscriptions := rfl
  conditionals_size := rfl
  conditional c y y' hy hy' := by
    cases hy.symm.trans hy'
    exact ⟨rfl, rfl, fun _ => rfl⟩
  switches_size := rfl
  switch c y y' hy hy' := by
    cases hy.symm.trans hy'
    exact ⟨rfl, rfl, rfl, fun _ => rfl⟩
  series_size := rfl
  series c y y' hy hy' := by
    cases hy.symm.trans hy'
    exact ⟨rfl, rfl, fun _ => rfl⟩
  timer _ ht := .inl ht
  microtasks := rfl

/-- A change of the tree and of one conditional. -/
theorem Restocked.of_conditional {c : ConditionalId} {x : Conditional κ}
    {f : Conditional κ → Conditional κ} (hx : l.conditionals[c]? = some x)
    (hBox : (f x).box = x.box) (hFactory : (f x).factory = x.factory) (hp : p = .container x.box)
    (hTimer : ∀ t ∈ K.timers, t ∈ l.clock.timers ∨
      ∃ c u s r, t.task = .endGrace c ∧ Keeper l u s (.conditional c) r)
    (hMicrotasks : K.microtasks = l.clock.microtasks) :
    Restocked l { l with dom := d, conditionals := l.conditionals.modify c f, clock := K } p :=
  { Restocked.of_dom hParts hSound hKin with
    conditionals_size := Array.size_modify
    conditional := fun c' y y' hy hy' => by
      rcases modify_cases hx hy hy' with ⟨rfl, rfl⟩ | rfl
      · exact ⟨hBox, hFactory, fun hNe => absurd hp.symm hNe⟩
      · exact ⟨rfl, rfl, fun _ => rfl⟩
    timer := hTimer
    microtasks := hMicrotasks }

/-- A change of the tree and of one switch. -/
theorem Restocked.of_switch {c : SwitchId} {x : Switch κ} {f : Switch κ → Switch κ}
    (hx : l.switches[c]? = some x) (hBox : (f x).box = x.box) (hCases : (f x).cases = x.cases)
    (hDefault : (f x).default = x.default) (hp : p = .container x.box) :
    Restocked l { l with dom := d, switches := l.switches.modify c f } p :=
  { Restocked.of_dom hParts hSound hKin with
    switches_size := Array.size_modify
    switch := fun c' y y' hy hy' => by
      rcases modify_cases hx hy hy' with ⟨rfl, rfl⟩ | rfl
      · exact ⟨hBox, hCases, hDefault, fun hNe => absurd hp.symm hNe⟩
      · exact ⟨rfl, rfl, rfl, fun _ => rfl⟩ }

/-- A change of the tree and of one series. -/
theorem Restocked.of_series {c : SeriesId} {x : Series κ} {f : Series κ → Series κ}
    (hx : l.series[c]? = some x) (hBox : (f x).box = x.box)
    (hFactory : (f x).factory = x.factory) (hp : p = .container x.box) :
    Restocked l { l with dom := d, series := l.series.modify c f } p :=
  { Restocked.of_dom hParts hSound hKin with
    series_size := Array.size_modify
    series := fun c' y y' hy hy' => by
      rcases modify_cases hx hy hy' with ⟨rfl, rfl⟩ | rfl
      · exact ⟨hBox, hFactory, fun hNe => absurd hp.symm hNe⟩
      · exact ⟨rfl, rfl, fun _ => rfl⟩ }

end Records

/-! ## What holds at that place -/

/-- What a follower keeps was made by its factories. -/
def Sink.Kept (π : Plan) (dying : NodeId → Prop) (l l' : Live κ σ) (u : BindingId) (r : NodeRef)
    (hand : List Series.Item) (row : Option (List NodeRef)) (showing : Option Nat) : Sink κ → Prop
  | .conditional c => ∀ x, l'.conditionals[c]? = some x → ∀ n, x.child = some n →
      ¬ Dead dying l.trackedOf (l.dom.key n) →
        ∃ body scope hosted, x.factory = .body body scope hosted ∧ MadeOf l scope n body
  | .switch c => ∀ x, l'.switches[c]? = some x →
      (∀ arm n, (arm, n) ∈ x.built → ¬ Dead dying l.trackedOf (l.dom.key n) →
        ∃ body scope hosted, x.factory? arm = some (.body body scope hosted) ∧
        MadeOf l scope n body) ∧
        (showing ≠ none → x.active = none) ∧ (¬ Dead dying l.trackedOf (l.dom.key r) →
          ∀ arm, x.active.or showing = some arm → (x.built? arm).isSome)
  | .series c => ∀ x, l'.series[c]? = some x →
      (∀ item ∈ x.items ++ hand, (¬ Dead dying l.trackedOf (l.dom.key item.node) →
        ItemMade π l x.factory item) ∧ item.cursor < l.signals.size ∧
          π.role item.cursor = { owner := u + 1, room := π.cap (l.dom.key r) }) ∧
        (x.items.map (·.cursor)).Nodup ∧ (x.items.map (·.node)).Nodup ∧ (row ≠ none → x.items = [])
  | _ => True

/-- Nobody keeps a node or container. -/
def Free (P : Pending) (l : Live κ σ) (n : NodeRef) : Prop :=
  ∀ w t sink q, Keeper l w t sink q → n ∉ sink.stock l (P.hand w)

/-- Something can be kept at a place: it is younger and made from less, and alive. -/
structure Fit (π : Plan) (P : Pending) (l : Live κ σ) (p n : NodeRef) : Prop where
  known : l.dom.Known n
  lt : l.dom.key p < l.dom.key n
  cap : π.cap (l.dom.key n) < π.cap (l.dom.key p)
  alive : ¬ Dead P.dying l.trackedOf (l.dom.key n)
  free : Free P l n

/-- What the follower at a place keeps and shows afterwards is as it should be. -/
structure Refilled (π : Plan) (P P' : Pending) (l l' : Live κ σ) (p : NodeRef) (u : BindingId)
    (s : SignalId) (sink : Sink κ) : Prop where
  stock : ∀ n ∈ sink.stock l' (P'.hand u), n ∈ sink.stock l (P.hand u) ∨ Fit π P l p n
  placed : ∀ n ∈ sink.stock l' (P'.hand u), l'.dom.isPlaced n = true → n ∈ l'.dom.kin p
  shape : ∀ c, p = .container c → ¬ Dead P.dying l.trackedOf (l.dom.key p) →
    l'.dom.kin p = sink.shown l' (P'.showing u) (P'.row u)
  kept : sink.Kept π P.dying l l' u p (P'.hand u) (P'.row u) (P'.showing u)
  current : l.statusOf u = .connected → P'.lagging u ∨ P.waking u ∨ P.dying (l.dom.key p) ∨
    sink.Current l' (P'.showing u) (l.valueOf s)

/-- Of what is under way only what concerns one place is different, and more is untold. -/
structure Pending.Elsewhere (P P' : Pending) (l : Live κ σ) (p : NodeRef) : Prop where
  untold : ∀ u, P.untold u → P'.untold u
  waking : P'.waking = P.waking
  stale : P'.stale = P.stale
  dying : P'.dying = P.dying
  pinned : P'.pinned = P.pinned
  others : ∀ w t sink r, Keeper l w t sink r → r ≠ p → P'.hand w = P.hand w ∧
    P'.row w = P.row w ∧ P'.showing w = P.showing w ∧ (P.lagging w → P'.lagging w)

/-- What comes to a place is younger, made from no more, dead only with it, and kept by nobody
else. -/
structure Comes (π : Plan) (P : Pending) (l : Live κ σ) (p x : NodeRef) : Prop where
  known : l.dom.Known x
  lt : l.dom.key p < l.dom.key x
  cap : π.cap (l.dom.key x) ≤ π.cap (l.dom.key p)
  dead_iff : Dead P.dying l.trackedOf (l.dom.key x) ↔ Dead P.dying l.trackedOf (l.dom.key p)
  only : ∀ w t sink q, Keeper l w t sink q → x ∈ sink.stock l (P.hand w) → q = p

section Maintained

variable (h : Maintained π P l) (hR : Restocked l l' p) (hPend : P.Elsewhere P' l p)
variable (hp : l.dom.Known p)
variable (hCame : ∀ x ∈ l'.dom.kin p, x ∉ l.dom.kin p → Comes π P l p x)
variable (hOut : ∀ n, p = .node n → ∀ u s sink r x, Keeper l u s sink r →
  x ∈ sink.stock l (P.hand u) → ¬ l.dom.Below x p)
variable (hDying : P.dying = (fun _ => False) ∨ l'.dom = l.dom)
variable (hAt : ∀ u s sink, Keeper l u s sink p → Refilled π P P' l l' p u s sink)

include hR hp hCame in
theorem Restocked.mem_kin {q x : NodeRef} (hq : l.dom.Known q) (hx : x ∈ l'.dom.kin q) :
    x ∈ l.dom.kin q ∨ q = p ∧ Comes π P l p x := by
  by_cases hEq : q = p
  · subst hEq
    by_cases hOld : x ∈ l.dom.kin q
    · exact .inl hOld
    · exact .inr ⟨rfl, hCame x hx hOld⟩
  · rw [hR.kin q hq hEq] at hx
    exact .inl hx

include h hR hp hCame in
theorem Restocked.rooted : Rooted π l'.dom l'.document where
  sound := hR.sound
  plain := by
    rw [hR.document]
    exact hR.parts.plain_iff.mpr h.rooted.plain
  marked := h.rooted.marked.same hR.parts
  zero := hR.document.trans h.rooted.zero
  edge q x hq hx := by
    rw [hR.parts.key, hR.parts.key]
    have hqOld := hR.parts.known_iff.mp hq
    rcases hR.mem_kin hp hCame hqOld hx with hOld | ⟨rfl, hComes⟩
    · exact h.rooted.edge q x hqOld hOld
    · exact ⟨hComes.lt, hComes.cap⟩
  top := by
    rw [hR.document]
    have hKnown : l.dom.Known (.node l.document) := h.rooted.plain
    have hOff : l'.dom.isPlaced (.node l.document) ≠ true := by
      rw [ne_eq, hR.sound.isPlaced_iff_kin (hR.parts.known_iff.mpr hKnown)]
      rintro ⟨q, hq, hx⟩
      have hqOld := hR.parts.known_iff.mp hq
      have hLt : l.dom.key q < l.document := by
        rcases hR.mem_kin hp hCame hqOld hx with hOld | ⟨rfl, hComes⟩
        · exact (h.rooted.edge q _ hqOld hOld).1
        · exact hComes.lt
      rw [h.rooted.zero] at hLt
      exact Nat.not_lt_zero _ hLt
    cases hParent : l'.dom.parent? l.document with
    | none => rfl
    | some q => exact absurd (by rw [Dom.isPlaced, hParent]; rfl) hOff

include hR hPend in
theorem Restocked.dead_iff (n : Nat) :
    Dead P'.dying l'.trackedOf n ↔ Dead P.dying l.trackedOf n := by
  simp only [Dead, hR.tracked, hPend.dying]

include h hR hp hCame hPend hDying in
theorem Restocked.graves : Graves P'.dying l'.dom l'.trackedOf l'.document := by
  have hDead := hR.dead_iff hPend
  have hKin : ∀ q x, l'.dom.Known q → x ∈ l'.dom.kin q →
      (Dead P.dying l.trackedOf (l.dom.key x) ↔ Dead P.dying l.trackedOf (l.dom.key q)) := by
    intro q x hq hx
    have hqOld := hR.parts.known_iff.mp hq
    rcases hR.mem_kin hp hCame hqOld hx with hOld | ⟨rfl, hComes⟩
    · exact ⟨h.graves.up q x hqOld hOld, h.graves.down q x hqOld hOld⟩
    · exact hComes.dead_iff
  refine ⟨fun n => ?_, fun q x hq hx hd => ?_, fun q x hq hx hd => ?_, ?_, fun n hn => ?_,
    fun q hq hd => ?_⟩
  · rw [hR.tracked, hPend.dying]
    exact h.graves.state n
  · rw [hDead, hR.parts.key] at hd ⊢
    exact (hKin q x hq hx).mp hd
  · rw [hDead, hR.parts.key] at hd ⊢
    exact (hKin q x hq hx).mpr hd
  · rw [hDead, hR.document]
    exact h.graves.top
  · rw [hR.tracked, hPend.dying]
    exact h.graves.fresh n (hR.parts.nodes_size ▸ hn)
  · rw [hPend.dying] at hd
    rcases hDying with hNone | hDom
    · rw [hNone] at hd
      exact hd.elim
    · rw [hDom, hR.tracked]
      rw [hDom] at hq hd
      exact h.graves.noted q hq hd

include h hR hPend in
theorem Restocked.rigs : Rigs π P' l' := by
  have hRigs := h.rigs
  have hDead := hR.dead_iff hPend
  refine ⟨?_, fun u => ?_, fun u hu => ?_, fun u s sink r hu => ?_, fun x hx => ?_,
    fun u s sink r hu => ?_, fun u s sink r w t sink' q hu hw hLt => ?_, fun u s c n hu => ?_,
    fun u s sink r hu hAlive => ?_,
    fun u s sink r hu hNot hIn => ?_, fun n u hn => ?_, fun u s sink r x hu hx hStatus => ?_,
    fun u hOff => ?_, fun u s sink r hu hOn => ?_⟩
  · rw [hR.observers_size, hR.subscriptions, hRigs.observers_size]
  · rw [hR.bindings, hR.subscriptions]
    exact hRigs.binding u
  · rw [hR.subscriptions] at hu
    obtain ⟨s, sink, r, hu⟩ := hRigs.follower u hu
    exact ⟨s, sink, r, hR.follower_iff.mpr hu⟩
  · exact hR.parts.known_iff.mpr (hRigs.known u s sink r (hR.follower_iff.mp hu))
  · rw [hR.projectors] at hx
    exact hR.parts.known_iff.mpr (hRigs.writes x hx)
  · rw [hR.parts.key, hR.signals]
    exact hRigs.reads u s sink r (hR.follower_iff.mp hu)
  · rw [hR.parts.key, hR.parts.key]
    exact hRigs.rising u s sink r w t sink' q (hR.follower_iff.mp hu) (hR.follower_iff.mp hw) hLt
  · rw [hR.label]
    exact hRigs.text u s c n (hR.follower_iff.mp hu)
  · rw [hR.parts.key, hDead] at hAlive
    rw [hR.parts.key, hR.tracked, hR.statusOf]
    exact hRigs.alive u s sink r (hR.follower_iff.mp hu) hAlive
  · rw [hR.parts.key, hPend.dying] at hNot
    rw [hR.parts.key, hDead] at hIn
    rw [hR.statusOf]
    exact hRigs.dead u s sink r (hR.follower_iff.mp hu) hNot hIn
  · rw [hR.tracked] at hn
    obtain ⟨s, sink, r, hu, hKey⟩ := hRigs.tracked n u hn
    exact ⟨s, sink, r, hR.follower_iff.mpr hu, by rw [hR.parts.key, hKey]⟩
  · rw [hR.core] at hx
    rw [isBindingDestroyed, binding?, hR.bindings]
    exact hRigs.hooks u s sink r x (hR.follower_iff.mp hu) hx hStatus
  · rw [hR.statusOf] at hOff
    rw [hR.isActive]
    exact hRigs.asleep u hOff
  · rw [hR.statusOf] at hOn
    rw [hR.isActive, hPend.waking, hPend.dying, hR.parts.key]
    exact hRigs.awake u s sink r (hR.follower_iff.mp hu) hOn

include hR hPend hp hCame hAt in
theorem Restocked.mem_stock {u : BindingId} {s : SignalId} {sink : Sink κ} {r n : NodeRef}
    (hu : Keeper l u s sink r) (hn : n ∈ sink.stock l' (P'.hand u)) :
    n ∈ sink.stock l (P.hand u) ∨ r = p ∧ Fit π P l p n := by
  by_cases hEq : r = p
  · subst hEq
    exact ((hAt u s sink hu).stock n hn).imp_right fun hFit => ⟨rfl, hFit⟩
  · rw [(hPend.others u s sink r hu hEq).1, (hR.same hu.2.2 hEq).stock_eq] at hn
    exact .inl hn

theorem Keeper.container {u : BindingId} {s : SignalId} {sink : Sink κ} {r : NodeRef}
    (hu : Keeper l u s sink r) (hNot : ∀ c, sink ≠ .projector c) : ∃ c, r = .container c := by
  obtain ⟨-, -, hHosts⟩ := hu
  cases sink with
  | projector c => exact absurd rfl (hNot c)
  | conditional c =>
    obtain ⟨x, -, rfl⟩ := hHosts
    exact ⟨_, rfl⟩
  | switch c =>
    obtain ⟨x, -, rfl⟩ := hHosts
    exact ⟨_, rfl⟩
  | series c =>
    obtain ⟨x, -, rfl⟩ := hHosts
    exact ⟨_, rfl⟩
  | derived _ _ => exact hHosts.elim
  | client _ => exact hHosts.elim

section Shelves

variable {u : BindingId} {s : SignalId} {sink : Sink κ} {r n : NodeRef} {c : Nat}

include hR hPend hp hCame hAt hOut in
/-- What is made from something that is kept does not come to the place, if that is a node. -/
theorem Restocked.away (hu : Keeper l u s sink r) (hNot : ∀ c, sink ≠ .projector c)
    (hn : n ∈ sink.stock l' (P'.hand u)) {m : NodeId} (hm : l.dom.Below n (.node m)) :
    p ≠ .node m := by
  rintro rfl
  rcases hR.mem_stock hPend hp hCame hAt hu hn with hOld | ⟨rfl, -⟩
  · exact hOut m rfl u s sink r n hu hOld hm
  · obtain ⟨c, hEq⟩ := hu.container hNot
    cases hEq

include h hR hPend hp hCame hAt in
theorem Restocked.placed (hu : Keeper l u s sink r) (hn : n ∈ sink.stock l' (P'.hand u))
    (hPlaced : l'.dom.isPlaced n = true) : n ∈ l'.dom.kin r := by
  have hS := h.shelves
  by_cases hEq : r = p
  · subst hEq
    exact (hAt u s sink hu).placed n hn hPlaced
  · rcases hR.mem_stock hPend hp hCame hAt hu hn with hOld | ⟨hEq', -⟩
    · have hnKnown := (hS.known u s sink r n hu hOld).1
      rw [hR.kin r (h.rigs.known u s sink r hu) hEq]
      obtain ⟨q, hq, hx⟩ :=
        (hR.sound.isPlaced_iff_kin (hR.parts.known_iff.mpr hnKnown)).mp hPlaced
      rcases hR.mem_kin hp hCame (hR.parts.known_iff.mp hq) hx with hKin | ⟨rfl, hComes⟩
      · exact hS.placed u s sink r n hu hOld
          (h.rooted.sound.isPlaced_of_mem_kin (hR.parts.known_iff.mp hq) hKin)
      · exact absurd (hComes.only u s sink r hu hOld) hEq
    · exact absurd hEq' hEq

include h hR hPend hp hCame hAt in
theorem Restocked.apart {w : BindingId} {t : SignalId} {sink' : Sink κ} {q : NodeRef}
    (hu : Keeper l u s sink r) (hw : Keeper l w t sink' q) (hn : n ∈ sink.stock l' (P'.hand u))
    (hn' : n ∈ sink'.stock l' (P'.hand w)) : u = w := by
  rcases hR.mem_stock hPend hp hCame hAt hu hn with hOld | ⟨rfl, hFit⟩
  · rcases hR.mem_stock hPend hp hCame hAt hw hn' with hOld' | ⟨rfl, hFit'⟩
    · exact h.shelves.apart u s sink r w t sink' q n hu hw hOld hOld'
    · exact absurd hOld (hFit'.free u s sink r hu)
  · rcases hR.mem_stock hPend hp hCame hAt hw hn' with hOld' | ⟨rfl, -⟩
    · exact absurd hOld' (hFit.free w t sink' q hw)
    · exact h.rigs.eq_of_key hu hw rfl

include h hR hPend hAt in
theorem Restocked.shape (hu : Keeper l u s sink (.container c))
    (hAlive : ¬ Dead P.dying l.trackedOf (l.dom.key (.container c))) :
    l'.dom.kin (.container c) = sink.shown l' (P'.showing u) (P'.row u) := by
  by_cases hEq : NodeRef.container c = p
  · subst hEq
    exact (hAt u s sink hu).shape c rfl hAlive
  · obtain ⟨-, hRow, hShowing, -⟩ := hPend.others u s sink _ hu hEq
    rw [hR.kin _ (h.rigs.known u s sink _ hu) hEq, (hR.same hu.2.2 hEq).shown_eq, hRow, hShowing]
    exact h.shelves.shape u s sink c hu hAlive

include h hR hPend hp hCame hAt hOut in
theorem Restocked.child {x : Conditional κ} (hu : Keeper l u s (.conditional c) r)
    (hx : l'.conditionals[c]? = some x) (hn : x.child = some n)
    (hAlive : ¬ Dead P.dying l.trackedOf (l.dom.key n)) :
    ∃ body scope hosted, x.factory = .body body scope hosted ∧ MadeOf l' scope n body := by
  have hStock : n ∈ (Sink.conditional c).stock l' (P'.hand u) := by
    rw [Sink.stock, hx, Option.bind_some, hn]
    exact List.mem_singleton_self _
  have hLasts : ∀ {scope : Scope} {body : Instruction}, MadeOf l scope n body →
      MadeOf l' scope n body :=
    hR.lasts.made fun m hm => hR.away hPend hp hCame hOut hAt hu (by simp) hStock hm
  by_cases hEq : r = p
  · subst hEq
    obtain ⟨body, scope, hosted, hFactory, hBody⟩ := (hAt u s _ hu).kept x hx n hn hAlive
    exact ⟨body, scope, hosted, hFactory, hLasts hBody⟩
  · obtain ⟨body, scope, hosted, hFactory, hBody⟩ :=
      h.shelves.child u s c r x n hu ((hR.same hu.2.2 hEq).symm.trans hx) hn hAlive
    exact ⟨body, scope, hosted, hFactory, hLasts hBody⟩

include h hR hPend hp hCame hAt hOut in
theorem Restocked.arm {x : Switch κ} {arm : Nat} (hu : Keeper l u s (.switch c) r)
    (hx : l'.switches[c]? = some x) (hn : (arm, n) ∈ x.built)
    (hAlive : ¬ Dead P.dying l.trackedOf (l.dom.key n)) :
    ∃ body scope hosted, x.factory? arm = some (.body body scope hosted) ∧
      MadeOf l' scope n body := by
  have hStock : n ∈ (Sink.switch c).stock l' (P'.hand u) := by
    rw [Sink.stock, hx, Option.map_some, Option.getD_some]
    exact List.mem_map.mpr ⟨_, hn, rfl⟩
  have hLasts : ∀ {scope : Scope} {body : Instruction}, MadeOf l scope n body →
      MadeOf l' scope n body :=
    hR.lasts.made fun m hm => hR.away hPend hp hCame hOut hAt hu (by simp) hStock hm
  by_cases hEq : r = p
  · subst hEq
    obtain ⟨body, scope, hosted, hFactory, hBody⟩ := ((hAt u s _ hu).kept x hx).1 arm n hn hAlive
    exact ⟨body, scope, hosted, hFactory, hLasts hBody⟩
  · obtain ⟨body, scope, hosted, hFactory, hBody⟩ :=
      h.shelves.arm u s c r x arm n hu ((hR.same hu.2.2 hEq).symm.trans hx) hn hAlive
    exact ⟨body, scope, hosted, hFactory, hLasts hBody⟩

section Items

variable {x : Series κ} {item : Series.Item}

include h hR hPend hp hCame hAt hOut in
theorem Restocked.item_made (hu : Keeper l u s (.series c) r) (hx : l'.series[c]? = some x)
    (hIn : item ∈ x.items ++ P'.hand u)
    (hAlive : ¬ Dead P.dying l.trackedOf (l.dom.key item.node)) :
    ItemMade π l' x.factory item := by
  have hStock : item.node ∈ (Sink.series c).stock l' (P'.hand u) := by
    rw [Sink.stock, hx, Option.map_some, Option.getD_some]
    exact List.mem_map.mpr ⟨_, hIn, rfl⟩
  have hAway : ∀ m, l.dom.Below item.node (.node m) → p ≠ .node m :=
    fun m hm => hR.away hPend hp hCame hOut hAt hu (by simp) hStock hm
  by_cases hEq : r = p
  · subst hEq
    exact (((hAt u s _ hu).kept x hx).1 item hIn).1 hAlive |>.lasts hR.lasts hAway
  · rw [(hPend.others u s _ _ hu hEq).1] at hIn
    have hOld := h.shelves.item u s c r x item hu ((hR.same hu.2.2 hEq).symm.trans hx) hIn hAlive
    exact hOld.lasts hR.lasts hAway

include h hR hPend hAt in
theorem Restocked.cursor (hu : Keeper l u s (.series c) r) (hx : l'.series[c]? = some x)
    (hIn : item ∈ x.items ++ P'.hand u) : item.cursor < l.signals.size ∧
      π.role item.cursor = { owner := u + 1, room := π.cap (l.dom.key r) } := by
  by_cases hEq : r = p
  · subst hEq
    exact (((hAt u s _ hu).kept x hx).1 item hIn).2
  · rw [(hPend.others u s _ _ hu hEq).1] at hIn
    exact h.shelves.cursor u s c r x item hu ((hR.same hu.2.2 hEq).symm.trans hx) hIn

include h hR hPend hAt in
theorem Restocked.items (hu : Keeper l u s (.series c) r) (hx : l'.series[c]? = some x) :
    (x.items.map (·.cursor)).Nodup ∧ (x.items.map (·.node)).Nodup ∧
      (P'.row u ≠ none → x.items = []) := by
  by_cases hEq : r = p
  · subst hEq
    exact ((hAt u s _ hu).kept x hx).2
  · have hOld := (hR.same hu.2.2 hEq).symm.trans hx
    refine ⟨h.shelves.cursors u s c r x hu hOld, h.shelves.nodes u s c r x hu hOld, ?_⟩
    rw [(hPend.others u s _ _ hu hEq).2.1]
    exact h.shelves.handed u s c r x hu hOld

end Items

include h hR hPend hAt in
theorem Restocked.showing {x : Switch κ} (hu : Keeper l u s (.switch c) r)
    (hx : l'.switches[c]? = some x) : (P'.showing u ≠ none → x.active = none) ∧
      (¬ Dead P.dying l.trackedOf (l.dom.key r) →
        ∀ arm, x.active.or (P'.showing u) = some arm → (x.built? arm).isSome) := by
  by_cases hEq : r = p
  · subst hEq
    exact ((hAt u s _ hu).kept x hx).2
  · rw [(hPend.others u s _ _ hu hEq).2.2.1]
    exact h.shelves.showing u s c r x hu ((hR.same hu.2.2 hEq).symm.trans hx)

end Shelves

include h hR hPend hp hCame hAt hOut in
theorem Restocked.shelves : Shelves π P' l' := by
  have hKeeper : ∀ {u s sink r}, Keeper l' u s sink r ↔ Keeper l u s sink r := hR.follower_iff
  have hKey := hR.parts.key
  have hDead := hR.dead_iff hPend
  constructor
  case able =>
    intro u s sink r hu
    rw [hKey]
    exact hR.able (h.shelves.able u s sink r (hKeeper.mp hu))
  case known =>
    intro u s sink r n hu hn
    rw [hKey, hKey, hR.parts.known_iff]
    rcases hR.mem_stock hPend hp hCame hAt (hKeeper.mp hu) hn with hOld | ⟨rfl, hFit⟩
    · exact h.shelves.known u s sink r n (hKeeper.mp hu) hOld
    · exact ⟨hFit.known, hFit.lt, hFit.cap⟩
  case placed =>
    intro u s sink r n hu hn hPlaced
    exact hR.placed h hPend hp hCame hAt (hKeeper.mp hu) hn hPlaced
  case apart =>
    intro u s sink r w t sink' q n hu hw hn hn'
    exact hR.apart h hPend hp hCame hAt (hKeeper.mp hu) (hKeeper.mp hw) hn hn'
  case shape =>
    intro u s sink c hu hAlive
    rw [hDead, hKey] at hAlive
    exact hR.shape h hPend hAt (hKeeper.mp hu) hAlive
  case child =>
    intro u s c r x n hu hx hn hAlive
    rw [hDead, hKey] at hAlive
    exact hR.child h hPend hp hCame hOut hAt (hKeeper.mp hu) hx hn hAlive
  case arm =>
    intro u s c r x arm n hu hx hn hAlive
    rw [hDead, hKey] at hAlive
    exact hR.arm h hPend hp hCame hOut hAt (hKeeper.mp hu) hx hn hAlive
  case item =>
    intro u s c r x item hu hx hIn hAlive
    rw [hDead, hKey] at hAlive
    exact hR.item_made h hPend hp hCame hOut hAt (hKeeper.mp hu) hx hIn hAlive
  case cursor =>
    intro u s c r x item hu hx hIn
    rw [hR.signals, hKey]
    exact hR.cursor h hPend hAt (hKeeper.mp hu) hx hIn
  case cursors => exact fun u s c r x hu hx => (hR.items h hPend hAt (hKeeper.mp hu) hx).1
  case nodes => exact fun u s c r x hu hx => (hR.items h hPend hAt (hKeeper.mp hu) hx).2.1
  case handed => exact fun u s c r x hu hx => (hR.items h hPend hAt (hKeeper.mp hu) hx).2.2
  case alive =>
    intro u s sink r n hu hAlive hn
    rw [hDead, hKey] at hAlive ⊢
    rcases hR.mem_stock hPend hp hCame hAt (hKeeper.mp hu) hn with hOld | ⟨rfl, hFit⟩
    · exact h.shelves.alive u s sink r n (hKeeper.mp hu) hAlive hOld
    · exact hFit.alive
  case showing =>
    intro u s c r x hu hx
    rw [hDead, hKey]
    exact hR.showing h hPend hAt (hKeeper.mp hu) hx

include h hR hPend hp hCame hAt hOut hDying in
/-- A document stays up to date while what is kept at one place changes. -/
theorem Maintained.restocked (hReach : ∀ u s sink r, Keeper l u s sink r →
      l'.dom.Below (.node l.document) r → P'.untold u ∨ l.dom.Below (.node l.document) r) :
    Maintained π P' l' where
  running := hR.tornDown.trans h.running
  closed := h.closed
  rooted := hR.rooted h hp hCame
  graves := hR.graves h hPend hp hCame hDying
  wires := by
    rw [hPend.stale, hPend.pinned, hR.signals]
    exact h.wires
  feeds := by
    rw [hR.signals, hR.subscriptions]
    exact h.feeds
  rigs := hR.rigs h hPend
  shelves := hR.shelves h hPend hp hCame hOut hAt
  upkeep :=
    { told := fun u s sink r hu hBelow => by
        rw [hR.follower_iff] at hu
        rw [hR.document] at hBelow
        rw [hR.statusOf]
        rcases hReach u s sink r hu hBelow with hUntold | hOld
        · exact .inl hUntold
        · exact (h.upkeep.told u s sink r hu hOld).imp_left (hPend.untold u)
      current := fun u s sink r hu hOn => by
        rw [hR.follower_iff] at hu
        rw [hR.statusOf] at hOn
        rw [hPend.waking, hPend.dying, hR.parts.key, hR.valueOf]
        by_cases hEq : r = p
        · subst hEq
          exact (hAt u s sink hu).current hOn
        · obtain ⟨-, -, hShowing, hLagging⟩ := hPend.others u s sink r hu hEq
          rw [hShowing]
          exact (h.upkeep.current u s sink r hu hOn).imp hLagging
            (Or.imp_right (Or.imp_right fun hCurrent =>
              hCurrent.congr (hR.same hu.2.2 hEq) hR.label fun _ _ _ _ _ _ => hR.valueOf _)) }
  alarms :=
    { timer := fun t ht => by
        rcases hR.timer t ht with hOld | ⟨c, u, s, r, hTask, hu⟩
        · obtain ⟨c, u, s, r, hTask, hu⟩ := h.alarms.timer t hOld
          exact ⟨c, u, s, r, hTask, hR.follower_iff.mpr hu⟩
        · exact ⟨c, u, s, r, hTask, hR.follower_iff.mpr hu⟩
      microtask := hR.microtasks.trans h.alarms.microtask }

end Maintained

end LiveMarkup.Live
