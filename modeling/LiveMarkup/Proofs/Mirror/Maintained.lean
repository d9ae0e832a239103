import LiveMarkup.Proofs.Live.Running
import LiveMarkup.Proofs.Live.Telling
import LiveMarkup.Proofs.Program.Meaning

/-!
# A document that is kept up to date

The parts of a rendered program tell what they were made from. A follower is a binding with the
signal that it reads, the sink that it passes values to and the node or container that it keeps up
to date; a node or container was made from an instruction if it and all that it always holds look
so and follow the right signals.

Between two steps, and whenever a callback is called, the parts of a rendered program agree with
each other. What is under way is left out and named.

A follower is known by its number, and by the node or container that it keeps up to date. What is
kept on shelves does not depend on who is told, awake or up to date.

* `Keeper`, `Derives`, `Reads`: what follows what;
* `MadeOf`: what was made from an instruction;
* `Plan`: what signals and nodes are there for, which no state tells;
* `Pending`: what is under way;
* `Maintained`: all else is as it should be. In particular every follower whose node reaches the
  document is on, and what it keeps up to date is as its signal says (`UpToDate`);
* `Keeper.unique`, `Rigs.eq_of_key`, `Rigs.eq_of_sink`: what a follower is known by;
* `Shelves.congr`, `UpToDate.congr`: what does not matter;
* `Maintained.relax`: more may be under way.
-/

/-! ## What a rendered program is made of -/

namespace LiveMarkup.Live

variable {κ σ : Type}

/-! ### Followers -/

/-- The node or container that a sink keeps up to date. -/
def Sink.Hosts (l : Live κ σ) (r : NodeRef) : Sink κ → Prop
  | .projector p => ∃ n, r = .node n ∧ l.projectors[p]? = some ⟨n, .text⟩
  | .conditional c => ∃ x, l.conditionals[c]? = some x ∧ r = .container x.box
  | .switch s => ∃ x, l.switches[s]? = some x ∧ r = .container x.box
  | .series s => ∃ x, l.series[s]? = some x ∧ r = .container x.box
  | _ => False

/-- A binding follows a signal for the sake of a node or container. -/
def Keeper (l : Live κ σ) (u : BindingId) (s : SignalId) (sink : Sink κ) (r : NodeRef) : Prop :=
  (∃ registered, l.subscriptions[u]? = some ⟨.signal s sink, registered⟩) ∧
    (l.core? u).map (·.target) = some r ∧ sink.Hosts l r

/-- A signal follows another one through a function. -/
def Derives (l : Live κ σ) (s d : SignalId) (f : Value → Value) : Prop :=
  ∃ number, ⟨number, .derived d f⟩ ∈ l.watchersOf s

/-- A signal has the value of a source in a scope: it is the signal of a name, or derived from
it. -/
def Reads (l : Live κ σ) (scope : Scope) (source : ValueSource) (s : SignalId) : Prop :=
  ∃ path p root, source = .reference path ∧ DataPath.parse? path = some p ∧
    scope.lookup? p.root = some root ∧
      (p.steps = [] ∧ s = root ∨
        p.steps ≠ [] ∧ Derives l root s fun v => DataPath.follow v p.steps)

/-! ### What was made from instructions -/

mutual

/-- A node or container was made from an instruction in a scope. -/
def MadeOf (l : Live κ σ) (scope : Scope) (r : NodeRef) : Instruction → Prop
  | .element tag operations children => ∃ n, r = .node n ∧ l.dom.Known (.node n) ∧
      (∀ x ∈ l.projectors, x.node ≠ n) ∧
        l.dom.label n = .element (Text.lowerAscii tag) (Operation.attributes operations) ∧
          AllMade l scope (l.dom.kin (.node n)) children
  | .text value => ∃ n, r = .node n ∧ l.dom.Known (.node n) ∧
      (∀ x ∈ l.projectors, x.node ≠ n) ∧ l.dom.label n = .text value
  | .dynamicText source => ∃ u s p, Keeper l u s (.projector p) r ∧ Reads l scope source s
  | .conditional condition body => ∃ u s c x hosted, Keeper l u s (.conditional c) r ∧
      Reads l scope condition s ∧ l.conditionals[c]? = some x ∧ x.factory = .body body scope hosted
  | .forLoop loop body => ∃ u s c x hosted, Keeper l u s (.series c) r ∧
      Reads l scope loop.iterable s ∧ l.series[c]? = some x ∧
        x.factory = .body loop body scope hosted
  | .switch value cases default => ∃ u s c x hosted, Keeper l u s (.switch c) r ∧
      Reads l scope value s ∧ l.switches[c]? = some x ∧
        x.cases = cases.map (fun (case, body) => (case, .body body scope hosted)) ∧
          x.default = default.map fun body => .body body scope hosted

/-- Nodes and containers were made from instructions, in order. -/
def AllMade (l : Live κ σ) (scope : Scope) (rs : List NodeRef) : List Instruction → Prop
  | [] => rs = []
  | i :: is => ∃ r rest, rs = r :: rest ∧ MadeOf l scope r i ∧ AllMade l scope rest is

end

/-! ### What lasts -/

/-- What was made stays so: labels, feeds, factories and derived signals are as before, and no
node or container that follows no signal loses or gains kin or begins to follow one, unless it is
excepted. -/
structure Endures (except : NodeRef → Prop) (l l' : Live κ σ) : Prop where
  known : ∀ r, l.dom.Known r → l'.dom.Known r
  key : ∀ r, l.dom.Known r → l'.dom.key r = l.dom.key r
  label : ∀ n, l.dom.Known (.node n) → (∀ x ∈ l.projectors, x.node ≠ n) → ¬ except (.node n) →
    l'.dom.label n = l.dom.label n
  kin : ∀ n, l.dom.Known (.node n) → (∀ x ∈ l.projectors, x.node ≠ n) → ¬ except (.node n) →
    l'.dom.kin (.node n) = l.dom.kin (.node n)
  box : ∀ c, l.dom.Known (.container c) → (∀ u s sink, ¬ Keeper l u s sink (.container c)) →
    ¬ except (.container c) → l'.dom.kin (.container c) = l.dom.kin (.container c) ∧
      ∀ u s sink, ¬ Keeper l' u s sink (.container c)
  feed : ∀ (u : BindingId) (feed : Feed κ), (l.subscriptions[u]?).map (·.feed) = some feed →
    (l'.subscriptions[u]?).map (·.feed) = some feed
  target : ∀ (u : BindingId) (r : NodeRef), (l.core? u).map (·.target) = some r →
    (l'.core? u).map (·.target) = some r
  projector : ∀ (p : ProjectorId) (x : Projector), l.projectors[p]? = some x →
    l'.projectors[p]? = some x
  text : ∀ x ∈ l'.projectors, x ∈ l.projectors ∨ ¬ l.dom.Known (.node x.node) ∨
    except (.node x.node)
  conditional : ∀ (c : ConditionalId) (x : Conditional κ), l.conditionals[c]? = some x →
    ∃ x' : Conditional κ, l'.conditionals[c]? = some x' ∧ x'.box = x.box ∧ x'.factory = x.factory
  switch : ∀ (c : SwitchId) (x : Switch κ), l.switches[c]? = some x →
    ∃ x' : Switch κ, l'.switches[c]? = some x' ∧ x'.box = x.box ∧ x'.cases = x.cases ∧
    x'.default = x.default
  series : ∀ (c : SeriesId) (x : Series κ), l.series[c]? = some x →
    ∃ x' : Series κ, l'.series[c]? = some x' ∧ x'.box = x.box ∧ x'.factory = x.factory
  derives : ∀ s d f, Derives l s d f → Derives l' s d f
  ended : ∀ u : ObserverId, (l.core? u).map (·.status) = some .destroyed →
    (l'.core? u).map (·.status) = some .destroyed
  buried : ∀ n, (l.trackedOf n).state = some .destroyed → (l'.trackedOf n).state = some .destroyed
  signals_size : l.signals.size ≤ l'.signals.size
  subscriptions_size : l.subscriptions.size ≤ l'.subscriptions.size
  nodes_size : l.dom.nodes.size ≤ l'.dom.nodes.size

namespace Endures

variable {except : NodeRef → Prop} {l l₁ l' : Live κ σ}

theorem refl (l : Live κ σ) : Endures except l l where
  known _ h := h
  key _ _ := rfl
  label _ _ _ _ := rfl
  kin _ _ _ _ := rfl
  box _ _ h _ := ⟨rfl, h⟩
  feed _ _ h := h
  target _ _ h := h
  projector _ _ h := h
  text _ h := .inl h
  conditional _ x h := ⟨x, h, rfl, rfl⟩
  switch _ x h := ⟨x, h, rfl, rfl, rfl⟩
  series _ x h := ⟨x, h, rfl, rfl⟩
  derives _ _ _ h := h
  ended _ h := h
  buried _ h := h
  signals_size := Nat.le_refl _
  subscriptions_size := Nat.le_refl _
  nodes_size := Nat.le_refl _

/-- No projector writes to a node later either. -/
theorem no_text (h : Endures except l l') {n : NodeId} (hn : l.dom.Known (.node n))
    (hNone : ∀ x ∈ l.projectors, x.node ≠ n) (hNot : ¬ except (.node n)) :
    ∀ x ∈ l'.projectors, x.node ≠ n := by
  rintro x hx rfl
  rcases h.text x hx with hIn | hNew | hExcept
  · exact hNone x hIn rfl
  · exact hNew hn
  · exact hNot hExcept

theorem trans (h₁ : Endures except l l₁) (h₂ : Endures except l₁ l') : Endures except l l' where
  known r hr := h₂.known r (h₁.known r hr)
  key r hr := (h₂.key r (h₁.known r hr)).trans (h₁.key r hr)
  label n hn hNone hIn := (h₂.label n (h₁.known _ hn) (h₁.no_text hn hNone hIn) hIn).trans
    (h₁.label n hn hNone hIn)
  kin n hn hNone hIn := (h₂.kin n (h₁.known _ hn) (h₁.no_text hn hNone hIn) hIn).trans
    (h₁.kin n hn hNone hIn)
  box c hc hNone hIn :=
    have hFirst := h₁.box c hc hNone hIn
    have hNext := h₂.box c (h₁.known _ hc) hFirst.2 hIn
    ⟨hNext.1.trans hFirst.1, hNext.2⟩
  feed u feed h := h₂.feed u feed (h₁.feed u feed h)
  target u r h := h₂.target u r (h₁.target u r h)
  projector p x h := h₂.projector p x (h₁.projector p x h)
  text x hx := by
    rcases h₂.text x hx with hIn | hNew | hExcept
    · exact h₁.text x hIn
    · exact .inr (.inl fun hKnown => hNew (h₁.known _ hKnown))
    · exact .inr (.inr hExcept)
  conditional c x h := by
    obtain ⟨x₁, hx₁, hBox₁, hFactory₁⟩ := h₁.conditional c x h
    obtain ⟨x', hx', hBox, hFactory⟩ := h₂.conditional c x₁ hx₁
    exact ⟨x', hx', hBox.trans hBox₁, hFactory.trans hFactory₁⟩
  switch c x h := by
    obtain ⟨x₁, hx₁, hBox₁, hCases₁, hDefault₁⟩ := h₁.switch c x h
    obtain ⟨x', hx', hBox, hCases, hDefault⟩ := h₂.switch c x₁ hx₁
    exact ⟨x', hx', hBox.trans hBox₁, hCases.trans hCases₁, hDefault.trans hDefault₁⟩
  series c x h := by
    obtain ⟨x₁, hx₁, hBox₁, hFactory₁⟩ := h₁.series c x h
    obtain ⟨x', hx', hBox, hFactory⟩ := h₂.series c x₁ hx₁
    exact ⟨x', hx', hBox.trans hBox₁, hFactory.trans hFactory₁⟩
  derives s d f h := h₂.derives s d f (h₁.derives s d f h)
  ended u h := h₂.ended u (h₁.ended u h)
  buried n h := h₂.buried n (h₁.buried n h)
  signals_size := Nat.le_trans h₁.signals_size h₂.signals_size
  subscriptions_size := Nat.le_trans h₁.subscriptions_size h₂.subscriptions_size
  nodes_size := Nat.le_trans h₁.nodes_size h₂.nodes_size

theorem mono {except' : NodeRef → Prop} (h : Endures except l l')
    (hExcept : ∀ r, except r → except' r) : Endures except' l l' :=
  { h with
    label := fun n hn hNone hNot => h.label n hn hNone (mt (hExcept _) hNot)
    kin := fun n hn hNone hNot => h.kin n hn hNone (mt (hExcept _) hNot)
    box := fun c hc hNone hNot => h.box c hc hNone (mt (hExcept _) hNot)
    text := fun x hx => (h.text x hx).imp_right (Or.imp_right (hExcept _)) }

/-- What is excepted does not matter if it is new. -/
theorem trans_new (h₁ : Endures (fun _ => False) l l₁) (h₂ : Endures except l₁ l')
    (hNew : ∀ r, except r → ¬ l.dom.Known r) : Endures (fun _ => False) l l' :=
  have h := (h₁.mono fun _ => False.elim).trans h₂
  { h with
    label := fun n hn hNone _ => h.label n hn hNone fun hIn => hNew _ hIn hn
    kin := fun n hn hNone _ => h.kin n hn hNone fun hIn => hNew _ hIn hn
    box := fun c hc hNone _ => h.box c hc hNone fun hIn => hNew _ hIn hc
    text := fun x hx => (h.text x hx).imp_right fun hOr => .inl (hOr.elim id (hNew _)) }

variable (h : Endures except l l')
include h

theorem hosts {sink : Sink κ} {r : NodeRef} (hHosts : sink.Hosts l r) : sink.Hosts l' r := by
  cases sink with
  | projector p =>
    obtain ⟨n, rfl, hp⟩ := hHosts
    exact ⟨n, rfl, h.projector p _ hp⟩
  | conditional c =>
    obtain ⟨x, hx, rfl⟩ := hHosts
    obtain ⟨x', hx', hBox, -⟩ := h.conditional c x hx
    exact ⟨x', hx', by rw [hBox]⟩
  | switch c =>
    obtain ⟨x, hx, rfl⟩ := hHosts
    obtain ⟨x', hx', hBox, -⟩ := h.switch c x hx
    exact ⟨x', hx', by rw [hBox]⟩
  | series c =>
    obtain ⟨x, hx, rfl⟩ := hHosts
    obtain ⟨x', hx', hBox, -⟩ := h.series c x hx
    exact ⟨x', hx', by rw [hBox]⟩
  | derived _ _ => exact hHosts
  | client _ => exact hHosts

theorem follower {u : BindingId} {s : SignalId} {sink : Sink κ} {r : NodeRef}
    (hu : Keeper l u s sink r) : Keeper l' u s sink r := by
  obtain ⟨⟨registered, hSub⟩, hTarget, hHosts⟩ := hu
  refine ⟨?_, h.target u r hTarget, h.hosts hHosts⟩
  obtain ⟨x, hx, hFeed⟩ := Option.map_eq_some_iff.mp (h.feed u (.signal s sink) (by rw [hSub]; rfl))
  obtain ⟨feed, registered'⟩ := x
  cases hFeed
  exact ⟨registered', hx⟩

theorem reads {scope : Scope} {source : ValueSource} {s : SignalId}
    (hReads : Reads l scope source s) : Reads l' scope source s := by
  obtain ⟨path, p, root, hSource, hParse, hRoot, hSteps⟩ := hReads
  exact ⟨path, p, root, hSource, hParse, hRoot,
    hSteps.imp_right fun ⟨hNe, hDerives⟩ => ⟨hNe, h.derives _ _ _ hDerives⟩⟩

omit h

mutual

/-- What was made from an instruction was so made later, too. -/
theorem made (h : Endures except l l') {scope : Scope} {r : NodeRef} : ∀ {i : Instruction},
    (∀ n, l.dom.Below r (.node n) → ¬ except (.node n)) → MadeOf l scope r i → MadeOf l' scope r i
  | .element _ _ _, hOut, hMade => by
    obtain ⟨n, rfl, hKnown, hNone, hLabel, hChildren⟩ := hMade
    refine ⟨n, rfl, h.known _ hKnown, h.no_text hKnown hNone (hOut n .self),
      (h.label n hKnown hNone (hOut n .self)).trans hLabel, ?_⟩
    rw [h.kin n hKnown hNone (hOut n .self)]
    exact h.allMade (fun r hr m hm => hOut m (Dom.Below.trans (.kin .self hr) hm)) hChildren
  | .text _, hOut, hMade => by
    obtain ⟨n, rfl, hKnown, hNone, hLabel⟩ := hMade
    exact ⟨n, rfl, h.known _ hKnown, h.no_text hKnown hNone (hOut n .self),
      (h.label n hKnown hNone (hOut n .self)).trans hLabel⟩
  | .dynamicText _, _, hMade => by
    obtain ⟨u, s, p, hu, hReads⟩ := hMade
    exact ⟨u, s, p, h.follower hu, h.reads hReads⟩
  | .conditional _ _, _, hMade => by
    obtain ⟨u, s, c, x, hosted, hu, hReads, hx, hFactory⟩ := hMade
    obtain ⟨x', hx', -, hFactory'⟩ := h.conditional c x hx
    exact ⟨u, s, c, x', hosted, h.follower hu, h.reads hReads, hx', hFactory'.trans hFactory⟩
  | .forLoop _ _, _, hMade => by
    obtain ⟨u, s, c, x, hosted, hu, hReads, hx, hFactory⟩ := hMade
    obtain ⟨x', hx', -, hFactory'⟩ := h.series c x hx
    exact ⟨u, s, c, x', hosted, h.follower hu, h.reads hReads, hx', hFactory'.trans hFactory⟩
  | .switch _ _ _, _, hMade => by
    obtain ⟨u, s, c, x, hosted, hu, hReads, hx, hCases, hDefault⟩ := hMade
    obtain ⟨x', hx', -, hCases', hDefault'⟩ := h.switch c x hx
    exact ⟨u, s, c, x', hosted, h.follower hu, h.reads hReads, hx', hCases'.trans hCases,
      hDefault'.trans hDefault⟩

theorem allMade (h : Endures except l l') {scope : Scope} :
    ∀ {is : List Instruction} {rs : List NodeRef},
    (∀ r ∈ rs, ∀ n, l.dom.Below r (.node n) → ¬ except (.node n)) → AllMade l scope rs is →
      AllMade l' scope rs is
  | [], _, _, hMade => by
    rw [AllMade] at hMade ⊢
    exact hMade
  | _ :: _, _, hOut, hMade => by
    rw [AllMade] at hMade ⊢
    obtain ⟨r, rest, rfl, hFirst, hRest⟩ := hMade
    obtain ⟨hOut, hOuts⟩ := List.forall_mem_cons.mp hOut
    exact ⟨r, rest, rfl, h.made hOut hFirst, h.allMade hOuts hRest⟩

end

end Endures

end LiveMarkup.Live

namespace LiveMarkup.Live

variable {κ σ : Type}

/-! ## Plans -/

/-- What a signal is there for. A fixed one has its value for good. A cursor belongs to a series,
whose number is one less than the owner; zero is nobody. The rank is the number of steps that it
was derived in, and the room is a bound on the height of what reads it. -/
structure Role where
  fixed : Option Value := none
  owner : Nat := 0
  rank : Nat := 0
  room : Nat := 0

/-- The roles of signals, the heights of what nodes were made from, and the values that occur. -/
structure Plan where
  role : SignalId → Role
  cap : NodeId → Nat
  values : Value → Prop

/-- Plans agree on all that is there, and no plan offers more room than the other one. -/
structure Plan.Extends (π π' : Plan) (l : Live κ σ) : Prop where
  role : ∀ s < l.signals.size, π'.role s = π.role s
  cap : ∀ n < l.dom.nodes.size, π'.cap n = π.cap n
  values : π'.values = π.values
  room : ∀ k, (∀ s, (π.role s).room ≤ k) → ∀ s, (π'.role s).room ≤ k

/-- The values that occur can be taken apart and counted. -/
structure Plan.Closed (values : Value → Prop) : Prop where
  nat : ∀ n, values (.nat n)
  item : ∀ v, values v → ∀ item ∈ v.items, values item
  follow : ∀ v steps, values v → values (DataPath.follow v steps)

/-! ## What is under way -/

/-- What is under way. Some followers reach the document and were not told, were told and are not
on yet, or are behind their signals; some derived signals are behind their sources; some nodes are
being destroyed. Series may have items in hand and a row that has to stay, a switch may be about
to show an arm, and signals may have to keep their values. -/
structure Pending where
  untold : BindingId → Prop := fun _ => False
  waking : BindingId → Prop := fun _ => False
  lagging : BindingId → Prop := fun _ => False
  stale : SignalId → Prop := fun _ => False
  dying : NodeId → Prop := fun _ => False
  hand : BindingId → List Series.Item := fun _ => []
  row : BindingId → Option (List NodeRef) := fun _ => none
  showing : BindingId → Option Nat := fun _ => none
  pinned : SignalId → Option Value := fun _ => none

/-! ## The tree and its dead -/

/-- A node is destroyed or about to be. -/
def Dead (dying : NodeId → Prop) (tracked : NodeId → Tracked) (n : NodeId) : Prop :=
  dying n ∨ (tracked n).state = some .destroyed

/-- The tree is sound, and kin are younger than their parents and made from less. -/
structure Rooted (π : Plan) (d : Dom) (document : NodeId) : Prop where
  sound : d.Sound
  plain : d.Plain document
  top : d.parent? document = none
  zero : document = 0
  edge : ∀ p r, d.Known p → r ∈ d.kin p →
    d.key p < d.key r ∧ π.cap (d.key r) ≤ π.cap (d.key p)
  marked : d.Marked

/-- Nothing else is known of nodes than that some are dead or dying, and these are dead with all
that is in them. -/
structure Graves (dying : NodeId → Prop) (d : Dom) (tracked : NodeId → Tracked)
    (document : NodeId) : Prop where
  state : ∀ n, (tracked n).state = none ∨ (tracked n).state = some .destroyed ∨
    (tracked n).state = some .destroying ∧ dying n
  up : ∀ p r, d.Known p → r ∈ d.kin p → Dead dying tracked (d.key r) →
    Dead dying tracked (d.key p)
  down : ∀ p r, d.Known p → r ∈ d.kin p → Dead dying tracked (d.key p) →
    Dead dying tracked (d.key r)
  top : ¬ Dead dying tracked document
  fresh : ∀ n, d.nodes.size ≤ n → tracked n = {} ∧ ¬ dying n
  noted : ∀ r, d.Known r → dying (d.key r) →
    d.isPlaced r = true ∨ (tracked (d.key r)).state ≠ none

/-! ## Signals and subscriptions -/

/-- Who watches next gets a number of its own. -/
theorem numbered_snoc {watchers : List (Signal.Watcher κ)} {n : Nat} (sink : Sink κ)
    (hNodup : (watchers.map (·.number)).Nodup) (hBound : ∀ w ∈ watchers, w.number < n) :
    ((watchers ++ [(⟨n, sink⟩ : Signal.Watcher κ)]).map (·.number)).Nodup ∧
      ∀ w ∈ watchers ++ [(⟨n, sink⟩ : Signal.Watcher κ)], w.number < n + 1 := by
  refine ⟨?_, fun w hw => ?_⟩
  · rw [List.map_append]
    refine List.nodup_append.mpr ⟨hNodup, List.nodup_singleton _, fun a ha b hb => ?_⟩
    obtain ⟨w, hw, rfl⟩ := List.mem_map.mp ha
    obtain rfl := List.mem_singleton.mp hb
    exact Nat.ne_of_lt (hBound w hw)
  · rcases List.mem_append.mp hw with hw | hw
    · exact Nat.lt_succ_of_lt (hBound w hw)
    · rw [List.mem_singleton.mp hw]
      exact Nat.lt_succ_self n

/-- Derived signals follow their sources and are as these say, unless they are stale. -/
structure Wires (π : Plan) (stale : SignalId → Prop) (pinned : SignalId → Option Value)
    (signals : Array (Signal κ)) : Prop where
  value : ∀ (s : SignalId) (g : Signal κ), signals[s]? = some g → π.values g.value
  numbered : ∀ (s : SignalId) (g : Signal κ), signals[s]? = some g →
    (g.watchers.map (·.number)).Nodup ∧ ∀ w ∈ g.watchers, w.number < g.nextWatcher
  derived : ∀ (s : SignalId) (g : Signal κ) n d f, signals[s]? = some g →
    ⟨n, .derived d f⟩ ∈ g.watchers →
    ∃ g' : Signal κ, signals[d]? = some g' ∧ g'.source = some (s, n) ∧
      (stale d ∨ g'.value = f g.value)
  roles : ∀ (s : SignalId) (g : Signal κ) n d f, signals[s]? = some g →
    ⟨n, .derived d f⟩ ∈ g.watchers →
    π.role d = { owner := (π.role s).owner, rank := (π.role s).rank + 1, room := (π.role s).room } ∧
      (π.role s).rank ≤ 1 ∧ ∀ v, π.values v → π.values (f v)
  fixed : ∀ (s : SignalId) (g : Signal κ) v, signals[s]? = some g → (π.role s).fixed = some v →
    g.value = v
  pinned : ∀ s v, pinned s = some v → ∃ g : Signal κ, signals[s]? = some g ∧ g.value = v

/-- Watchers are derived signals and the subscriptions that are on. -/
structure Piped (signals : Array (Signal κ)) (subscriptions : Array (Subscription κ)) : Prop where
  watcher : ∀ (s : SignalId) (g : Signal κ) w, signals[s]? = some g → w ∈ g.watchers →
    (∃ d f, w.sink = .derived d f) ∨
      ∃ u : Nat, subscriptions[u]? = some ⟨.signal s w.sink, some w.number⟩
  registered : ∀ (u : BindingId) s sink n, subscriptions[u]? = some ⟨.signal s sink, some n⟩ →
    ∃ g : Signal κ, signals[s]? = some g ∧ ⟨n, sink⟩ ∈ g.watchers

/-! ## Followers and their observers -/

/-- The hook that lets go what a sink keeps. -/
def Sink.release : Sink κ → List (EventKind × Hook κ)
  | .conditional c => [(.destroy, .releaseConditional c)]
  | .switch s => [(.destroy, .releaseSwitch s)]
  | .series s => [(.destroy, .releaseSeries s)]
  | _ => []

/-- The hooks of the observer of a follower. -/
def Sink.rigging (u : BindingId) (sink : Sink κ) : List (EventKind × Hook κ) :=
  sink.release ++ [(.connect, .switchOn u), (.disconnect, .switchOff u), (.destroy, .endBinding u)]

/-- Every observer is that of a follower of the same number, and is on while it is connected. -/
structure Rigs (π : Plan) (P : Pending) (l : Live κ σ) : Prop where
  observers_size : l.observers.size = l.subscriptions.size
  binding : ∀ u : Nat, (l.bindings[u]?).map (·.subscription) =
    if u < l.subscriptions.size then some u else none
  follower : ∀ u < l.subscriptions.size, ∃ s sink r, Keeper l u s sink r
  known : ∀ u s sink r, Keeper l u s sink r → l.dom.Known r
  writes : ∀ x ∈ l.projectors, l.dom.Known (.node x.node)
  reads : ∀ u s sink r, Keeper l u s sink r → s < l.signals.size ∧ (π.role s).owner ≤ u ∧
    π.cap (l.dom.key r) < (π.role s).room
  rising : ∀ u s sink r w t sink' q, Keeper l u s sink r → Keeper l w t sink' q → u < w →
    l.dom.key r < l.dom.key q
  text : ∀ u s p n, Keeper l u s (.projector p) (.node n) → ∃ text, l.dom.label n = .text text
  alive : ∀ u s sink r, Keeper l u s sink r → ¬ Dead P.dying l.trackedOf (l.dom.key r) →
    l.statusOf u ≠ .destroyed ∧ (l.trackedOf (l.dom.key r)).observer = some u
  dead : ∀ u s sink r, Keeper l u s sink r → ¬ P.dying (l.dom.key r) →
    Dead P.dying l.trackedOf (l.dom.key r) → l.statusOf u = .destroyed
  tracked : ∀ n u, (l.trackedOf n).observer = some u →
    ∃ s sink r, Keeper l u s sink r ∧ l.dom.key r = n
  hooks : ∀ u s sink r x, Keeper l u s sink r → l.core? u = some x → x.status ≠ .destroyed →
    x.hooks.map (fun e => (e.kind, e.hook)) = sink.rigging u ∧ l.isBindingDestroyed u = false
  asleep : ∀ u, l.statusOf u ≠ .connected → l.isActive u = false
  awake : ∀ u s sink r, Keeper l u s sink r → l.statusOf u = .connected →
    P.waking u ∨ P.dying (l.dom.key r) ∨ l.isActive u = true

/-! ## What sinks keep -/

/-- The nodes that a sink keeps, some of them in hand. -/
def Sink.stock (l : Live κ σ) (hand : List Series.Item) : Sink κ → List NodeRef
  | .conditional c => ((l.conditionals[c]?).bind (·.child)).toList
  | .switch s => (((l.switches[s]?).map (·.built)).getD []).map (·.2)
  | .series s => (((l.series[s]?).map (·.items)).getD [] ++ hand).map (·.node)
  | _ => []

/-- The nodes that a sink shows. -/
def Sink.shown (l : Live κ σ) (showing : Option Nat) (row : Option (List NodeRef)) :
    Sink κ → List NodeRef
  | .conditional c =>
    match l.conditionals[c]? with
    | some x => if x.visible then x.child.toList else []
    | none => []
  | .switch s => ((l.switches[s]?).bind fun x => (x.active.or showing).bind x.built?).toList
  | .series s => row.getD ((((l.series[s]?).map (·.items)).getD []).map (·.node))
  | _ => []

/-- What a sink keeps is as a value says. -/
def Sink.Current (l : Live κ σ) (showing : Option Nat) (v : Value) : Sink κ → Prop
  | .projector p => ∀ x, l.projectors[p]? = some x → l.dom.label x.node = .text v.display
  | .conditional c => ∀ x, l.conditionals[c]? = some x →
      x.visible = v.truthy ∧ (x.visible = true → x.child.isSome)
  | .switch s => ∀ x, l.switches[s]? = some x →
      x.active.or showing = x.armFor? v ∧ ∀ arm ∈ x.armFor? v, (x.built? arm).isSome
  | .series s => ∀ x, l.series[s]? = some x →
      x.items.map (fun item => (item.key, l.valueOf item.cursor)) =
        v.items.zipIdx.map fun (item, index) => (item.key, .nat index)
  | _ => True

/-- An instruction can be made in a scope by a follower, from below some height. -/
structure Makeable (π : Plan) (l : Live κ σ) (u cap : Nat) (scope : Scope) (known : String → Prop)
    (body : Instruction) : Prop where
  plain : body.Plain known
  low : body.height < cap
  signals : ∀ name s, scope.lookup? name = some s → s < l.signals.size ∧ (π.role s).rank ≤ 1 ∧
    (π.role s).owner ≤ u ∧ body.height < (π.role s).room

/-- The names that a scope knows. -/
def Scope.Knows (scope : Scope) (name : String) : Prop :=
  (scope.lookup? name).isSome

/-- A factory makes what it can. -/
def NodeFactory.Able (π : Plan) (l : Live κ σ) (u cap : Nat) (f : NodeFactory κ) : Prop :=
  ∃ body scope hosted, f = .body body scope hosted ∧ Makeable π l u cap scope scope.Knows body

/-- The factories of a sink make what they can. -/
def Sink.Able (π : Plan) (l : Live κ σ) (u cap : Nat) : Sink κ → Prop
  | .conditional c => ∀ x, l.conditionals[c]? = some x → x.factory.Able π l u cap
  | .switch s => ∀ x, l.switches[s]? = some x →
      (∀ e ∈ x.cases, e.2.Able π l u cap) ∧ ∀ f ∈ x.default, f.Able π l u cap
  | .series s => ∀ x, l.series[s]? = some x → ∃ loop body scope hosted,
      x.factory = .body loop body scope hosted ∧
        Makeable π l u cap scope (fun name => name ∈ loop.names ∨ scope.Knows name) body
  | _ => True

/-- An item was made by a factory, with a value of its key and an index that follows its cursor. -/
def ItemMade (π : Plan) (l : Live κ σ) (factory : ItemFactory κ) (item : Series.Item) : Prop :=
  ∃ loop body scope hosted index value v, factory = .body loop body scope hosted ∧
    (π.role value).fixed = some v ∧ value < l.signals.size ∧ v.key = item.key ∧
      Derives l item.cursor index id ∧
        MadeOf l (scope.extend (loop.binds value index)) item.node body

/-- The nodes that sinks keep are their own, and made by their factories. -/
structure Shelves (π : Plan) (P : Pending) (l : Live κ σ) : Prop where
  able : ∀ u s sink r, Keeper l u s sink r → sink.Able π l u (π.cap (l.dom.key r))
  known : ∀ u s sink r n, Keeper l u s sink r → n ∈ sink.stock l (P.hand u) →
    l.dom.Known n ∧ l.dom.key r < l.dom.key n ∧ π.cap (l.dom.key n) < π.cap (l.dom.key r)
  placed : ∀ u s sink r n, Keeper l u s sink r → n ∈ sink.stock l (P.hand u) →
    l.dom.isPlaced n = true → n ∈ l.dom.kin r
  apart : ∀ u s sink r w t sink' q n, Keeper l u s sink r → Keeper l w t sink' q →
    n ∈ sink.stock l (P.hand u) → n ∈ sink'.stock l (P.hand w) → u = w
  shape : ∀ u s sink c, Keeper l u s sink (.container c) →
    ¬ Dead P.dying l.trackedOf (l.dom.key (.container c)) →
      l.dom.kin (.container c) = sink.shown l (P.showing u) (P.row u)
  child : ∀ u s c r x n, Keeper l u s (.conditional c) r → l.conditionals[c]? = some x →
    x.child = some n → ¬ Dead P.dying l.trackedOf (l.dom.key n) →
      ∃ body scope hosted, x.factory = .body body scope hosted ∧ MadeOf l scope n body
  arm : ∀ u s c r x arm n, Keeper l u s (.switch c) r → l.switches[c]? = some x →
    (arm, n) ∈ x.built → ¬ Dead P.dying l.trackedOf (l.dom.key n) →
      ∃ body scope hosted, x.factory? arm = some (.body body scope hosted) ∧ MadeOf l scope n body
  item : ∀ u s c r x item, Keeper l u s (.series c) r → l.series[c]? = some x →
    item ∈ x.items ++ P.hand u → ¬ Dead P.dying l.trackedOf (l.dom.key item.node) →
      ItemMade π l x.factory item
  cursor : ∀ u s c r x item, Keeper l u s (.series c) r → l.series[c]? = some x →
    item ∈ x.items ++ P.hand u → item.cursor < l.signals.size ∧
      π.role item.cursor = { owner := u + 1, room := π.cap (l.dom.key r) }
  cursors : ∀ u s c r x, Keeper l u s (.series c) r → l.series[c]? = some x →
    (x.items.map (·.cursor)).Nodup
  nodes : ∀ u s c r x, Keeper l u s (.series c) r → l.series[c]? = some x →
    (x.items.map (·.node)).Nodup
  handed : ∀ u s c r x, Keeper l u s (.series c) r → l.series[c]? = some x → P.row u ≠ none →
    x.items = []
  alive : ∀ u s sink r n, Keeper l u s sink r →
    ¬ Dead P.dying l.trackedOf (l.dom.key r) → n ∈ sink.stock l (P.hand u) →
      ¬ Dead P.dying l.trackedOf (l.dom.key n)
  showing : ∀ u s c r x, Keeper l u s (.switch c) r → l.switches[c]? = some x →
    (P.showing u ≠ none → x.active = none) ∧ (¬ Dead P.dying l.trackedOf (l.dom.key r) →
      ∀ arm, x.active.or (P.showing u) = some arm → (x.built? arm).isSome)

/-! ## What is up to date -/

/-- Followers whose nodes reach the document know it, and those that know it keep their nodes and
containers as their signals say. -/
structure UpToDate (P : Pending) (l : Live κ σ) : Prop where
  told : ∀ u s sink r, Keeper l u s sink r → l.dom.Below (.node l.document) r →
    P.untold u ∨ l.statusOf u = .connected
  current : ∀ u s sink r, Keeper l u s sink r → l.statusOf u = .connected →
    P.lagging u ∨ P.waking u ∨ P.dying (l.dom.key r) ∨
      sink.Current l (P.showing u) (l.valueOf s)

/-- All that waits for its time is the grace of hidden children. -/
structure Alarms (l : Live κ σ) : Prop where
  timer : ∀ t ∈ l.clock.timers, ∃ c u s r, t.task = .endGrace c ∧ Keeper l u s (.conditional c) r
  microtask : l.clock.microtasks = []

/-- A document is kept up to date, but for what is under way. -/
structure Maintained (π : Plan) (P : Pending) (l : Live κ σ) : Prop where
  running : l.tornDown = false
  closed : Plan.Closed π.values
  rooted : Rooted π l.dom l.document
  graves : Graves P.dying l.dom l.trackedOf l.document
  wires : Wires π P.stale P.pinned l.signals
  feeds : Piped l.signals l.subscriptions
  rigs : Rigs π P l
  shelves : Shelves π P l
  upkeep : UpToDate P l
  alarms : Alarms l

end LiveMarkup.Live

/-! ## Followers by their numbers -/

namespace LiveMarkup.Live

variable {κ σ : Type} {π : Plan} {P P' : Pending} {l l' : Live κ σ}
variable {u w : BindingId} {s t : SignalId} {sink sink' : Sink κ} {r q : NodeRef}

/-! ### Followers -/

theorem Sink.Hosts.unique (h : sink.Hosts l r) (h' : sink.Hosts l q) : r = q := by
  cases sink with
  | projector p =>
    obtain ⟨n, rfl, hn⟩ := h
    obtain ⟨m, rfl, hm⟩ := h'
    cases hn.symm.trans hm
    rfl
  | conditional c =>
    obtain ⟨x, hx, rfl⟩ := h
    obtain ⟨y, hy, rfl⟩ := h'
    cases hx.symm.trans hy
    rfl
  | switch c =>
    obtain ⟨x, hx, rfl⟩ := h
    obtain ⟨y, hy, rfl⟩ := h'
    cases hx.symm.trans hy
    rfl
  | series c =>
    obtain ⟨x, hx, rfl⟩ := h
    obtain ⟨y, hy, rfl⟩ := h'
    cases hx.symm.trans hy
    rfl
  | derived _ _ => exact h.elim
  | client _ => exact h.elim

namespace Keeper

variable (h : Keeper l u s sink r)
include h

theorem unique (h' : Keeper l u t sink' q) : s = t ∧ sink = sink' ∧ r = q := by
  obtain ⟨⟨reg, hSub⟩, hTarget, -⟩ := h
  obtain ⟨⟨reg', hSub'⟩, hTarget', -⟩ := h'
  have hEq := hSub.symm.trans hSub'
  simp only [Option.some.injEq, Subscription.mk.injEq, Feed.signal.injEq] at hEq
  exact ⟨hEq.1.1, hEq.1.2, Option.some.inj (hTarget.symm.trans hTarget')⟩

theorem lt_size : u < l.subscriptions.size := by
  obtain ⟨⟨reg, hSub⟩, -⟩ := h
  exact (Array.getElem?_eq_some_iff.mp hSub).1

theorem not_derived {d : SignalId} {f : Value → Value} : sink ≠ .derived d f := by
  rintro rfl
  exact h.2.2

theorem exists_core : ∃ x, l.core? u = some x ∧ x.target = r := by
  obtain ⟨-, hTarget, -⟩ := h
  exact Option.map_eq_some_iff.mp hTarget

/-- A follower is the same where the parts that it is made of are the same. -/
theorem congr (hFeed : ∀ feed, (l.subscriptions[u]?).map (·.feed) = some feed →
      (l'.subscriptions[u]?).map (·.feed) = some feed)
    (hTarget : (l'.core? u).map (·.target) = (l.core? u).map (·.target))
    (hHosts : sink.Hosts l r → sink.Hosts l' r) : Keeper l' u s sink r := by
  obtain ⟨⟨registered, hSub⟩, hTarget', hHosts'⟩ := h
  refine ⟨?_, hTarget.trans hTarget', hHosts hHosts'⟩
  obtain ⟨x, hx, hEq⟩ := Option.map_eq_some_iff.mp (hFeed (.signal s sink) (by rw [hSub]; rfl))
  obtain ⟨feed, registered'⟩ := x
  cases hEq
  exact ⟨registered', hx⟩

end Keeper

namespace Rigs

variable (h : Rigs π P l)
include h

/-- Followers of one node are one. -/
theorem eq_of_key (hu : Keeper l u s sink r) (hw : Keeper l w t sink' q)
    (hKey : l.dom.key r = l.dom.key q) : u = w := by
  rcases Nat.lt_trichotomy u w with hLt | hEq | hGt
  · exact absurd hKey (Nat.ne_of_lt (h.rising _ _ _ _ _ _ _ _ hu hw hLt))
  · exact hEq
  · exact absurd hKey.symm (Nat.ne_of_lt (h.rising _ _ _ _ _ _ _ _ hw hu hGt))

/-- Followers with one sink are one. -/
theorem eq_of_sink (hu : Keeper l u s sink r) (hw : Keeper l w t sink q) : u = w :=
  h.eq_of_key hu hw (congrArg l.dom.key (hu.2.2.unique hw.2.2))

theorem lt_of_key (hu : Keeper l u s sink r) (hw : Keeper l w t sink' q)
    (hKey : l.dom.key r < l.dom.key q) : u < w := by
  rcases Nat.lt_trichotomy u w with hLt | rfl | hGt
  · exact hLt
  · obtain ⟨-, -, rfl⟩ := hu.unique hw
    exact absurd hKey (Nat.lt_irrefl _)
  · exact absurd (Nat.lt_trans hKey (h.rising _ _ _ _ _ _ _ _ hw hu hGt)) (Nat.lt_irrefl _)

theorem not_dead_of_connected (hu : Keeper l u s sink r) (hOn : l.statusOf u = .connected)
    (hDying : ¬ P.dying (l.dom.key r)) : ¬ Dead P.dying l.trackedOf (l.dom.key r) := by
  intro hDead
  rw [h.dead _ _ _ _ hu hDying hDead] at hOn
  cases hOn

end Rigs

/-! ### What does not matter -/

theorem Makeable.congr {m cap : Nat} {scope : Scope} {known : String → Prop} {body : Instruction}
    (h : Makeable π l m cap scope known body) (hSize : l.signals.size ≤ l'.signals.size) :
    Makeable π l' m cap scope known body :=
  ⟨h.plain, h.low, fun name s hName =>
    ⟨Nat.lt_of_lt_of_le (h.signals name s hName).1 hSize, (h.signals name s hName).2⟩⟩

theorem NodeFactory.Able.congr {m cap : Nat} {f : NodeFactory κ} (h : f.Able π l m cap)
    (hSize : l.signals.size ≤ l'.signals.size) : f.Able π l' m cap := by
  obtain ⟨body, scope, hosted, rfl, hMakes⟩ := h
  exact ⟨body, scope, hosted, rfl, hMakes.congr hSize⟩

/-- What belongs to a sink is the same in two documents. -/
def Sink.Same (l l' : Live κ σ) : Sink κ → Prop
  | .projector p => l'.projectors[p]? = l.projectors[p]?
  | .conditional c => l'.conditionals[c]? = l.conditionals[c]?
  | .switch c => l'.switches[c]? = l.switches[c]?
  | .series c => l'.series[c]? = l.series[c]?
  | _ => True

namespace Sink.Same

theorem of_eq (hP : l'.projectors = l.projectors) (hC : l'.conditionals = l.conditionals)
    (hW : l'.switches = l.switches) (hS : l'.series = l.series) : sink.Same l l' := by
  cases sink <;> simp only [Same, hP, hC, hW, hS]

theorem stock_eq (h : sink.Same l l') (hand : List Series.Item) :
    sink.stock l' hand = sink.stock l hand := by
  cases sink <;> simp_all only [Same, stock]

theorem shown_eq (h : sink.Same l l') (showing : Option Nat) (row : Option (List NodeRef)) :
    sink.shown l' showing row = sink.shown l showing row := by
  cases sink <;> simp_all only [Same, shown]

end Sink.Same

theorem Sink.Able.congr {m cap : Nat} (h : sink.Able π l m cap) (hSame : sink.Same l l')
    (hSize : l.signals.size ≤ l'.signals.size) : sink.Able π l' m cap := by
  cases sink with
  | conditional c =>
    intro x hx
    exact (h x (hSame ▸ hx)).congr hSize
  | switch c =>
    intro x hx
    have hOf := h x (hSame ▸ hx)
    exact ⟨fun e he => (hOf.1 e he).congr hSize, fun f hf => (hOf.2 f hf).congr hSize⟩
  | series c =>
    intro x hx
    obtain ⟨loop, body, scope, hosted, hFactory, hMakes⟩ := h x (hSame ▸ hx)
    exact ⟨loop, body, scope, hosted, hFactory, hMakes.congr hSize⟩
  | projector _ => trivial
  | derived _ _ => trivial
  | client _ => trivial

theorem ItemMade.lasts {except : NodeRef → Prop} {factory : ItemFactory κ} {item : Series.Item}
    (h : ItemMade π l factory item) (hLasts : Endures except l l')
    (hOut : ∀ n, l.dom.Below item.node (.node n) → ¬ except (.node n)) :
    ItemMade π l' factory item := by
  obtain ⟨loop, body, scope, hosted, index, value, v, hFactory, hFixed, hSize, hKey,
    hIndex, hMade⟩ := h
  exact ⟨loop, body, scope, hosted, index, value, v, hFactory, hFixed,
    Nat.lt_of_lt_of_le hSize hLasts.signals_size, hKey, hLasts.derives _ _ _ hIndex,
    hLasts.made hOut hMade⟩

/-- What is kept does not depend on who is told or awake, or on values. -/
theorem Shelves.congr (h : Shelves π P l) (hDom : l'.dom = l.dom)
    (hTracked : ∀ n, (l'.trackedOf n).state = (l.trackedOf n).state)
    (hP : l'.projectors = l.projectors) (hC : l'.conditionals = l.conditionals)
    (hW : l'.switches = l.switches) (hS : l'.series = l.series)
    (hFollower : ∀ u s sink r, Keeper l' u s sink r → Keeper l u s sink r)
    (hLasts : Endures (fun _ => False) l l') : Shelves π P l' := by
  have hSame : ∀ sink : Sink κ, sink.Same l l' := fun _ => .of_eq hP hC hW hS
  have hStock : ∀ (sink : Sink κ) hand, sink.stock l' hand = sink.stock l hand :=
    fun sink => (hSame sink).stock_eq
  have hDead : ∀ n, Dead P.dying l'.trackedOf n ↔ Dead P.dying l.trackedOf n := fun n => by
    simp only [Dead, hTracked]
  have hOut : ∀ n m, l.dom.Below n (.node m) → ¬ (fun _ : NodeId => False) m := fun _ _ _ h => h
  refine ⟨fun u s sink r hu => ?_, fun u s sink r n hu hn => ?_,
    fun u s sink r n hu hn hPlaced => ?_,
    fun u s sink r w t sink' q n hu hw hn hn' => ?_, fun u s sink c hu hAlive => ?_,
    fun u s c r x n hu hx hn hAlive => ?_, fun u s c r x arm n hu hx hn hAlive => ?_,
    fun u s c r x item hu hx hIn hAlive => ?_, fun u s c r x item hu hx hIn => ?_,
    fun u s c r x hu hx => ?_, fun u s c r x hu hx => ?_, fun u s c r x hu hx => ?_,
    fun u s sink r n hu hAlive hn => ?_,
    fun u s c r x hu hx => ?_⟩
  · rw [hDom]
    exact (h.able u s sink r (hFollower _ _ _ _ hu)).congr (hSame sink) hLasts.signals_size
  · rw [hStock] at hn
    rw [hDom]
    exact h.known u s sink r n (hFollower _ _ _ _ hu) hn
  · rw [hStock] at hn
    rw [hDom] at hPlaced ⊢
    exact h.placed u s sink r n (hFollower _ _ _ _ hu) hn hPlaced
  · rw [hStock] at hn hn'
    exact h.apart u s sink r w t sink' q n (hFollower _ _ _ _ hu) (hFollower _ _ _ _ hw) hn hn'
  · rw [hDom, hDead] at hAlive
    rw [hDom, (hSame sink).shown_eq]
    exact h.shape u s sink c (hFollower _ _ _ _ hu) hAlive
  · rw [hC] at hx
    rw [hDom, hDead] at hAlive
    obtain ⟨body, scope, hosted, hFactory, hMade⟩ :=
      h.child u s c r x n (hFollower _ _ _ _ hu) hx hn hAlive
    exact ⟨body, scope, hosted, hFactory, hLasts.made (hOut n) hMade⟩
  · rw [hW] at hx
    rw [hDom, hDead] at hAlive
    obtain ⟨body, scope, hosted, hFactory, hMade⟩ :=
      h.arm u s c r x arm n (hFollower _ _ _ _ hu) hx hn hAlive
    exact ⟨body, scope, hosted, hFactory, hLasts.made (hOut n) hMade⟩
  · rw [hS] at hx
    rw [hDom, hDead] at hAlive
    exact (h.item u s c r x item (hFollower _ _ _ _ hu) hx hIn hAlive).lasts hLasts (hOut _)
  · rw [hS] at hx
    rw [hDom]
    have hCursor := h.cursor u s c r x item (hFollower _ _ _ _ hu) hx hIn
    exact ⟨Nat.lt_of_lt_of_le hCursor.1 hLasts.signals_size, hCursor.2⟩
  · rw [hS] at hx
    exact h.cursors u s c r x (hFollower _ _ _ _ hu) hx
  · rw [hS] at hx
    exact h.nodes u s c r x (hFollower _ _ _ _ hu) hx
  · rw [hS] at hx
    exact h.handed u s c r x (hFollower _ _ _ _ hu) hx
  · rw [hDom, hDead] at hAlive ⊢
    rw [hStock] at hn
    exact h.alive u s sink r n (hFollower _ _ _ _ hu) hAlive hn
  · rw [hW] at hx
    rw [hDom, hDead]
    exact h.showing u s c r x (hFollower _ _ _ _ hu) hx

/-- Whether something is as a value says depends on what is kept and on the values of cursors. -/
theorem Sink.Current.congr {showing : Option Nat} {v : Value} (h : sink.Current l showing v)
    (hSame : sink.Same l l') (hLabel : ∀ n, l'.dom.label n = l.dom.label n)
    (hValue : ∀ c x, sink = .series c → l.series[c]? = some x →
      ∀ item ∈ x.items, l'.valueOf item.cursor = l.valueOf item.cursor) :
    sink.Current l' showing v := by
  cases sink with
  | projector p =>
    intro x hx
    rw [hLabel]
    exact h x (hSame ▸ hx)
  | conditional c => exact fun x hx => h x (hSame ▸ hx)
  | switch c => exact fun x hx => h x (hSame ▸ hx)
  | series c =>
    intro x hx
    have hx' : l.series[c]? = some x := hSame ▸ hx
    rw [← h x hx']
    exact List.map_congr_left fun item hIn => by rw [hValue c x rfl hx' item hIn]
  | derived _ _ => trivial
  | client _ => trivial

/-! ### More under way -/

theorem Shelves.pending (h : Shelves π P l) (hDying : P'.dying = P.dying) (hHand : P'.hand = P.hand)
    (hRow : P'.row = P.row) (hShowing : P'.showing = P.showing) : Shelves π P' l := by
  obtain ⟨untold, waking, lagging, stale, dying, hand, row, showing, pinned⟩ := P'
  subst hDying hHand hRow hShowing
  exact ⟨h.able, h.known, h.placed, h.apart, h.shape, h.child, h.arm, h.item, h.cursor, h.cursors,
    h.nodes, h.handed, h.alive, h.showing⟩

/-- More may be left out. -/
theorem Maintained.relax (h : Maintained π P l) (hUntold : ∀ u, P.untold u → P'.untold u)
    (hWaking : ∀ u, P.waking u → P'.waking u) (hLagging : ∀ u, P.lagging u → P'.lagging u)
    (hStale : ∀ s, P.stale s → P'.stale s) (hDying : P'.dying = P.dying)
    (hHand : P'.hand = P.hand) (hRow : P'.row = P.row) (hShowing : P'.showing = P.showing)
    (hPinned : ∀ s v, P'.pinned s = some v → P.pinned s = some v) : Maintained π P' l where
  running := h.running
  closed := h.closed
  rooted := h.rooted
  graves := by
    rw [hDying]
    exact h.graves
  wires :=
    { h.wires with
      derived := fun s g n d f hg hIn => by
        obtain ⟨g', hg', hSource, hValue⟩ := h.wires.derived s g n d f hg hIn
        exact ⟨g', hg', hSource, hValue.imp_left (hStale d)⟩
      pinned := fun s v hv => h.wires.pinned s v (hPinned s v hv) }
  feeds := h.feeds
  rigs :=
    { h.rigs with
      alive := by
        rw [hDying]
        exact h.rigs.alive
      dead := by
        rw [hDying]
        exact h.rigs.dead
      awake := fun u s sink r hu hOn => by
        rw [hDying]
        exact (h.rigs.awake u s sink r hu hOn).imp_left (hWaking u) }
  shelves := h.shelves.pending hDying hHand hRow hShowing
  upkeep :=
    { told := fun u s sink r hu hr => (h.upkeep.told u s sink r hu hr).imp_left (hUntold u)
      current := fun u s sink r hu hOn => by
        rw [hDying, hShowing]
        exact (h.upkeep.current u s sink r hu hOn).imp (hLagging u) (Or.imp_left (hWaking u)) }
  alarms := h.alarms

end LiveMarkup.Live
