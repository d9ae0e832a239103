import LiveMarkup.Proofs.Live.Scripts
import LiveMarkup.Proofs.Mirror.Receiving

/-!
# What a document that is kept up to date shows

What is done to a document that is kept up to date: time passes, signals are set, and what was made
first is mounted and unmounted. After each step the document is kept up to date again.

What was made from an instruction and reaches the document has the markup of the instruction where
its names have the values of their signals. Nothing of what was before is left in it: neither what
was shown earlier, nor when it was made, nor what is kept but hidden.

* `Framed.advance`: hidden children are destroyed when their grace is over;
* `Upheld`: an instance that holds what it was made from;
* `Upheld.set`, `Upheld.mount`, `Upheld.unmount`, `Upheld.advance`: the steps;
* `Scope.env`: the values of the names of a scope;
* `Maintained.mirrors`: the markup of what was made, by induction on instructions;
* `Upheld.html_eq`: the markup of an instance that is mounted.
-/

/-! ## Steps -/

namespace LiveMarkup.Live

variable {κ σ : Type} {π π' : Plan} {P : Pending} {l l₁ l' : Live κ σ}
variable {u : BindingId} {s : SignalId} {sink : Sink κ} {r x : NodeRef} {b : ContainerId}
variable {client : Client κ σ} {n m k : Nat}

/-! ### The clock -/

def withClock (l : Live κ σ) (K : Clock κ) : Live κ σ :=
  { l with clock := K }

theorem endures_withClock (l : Live κ σ) (K : Clock κ) :
    Endures (fun _ => False) l (l.withClock K) :=
  have h : Endures (fun _ => False) l l := .refl l
  { known := h.known, key := h.key, label := h.label, kin := h.kin, box := h.box, feed := h.feed,
    target := h.target, projector := h.projector, text := h.text, conditional := h.conditional,
    switch := h.switch, series := h.series, derives := h.derives, ended := h.ended,
    buried := h.buried, signals_size := h.signals_size, subscriptions_size := h.subscriptions_size,
    nodes_size := h.nodes_size }

/-- A timer is gone, and the time may be another one. -/
theorem Framed.rewound {K : Clock κ} (hF : Framed π l b) (h : Maintained π {} l)
    (hTimers : ∀ t ∈ K.timers, t ∈ l.clock.timers)
    (hMicrotasks : K.microtasks = l.clock.microtasks) :
    Maintained π {} (l.withClock K) := by
  have hDom : Restocked l { l with dom := l.dom } (.node 0) :=
    Restocked.of_dom (.refl l.dom) h.rooted.sound fun _ _ _ => rfl
  have hR : Restocked l (l.withClock K) (.node 0) :=
    { tornDown := rfl, document := rfl, parts := hDom.parts, sound := hDom.sound, kin := hDom.kin
      tracked := hDom.tracked, core := hDom.core, observers_size := rfl, bindings := rfl
      projectors := rfl, signals := rfl, subscriptions := rfl, conditionals_size := rfl
      conditional := hDom.conditional, switches_size := rfl, switch := hDom.switch
      series_size := rfl, series := hDom.series
      timer := fun t ht => .inl (hTimers t ht), microtasks := hMicrotasks }
  exact hF.rehoused h (by decide) hR (.refl _ _ _) rfl (fun _ hx hNot => absurd hx hNot)
    fun _ _ _ _ _ => .inr

theorem drain_idle (calls : Calls κ σ) (h : l.clock.microtasks = []) :
    After (drain calls) l fun _ l' => l' = l := by
  obtain ⟨n, hn⟩ : ∃ n, max 1 l.config.maxMicrotasks = n + 1 :=
    ⟨max 1 l.config.maxMicrotasks - 1, (Nat.sub_add_cancel (Nat.le_max_left ..)).symm⟩
  have hRun : (drain calls).run l = (drainTo calls (max 1 l.config.maxMicrotasks)).run l := rfl
  unfold After
  rw [hRun, hn, Clock.run_drainTo_nil n h]

/-! ### Time -/

/-- Nothing was made or moved, and the document is kept up to date by the same plan. -/
def Rests (π : Plan) (l l' : Live κ σ) : Prop :=
  Maintained π {} l' ∧ Endures (fun _ => False) l l'

theorem Rests.trans (h₁ : Rests π l l₁) (h₂ : Rests π l₁ l') : Rests π l l' :=
  ⟨h₂.1, h₁.2.trans h₂.2⟩

theorem Framed.rests (hF : Framed π l b) (h : Rests π l l') (hSound : l.dom.Sound) :
    Framed π l' b :=
  hF.led hSound (.refl π l) h.2

theorem endGrace_rests {c : ConditionalId} (client : Client κ σ) (h : Maintained π {} l)
    (hu : Keeper l u s (.conditional c) r) (hCap : π.cap (l.dom.key r) ≤ n) :
    After (endGrace (Calls.upTo client n) c) l fun _ l' => Rests π l l' := by
  obtain ⟨y, hy, rfl⟩ := id hu.2.2
  let l₁ := l.withConditional c { y with timer := none } l.clock
  have h₁ : Maintained π {} l₁ := by
    have hTimed := h.retimed none l.clock hu hy (fun _ => .inl) rfl
    rwa [withConditional_modify hy fun x => { x with timer := none }] at hTimed
  have hEndures : Endures (fun _ => False) l l₁ :=
    (restocked_withConditional (x := { y with timer := none }) hu hy rfl rfl (.refl c l.clock)
      (.refl l.dom) h.rooted.sound fun _ _ _ => rfl).endures hu
  have hu₁ := hEndures.follower hu
  have hy₁ : l₁.conditionals[c]? = some { y with timer := none } := conditional_withConditional hy
  unfold endGrace
  refine After.bind (m := fun _ l' => l' = l₁) (withConditional_modify (K := l.clock) hy _) ?_
  rintro _ _ rfl
  refine after_bind.mpr (after_get.mpr ?_)
  rw [show l₁.conditional? c = some { y with timer := none } from hy₁, Option.any_some]
  split
  case isFalse => exact ⟨h₁, hEndures⟩
  case isTrue hHidden =>
    refine after_attempt.mpr ((discardChild_razes (destroy_razes client n) h₁ hu₁ hCap
      (.inr fun y' hy' => ?_) fun w t sink q _ hShowing => absurd rfl hShowing).mono ?_)
    · cases hy₁.symm.trans hy'
      simpa using hHidden
    · rintro _ l' ⟨-, h', hRazed⟩
      exact ⟨h', hEndures.trans hRazed.lasts⟩

theorem Framed.runDue (hRoom : ∀ s, (π.role s).room ≤ n + 1) (limit k : Nat) :
    ∀ {l : Live κ σ}, Framed π l b → Maintained π {} l →
      After (Live.runDue (Calls.upTo client (n + 1)) limit k) l fun _ l' => Rests π l l' := by
  induction k with
  | zero =>
    intro l hF h
    have hTwin : Twin l { l with overrun := true } := { Twin.refl l with }
    exact ⟨hTwin.maintained h, hTwin.steady.lasts⟩
  | succ k ih =>
    intro l hF h
    unfold After
    rcases Clock.runDue_cases limit k l with
      ⟨-, hRun⟩ | ⟨timer, timers, hAll, -, hRun⟩
    · rw [hRun]
      exact ⟨h, .refl l⟩
    · rw [hRun]
      let l₁ := l.withClock { l.clock with now := timer.due, timers }
      have h₁ : Maintained π {} l₁ := hF.rewound h
        (fun t ht => hAll ▸ List.mem_cons_of_mem _ ht) rfl
      have hEndures := endures_withClock l { l.clock with now := timer.due, timers }
      obtain ⟨c, u, s, r, hTask, hu⟩ := h.alarms.timer timer (hAll ▸ List.mem_cons_self)
      have hLow : π.cap (l.dom.key r) ≤ n :=
        Nat.le_of_lt_succ (Nat.lt_of_lt_of_le (h.rigs.reads _ _ _ _ hu).2.2 (hRoom s))
      have hEnds := endGrace_rests client h₁ (hEndures.follower hu) hLow
      suffices hAfter : After ((Calls.upTo client (n + 1)).run timer.task >>= fun _ =>
          drain (Calls.upTo client (n + 1)) >>= fun _ =>
            Live.runDue (Calls.upTo client (n + 1)) limit k) l₁ fun _ l' => Rests π l l' from hAfter
      rw [hTask]
      refine After.bind (m := fun _ l₂ => Rests π l₁ l₂) hEnds fun _ l₂ hRests => ?_
      refine After.bind (drain_idle _ hRests.1.alarms.microtask) fun _ l₃ hSame => ?_
      rw [hSame]
      have hRests₂ : Rests π l l₂ := ⟨hRests.1, hEndures.trans hRests.2⟩
      exact (ih (hF.rests hRests₂ h.rooted.sound) hRests₂.1).mono fun _ _ => hRests₂.trans

/-- Time passes. -/
theorem Framed.advance (hF : Framed π l b) (h : Maintained π {} l)
    (hRoom : ∀ s, (π.role s).room ≤ n + 1) (delay : Nat) :
    After (Live.advance (Calls.upTo client (n + 1)) delay) l fun _ l' => Rests π l l' := by
  unfold Live.advance
  refine after_bind.mpr (after_get.mpr ?_)
  refine After.bind (drain_idle (Calls.upTo client (n + 1)) h.alarms.microtask) fun _ l₁ hSame => ?_
  rw [hSame]
  refine after_bind.mpr (after_get.mpr ?_)
  refine After.bind (hF.runDue hRoom _ _ h) fun _ l₁ hRests => ?_
  have h₁ := hRests.1
  refine ⟨(hF.rests hRests h.rooted.sound).rewound
    (K := { l₁.clock with now := l.clock.now + delay })
    h₁ (fun _ => id) rfl, hRests.2.trans (endures_withClock _ _)⟩

/-! ### An instance -/

/-- The places there are in a document that holds nothing else: in the document, in its root and in
its body, last or before what stands there. -/
def spots : List (NodeId × Option NodeRef) :=
  [(0, none), (0, some (.node 1)), (1, none), (1, some (.node 2)), (2, none)]

theorem Framed.of_spot {before : Option NodeRef} (hF : Framed π l b) (h : (m, before) ∈ spots) :
    m < 3 ∧ ∀ q, before = some q → q ∈ l.dom.kin (.node m) := by
  simp only [spots, List.mem_cons, Prod.mk.injEq, List.not_mem_nil, or_false] at h
  rcases h with ⟨rfl, rfl⟩ | ⟨rfl, rfl⟩ | ⟨rfl, rfl⟩ | ⟨rfl, rfl⟩ | ⟨rfl, rfl⟩
  · exact ⟨by decide, nofun⟩
  · exact ⟨by decide, fun q hq => Option.some.inj hq ▸ hF.root⟩
  · exact ⟨by decide, nofun⟩
  · exact ⟨by decide, fun q hq => Option.some.inj hq ▸ hF.body⟩
  · exact ⟨by decide, nofun⟩

section Instances

variable {i : Instance} {is : List Instruction} {given : SignalId → Role → Prop} {v : Value}

/-- An instance holds what it was made from, in a frame, and the signals that it was given have
roles that are known. -/
structure Carries (π : Plan) (l : Live κ σ) (i : Instance) (is : List Instruction)
    (given : SignalId → Role → Prop) (k : Nat) : Prop where
  frame : Framed π l i.box
  made : AllMade l i.scope (l.dom.kin (.container i.box)) is
  room : ∀ s, (π.role s).room ≤ k + 1
  low : π.cap 3 ≤ k
  given : ∀ s role, given s role → s < l.signals.size ∧ π.role s = role

/-- An instance lasts. -/
theorem Carries.led (hC : Carries π l i is given k) (hSound : l.dom.Sound)
    (hExtends : π.Extends π' l) (hEndures : Endures (fun _ => False) l l') :
    Carries π' l' i is given k where
  frame := hC.frame.led hSound hExtends hEndures
  made := by
    rw [(hEndures.box i.box hC.frame.box hC.frame.alone id).1]
    exact hEndures.allMade (fun _ _ _ _ => id) hC.made
  room := hExtends.room (k + 1) hC.room
  low := by
    have hBox := hSound.key_lt_size hC.frame.box
    rw [hC.frame.key] at hBox
    rw [hExtends.cap 3 hBox]
    exact hC.low
  given s role hs := by
    obtain ⟨hLt, hRole⟩ := hC.given s role hs
    exact ⟨Nat.lt_of_lt_of_le hLt hEndures.signals_size, (hExtends.role s hLt).trans hRole⟩

/-- An instance lasts while it comes to one of the first three nodes or leaves it. -/
theorem Carries.restocked (hC : Carries π l i is given k) (h : Maintained π P l) (hm : m < 3)
    (hR : Restocked l l' (.node m))
    (hKeeps : ∀ n < 3, .node n ∈ l.dom.kin (.node m) → .node n ∈ l'.dom.kin (.node m)) :
    Carries π l' i is given k where
  frame := hC.frame.restocked hR hKeeps
  made := hC.frame.allMade h hm hR hC.made
  room := hC.room
  low := hC.low
  given s role hs := by
    rw [hR.signals]
    exact hC.given s role hs

/-- The document of an instance is kept up to date. -/
def Upheld (values : Value → Prop) (l : Live κ σ) (i : Instance) (is : List Instruction)
    (given : SignalId → Role → Prop) (k : Nat) : Prop :=
  ∃ π : Plan, π.values = values ∧ Maintained π {} l ∧ Carries π l i is given k

variable {values : Value → Prop}

theorem Carries.upheld (hC : Carries π l i is given k) (hValues : π.values = values)
    (hSound : l.dom.Sound) (hLeads : Leads π {} l l') : Upheld values l' i is given k := by
  obtain ⟨π', hExtends, hEndures, h'⟩ := hLeads
  exact ⟨π', hExtends.values.trans hValues, h', hC.led hSound hExtends hEndures⟩

namespace Upheld

variable (h : Upheld values l i is given k)
include h

/-- A signal that was given is set. -/
theorem set (hs : given s { room := k + 1 }) (hv : values v) (hDeep : 3 * k + 4 ≤ n) :
    After (setSignal (Calls.upTo client n) s v) l fun _ l' => Upheld values l' i is given k := by
  obtain ⟨π, rfl, h, hC⟩ := h
  obtain ⟨hLt, hRole⟩ := hC.given s _ hs
  have hStale : Maintained π { ({} : Pending) with stale := fun d => False ∨ d = s } l :=
    h.relax (fun _ => id) (fun _ => id) (fun _ => id) (fun _ => False.elim) rfl rfl rfl rfl
      fun _ _ => id
  refine (sets client n π {} l s v hStale ?_).mono fun _ l' hLeads =>
    hC.upheld rfl h.rooted.sound (hLeads.imp fun _ h' => h'.unpin fun _ hv' => nomatch hv')
  exact {
    lt := hLt
    value := hv
    fixed := by rw [hRole]
    free := rfl
    frees := fun _ _ hv' => nomatch hv'
    source := fun t j f hIn => by
      obtain ⟨g, hg, hIn⟩ := mem_watchersOf.mp hIn
      have hRank := congrArg Role.rank (h.wires.roles t g j s f hg hIn).1
      rw [hRole] at hRank
      cases hRank
    owner := fun u hu => by
      rw [hRole] at hu
      cases hu
    under := Pending.under_nothing
    deep := by
      rw [hRole]
      change 3 * (k + 1) + 1 ≤ n + 0
      omega
    rank := by
      rw [hRole]
      exact ⟨by omega, Nat.zero_le 2⟩ }

/-- The instance is mounted. If it was not mounted before and was not destroyed, it is then. -/
theorem mount {before : Option NodeRef} (hSpot : (m, before) ∈ spots) (hDeep : 3 * k + 2 ≤ n) :
    After (mountInstance (Calls.upTo client (n + 1)) i (.node m) before).run l fun out l' =>
      Upheld values l' i is given k ∧ (l.stateOf (.container i.box) = .detached →
        out = .ok () ∧ l'.stateOf (.container i.box) = .attached) := by
  obtain ⟨π, rfl, h, hC⟩ := h
  have hLow := hC.low
  obtain ⟨hm, hBefore⟩ := hC.frame.of_spot hSpot
  refine (hC.frame.mount h hm hBefore (by omega)).mono fun out l' hMounted => ?_
  obtain ⟨hNot, rfl⟩ | ⟨hOut, d', hGains, hR, hLeads⟩ := hMounted
  · exact ⟨⟨π, rfl, h, hC⟩, fun hState => absurd hState hNot⟩
  · have hC' : Carries π (l.withDom d') i is given k := hC.restocked h hm hR fun n _ hn =>
      (hGains.mem_kin (hC.frame.known m hm)).mpr (.inr hn)
    refine ⟨hC'.upheld rfl hGains.sound hLeads, fun _ => ⟨hOut, ?_⟩⟩
    obtain ⟨π', hExtends, hEndures, h'⟩ := hLeads
    refine ((hC'.frame.led hGains.sound hExtends hEndures).attached_iff h').mpr ⟨m, hm, ?_⟩
    rw [hEndures.kin m (hC'.frame.known m hm) (hC'.frame.still m hm) id]
    exact (hGains.mem_kin (hC.frame.known m hm)).mpr (.inl ⟨rfl, rfl⟩)

/-- The instance is unmounted. -/
theorem unmount : After (detachIfAttached (Calls.upTo client (n + 1)) (.container i.box)).run l
    fun _ l' => Upheld values l' i is given k := by
  obtain ⟨π, rfl, h, hC⟩ := h
  refine (hC.frame.unmount h).mono fun _ l' hUnmounted => ?_
  obtain rfl | ⟨m, hm, d', hLoses, hR, hUnmoved, h'⟩ := hUnmounted
  · exact ⟨π, rfl, h, hC⟩
  · refine (hC.restocked h hm hR fun n _ hn => ?_).upheld rfl hLoses.sound
      ⟨π, .refl π _, hUnmoved.lasts, h'⟩
    exact (hLoses.mem_kin (hC.frame.known m hm)).mpr ⟨hn, nofun⟩

/-- Time passes. -/
theorem advance (hDeep : k ≤ n) (delay : Nat) :
    After (Live.advance (Calls.upTo client (n + 1)) delay) l fun _ l' =>
      Upheld values l' i is given k := by
  obtain ⟨π, rfl, h, hC⟩ := h
  refine (hC.frame.advance h
    (fun s => Nat.le_trans (hC.room s) (Nat.succ_le_succ hDeep)) delay).mono
    fun _ l' hRests => ?_
  exact hC.upheld rfl h.rooted.sound ⟨π, .refl π l, hRests.2, hRests.1⟩

end Upheld

end Instances

end LiveMarkup.Live

namespace LiveMarkup

/-! ## Names with values -/

namespace Fields

variable {α β : Type} (f : α → β)

theorem insert_map (name : String) (value : α) (fields : List (String × α)) :
    insert name (f value) (fields.map fun x => (x.1, f x.2)) =
      (insert name value fields).map fun x => (x.1, f x.2) := by
  induction fields with
  | nil => rfl
  | cons x fields ih =>
    rw [List.map_cons, insert, insert]
    split
    · rfl
    · split
      · rfl
      · rw [ih, List.map_cons]

theorem ofList_map (fields : List (String × α)) :
    ofList (fields.map fun x => (x.1, f x.2)) = (ofList fields).map fun x => (x.1, f x.2) := by
  have hFold : ∀ acc : List (String × α),
      (fields.map fun x => (x.1, f x.2)).foldl (fun acc x => insert x.1 x.2 acc)
        (acc.map fun x => (x.1, f x.2)) =
      (fields.foldl (fun acc x => insert x.1 x.2 acc) acc).map fun x => (x.1, f x.2) := by
    induction fields with
    | nil => exact fun _ => rfl
    | cons x fields ih =>
      intro acc
      rw [List.map_cons, List.foldl_cons, List.foldl_cons, ← ih, ← insert_map]
  exact hFold []

theorem get?_map (name : String) (fields : List (String × α)) :
    get? name (fields.map fun x => (x.1, f x.2)) = (get? name fields).map f := by
  induction fields with
  | nil => rfl
  | cons x fields ih =>
    rw [List.map_cons, get?, get?]
    split
    · rfl
    · exact ih

end Fields

/-! ## Cases -/

namespace Instruction

/-- The case that is shown is the first one that the value selects. -/
theorem htmlOfCase_eq (env : Env) (v : Value) (cases : List (Value × Instruction)) :
    htmlOfCase env v cases =
      (cases.findIdx? fun e => Live.selects e.1 v).bind fun arm =>
        cases[arm]?.map fun e => e.2.html env := by
  induction cases with
  | nil => rfl
  | cons e cases ih =>
    obtain ⟨case, body⟩ := e
    rw [htmlOfCase, List.findIdx?_cons]
    split
    · rfl
    · rw [ih, Option.bind_map]
      rfl

end Instruction

namespace Live

variable {κ σ : Type} {π : Plan} {l : Live κ σ}
variable {u : BindingId} {s item index : SignalId} {sink : Sink κ} {r : NodeRef}
variable {scope : Scope}

/-- The values of the names of a scope. -/
def Scope.env (scope : Scope) (l : Live κ σ) : Env := fun name =>
  (scope.lookup? name).map l.valueOf

/-- The names of an item and of its index have the values of the item and the index. -/
theorem Scope.env_binds (scope : Scope) (l : Live κ σ) (loop : Loop) (item index : SignalId) :
    (scope.extend (loop.binds item index)).env l =
      (scope.env l).extend (loop.binds (l.valueOf item) (l.valueOf index)) := by
  have hBinds : loop.binds (l.valueOf item) (l.valueOf index) =
      (loop.binds item index).map fun x => (x.1, l.valueOf x.2) := by
    simp [Loop.binds, Function.comp_def]
  funext name
  rw [Scope.env, Env.extend, hBinds, Fields.ofList_map, Fields.get?_map]
  change ((Fields.get? name _).or (scope.lookup? name)).map l.valueOf = _
  rw [Option.map_or]
  rfl

/-! ## Values of signals -/

section Values

variable (h : Maintained π {} l)
include h

theorem Maintained.valueOf_derived {f : Value → Value} (hDerives : Derives l s index f) :
    l.valueOf index = f (l.valueOf s) := by
  obtain ⟨n, hIn⟩ := hDerives
  obtain ⟨g, hg, hIn⟩ := mem_watchersOf.mp hIn
  obtain ⟨g', hg', -, hStale | hValue⟩ := h.wires.derived s g n index f hg hIn
  · exact hStale.elim
  · simp [valueOf, signal?, hg, hg', hValue]

theorem Maintained.valueOf_reads {source : ValueSource} (hReads : Reads l scope source s) :
    l.valueOf s = source.valueIn (scope.env l) := by
  obtain ⟨path, p, root, rfl, hParse, hRoot, hSteps⟩ := hReads
  have hValue : ValueSource.valueIn (scope.env l) (.reference path) =
      DataPath.follow (l.valueOf root) p.steps := by
    simp [ValueSource.valueIn, Env.read, hParse, Scope.env, hRoot]
  rw [hValue]
  rcases hSteps with ⟨hNil, rfl⟩ | ⟨-, hDerives⟩
  · rw [hNil]
    rfl
  · exact h.valueOf_derived hDerives

theorem Maintained.values_valueOf (hs : s < l.signals.size) : π.values (l.valueOf s) := by
  have hg : l.signals[s]? = some l.signals[s] := Array.getElem?_eq_getElem hs
  simpa [valueOf, signal?, hg] using h.wires.value s _ hg

theorem Maintained.valueOf_fixed {v : Value} (hs : s < l.signals.size)
    (hFixed : (π.role s).fixed = some v) : l.valueOf s = v := by
  have hg : l.signals[s]? = some l.signals[s] := Array.getElem?_eq_getElem hs
  simpa [valueOf, signal?, hg] using h.wires.fixed s _ v hg hFixed

end Values

/-! ## Containers -/

section Reached

variable (h : Maintained π {} l)
include h

theorem Maintained.known_of_reached (hReach : l.dom.Below (.node l.document) r) : l.dom.Known r :=
  h.rooted.sound.known_of_below h.known_document hReach

theorem Maintained.current_of_reached (hu : Keeper l u s sink r)
    (hReach : l.dom.Below (.node l.document) r) : sink.Current l none (l.valueOf s) := by
  obtain hUntold | hOn := h.upkeep.told _ _ _ _ hu hReach
  · exact hUntold.elim
  · rcases h.upkeep.current _ _ _ _ hu hOn with hNo | hNo | hNo | hCurrent
    · exact hNo.elim
    · exact hNo.elim
    · exact hNo.elim
    · exact hCurrent

/-- A container that reaches the document has the markup of what its follower shows. -/
theorem Maintained.html_box {c : ContainerId} (hu : Keeper l u s sink (.container c))
    (hReach : l.dom.Below (.node l.document) (.container c)) :
    l.dom.runHtml (.container c) =
      Instruction.boxHtml (String.join ((sink.shown l none none).map l.dom.runHtml)) := by
  have hKnown := h.known_of_reached hReach
  have hShape := h.shelves.shape _ _ _ _ hu (h.not_dead_of_below hReach)
  have hContent := h.rooted.sound.contentHtml_eq hKnown
  rw [Dom.runHtml_container l.dom (h.rooted.marked c hKnown .start (by decide))
    (h.rooted.marked c hKnown .finish (by decide)), Instruction.boxHtml, ← hShape, ← hContent]
  rfl

/-- What is shown in a container reaches the document with it. -/
theorem Maintained.reached_of_shown {c : ContainerId} {n : NodeRef}
    (hu : Keeper l u s sink (.container c))
    (hReach : l.dom.Below (.node l.document) (.container c)) (hn : n ∈ sink.shown l none none) :
    l.dom.Below (.node l.document) n := by
  rw [← h.shelves.shape _ _ _ _ hu (h.not_dead_of_below hReach)] at hn
  exact .kin hReach hn

end Reached

/-! ## What was made -/

theorem map_eq_map_of {α β γ δ : Type} {f : α → γ} {g : β → γ} {p : α → δ} {q : β → δ}
    {xs : List α} {ys : List β} (h : xs.map f = ys.map g)
    (hAll : ∀ x ∈ xs, ∀ y ∈ ys, f x = g y → p x = q y) : xs.map p = ys.map q := by
  induction xs generalizing ys with
  | nil =>
    obtain rfl := List.map_eq_nil_iff.mp h.symm
    rfl
  | cons x xs ih =>
    obtain ⟨y, ys, rfl, hy, hRest⟩ := List.map_eq_cons_iff.mp h.symm
    rw [List.map_cons, List.map_cons, hAll x List.mem_cons_self y List.mem_cons_self hy.symm,
      ih hRest.symm fun x hx y hy =>
      hAll x (List.mem_cons_of_mem _ hx) y (List.mem_cons_of_mem _ hy)]

/-- What was made from an instruction and reaches the document has its markup. -/
def Mirrors (l : Live κ σ) (i : Instruction) : Prop :=
  ∀ scope r, MadeOf l scope r i → l.dom.Below (.node l.document) r →
    l.dom.runHtml r = i.html (scope.env l)

section Mirrors

variable (h : Maintained π {} l)
include h

theorem Maintained.mirrors_element {tag : String} {operations : List LiveMarkup.Operation}
    {children : List Instruction}
    (hChildren : ∀ scope rs, AllMade l scope rs children →
      (∀ r ∈ rs, l.dom.Below (.node l.document) r) →
        String.join (rs.map l.dom.runHtml) = Instruction.htmlOfAll (scope.env l) children) :
    Mirrors l (.element tag operations children) := by
  intro scope r hMade hReach
  obtain ⟨n, rfl, hKnown, -, hLabel, hRest⟩ := hMade
  have hContent : l.dom.innerHtml n = String.join ((l.dom.kin (.node n)).map l.dom.runHtml) :=
    h.rooted.sound.contentHtml_eq hKnown
  rw [Dom.runHtml_node, Dom.outerHtml_element h.rooted.sound.linked hLabel, hContent,
    hChildren scope _ hRest fun r hr => .kin hReach hr]
  rfl

omit h in
theorem mirrors_text (l : Live κ σ) (value : String) : Mirrors l (.text value) := by
  intro scope r hMade _
  obtain ⟨n, rfl, -, -, hLabel⟩ := hMade
  rw [Dom.runHtml_node, Dom.outerHtml_text hLabel]
  rfl

theorem Maintained.mirrors_dynamicText (source : ValueSource) :
    Mirrors l (.dynamicText source) := by
  intro scope r hMade hReach
  obtain ⟨u, s, p, hu, hReads⟩ := hMade
  obtain ⟨n, rfl, hp⟩ := id hu.2.2
  have hLabel := h.current_of_reached hu hReach _ hp
  rw [Dom.runHtml_node, Dom.outerHtml_text hLabel, h.valueOf_reads hReads]
  rfl

theorem Maintained.mirrors_conditional {condition : ValueSource} {body : Instruction}
    (hBody : Mirrors l body) : Mirrors l (.conditional condition body) := by
  intro scope r hMade hReach
  obtain ⟨u, s, c, x, hosted, hu, hReads, hx, hFactory⟩ := hMade
  obtain ⟨y, hy, rfl⟩ := id hu.2.2
  cases hx.symm.trans hy
  obtain ⟨hVisible, hChild⟩ := h.current_of_reached hu hReach x hx
  rw [h.html_box hu hReach, Instruction.html, ← h.valueOf_reads hReads, ← hVisible]
  congr 1
  have hShown : Sink.shown l none none (.conditional c) =
      if x.visible then x.child.toList else [] := by
    simp only [Sink.shown, hx]
  split
  case isFalse hOff =>
    rw [hShown, if_neg hOff]
    rfl
  case isTrue hOn =>
    obtain ⟨n, hn⟩ := Option.isSome_iff_exists.mp (hChild hOn)
    rw [if_pos hOn, hn] at hShown
    have hReached := h.reached_of_shown hu hReach (n := n) (by simp [hShown])
    obtain ⟨body', scope', hosted', hBuilds, hMade⟩ :=
      h.shelves.child _ _ _ _ _ _ hu hx hn (h.not_dead_of_below hReached)
    cases hFactory.symm.trans hBuilds
    simp [hShown, hBody scope n hMade hReached]

theorem Maintained.mirrors_loop {loop : Loop} {body : Instruction}
    (hKeys : ∀ v w, π.values v → π.values w → v.key = w.key → v = w)
    (hBody : Mirrors l body) : Mirrors l (.forLoop loop body) := by
  intro scope r hMade hReach
  obtain ⟨u, s, c, x, hosted, hu, hReads, hx, hFactory⟩ := hMade
  obtain ⟨y, hy, rfl⟩ := id hu.2.2
  cases hx.symm.trans hy
  have hCurrent := h.current_of_reached hu hReach x hx
  have hShown : Sink.shown l none none (.series c) = x.items.map (·.node) := by
    simp [Sink.shown, hx]
  have hList : π.values (l.valueOf s) := h.values_valueOf (h.rigs.reads _ _ _ _ hu).1
  rw [h.html_box hu hReach, Instruction.html, ← h.valueOf_reads hReads, hShown, List.map_map]
  congr 2
  refine map_eq_map_of hCurrent fun item hItem e he hEq => ?_
  obtain ⟨v, index⟩ := e
  obtain ⟨hKey, hIndex⟩ := Prod.mk.inj hEq
  have hReached : l.dom.Below (.node l.document) item.node :=
    h.reached_of_shown hu hReach (hShown ▸ List.mem_map_of_mem hItem)
  obtain ⟨loop', body', scope', hosted', index', value, w, hBuilds, hFixed, hValue, hSame, hDerives,
    hMade⟩ := h.shelves.item _ _ _ _ _ _ hu hx (List.mem_append_left _ hItem)
      (h.not_dead_of_below hReached)
  cases hFactory.symm.trans hBuilds
  have hFixedValue := h.valueOf_fixed hValue hFixed
  have hw : π.values w := hFixedValue ▸ h.values_valueOf hValue
  have hv : π.values v := h.closed.item _ hList v (List.fst_mem_of_mem_zipIdx he)
  obtain rfl := hKeys w v hw hv (hSame.trans hKey)
  change l.dom.runHtml item.node = _
  rw [hBody _ _ hMade hReached, Scope.env_binds, hFixedValue, h.valueOf_derived hDerives, hIndex]
  rfl

omit h in
/-- The arm for a value has the markup that the instruction of the switch has for it. -/
theorem html_of_arm {x : Switch κ} {hosted : Bool} {cases : List (Value × Instruction)}
    {default : Option Instruction}
    (hArms : x.cases = cases.map fun e => (e.1, NodeFactory.body e.2 scope hosted))
    (hElse : x.default = default.map fun body => NodeFactory.body body scope hosted)
    (env : Env) (v : Value) :
    (∃ arm body, x.armFor? v = some arm ∧ x.factory? arm = some (.body body scope hosted) ∧
      ((∃ e ∈ cases, e.2 = body) ∨ body ∈ default) ∧
        (Instruction.htmlOfCase env v cases).getD (Instruction.htmlOfDefault env default) =
          body.html env) ∨
    x.armFor? v = none ∧
      (Instruction.htmlOfCase env v cases).getD (Instruction.htmlOfDefault env default) = "" := by
  rw [Instruction.htmlOfCase_eq]
  unfold Switch.armFor? Switch.factory?
  rw [hArms, hElse, List.findIdx?_map]
  change (∃ arm body, ((cases.findIdx? fun e => selects e.1 v).or _) = _ ∧ _) ∨
    ((cases.findIdx? fun e => selects e.1 v).or _) = _ ∧ _
  cases hFind : cases.findIdx? fun e => selects e.1 v with
  | some arm =>
    have hLt := (List.findIdx?_eq_some_iff_getElem.mp hFind).1
    exact .inl ⟨arm, cases[arm].2, by simp, by simp [hLt], .inl ⟨_, List.getElem_mem hLt, rfl⟩, by
      simp [hLt]⟩
  | none =>
    cases default with
    | none => exact .inr ⟨rfl, rfl⟩
    | some body =>
      exact .inl ⟨cases.length, body, by simp, by simp, .inr rfl, rfl⟩

theorem Maintained.mirrors_switch {value : ValueSource} {cases : List (Value × Instruction)}
    {default : Option Instruction} (hCases : ∀ e ∈ cases, Mirrors l e.2)
    (hDefault : ∀ body ∈ default, Mirrors l body) : Mirrors l (.switch value cases default) := by
  intro scope r hMade hReach
  obtain ⟨u, s, c, x, hosted, hu, hReads, hx, hArms, hElse⟩ := hMade
  obtain ⟨y, hy, rfl⟩ := id hu.2.2
  cases hx.symm.trans hy
  obtain ⟨hActive, hBuilt⟩ := h.current_of_reached hu hReach x hx
  have hShown : Sink.shown l none none (.switch c) =
      ((x.armFor? (l.valueOf s)).bind x.built?).toList := by
    simp only [Sink.shown, hx, Option.bind_some, ← hActive]
  rw [h.html_box hu hReach, Instruction.html, ← h.valueOf_reads hReads, hShown]
  congr 1
  rcases html_of_arm hArms hElse (scope.env l) (l.valueOf s) with
    ⟨arm, body, hArm, hFactory, hBody, hHtml⟩ | ⟨hNone, hHtml⟩
  · obtain ⟨n, hn⟩ := Option.isSome_iff_exists.mp (hBuilt arm hArm)
    have hNode : (x.armFor? (l.valueOf s)).bind x.built? = some n := by
      rw [hArm, Option.bind_some, hn]
    rw [hNode] at hShown
    have hReached := h.reached_of_shown hu hReach (n := n) (by simp [hShown])
    have hIn : (arm, n) ∈ x.built := Switch.mem_built_of_built? hn
    obtain ⟨body', scope', hosted', hBuilds, hMade⟩ :=
      h.shelves.arm _ _ _ _ _ _ _ hu hx hIn (h.not_dead_of_below hReached)
    cases hFactory.symm.trans hBuilds
    have hMirrors : Mirrors l body := by
      rcases hBody with ⟨e, he, rfl⟩ | hBody
      · exact hCases e he
      · exact hDefault body hBody
    rw [hNode, hHtml, ← hMirrors scope n hMade hReached]
    simp
  · rw [hNone, hHtml]
    rfl

end Mirrors

mutual

/-- What was made from an instruction has its markup where it reaches the document. -/
theorem Maintained.mirrors (h : Maintained π {} l)
    (hKeys : ∀ v w, π.values v → π.values w → v.key = w.key → v = w) :
    ∀ i : Instruction, Mirrors l i
  | .element _ _ children => h.mirrors_element fun _ _ => h.html_allMade hKeys children
  | .text value => mirrors_text l value
  | .dynamicText source => h.mirrors_dynamicText source
  | .conditional _ body => h.mirrors_conditional (h.mirrors hKeys body)
  | .forLoop _ body => h.mirrors_loop hKeys (h.mirrors hKeys body)
  | .switch _ cases default =>
    h.mirrors_switch (h.mirrors_cases hKeys cases) (h.mirrors_default hKeys default)

/-- What was made from instructions, in order, has their markup where it reaches the document. -/
theorem Maintained.html_allMade (h : Maintained π {} l)
    (hKeys : ∀ v w, π.values v → π.values w → v.key = w.key → v = w) :
    ∀ (is : List Instruction) {scope : Scope} {rs : List NodeRef}, AllMade l scope rs is →
      (∀ r ∈ rs, l.dom.Below (.node l.document) r) →
        String.join (rs.map l.dom.runHtml) = Instruction.htmlOfAll (scope.env l) is
  | [], _, _, hMade, _ => by
    rw [AllMade] at hMade
    rw [hMade, Instruction.htmlOfAll]
    rfl
  | i :: is, scope, _, hMade, hReach => by
    rw [AllMade] at hMade
    obtain ⟨r, rest, rfl, hFirst, hRest⟩ := hMade
    obtain ⟨hReached, hReach⟩ := List.forall_mem_cons.mp hReach
    rw [List.map_cons, String.join_cons, Instruction.htmlOfAll,
      h.mirrors hKeys i scope r hFirst hReached, h.html_allMade hKeys is hRest hReach]

theorem Maintained.mirrors_cases (h : Maintained π {} l)
    (hKeys : ∀ v w, π.values v → π.values w → v.key = w.key → v = w) :
    ∀ (cases : List (Value × Instruction)), ∀ e ∈ cases, Mirrors l e.2
  | [], _, he => by cases he
  | (_, body) :: rest, e, he => by
    rcases List.mem_cons.mp he with rfl | he
    · exact h.mirrors hKeys body
    · exact h.mirrors_cases hKeys rest e he

theorem Maintained.mirrors_default (h : Maintained π {} l)
    (hKeys : ∀ v w, π.values v → π.values w → v.key = w.key → v = w) :
    ∀ (default : Option Instruction), ∀ body ∈ default, Mirrors l body
  | none, _, hBody => by cases hBody
  | some body, _, hBody => Option.some.inj hBody ▸ h.mirrors hKeys body

end

/-! ## Instances -/

section Instances

variable {values : Value → Prop} {i : Instance} {is : List Instruction}
variable {given : SignalId → Role → Prop} {k : Nat}

/-- An instance that is mounted has the markup of what it was made from. -/
theorem Upheld.html_eq (h : Upheld values l i is given k)
    (hKeys : ∀ v w, values v → values w → v.key = w.key → v = w)
    (hState : l.stateOf (.container i.box) = .attached) :
    l.dom.spanHtml i.box = Instruction.htmlOfAll (i.scope.env l) is := by
  obtain ⟨π, rfl, h, hC⟩ := h
  obtain ⟨m, hm, hIn⟩ := (hC.frame.attached_iff h).mp hState
  have hReach := hC.frame.reached_of_kin h hm hIn
  have hContent := h.rooted.sound.contentHtml_eq hC.frame.box
  rw [← h.html_allMade hKeys is hC.made fun r hr => .kin hReach hr, ← hContent]
  rfl

theorem Upheld.values_valueOf {role : Role} (h : Upheld values l i is given k) (hs : given s role) :
    values (l.valueOf s) := by
  obtain ⟨π, rfl, h, hC⟩ := h
  exact h.values_valueOf (hC.given s role hs).1

theorem Upheld.valueOf_fixed {role : Role} {v : Value} (h : Upheld values l i is given k)
    (hs : given s role) (hv : role.fixed = some v) : l.valueOf s = v := by
  obtain ⟨π, -, h, hC⟩ := h
  obtain ⟨hLt, hRole⟩ := hC.given s role hs
  exact h.valueOf_fixed hLt (by rw [hRole, hv])

end Instances

end Live

end LiveMarkup
