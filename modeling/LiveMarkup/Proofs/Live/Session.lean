import LiveMarkup.Proofs.Dom.Making
import LiveMarkup.Proofs.Live.Bound
import LiveMarkup.Proofs.Live.Wired

/-!
# Sessions

A client works on a forest of nodes and containers: it observes them, puts hooks on them, binds
feeds to them and attaches, detaches, moves and destroys them. Its hooks may cancel, but call
nothing.

* `Orderly`: what holds between any two deeds of a session;
* `Orderly.step`, `Run.orderly`: one deed keeps order, and so does a whole run;
* `Run.in_order`: states, reports and bindings after a run that began with nothing observed;
* `Run.active_iff_connected`: which bindings are active then, and `remounted_active`: that a hook of
  a conditional leaves another one active.
-/

namespace LiveMarkup.Live

variable {κ σ : Type} {client : Client κ σ}

/-! ## Deeds -/

/-- What a client does in a session. -/
inductive Deed (κ : Type) where
  | observe (r : NodeRef)
  | hook (o : ObserverId) (kind : EventKind) (k : κ)
  | bind (r : NodeRef) (feed : Feed κ) (held : Bool)
  | switchOn (b : BindingId)
  | switchOff (b : BindingId)
  | attach (r parent : NodeRef) (before : Option NodeRef)
  | detach (r : NodeRef)
  | destroy (r : NodeRef)
  | moveTo (r parent : NodeRef) (before : Option NodeRef)
  | attachAnywhere (r parent : NodeRef) (before : Option NodeRef)
  | detachIfAttached (r : NodeRef)
  | destroyFully (r : NodeRef)

/-- A live document, the bindings that were made on it with their hosts, and those bindings that
were switched by hand. -/
structure Session (κ σ : Type) where
  live : Live κ σ
  bound : List (BindingId × NodeRef) := []
  byHand : List BindingId := []

namespace Session

/-- The session after an operation that makes no binding. -/
def after {α : Type} (s : Session κ σ) (op : Act κ σ α) : Session κ σ :=
  { s with live := (op.run.run s.live).2 }

/-- Does a deed. -/
def step (calls : Calls κ σ) (s : Session κ σ) : Deed κ → Session κ σ
  | .observe r => s.after (Live.observe r)
  | .hook o kind k => s.after (sure (addHook o kind (.client k)))
  | .bind r feed held =>
    match (Live.bind calls r feed held).run.run s.live with
    | (.ok b, live) => { s with live, bound := s.bound ++ [(b, r)] }
    | (.error _, live) => { s with live }
  | .switchOn b => { s.after (activateBinding calls b) with byHand := b :: s.byHand }
  | .switchOff b => { s.after (sure (Live.switchOff b)) with byHand := b :: s.byHand }
  | .attach r parent before => s.after (Live.attach calls r parent before)
  | .detach r => s.after (Live.detach calls r)
  | .destroy r => s.after (Live.destroy calls r)
  | .moveTo r parent before => s.after (Live.moveTo calls r parent before)
  | .attachAnywhere r parent before => s.after (Live.attachAnywhere calls r parent before)
  | .detachIfAttached r => s.after (Live.detachIfAttached calls r)
  | .destroyFully r => s.after (Live.destroyFully calls r)

end Session

/-- A node or container that may be moved about: it is there, and is not the document itself. -/
def Movable (l : Live κ σ) (r : NodeRef) : Prop :=
  l.dom.Known r ∧ r ≠ .node l.document

/-- A node or container may be put into another one that is not inside it. -/
def MovableInto (l : Live κ σ) (r parent : NodeRef) : Prop :=
  l.Movable r ∧ l.dom.Known parent ∧ ¬ l.dom.Inside r (l.dom.key parent)

/-- Deeds are about nodes and containers that are there. None is put into what is inside it, the
document is not moved, and what bindings feed calls nothing. -/
def Deed.Proper (l : Live κ σ) : Deed κ → Prop
  | .observe r => l.dom.Known r
  | .hook _ _ _ => True
  | .bind r feed _ => l.dom.Known r ∧ feed.Quiet
  | .switchOn _ => True
  | .switchOff _ => True
  | .attach r parent _ => r = .node l.document ∨ l.MovableInto r parent
  | .detach r => l.Movable r
  | .destroy r => r = .node l.document ∨ l.Movable r
  | .moveTo r parent _ => l.MovableInto r parent
  | .attachAnywhere r parent _ => l.MovableInto r parent
  | .detachIfAttached r => l.Movable r
  | .destroyFully r => l.Movable r

/-- The sessions that come out of one by proper deeds. -/
inductive Run (calls : Calls κ σ) (s₀ : Session κ σ) : Session κ σ → Prop where
  | start : Run calls s₀ s₀
  | step {s : Session κ σ} (h : Run calls s₀ s) (d : Deed κ) (hProper : d.Proper s.live) :
      Run calls s₀ (s.step calls d)

/-! ## Order -/

/-- Tree, tables, observers and bindings agree. -/
structure Orderly (s : Session κ σ) : Prop where
  observed : s.live.Observed
  wired : ∃ hosts, Wired s.live hosts s.byHand ∧ ∀ x ∈ s.bound, hosts[x.1]? = some x.2

/-- A document on which nothing is observed and nothing is bound. -/
structure Unobserved (l : Live κ σ) : Prop where
  sound : l.dom.Sound
  plain : l.dom.Plain l.document
  top : l.dom.parent? l.document = none
  tracked : ∀ n, l.trackedOf n = {}
  observers : l.observers = #[]
  bindings : l.bindings = #[]
  subscriptions : l.subscriptions = #[]

namespace Unobserved

variable {l : Live κ σ} (h : l.Unobserved)
include h

theorem core?_eq_none (o : ObserverId) : l.core? o = none := by
  simp [core?, observer?, h.observers]

theorem observed : l.Observed where
  sound := h.sound
  plain := h.plain
  top := h.top
  settled n := .inl (by rw [h.tracked])
  lasting := by rw [h.tracked]
  buried n hn := by
    rw [h.tracked] at hn
    cases hn
  known o x hx := by
    rw [h.core?_eq_none] at hx
    cases hx
  kept o x hx := by
    rw [h.core?_eq_none] at hx
    cases hx
  ended o x hx := by
    rw [h.core?_eq_none] at hx
    cases hx
  tracked n o ho := by
    rw [h.tracked] at ho
    cases ho
  reports o x hx := by
    rw [h.core?_eq_none] at hx
    cases hx

theorem wired : Wired l [] [] where
  own b x hx := by simp [binding?, h.bindings] at hx
  feeds s feed hFeed := by simp [feed?, subscription?, h.subscriptions] at hFeed
  fits o x hx := by
    rw [h.core?_eq_none] at hx
    cases hx
  bindings_size := by simp [h.bindings]
  subscriptions_size := by simp [h.subscriptions]
  unique o o' x x' hx := by
    rw [h.core?_eq_none] at hx
    cases hx
  hosted b r hb := by cases hb
  serves b r hb := by cases hb
  lasting b r hb := by cases hb
  ended b r hb := by cases hb
  agrees b r hb := by cases hb

/-- A session on such a document begins in order. -/
theorem orderly : Orderly { live := l : Session κ σ } :=
  ⟨h.observed, [], h.wired, fun _ hx => by cases hx⟩

end Unobserved

theorem create_unobserved (config : Config) (c : σ) :
    (create config c : Live κ σ).Unobserved := by
  let d : Dom := (((({} : Dom).create .document).1.createElement "html").1.createElement "body").1
  have hd : d.Sound := ((Dom.sound_empty.create _).create _).create _
  have hPlain : ∀ n : NodeId, n < 3 → d.Plain n := fun n hn => ⟨hn, fun c hc => by cases hc⟩
  have hHtml : d.insertUnder (.node 0) 1 none = .ok (d.append 0 1) := rfl
  have hBody : (d.append 0 1).insertUnder (.node 1) 2 none = .ok ((d.append 0 1).append 1 2) := rfl
  have hDocument : d.Known (.node 0) := hPlain 0 (by decide)
  obtain ⟨hd₁, hParts₁, _⟩ := hd.insertUnder (hPlain 1 (by decide)) hDocument (by
    rw [Dom.inside_node]
    exact fun hUp => absurd (hUp.eq_of_parent_none rfl) (by decide)) hHtml
  have hPlain₁ : ∀ n : NodeId, n < 3 → (d.append 0 1).Plain n := fun n hn =>
    hParts₁.plain_iff.mpr (hPlain n hn)
  have hElement : (d.append 0 1).Known (.node 1) := hPlain₁ 1 (by decide)
  obtain ⟨hd₂, hParts₂, _⟩ := hd₁.insertUnder (hPlain₁ 2 (by decide)) hElement (by
    rw [Dom.inside_node]
    intro hUp
    rcases hUp.cases_first with hEq | ⟨p, hp, hUp⟩
    · cases hEq
    · obtain rfl : 0 = p := Option.some.inj hp
      exact absurd (hUp.eq_of_parent_none rfl) (by decide)) hBody
  exact ⟨hd₂, hParts₂.plain_iff.mpr (hPlain₁ 0 (by decide)), rfl, fun _ => rfl, rfl, rfl, rfl⟩

namespace Unobserved

variable {l : Live κ σ} (h : l.Unobserved)
include h

theorem withDom {d : Dom} (hSound : d.Sound) (hPlain : d.Plain l.document)
    (hTop : d.parent? l.document = none) : (l.withDom d).Unobserved :=
  ⟨hSound, hPlain, hTop, h.tracked, h.observers, h.bindings, h.subscriptions⟩

theorem makeContainer : (l.withDom l.dom.createContainer.1).Unobserved :=
  h.withDom h.sound.createContainer ((Dom.grown_createContainer _).plain h.plain)
    (((Dom.grown_createContainer l.dom).parent_eq _).trans h.top)

end Unobserved

/-! ## Transitions one after the other -/

theorem Carried.movable {l l' : Live κ σ} {r : NodeRef} (h : Carried l l' r)
    (hr : l.Movable r) : l'.Movable r := by
  refine ⟨h.parts.known_iff.mpr hr.1, ?_⟩
  rw [h.document]
  exact hr.2

theorem Carried.movableInto {l l' : Live κ σ} {r parent : NodeRef} (h : Carried l l' r)
    (hr : l.MovableInto r parent) : l'.MovableInto r parent := by
  refine ⟨h.movable hr.1, h.parts.known_iff.mpr hr.2.1, ?_⟩
  rw [h.inside, h.parts.key]
  exact hr.2.2

theorem stateOf_document (l : Live κ σ) : l.stateOf (.node l.document) = .attached :=
  if_pos rfl

theorem attach_document (l : Live κ σ) (calls : Calls κ σ) (parent : NodeRef)
    (before : Option NodeRef) :
    After (attach calls (.node l.document) parent before).run l fun _ l' => l' = l := by
  unfold attach
  refine After.ensureLive (fun _ => rfl) fun _ => After.needState (fun _ => rfl) fun hState => ?_
  rw [stateOf_document] at hState
  cases hState

theorem destroy_document (l : Live κ σ) (calls : Calls κ σ) :
    After (destroy calls (.node l.document)).run l fun _ l' => l' = l := by
  unfold destroy
  refine After.ensureLive (fun _ => rfl) fun _ => After.needState (fun _ => rfl) fun hState => ?_
  rw [stateOf_document] at hState
  cases hState

namespace Observed

variable {l : Live κ σ} {r parent : NodeRef} {before : Option NodeRef}
variable {hosts : List NodeRef} {byHand : List BindingId}
variable (hO : l.Observed) (hW : Wired l hosts byHand) (hClient : client.Quiet) (depth : Nat)
include hO hW hClient

theorem detachIfAttached (hr : l.Movable r) :
    After (detachIfAttached (Calls.upTo client (depth + 2)) r).run l fun _ l' =>
      l'.Observed := by
  refine After.get_act ?_
  split
  · exact (hO.detach hClient depth hW.quietFor hr.1 hr.2).mono fun _ _ h => h.toObserved
  · exact hO

theorem attachAnywhere (hr : l.MovableInto r parent) :
    After (attachAnywhere (Calls.upTo client (depth + 2)) r parent before).run l fun _ l' =>
      l'.Observed := by
  refine After.get_act ?_
  split
  · exact (hO.attach hClient depth hW.quietFor hr.1.1 hr.1.2 hr.2.1 hr.2.2).mono
      fun _ _ h => h.toObserved
  · split
    · have hDetach := (hO.detach hClient depth hW.quietFor hr.1.1 hr.1.2).and
        (((Wired.stepwise hClient depth).detach r).keeps l hW)
      refine After.act_bind hDetach ?_ fun _ _ h => h.1.toObserved
      rintro _ l₁ ⟨hCarried, hW₁⟩
      have hr₁ := hCarried.movableInto hr
      refine After.get_act ?_
      split
      · exact (hCarried.attach hClient depth hW₁.quietFor hr₁.1.1 hr₁.1.2 hr₁.2.1 hr₁.2.2).mono
          fun _ _ h => h.toObserved
      · exact hCarried.toObserved
    · exact hO
  · exact hO

theorem destroyFully (hr : l.Movable r) :
    After (destroyFully (Calls.upTo client (depth + 2)) r).run l fun _ l' => l'.Observed := by
  refine After.get_act ?_
  split
  · exact hO
  · exact hO
  · have hDetach := (hO.detach hClient depth hW.quietFor hr.1 hr.2).and
      (((Wired.stepwise hClient depth).detach r).keeps l hW)
    refine After.act_bind hDetach ?_ fun _ _ h => h.1.toObserved
    rintro _ l₁ ⟨hCarried, hW₁⟩
    have hr₁ := hCarried.movable hr
    refine After.get_act ?_
    split
    · exact (hCarried.destroy hClient depth hW₁.quietFor hr₁.1 hr₁.2).mono
        fun _ _ h => h.toObserved
    · exact hCarried.toObserved
  · exact (hO.destroy hClient depth hW.quietFor hr.1 hr.2).mono fun _ _ h => h.toObserved

end Observed

/-! ## Observing and binding -/

section Observing

variable {l : Live κ σ} {r : NodeRef} {hosts : List NodeRef} {byHand : List BindingId}
variable (hO : l.Observed) (hW : Wired l hosts byHand)
include hO hW

theorem observe_orderly (hr : l.dom.Known r) : After (observe r).run l fun out l' =>
    l'.Observed ∧ Wired l' hosts byHand ∧ ∀ o, out = .ok o →
      ∃ x, l'.core? o = some x ∧ x.target = r := by
  refine (observe_cases l r).mono ?_
  rintro out l' (⟨_, rfl, rfl⟩ | ⟨o, rfl, _, ho, hAlike, hBindings, hSubscriptions⟩ |
    ⟨rfl, ⟨hState, hJoined⟩ | ⟨hState, hNone, hJoined⟩⟩)
  · exact ⟨hO, hW, fun o ho => by cases ho⟩
  · refine ⟨hO.alike hAlike,
      hW.congr hAlike.core_eq (SameSwitches.of_eq hBindings hSubscriptions), fun p hp => ?_⟩
    obtain rfl := Except.ok.inj hp
    obtain ⟨x, hx, hTarget, _⟩ := hO.target_of_tracked hr ho
    exact ⟨x, (hAlike.core_eq o).trans hx, hTarget⟩
  · have hAlone := hO.alone_of_destroyed hState
    refine ⟨hO.joined hr hJoined hAlone (iff_of_true rfl hState) fun hNe => absurd rfl hNe,
      hW.joined hJoined hAlone, fun p hp => ?_⟩
    obtain rfl := Except.ok.inj hp
    exact ⟨_, by rw [hJoined.core, if_pos rfl], rfl⟩
  · have hAlone := hO.alone_of_none hState hNone (l.joining r)
    refine ⟨hO.joined hr hJoined hAlone (iff_of_false (joining_ne l r) hState) fun _ => ?_,
      hW.joined hJoined hAlone, fun p hp => ?_⟩
    · unfold joining
      split <;> simp_all
    · obtain rfl := Except.ok.inj hp
      exact ⟨_, by rw [hJoined.core, if_pos rfl], rfl⟩

theorem addHook_orderly (o : ObserverId) (kind : EventKind) (k : κ) :
    After (addHook o kind (.client k)) l fun _ l' => l'.Observed ∧ Wired l' hosts byHand := by
  refine (addHook_turned l o kind (.client k)).mono ?_
  rintro n l' ⟨hTurned, hBindings, hSubscriptions⟩
  refine ⟨hO.hooked hTurned.document hTurned.dom (fun n => ?_) hTurned.core,
    hW.hooked hTurned (SameSwitches.of_eq hBindings hSubscriptions)⟩
  simp only [trackedOf, hTurned.tracked]

theorem bind_orderly (hClient : client.Quiet) (depth : Nat) {feed : Feed κ} (hFeed : feed.Quiet)
    (held : Bool) (hr : l.dom.Known r) :
    After (bind (Calls.upTo client (depth + 2)) r feed held).run l fun out l' =>
      l'.Observed ∧ ((∃ e, out = .error e) ∧ Wired l' hosts byHand ∨
        out = .ok hosts.length ∧ Wired l' (hosts ++ [r]) byHand) := by
  refine After.bind_tie (observe_orderly hO hW hr)
    (fun e l₁ h₁ => ⟨h₁.1, .inl ⟨⟨e, rfl⟩, h₁.2.1⟩⟩)
    (fun _ l₁ h₁ => ⟨h₁.1, .inl ⟨⟨_, rfl⟩, h₁.2.1⟩⟩) ?_
  rintro o l₁ ⟨hO₁, hW₁, hObserver⟩ hStatus
  obtain ⟨x, hx, rfl⟩ := hObserver o rfl
  have hSizes := hW₁.subscriptions_size.trans hW₁.bindings_size.symm
  refine (tie_tied hClient depth hFeed held hSizes o).mono ?_
  rintro b l₂ ⟨rfl, hTied⟩
  rw [statusOf_eq hx] at hStatus hTied
  obtain ⟨n, m, k, hCore⟩ := hTied.core
  refine ⟨hO₁.hooked hTied.document hTied.dom hTied.tracked hCore, .inr ⟨?_, ?_⟩⟩
  · rw [hW₁.bindings_size]
  · exact hW₁.bound hx hStatus hFeed hTied

omit hO in
theorem Wired.handed (b : BindingId) : Wired l hosts (b :: byHand) where
  toPlugged := hW.toPlugged
  bindings_size := hW.bindings_size
  subscriptions_size := hW.subscriptions_size
  unique := hW.unique
  hosted := hW.hosted
  serves := hW.serves
  lasting := hW.lasting
  ended := hW.ended
  agrees c r hc hHand := hW.agrees c r hc fun hMem => hHand (List.mem_cons_of_mem _ hMem)

theorem switchOn_orderly (hClient : client.Quiet) (depth : Nat) (b : BindingId) :
    After (activateBinding (Calls.upTo client (depth + 2)) b).run l fun _ l' =>
      l'.Observed ∧ Wired l' hosts (b :: byHand) := by
  unfold activateBinding
  refine After.get_act ?_
  dsimp only
  split
  · rw [after_act_throw_bind]
    exact ⟨hO, hW.handed b⟩
  have hQuiet : (Hook.switchOn b : Hook κ).Quiet l :=
    Hook.quiet_switchOn.mpr fun x _ feed hFeed => hW.feeds _ feed hFeed
  rw [after_lift]
  refine (switchOn_quiet hClient (depth + 1) hQuiet).mono ?_
  rintro _ l' ⟨hCalm, hState⟩
  exact ⟨hO.alike (Changed.alike_of_calm hCalm), hW.switched hCalm rfl
    (fun _ => ⟨true, by simp [Hook.leaves]⟩) (by simp [Hook.leaves]) (hState hW.own)⟩

theorem switchOff_orderly (b : BindingId) :
    After (switchOff b) l fun _ l' => l'.Observed ∧ Wired l' hosts (b :: byHand) := by
  refine (switchOff_quiet (.of_slight trivial)).mono ?_
  rintro _ l' ⟨hCalm, hState⟩
  exact ⟨hO.alike (Changed.alike_of_calm hCalm), hW.switched hCalm rfl
    (fun _ => ⟨false, by simp [Hook.leaves]⟩) (by simp [Hook.leaves]) (hState hW.own)⟩

end Observing

/-! ## Runs -/

theorem Orderly.after {α : Type} {s : Session κ σ} {op : Act κ σ α} (hs : Orderly s)
    (hObserved : After op.run s.live fun _ l' => l'.Observed)
    (hWired : ∀ hosts, Wired s.live hosts s.byHand →
      After op.run s.live fun _ l' => Wired l' hosts s.byHand) : Orderly (s.after op) := by
  obtain ⟨hosts, hW, hBound⟩ := hs.wired
  exact ⟨hObserved, hosts, hWired hosts hW, hBound⟩

theorem Orderly.same {α : Type} {s : Session κ σ} {op : Act κ σ α} (hs : Orderly s)
    (h : After op.run s.live fun _ l' => l' = s.live) : Orderly (s.after op) := by
  have hSame : s.after op = s := by
    unfold Session.after
    rw [show (op.run.run s.live).2 = s.live from h]
  rwa [hSame]

/-- A proper deed keeps order. -/
theorem Orderly.step {s : Session κ σ} (hClient : client.Quiet) (depth : Nat) (hs : Orderly s)
    (d : Deed κ) (hProper : d.Proper s.live) :
    Orderly (s.step (Calls.upTo client (depth + 2)) d) := by
  have hO := hs.observed
  obtain ⟨hosts, hW, hBound⟩ := hs.wired
  have hMoved : ∀ {r : NodeRef} {op : Act κ σ Unit},
      (After op.run s.live fun _ l' => Carried s.live l' r) →
      (∀ hosts, Keeps (Wired · hosts s.byHand) op.run) → Orderly (s.after op) :=
    fun hCarried hKeeps => hs.after (hCarried.mono fun _ _ h => h.toObserved)
      fun hosts hW => hKeeps hosts s.live hW
  cases d with
  | observe r =>
    have hAfter := observe_orderly hO hW hProper
    exact ⟨hAfter.1, hosts, hAfter.2.1, hBound⟩
  | hook o kind k =>
    have hAfter := addHook_orderly hO hW o kind k
    exact ⟨hAfter.1, hosts, hAfter.2, hBound⟩
  | bind r feed held =>
    have hAfter := bind_orderly hO hW hClient depth hProper.2 held hProper.1
    unfold After at hAfter
    simp only [Session.step]
    split
    · rename_i b live hRun
      rw [hRun] at hAfter
      obtain ⟨hObserved, ⟨⟨e, hError⟩, _⟩ | ⟨hOk, hWired⟩⟩ := hAfter
      · cases hError
      obtain rfl : b = hosts.length := Except.ok.inj hOk
      refine ⟨hObserved, hosts ++ [r], hWired, fun x hx => ?_⟩
      rcases List.mem_append.mp hx with hx | hx
      · rw [List.getElem?_append_left (List.getElem?_eq_some_iff.mp (hBound x hx)).1]
        exact hBound x hx
      · rw [List.mem_singleton.mp hx]
        exact List.getElem?_concat_length
    · rename_i e live hRun
      rw [hRun] at hAfter
      obtain ⟨hObserved, ⟨_, hWired⟩ | ⟨hOk, _⟩⟩ := hAfter
      · exact ⟨hObserved, hosts, hWired, hBound⟩
      · cases hOk
  | switchOn b =>
    have hAfter := switchOn_orderly hO hW hClient depth b
    exact ⟨hAfter.1, hosts, hAfter.2, hBound⟩
  | switchOff b =>
    have hAfter := switchOff_orderly hO hW b
    exact ⟨hAfter.1, hosts, hAfter.2, hBound⟩
  | attach r parent before =>
    rcases hProper with rfl | ⟨hr, hParent, hOut⟩
    · exact hs.same (attach_document s.live _ parent before)
    exact hMoved (hO.attach hClient depth hW.quietFor hr.1 hr.2 hParent hOut)
      fun _ => ((Wired.stepwise hClient depth).attach r parent before).keeps
  | detach r =>
    exact hMoved (hO.detach hClient depth hW.quietFor hProper.1 hProper.2)
      fun _ => ((Wired.stepwise hClient depth).detach r).keeps
  | destroy r =>
    rcases hProper with rfl | hr
    · exact hs.same (destroy_document s.live _)
    exact hMoved (hO.destroy hClient depth hW.quietFor hr.1 hr.2)
      fun _ => ((Wired.stepwise hClient depth).destroy r).keeps
  | moveTo r parent before =>
    obtain ⟨hr, hParent, hOut⟩ := hProper
    exact hMoved (hO.moveTo hClient depth hW.quietFor hr.1 hr.2 hParent hOut)
      fun _ => ((Wired.stepwise hClient depth).moveTo r parent before).keeps
  | attachAnywhere r parent before =>
    exact hs.after (hO.attachAnywhere hW hClient depth hProper)
      fun _ => ((Wired.stepwise hClient depth).attachAnywhere r parent before).keeps s.live
  | detachIfAttached r =>
    exact hs.after (hO.detachIfAttached hW hClient depth hProper)
      fun _ => ((Wired.stepwise hClient depth).detachIfAttached r).keeps s.live
  | destroyFully r =>
    exact hs.after (hO.destroyFully hW hClient depth hProper)
      fun _ => ((Wired.stepwise hClient depth).destroyFully r).keeps s.live

/-- A run keeps order. -/
theorem Run.orderly {s₀ s : Session κ σ} (hClient : client.Quiet) (depth : Nat)
    (h : Run (Calls.upTo client (depth + 2)) s₀ s) (h₀ : Orderly s₀) : Orderly s := by
  induction h with
  | start => exact h₀
  | step _ d hProper ih => exact ih.step hClient depth d hProper

/-! ## What order means -/

/-- The state of a node or container in which nothing is under way. -/
def restingState (l : Live κ σ) (r : NodeRef) : NodeState :=
  if r = .node l.document ∨ l.dom.isPlaced r = true then .attached else .detached

namespace Orderly

variable {s : Session κ σ} (hs : Orderly s)
include hs

theorem not_under_way (r : NodeRef) :
    (s.live.stateOf r).isSettled = true ∨ s.live.stateOf r = .destroyed := by
  unfold stateOf shownState
  rcases hs.observed.settled (s.live.dom.key r) with hNone | hDestroyed
  · rw [hNone]
    split
    · exact .inl rfl
    · refine .inl ?_
      rw [Option.getD_none]
      split <;> rfl
  · rw [hDestroyed]
    split
    · exact .inl rfl
    · exact .inr rfl

theorem stateOf_eq {r : NodeRef} (hr : s.live.dom.Known r)
    (hLive : s.live.stateOf r ≠ .destroyed) : s.live.stateOf r = s.live.restingState r := by
  have hO := hs.observed
  by_cases hNe : r = .node s.live.document
  · rw [restingState, if_pos (.inl hNe), hNe, stateOf_document]
  · have hKey := hO.key_ne_document hr hNe
    rcases hO.settled (s.live.dom.key r) with hNone | hDestroyed
    · rw [stateOf_of_none hNone hKey, shownState, restingState]
      simp [hNe]
    · exact absurd (by simp [stateOf, hKey, hDestroyed]) hLive

theorem reports {o : ObserverId} {x : Observer κ} (hx : s.live.observer? o = some x)
    (hLive : x.status ≠ .destroyed) :
    x.status = .connected ↔ s.live.isConnected x.target = true := by
  have hO := hs.observed
  have hCore : s.live.core? o = some x.core := by simp [core?, hx]
  exact (hO.reports o _ hCore hLive).trans (hO.isConnected_self (hO.known o _ hCore)).symm

theorem isBindingActive_iff {b : BindingId} {r : NodeRef} (hb : (b, r) ∈ s.bound)
    (hHand : b ∉ s.byHand) : s.live.isBindingActive b = true ↔
      ∃ o x, s.live.observer? o = some x ∧ x.target = r ∧ x.status = .connected := by
  obtain ⟨hosts, hW, hBound⟩ := hs.wired
  rw [hW.agrees b r (hBound _ hb) hHand]
  constructor
  · rintro ⟨o, x, hx, hTarget, hConnected⟩
    obtain ⟨y, hy, rfl⟩ : ∃ y, s.live.observer? o = some y ∧ y.core = x := by
      simpa [core?] using hx
    exact ⟨o, y, hy, hTarget, hConnected⟩
  · rintro ⟨o, x, hx, hTarget, hConnected⟩
    exact ⟨o, x.core, by simp [core?, hx], hTarget, hConnected⟩

end Orderly

/-- In a session that begins with nothing observed nothing is under way between two deeds. What is
not destroyed is attached exactly while it is placed, observers that have not ended report
whether their targets reach the document, and bindings that nobody switched by hand are active
exactly while an observer of their host reports that it does. -/
theorem Run.in_order {l : Live κ σ} {s : Session κ σ} (hClient : client.Quiet) (depth : Nat)
    (hFresh : l.Unobserved) (h : Run (Calls.upTo client (depth + 2)) { live := l } s) :
    (∀ r, (s.live.stateOf r).isSettled = true ∨ s.live.stateOf r = .destroyed) ∧
    (∀ r, s.live.dom.Known r →
      s.live.stateOf r = .destroyed ∨ s.live.stateOf r = s.live.restingState r) ∧
    (∀ o x, s.live.observer? o = some x → x.status ≠ .destroyed →
      (x.status = .connected ↔ s.live.isConnected x.target = true)) ∧
    ∀ b r, (b, r) ∈ s.bound → b ∉ s.byHand → (s.live.isBindingActive b = true ↔
      ∃ o x, s.live.observer? o = some x ∧ x.target = r ∧ x.status = .connected) := by
  have hs := h.orderly hClient depth hFresh.orderly
  refine ⟨hs.not_under_way, fun r hr => ?_, fun o x => hs.reports, fun b r => hs.isBindingActive_iff⟩
  by_cases hDestroyed : s.live.stateOf r = .destroyed
  · exact .inl hDestroyed
  · exact .inr (hs.stateOf_eq hr hDestroyed)

/-- A client that does nothing. -/
def Client.still : Client κ σ where
  hook _ _ _ := pure false
  receive _ _ _ := pure ()
  handle _ _ event := pure event
  run _ _ := pure ()
  build _ _ := throw .missingHost
  buildItem _ _ _ _ := throw .missingHost
  evaluate _ _ _ := throw .missingHost
  invoke _ _ _ _ := throw .missingHost

theorem Client.still_quiet : (Client.still : Client κ σ).Quiet :=
  ⟨fun _ _ _ l => ⟨l.client, rfl⟩, fun _ _ _ l => ⟨l.client, rfl⟩⟩

/-- A session on a fresh document, after some deeds. -/
def bodySession (ds : List (Deed Unit)) : Session Unit Unit :=
  ds.foldl (Session.step (Calls.upTo Client.still 2)) { live := create {} () }

theorem bodySession_run : Run (Calls.upTo Client.still 2) (bodySession [])
    (bodySession [.bind (.node 2) (.signal 0 (.client ())) true, .detach (.node 2),
      .attachAnywhere (.node 2) (.node 1) none]) := by
  have hPlain : ∀ {l : Live Unit Unit} {n : NodeId}, n < l.dom.nodes.size →
      l.dom.containers.size = 0 → l.dom.Plain n := fun hn hNone =>
    ⟨hn, fun c hc => by rw [hNone] at hc; cases hc⟩
  have h₁ : Run (Calls.upTo Client.still 2) (bodySession [])
      (bodySession [.bind (.node 2) (.signal 0 (.client ())) true]) :=
    Run.start.step (.bind (.node 2) (.signal 0 (.client ())) true)
      ⟨hPlain (by decide +kernel) (by decide +kernel), trivial⟩
  have h₂ : Run (Calls.upTo Client.still 2) (bodySession [])
      (bodySession [.bind (.node 2) (.signal 0 (.client ())) true, .detach (.node 2)]) :=
    h₁.step (.detach (.node 2))
      ⟨hPlain (by decide +kernel) (by decide +kernel), by decide +kernel⟩
  refine h₂.step (.attachAnywhere (.node 2) (.node 1) none)
    ⟨⟨hPlain (by decide +kernel) (by decide +kernel), by decide +kernel⟩,
      hPlain (by decide +kernel) (by decide +kernel), ?_⟩
  rw [Dom.inside_node]
  intro hUp
  rcases hUp.cases_first with hEq | ⟨p, hp, hUp⟩
  · cases hEq
  · obtain rfl : 0 = p := Option.some.inj hp
    exact absurd (hUp.eq_of_parent_none rfl) (by decide)

theorem bodySession_in_order :
    let s := bodySession [.bind (.node 2) (.signal 0 (.client ())) true, .detach (.node 2),
      .attachAnywhere (.node 2) (.node 1) none]
    (∀ r, (s.live.stateOf r).isSettled = true ∨ s.live.stateOf r = .destroyed) ∧
    (∀ r, s.live.dom.Known r →
      s.live.stateOf r = .destroyed ∨ s.live.stateOf r = s.live.restingState r) ∧
    (∀ o x, s.live.observer? o = some x → x.status ≠ .destroyed →
      (x.status = .connected ↔ s.live.isConnected x.target = true)) ∧
    ∀ b r, (b, r) ∈ s.bound → b ∉ s.byHand → (s.live.isBindingActive b = true ↔
      ∃ o x, s.live.observer? o = some x ∧ x.target = r ∧ x.status = .connected) :=
  Run.in_order Client.still_quiet 0 (create_unobserved {} ()) bodySession_run

/-! ## Hooks that change the tree -/

/-- A program that shows a text while a condition is true. -/
def hiddenText : Program where
  file := "t.html"
  instructions := [.conditional (.reference "show")
    (.element "div" [] [.dynamicText (.reference "msg")])]
  symbols := ["msg", "show"]
  requiresHost := false

/-- Mounts the program, takes it out, lets the condition become false and mounts it again. -/
def remount (calls : Calls Unit Unit) : Act Unit Unit Instance := do
  let shown ← sure (newSignal (.bool true))
  let msg ← sure (newSignal (.string "a"))
  let i ← instantiate calls hiddenText [("msg", msg), ("show", shown)] false
  mountInstance calls i (.node 2) none
  detach calls (.container i.box)
  sure (setSignal calls shown (.bool false))
  mountInstance calls i (.node 2) none
  pure i

/-- Whether an observer switches a binding on when its target gets connected. -/
def Observer.switchesOn (x : Observer κ) (b : BindingId) : Bool :=
  x.hooks.any fun e => match e.hook with
    | .switchOn b' => e.kind == .connect && b' == b
    | _ => false

/-- The document after that. -/
def remounted : Live Unit Unit :=
  ((remount (Calls.upTo Client.still 6)).run.run (create {} ())).2

/-- Where hooks cancel at most, a binding that nobody switched by hand is active exactly while its
host reaches the document, unless that is destroyed. -/
theorem Run.active_iff_connected {l : Live κ σ} {s : Session κ σ} (hClient : client.Quiet)
    (depth : Nat) (hFresh : l.Unobserved) (h : Run (Calls.upTo client (depth + 2)) { live := l } s)
    {b : BindingId} {r : NodeRef} (hb : (b, r) ∈ s.bound) (hHand : b ∉ s.byHand)
    (hAlive : s.live.stateOf r ≠ .destroyed) :
    s.live.isBindingActive b = true ↔ s.live.isConnected r = true := by
  have hs := h.orderly hClient depth hFresh.orderly
  rw [hs.isBindingActive_iff hb hHand]
  constructor
  · rintro ⟨o, x, hx, rfl, hConnected⟩
    exact (hs.reports hx (by rw [hConnected]; decide)).mp hConnected
  · intro hConnected
    obtain ⟨hosts, hW, hBound⟩ := hs.wired
    obtain ⟨o, y, hy, rfl⟩ := hW.hosted b r (hBound _ hb)
    have hLives : y.status ≠ .destroyed := by
      intro hEnded
      have hNoted := hs.observed.ended o y hy hEnded
      have hKey : s.live.dom.key y.target ≠ s.live.document := fun hDocument => by
        rw [hDocument, hs.observed.lasting] at hNoted
        cases hNoted
      exact hAlive (by simp [stateOf, hKey, hNoted])
    obtain ⟨x, hx, rfl⟩ := Option.map_eq_some_iff.mp hy
    exact ⟨o, x, hx, rfl, (hs.reports hx hLives).mpr hConnected⟩

/-- The walk that tells of a connection goes over the observers that were there when it began. The
conditional hides its child during the walk, and the binding of the text in it is switched on
nevertheless. -/
theorem remounted_active :
    remounted.overrun = false ∧
    (remounted.observer? 1).map (fun x => (x.target, x.switchesOn 1)) = some (.node 10, true) ∧
    remounted.stateOf (.node 10) = .attached ∧
    remounted.isConnected (.node 10) = false ∧
    remounted.isBindingActive 1 = true := by
  refine ⟨?_, ?_, ?_, ?_, ?_⟩ <;> decide +kernel

end LiveMarkup.Live
