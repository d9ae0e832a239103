import LiveMarkup.Proofs.Live.Transitions
import LiveMarkup.Proofs.Dom.Order
import LiveMarkup.Proofs.Live.Session

/-!
# Who is told

The hooks of a client write down what they hear, with the event. They may cancel it and do nothing
else; subscribers write nothing down. So the record shows which observers were told of what, and in
which order.

A node or container that comes to reach the document, or ceases to, has all observers in it told,
each once, in document order or in the reverse of it. So has one that is destroyed.

* `Client.Records`: such clients;
* `Observer.Core.notices`: what the hooks of an observer write down when it is told of an event;
* `notifyConnected_writes`, `notifyDisconnected_writes`, `tellAllDestroyed_writes`: what is written
  down when all observers in a node or container are told;
* `Audience`: the observers in a node or container, in document order;
* `Observed.audience`: those that are told;
* `Crossing`, `Observed.attach_crosses`, `Observed.detach_crosses`, `Observed.moveTo_crosses`: what a
  transition tells whom;
* `Observed.destroy_tells`: what destroying tells whom.
-/

/-! ## Hooks that keep a record -/

namespace LiveMarkup.Live

variable {κ σ : Type} {client : Client κ σ} {record : σ → List (κ × Event)}
variable {l l₁ l' : Live κ σ} {K : ObserverId → Prop}

/-- The hooks of a client write down what they hear and do nothing else, but that they may cancel it.
Its subscribers write nothing down. -/
structure Client.Records (client : Client κ σ) (record : σ → List (κ × Event)) : Prop where
  hook : ∀ calls k event l, ∃ c, ((client.hook calls k event).run l).2 = { l with client := c } ∧
    record c = record l.client ++ [(k, event)]
  receive : ∀ calls k value l, ∃ c, ((client.receive calls k value).run l).2 = { l with client := c } ∧
    record c = record l.client

theorem Client.Records.quiet (h : client.Records record) : client.Quiet where
  hook calls k event l := by
    obtain ⟨c, hc, -⟩ := h.hook calls k event l
    exact ⟨c, hc⟩
  receive calls k value l := by
    obtain ⟨c, hc, -⟩ := h.receive calls k value l
    exact ⟨c, hc⟩

/-- Some entries were written down. -/
def Writes (record : σ → List (κ × Event)) (l l' : Live κ σ) (entries : List (κ × Event)) : Prop :=
  record l'.client = record l.client ++ entries

theorem Writes.of_client (h : l'.client = l.client) : Writes record l l' [] := by
  rw [Writes, h, List.append_nil]

theorem Writes.trans {u v : List (κ × Event)} (h₁ : Writes record l l₁ u)
    (h₂ : Writes record l₁ l' v) : Writes record l l' (u ++ v) := by
  rw [Writes, h₂, h₁, List.append_assoc]

/-! ### Hooks -/

/-- What a hook of the client writes down. -/
def Hook.entries (event : Event) : Hook κ → List (κ × Event)
  | .client k => [(k, event)]
  | _ => []

/-- Hooks write down an event that can be cancelled, or nothing. -/
def Asking (record : σ → List (κ × Event)) (c c' : σ) : Prop :=
  ∃ entries, (∀ e ∈ entries, e.2.kind.isCancelable = true) ∧ record c' = record c ++ entries

section Hooks

variable (hClient : client.Records record) (depth : Nat)
include hClient

theorem activate_writes {s : SubscriptionId} (hFeed : ∀ feed, l.feed? s = some feed → feed.Quiet) :
    After (activate (Calls.upTo client (depth + 1)) s) l fun _ l' => Writes record l l' [] := by
  have hSame : Writes record l l [] := .of_client rfl
  unfold activate
  rw [after_bind, after_get]
  cases hSub : l.subscription? s with
  | none => exact hSame
  | some x =>
    obtain ⟨feed, registered⟩ := x
    cases registered with
    | some number => exact hSame
    | none =>
      cases feed with
      | event node event handler => exact hSame
      | signal signal sink =>
        have hQuiet : (Feed.signal signal sink).Quiet := hFeed _ (by simp [feed?, hSub])
        cases sink with
        | client k =>
          refine After.bind (m := fun _ l₁ => l₁.client = l.client) rfl fun number l₁ h₁ => ?_
          refine After.bind (m := fun _ l₂ => l₂.client = l.client) h₁ fun _ l₂ h₂ => ?_
          rw [after_bind, after_get]
          obtain ⟨c, hc, hRecord⟩ := hClient.receive (Calls.upTo client depth) k (l₂.valueOf signal) l₂
          change Writes record l ((client.receive _ k _).run l₂).2 []
          rw [hc, Writes, hRecord, h₂, List.append_nil]
        | _ => exact hQuiet.elim

omit hClient in
theorem deactivate_writes (l : Live κ σ) (s : SubscriptionId) :
    After (deactivate s) l fun _ l' => Writes record l l' [] := by
  have hSame : Writes record l l [] := .of_client rfl
  unfold deactivate
  rw [after_bind, after_get]
  split
  · exact hSame
  · exact hSame
  · exact hSame
  · refine After.bind (m := fun _ l₁ => l₁.client = l.client) rfl fun _ l₁ h₁ => ?_
    refine After.bind (m := fun _ l₂ => l₂.client = l.client) ?_ fun _ l₂ h₂ => .of_client h₂
    unfold unlisten
    rw [after_bind, after_get]
    split <;> exact h₁

theorem switchOn_writes {b : BindingId} (hQuiet : (Hook.switchOn b : Hook κ).Quiet l) :
    After (switchOn (Calls.upTo client (depth + 1)) b) l fun _ l' => Writes record l l' [] := by
  unfold switchOn
  rw [after_bind, after_get]
  split
  · rename_i hBinding
    exact activate_writes hClient depth fun feed hFeed =>
      Hook.quiet_switchOn.mp hQuiet _ hBinding feed hFeed
  · exact .of_client rfl

omit hClient in
theorem switchOff_writes (l : Live κ σ) (b : BindingId) :
    After (switchOff b) l fun _ l' => Writes record l l' [] := by
  unfold switchOff
  rw [after_bind, after_get]
  split
  · exact deactivate_writes l _
  · exact .of_client rfl

theorem runHook_writes {h : Hook κ} (hQuiet : h.Quiet l) (event : Event) :
    After ((Calls.upTo client (depth + 2)).hook h event) l fun _ l' =>
      Writes record l l' (h.entries event) := by
  rw [hook_upTo]
  cases h with
  | client k =>
    obtain ⟨c, hc, hRecord⟩ := hClient.hook (Calls.upTo client (depth + 1)) k event l
    change Writes record l ((client.hook _ k event).run l).2 _
    rw [hc]
    exact hRecord
  | switchOn b => exact switchOn_writes hClient depth hQuiet
  | switchOff b => exact switchOff_writes l b
  | endBinding b =>
    change After (endBinding b) l fun _ l' => Writes record l l' []
    unfold endBinding
    refine After.bind (m := fun _ l₁ => l₁.client = l.client) rfl fun _ l₁ h₁ => ?_
    exact (switchOff_writes l₁ b).mono fun _ _ h₂ => (Writes.of_client h₁).trans h₂
  | _ => exact hQuiet.slight.elim

/-- Some of the first hooks write an event down, and all of them if it cannot be cancelled. -/
theorem runHooks_writes {hooks : List (Hook κ)} (hQuiet : ∀ h ∈ hooks, h.Quiet l) (event : Event) :
    After (runHooks (Calls.upTo client (depth + 2)) event hooks) l fun _ l' =>
      ∃ ran, ran <+: hooks ∧ (event.kind.isCancelable = false → ran = hooks) ∧
        Writes record l l' (ran.flatMap (Hook.entries event)) := by
  induction hooks generalizing l with
  | nil => exact ⟨[], List.prefix_refl _, fun _ => rfl, .of_client rfl⟩
  | cons h hooks ih =>
    have hHead := hQuiet h List.mem_cons_self
    unfold runHooks
    refine ((runHook_quiet hClient.quiet depth hHead event).and
      (runHook_writes hClient depth hHead event)).bind ?_
    rintro cancels l₁ ⟨⟨hCalm, -⟩, hWrites⟩
    split
    · rename_i hStop
      rw [Bool.and_eq_true] at hStop
      refine ⟨[h], ⟨hooks, rfl⟩, fun hKind => ?_, ?_⟩
      · rw [hKind] at hStop
        cases hStop.2
      · rwa [List.flatMap_singleton]
    · refine (ih fun h' hh' => hCalm.hook_quiet (hQuiet h' (List.mem_cons_of_mem _ hh'))).mono ?_
      rintro _ l' ⟨ran, hPrefix, hAll, hRest⟩
      exact ⟨h :: ran, (List.prefix_cons_inj h).mpr hPrefix, fun hKind => by rw [hAll hKind],
        hWrites.trans hRest⟩

theorem asks_asking : Asks (Asking record) (Calls.upTo client (depth + 2)) where
  refl c := ⟨[], (fun _ he => by cases he), (List.append_nil _).symm⟩
  trans := by
    rintro a b c ⟨u, hu, hab⟩ ⟨v, hv, hbc⟩
    refine ⟨u ++ v, fun e he => (List.mem_append.mp he).elim (hu e) (hv e), ?_⟩
    rw [hbc, hab, List.append_assoc]
  ask := by
    intro l r hPliant kind hKind
    unfold fireAt fire
    rw [after_bind, after_get]
    split
    · exact ⟨[], (fun _ he => by cases he), (List.append_nil _).symm⟩
    · rename_i o ho
      rw [after_bind, after_get]
      refine (runHooks_writes hClient depth (hPliant o ho kind hKind) _).mono ?_
      · rintro _ l' ⟨ran, -, -, hWrites⟩
        refine ⟨_, fun e he => ?_, hWrites⟩
        obtain ⟨h, -, he⟩ := List.mem_flatMap.mp he
        cases h with
        | client k => exact List.mem_singleton.mp he ▸ hKind
        | _ => cases he

end Hooks

/-! ### Notices -/

/-- The hooks of an observer that wait for a kind of event. -/
def Observer.Core.hooksFor (kind : EventKind) (x : Observer.Core κ) : List (Hook κ) :=
  x.hooks.filterMap fun e => if e.kind = kind then some e.hook else none

/-- What the hooks of an observer write down when it is told of an event of its target. -/
def Observer.Core.notices (kind : EventKind) (x : Observer.Core κ) : List (κ × Event) :=
  (x.hooksFor kind).flatMap (Hook.entries { kind, target := x.target })

/-- Whether an observer with a status is told of an event. -/
def EventKind.isNewsTo : EventKind → Connectivity → Bool
  | .connect, status => status = .disconnected
  | .disconnect, status => status = .connected
  | .destroy, status => status ≠ .destroyed
  | _, _ => false

theorem EventKind.connect_isNewsTo {status : Connectivity} :
    EventKind.connect.isNewsTo status = true ↔ status = .disconnected := decide_eq_true_iff

theorem EventKind.disconnect_isNewsTo {status : Connectivity} :
    EventKind.disconnect.isNewsTo status = true ↔ status = .connected := decide_eq_true_iff

theorem EventKind.destroy_isNewsTo {status : Connectivity} :
    EventKind.destroy.isNewsTo status = true ↔ status ≠ .destroyed := decide_eq_true_iff

/-- What the hooks of an observer write down when it is told of an event, unless it knows. -/
def newsFor (l : Live κ σ) (kind : EventKind) (o : ObserverId) : List (κ × Event) :=
  match l.core? o with
  | none => []
  | some x => if kind.isNewsTo x.status then x.notices kind else []

section Notices

variable (hClient : client.Records record) (depth : Nat) (hQuiet : l.QuietFor K)
include hClient hQuiet

theorem tell_writes {o : ObserverId} (ho : K o) {x : Observer.Core κ} (hx : l.core? o = some x)
    {kind : EventKind} (hKind : kind.isCancelable = false) :
    After (tell (Calls.upTo client (depth + 2)) o kind) l fun _ l' =>
      Writes record l l' (x.notices kind) := by
  obtain ⟨y, hy, rfl⟩ := Option.map_eq_some_iff.mp hx
  unfold tell fire
  rw [after_bind, after_get, hy]
  dsimp only
  rw [after_bind, after_bind, after_get]
  refine (runHooks_writes hClient depth (fun h hh => ?_) _).mono ?_
  · obtain ⟨z, hz, e, he, -, rfl⟩ := mem_hooksFor.mp hh
    exact hQuiet o ho z hz e he
  · rintro _ l' ⟨ran, -, hAll, hWrites⟩
    rw [hAll hKind] at hWrites
    have hHooks : l.hooksFor o kind = y.core.hooksFor kind := by
      rw [Live.hooksFor, hy]
      rfl
    rw [after_pure, Observer.Core.notices, ← hHooks]
    exact hWrites

omit hClient hQuiet in
theorem newsFor_of_news {o : ObserverId} {x : Observer.Core κ} (hx : l.core? o = some x)
    {kind : EventKind} (hNews : kind.isNewsTo x.status = true) : l.newsFor kind o = x.notices kind := by
  rw [newsFor, hx]
  exact if_pos hNews

omit hClient hQuiet in
theorem newsFor_congr {o : ObserverId} (h : l'.core? o = l.core? o) (kind : EventKind) :
    l'.newsFor kind o = l.newsFor kind o := by
  rw [newsFor, newsFor, h]

omit hClient hQuiet in
theorem newsFor_of_not {o : ObserverId} {kind : EventKind}
    (h : ¬ kind.isNewsTo (l.statusOf o) = true) : l.newsFor kind o = [] := by
  unfold newsFor
  split
  · rfl
  · rename_i x hx
    exact if_neg (statusOf_eq hx ▸ h)

/-- An observer that is told of its new status writes it down. -/
theorem turn_writes {o : ObserverId} (ho : K o) (c : Connectivity) {kind : EventKind}
    (hKind : kind.isCancelable = false) (hNews : kind.isNewsTo (l.statusOf o) = true)
    (hStatus : l.statusOf o ≠ .destroyed) :
    After (do
        setStatus o c
        tell (Calls.upTo client (depth + 2)) o kind) l fun _ l' =>
      Writes record l l' (l.newsFor kind o) := by
  obtain ⟨x, hx, hEq⟩ := exists_core hStatus
  refine After.bind (m := fun _ l₁ => Turned l l₁ o (Observer.Core.turn c) ∧ l₁.client = l.client)
    ⟨setStatus_turned l o c, rfl⟩ ?_
  rintro _ l₁ ⟨hTurned, hSame⟩
  refine (tell_writes hClient depth (hQuiet.turned hTurned (by simp)) ho (hTurned.of_self hx)
    hKind).mono fun _ l' hWrites => ?_
  rw [newsFor_of_news hx (hEq ▸ hNews)]
  have hNotices : (x.turn c).notices kind = x.notices kind := by
    rw [Observer.Core.notices, Observer.Core.notices, Observer.Core.hooksFor, Observer.Core.hooksFor,
      Observer.Core.turn_hooks, Observer.Core.turn_target]
  rw [hNotices] at hWrites
  exact (Writes.of_client hSame).trans hWrites

theorem tellConnected_writes {o : ObserverId} (ho : K o) :
    After (tellConnected (Calls.upTo client (depth + 2)) o) l fun _ l' =>
      Writes record l l' (l.newsFor .connect o) := by
  unfold tellConnected
  rw [after_bind, after_get]
  split
  · rename_i hStatus
    exact turn_writes hClient depth hQuiet ho .connected rfl (by rw [hStatus]; rfl)
      (by rw [hStatus]; decide)
  · rename_i hStatus
    rw [newsFor_of_not fun hNews => hStatus (EventKind.connect_isNewsTo.mp hNews)]
    exact .of_client rfl

theorem tellDisconnected_writes {o : ObserverId} (ho : K o) :
    After (tellDisconnected (Calls.upTo client (depth + 2)) o) l fun _ l' =>
      Writes record l l' (l.newsFor .disconnect o) := by
  unfold tellDisconnected
  rw [after_bind, after_get]
  split
  · rename_i hStatus
    exact turn_writes hClient depth hQuiet ho .disconnected rfl (by rw [hStatus]; rfl)
      (by rw [hStatus]; decide)
  · rename_i hStatus
    rw [newsFor_of_not fun hNews => hStatus (EventKind.disconnect_isNewsTo.mp hNews)]
    exact .of_client rfl

theorem tellDestroyed_writes {o : ObserverId} (ho : K o) :
    After (tellDestroyed (Calls.upTo client (depth + 2)) o) l fun _ l' =>
      Writes record l l' (l.newsFor .destroy o) := by
  unfold tellDestroyed
  rw [after_bind, after_get]
  split
  · rename_i hStatus
    obtain ⟨x, hx, hEq⟩ := exists_core hStatus
    rw [newsFor_of_news hx (EventKind.destroy_isNewsTo.mpr (hEq ▸ hStatus))]
    refine (tell_writes hClient depth hQuiet ho hx
      (show EventKind.destroy.isCancelable = false from rfl)).bind fun _ l₁ h₁ => ?_
    refine After.bind (m := fun _ l₂ => l₂.client = l₁.client) rfl fun _ l₂ h₂ => ?_
    have hWrites : Writes record l l₂ (x.notices .destroy ++ []) := h₁.trans (.of_client h₂)
    rw [List.append_nil] at hWrites
    exact hWrites
  · rename_i hStatus
    rw [newsFor_of_not fun hNews => hStatus (EventKind.destroy_isNewsTo.mp hNews)]
    exact .of_client rfl

omit hClient in
/-- Observers that are told one after the other write down what each would write down alone. -/
theorem writes_forM {tellOne : ObserverId → LiveM κ σ Unit} {kind : EventKind}
    {f : Observer.Core κ → Observer.Core κ} (hHooks : ∀ x, ∀ e ∈ (f x).hooks, e ∈ x.hooks)
    (hOne : ∀ l : Live κ σ, l.QuietFor K → ∀ o, K o → After (tellOne o) l fun _ l' =>
      Turned l l' o f ∧ Writes record l l' (l.newsFor kind o))
    {os : List ObserverId} (hOnce : os.Nodup) (hos : ∀ o ∈ os, K o) :
    After (os.forM tellOne) l fun _ l' => Writes record l l' (os.flatMap (l.newsFor kind)) := by
  induction os generalizing l with
  | nil => exact .of_client rfl
  | cons o os ih =>
    obtain ⟨hNew, hOnce⟩ := List.nodup_cons.mp hOnce
    refine (hOne l hQuiet o (hos o List.mem_cons_self)).bind ?_
    rintro _ l₁ ⟨hTurned, hWrites⟩
    refine (ih (hQuiet.turned hTurned hHooks) hOnce fun p hp => hos p (List.mem_cons_of_mem _ hp)).mono
      fun _ l' hRest => ?_
    have hSame : os.flatMap (l₁.newsFor kind) = os.flatMap (l.newsFor kind) := by
      rw [List.flatMap_def, List.flatMap_def, List.map_congr_left fun p hp => newsFor_congr ?_ kind]
      rw [hTurned.core]
      have hNe : p ≠ o := fun he => hNew (he ▸ hp)
      cases l.core? p <;> simp [hNe]
    rw [List.flatMap_cons, ← hSame]
    exact hWrites.trans hRest

variable {r : NodeRef} (hOnce : (l.observersIn r).Nodup) (hr : ∀ o ∈ l.observersIn r, K o)
include hOnce hr

/-- Those that are told that they reach the document write it down in the order of the document. -/
theorem notifyConnected_writes :
    After (notifyConnected (Calls.upTo client (depth + 2)) r) l fun _ l' =>
      Writes record l l' ((l.observersIn r).flatMap (l.newsFor .connect)) := by
  unfold notifyConnected
  rw [after_bind, after_get]
  exact writes_forM hQuiet (by simp) (fun l₁ hQuiet₁ o ho =>
    (tellConnected_turned hClient.quiet depth hQuiet₁ ho).and
      (tellConnected_writes hClient depth hQuiet₁ ho)) hOnce hr

/-- Those that are told that they do not any more write it down in the reverse order. -/
theorem notifyDisconnected_writes :
    After (notifyDisconnected (Calls.upTo client (depth + 2)) r) l fun _ l' =>
      Writes record l l' ((l.observersIn r).reverse.flatMap (l.newsFor .disconnect)) := by
  unfold notifyDisconnected
  rw [after_bind, after_get]
  exact writes_forM hQuiet (by simp) (fun l₁ hQuiet₁ o ho =>
    (tellDisconnected_turned hClient.quiet depth hQuiet₁ ho).and
      (tellDisconnected_writes hClient depth hQuiet₁ ho))
    (List.pairwise_reverse.mpr (hOnce.imp Ne.symm))
    fun o ho => hr o (List.mem_reverse.mp ho)

/-- So do those that are told that they are destroyed. -/
theorem tellAllDestroyed_writes :
    After ((l.observersIn r).reverse.forM (tellDestroyed (Calls.upTo client (depth + 2)))) l
      fun _ l' => Writes record l l' ((l.observersIn r).reverse.flatMap (l.newsFor .destroy)) :=
  writes_forM hQuiet (fun _ _ => Observer.Core.mem_of_mem_ended) (fun _ hQuiet₁ _ ho =>
    (tellDestroyed_turned hClient.quiet depth hQuiet₁ ho).and
      (tellDestroyed_writes hClient depth hQuiet₁ ho)) (List.pairwise_reverse.mpr (hOnce.imp Ne.symm))
    fun o ho => hr o (List.mem_reverse.mp ho)

end Notices

end LiveMarkup.Live

namespace LiveMarkup.Live

variable {κ σ : Type} {client : Client κ σ} {record : σ → List (κ × Event)}
variable {l l₁ l' : Live κ σ} {r parent : NodeRef} {before : Option NodeRef}

/-! ## Document order -/

/-- Observers in a node or container: each that has not ended just once, in document order, where
the node or container itself comes first. Who encloses others comes before them. -/
structure Audience (l : Live κ σ) (r : NodeRef) (os : List ObserverId) : Prop where
  once : os.Nodup
  mem_iff : ∀ o, o ∈ os ↔ ∃ x, l.observer? o = some x ∧ x.status ≠ .destroyed ∧
    l.dom.Inside r (l.dom.key x.target)
  ordered : os.Pairwise fun o p => ∀ x y, l.observer? o = some x → l.observer? p = some y →
    x.target = r ∧ y.target ≠ r ∨ l.dom.nodes.Before (l.dom.key x.target) (l.dom.key y.target)
  enclosing : ∀ o ∈ os, ∀ p ∈ os, ∀ x y, l.observer? o = some x → l.observer? p = some y →
    x.target ≠ y.target → l.dom.Inside x.target (l.dom.key y.target) → [o, p].Sublist os

namespace Observed

variable (hO : l.Observed)
include hO

/-- The target of an observer that is found at a node has the node as its key. -/
theorem key_of_tracked {n : NodeId} {o : ObserverId} {x : Observer κ}
    (ho : (l.trackedOf n).observer = some o) (hx : l.observer? o = some x) :
    l.dom.Known x.target ∧ l.dom.key x.target = n ∧ x.status ≠ .destroyed := by
  obtain ⟨y, hy, hKey, hLives⟩ := hO.tracked n o ho
  have hCore : l.core? o = some x.core := by rw [core?, hx]; rfl
  obtain rfl := Option.some.inj (hCore.symm.trans hy)
  exact ⟨hO.known o _ hCore, hKey, hLives⟩

theorem observersIn_nodup (hr : l.dom.Known r) {d : Dom} (hSound : d.Sound)
    (hParts : Dom.SameParts l.dom d) : ((l.withDom d).observersIn r).Nodup := by
  refine List.pairwise_filterMap.mpr ((hSound.subtree_nodup (hParts.known_iff.mpr hr)).imp ?_)
  rintro n m hNe o ho _ hp rfl
  obtain ⟨x, hx, rfl, -⟩ := hO.tracked n o ho
  obtain ⟨y, hy, rfl, -⟩ := hO.tracked m o hp
  exact hNe (by rw [Option.some.inj (hx.symm.trans hy)])

theorem audience (hr : l.dom.Known r) : l.Audience r (l.observersIn r) where
  once := hO.observersIn_nodup hr hO.sound (Dom.SameParts.refl _)
  mem_iff o := by
    constructor
    · intro ho
      obtain ⟨n, hn, ho⟩ := List.mem_filterMap.mp ho
      obtain ⟨_, hy, rfl, hLives⟩ := hO.tracked n o ho
      obtain ⟨x, hx, rfl⟩ := Option.map_eq_some_iff.mp hy
      exact ⟨x, hx, hLives, (hO.sound.key_mem_subtree hr (hO.known o _ hy)).mp hn⟩
    · rintro ⟨x, hx, hLives, hIn⟩
      have hCore : l.core? o = some x.core := by rw [core?, hx]; rfl
      exact (hO.mem_observersIn hO.sound (Dom.SameParts.refl _) hr hCore hLives).mpr hIn
  ordered := by
    refine List.pairwise_filterMap.mpr ((hO.sound.subtree_ordered hr).imp ?_)
    rintro n m hOrder o ho p hp x y hx hy
    obtain ⟨hKnown, rfl, -⟩ := hO.key_of_tracked ho hx
    obtain ⟨hKnown', rfl, -⟩ := hO.key_of_tracked hp hy
    rcases hOrder with hBefore | ⟨hHead, hNe, -⟩
    · exact .inr hBefore
    · obtain rfl := hO.sound.key_inj hKnown hr hHead
      exact .inl ⟨rfl, fun he => hNe (by rw [he])⟩
  enclosing o ho p hp x y hx hy hNe hIn := by
    obtain ⟨n, hn, ho⟩ := List.mem_filterMap.mp ho
    obtain ⟨m, hm, hp⟩ := List.mem_filterMap.mp hp
    obtain ⟨hKnown, rfl, -⟩ := hO.key_of_tracked ho hx
    obtain ⟨hKnown', rfl, -⟩ := hO.key_of_tracked hp hy
    have hPair := (hO.sound.subtree_encloses hr hKnown hKnown' hn hm hNe hIn).filterMap
      fun n => (l.trackedOf n).observer
    have hBoth : [l.dom.key x.target, l.dom.key y.target].filterMap
        (fun n => (l.trackedOf n).observer) = [o, p] := by simp [ho, hp]
    exact hBoth ▸ hPair

/-- While a node or container is observed the observers in it report whether it reaches the document. -/
theorem reports_in (hr : l.dom.Known r) {o : ObserverId} {x : Observer.Core κ}
    (hx : l.core? o = some x) (hLives : x.status ≠ .destroyed)
    (hIn : l.dom.Inside r (l.dom.key x.target)) : x.status = .connected ↔ l.isConnected r = true := by
  rw [hO.reports o x hx hLives, hO.sound.inside_up_root_iff hr hIn hO.plain hO.top,
    hO.isConnected_self hr]

end Observed

/-! ## What is told -/

/-- Hooks were asked about an operation, and then some entries were written down. -/
def Hears (record : σ → List (κ × Event)) (l l' : Live κ σ) (entries : List (κ × Event)) : Prop :=
  ∃ asked, (∀ e ∈ asked, e.2.kind.isCancelable = true) ∧ Writes record l l' (asked ++ entries)

/-- What the hooks of an observer write down when it is told of an event. -/
def noticesOf (l : Live κ σ) (kind : EventKind) (o : ObserverId) : List (κ × Event) :=
  match l.core? o with
  | none => []
  | some x => x.notices kind

/-- Some observers were told of an event, each once and one after the other, which changed them. It was
news to all of them, and nobody else was told of anything. -/
structure Announced (record : σ → List (κ × Event)) (l l' : Live κ σ) (kind : EventKind)
    (f : Observer.Core κ → Observer.Core κ) (os : List ObserverId) : Prop where
  hears : Hears record l l' (os.flatMap (l.noticesOf kind))
  once : os.Nodup
  news : ∀ o ∈ os, kind.isNewsTo (l.statusOf o) = true
  core : ∀ o, l'.core? o = (l.core? o).map fun x => if o ∈ os then f x else x

/-- A transition told the observers in a node or container that comes to reach the document, or
ceases to. -/
structure Crossing (record : σ → List (κ × Event)) (l l' : Live κ σ) (r : NodeRef) : Prop where
  comes : l.isConnected r = false → l'.isConnected r = true →
    Announced record l l' .connect (Observer.Core.turn .connected) (l'.observersIn r)
  ceases : l.isConnected r = true → l'.isConnected r = false →
    Announced record l l' .disconnect (Observer.Core.turn .disconnected) (l'.observersIn r).reverse
  stays : l'.isConnected r = l.isConnected r → Announced record l l' .connect id []

/-! ## Telling -/

theorem noteMoves_client (l : Live κ σ) (r : NodeRef) :
    After (noteMoves r) l fun _ l' => l'.client = l.client := by
  unfold noteMoves
  rw [after_bind, after_get]
  split
  · exact After.forM (k := fun _ l' => l'.client = l.client) rfl fun _ _ _ h => h
  · rfl

theorem Hears.of_asking (h : Asking record l.client l₁.client) {entries : List (κ × Event)}
    (hWrites : Writes record l₁ l' entries) : Hears record l l' entries := by
  obtain ⟨asked, hAsked, hRecord⟩ := h
  refine ⟨asked, hAsked, ?_⟩
  rw [Writes, hWrites, hRecord, List.append_assoc]

/-- Then nobody hears of anything but that nodes may have moved. -/
theorem Struck.unheard {d : Dom} (h : Struck (Asking record) l l₁ d) :
    After (sure (noteMoves r) : Act κ σ Unit).run l₁ fun _ l' =>
      Changed l l' d (fun _ => id) ∧ Hears record l l' [] := by
  have hMoves := (h.toChanged.unheard (r := r)).and
    (show After (sure (noteMoves r) : Act κ σ Unit).run l₁ fun _ l' => l'.client = l₁.client from
      noteMoves_client l₁ r)
  refine hMoves.mono ?_
  rintro _ l' ⟨⟨-, hChanged⟩, hSame⟩
  exact ⟨hChanged, .of_asking h.client (.of_client hSame)⟩

/-- Then observers are told, and that nodes may have moved. -/
theorem Struck.heard {d : Dom} (h : Struck (Asking record) l l₁ d) {notify : LiveM κ σ Unit}
    {f : ObserverId → Observer.Core κ → Observer.Core κ} {entries : List (κ × Event)}
    (hNotify : After notify l₁ fun _ l' => Changed l₁ l' l₁.dom f ∧ Writes record l₁ l' entries) :
    After (do notify; sure (noteMoves r) : Act κ σ Unit).run l₁ fun _ l' =>
      Changed l l' d f ∧ Hears record l l' entries := by
  refine After.lift_bind hNotify fun _ l₂ _ ⟨h₂, hWrites⟩ => ?_
  rw [after_sure]
  refine ((noteMoves_alike l₂ r).and (noteMoves_client l₂ r)).mono ?_
  rintro _ l' ⟨⟨hAlike, -⟩, hSame⟩
  refine ⟨h.toChanged.then h₂ hAlike, .of_asking h.client ?_⟩
  have hBoth := hWrites.trans (.of_client hSame)
  rwa [List.append_nil] at hBoth

/-- Nobody was told of anything. -/
theorem Announced.nobody (hCore : ∀ o, l'.core? o = l.core? o) (hHears : Hears record l l' [])
    (kind : EventKind) (f : Observer.Core κ → Observer.Core κ) :
    Announced record l l' kind f [] where
  hears := hHears
  once := .nil
  news _ ho := by cases ho
  core o := by
    rw [hCore]
    exact Option.map_id'.symm

theorem newsFor_eq {kind : EventKind} {o : ObserverId}
    (hNews : kind.isNewsTo (l.statusOf o) = true) : l.newsFor kind o = l.noticesOf kind o := by
  have hLives : l.statusOf o ≠ .destroyed := by
    intro hEnded
    rw [hEnded] at hNews
    cases kind <;> cases hNews
  obtain ⟨x, hx, hEq⟩ := exists_core hLives
  rw [newsFor_of_news hx (hEq ▸ hNews), noticesOf, hx]

theorem Announced.of_news {kind : EventKind} {f : Observer.Core κ → Observer.Core κ}
    {os : List ObserverId} (hOnce : os.Nodup)
    (hNews : ∀ o ∈ os, kind.isNewsTo (l.statusOf o) = true)
    (hCore : ∀ o, l'.core? o = (l.core? o).map fun x => if o ∈ os then f x else x)
    (hHears : Hears record l l' (os.flatMap (l.newsFor kind))) : Announced record l l' kind f os := by
  refine ⟨?_, hOnce, hNews, hCore⟩
  rw [List.flatMap_def, List.map_congr_left fun o ho => newsFor_eq (hNews o ho)] at hHears
  exact hHears

theorem Crossing.of_same (hSame : l'.isConnected r = l.isConnected r)
    (hCore : ∀ o, l'.core? o = l.core? o) (hHears : Hears record l l' []) :
    Crossing record l l' r where
  comes hWas hIs := by
    rw [hSame, hWas] at hIs
    cases hIs
  ceases hWas hIs := by
    rw [hSame, hWas] at hIs
    cases hIs
  stays _ := Announced.nobody hCore hHears _ _

section Announcing

variable (hO : l.Observed) (hC : Carried l l' r) (hr : l.dom.Known r)
include hO hC hr

/-- An event that is news to whoever is in a node or container is announced to all of them. -/
theorem announced {kind : EventKind} {c : Connectivity} {os : List ObserverId} (hOnce : os.Nodup)
    (hOs : ∀ o ∈ os, o ∈ l'.observersIn r)
    (hNews : ∀ status : Connectivity, status ≠ .destroyed →
      (status = .connected ↔ l.isConnected r = true) → kind.isNewsTo status = true)
    (hCore : ∀ o, l'.core? o = (l.core? o).map fun x => if o ∈ os then x.turn c else x)
    (hHears : Hears record l l' (os.flatMap (l.newsFor kind))) :
    Announced record l l' kind (Observer.Core.turn c) os := by
  refine .of_news hOnce (fun o ho => ?_) hCore hHears
  obtain ⟨y, hy, hLives, hIn⟩ := ((hC.audience (hC.parts.known_iff.mpr hr)).mem_iff o).mp (hOs o ho)
  have hCore' : l'.core? o = some y.core := by rw [core?, hy]; rfl
  rw [hCore] at hCore'
  obtain ⟨x, hx, hEq⟩ := Option.map_eq_some_iff.mp hCore'
  rw [if_pos ho] at hEq
  have hTarget : y.target = x.target := by
    rw [← Observer.Core.turn_target c x, hEq]
    rfl
  have hLives' : x.status ≠ .destroyed := fun he => by
    rw [Observer.Core.turn_of_eq c he] at hEq
    exact hLives ((congrArg Observer.Core.status hEq).symm.trans he)
  rw [hTarget, hC.parts.key, hC.inside] at hIn
  rw [statusOf_eq hx]
  exact hNews _ hLives' (hO.reports_in hr hx hLives' hIn)

theorem Crossing.of_comes (hWas : l.isConnected r = false) (hIs : l'.isConnected r = true)
    (hCore : ∀ o, l'.core? o = (l.core? o).map (turnAll (l'.observersIn r) .connected o))
    (hHears : Hears record l l' ((l'.observersIn r).flatMap (l.newsFor .connect))) :
    Crossing record l l' r where
  comes _ _ := by
    refine announced hO hC hr (hC.audience (hC.parts.known_iff.mpr hr)).once (fun _ ho => ho)
      (fun status hLives hReport => ?_) hCore hHears
    rw [EventKind.connect_isNewsTo]
    rw [hWas] at hReport
    cases status <;> simp at hLives hReport ⊢
  ceases hWas' := by
    rw [hWas] at hWas'
    cases hWas'
  stays hSame := by
    rw [hIs, hWas] at hSame
    cases hSame

theorem Crossing.of_ceases (hWas : l.isConnected r = true) (hIs : l'.isConnected r = false)
    (hCore : ∀ o, l'.core? o = (l.core? o).map (turnAll (l'.observersIn r) .disconnected o))
    (hHears : Hears record l l' ((l'.observersIn r).reverse.flatMap (l.newsFor .disconnect))) :
    Crossing record l l' r where
  comes hWas' := by
    rw [hWas] at hWas'
    cases hWas'
  ceases _ _ := by
    refine announced hO hC hr (List.pairwise_reverse.mpr
        ((hC.audience (hC.parts.known_iff.mpr hr)).once.imp Ne.symm))
      (fun _ ho => List.mem_reverse.mp ho)
      (fun status hLives hReport => ?_) (fun o => ?_) hHears
    · rw [EventKind.disconnect_isNewsTo]
      exact hReport.mpr hWas
    · simp only [List.mem_reverse]
      exact hCore o
  stays hSame := by
    rw [hIs, hWas] at hSame
    cases hSame

end Announcing

/-! ## Transitions -/

/-- What hooks hear of a transition of a node or container, with the observers as they are then. -/
inductive Rumour (record : σ → List (κ × Event)) (l l' : Live κ σ) (r : NodeRef) : Prop
  | nothing (hSame : l'.isConnected r = l.isConnected r) (hCore : ∀ o, l'.core? o = l.core? o)
    (hHears : Hears record l l' [])
  | comes (hWas : l.isConnected r = false) (hIs : l'.isConnected r = true)
    (hCore : ∀ o, l'.core? o = (l.core? o).map (turnAll (l'.observersIn r) .connected o))
    (hHears : Hears record l l' ((l'.observersIn r).flatMap (l.newsFor .connect)))
  | ceases (hWas : l.isConnected r = true) (hIs : l'.isConnected r = false)
    (hCore : ∀ o, l'.core? o = (l.core? o).map (turnAll (l'.observersIn r) .disconnected o))
    (hHears : Hears record l l' ((l'.observersIn r).reverse.flatMap (l.newsFor .disconnect)))

theorem Rumour.crossing (h : Rumour record l l' r) (hO : l.Observed) (hC : Carried l l' r)
    (hr : l.dom.Known r) : Crossing record l l' r := by
  cases h with
  | nothing hSame hCore hHears => exact .of_same hSame hCore hHears
  | comes hWas hIs hCore hHears => exact .of_comes hO hC hr hWas hIs hCore hHears
  | ceases hWas hIs hCore hHears => exact .of_ceases hO hC hr hWas hIs hCore hHears

theorem Struck.rumour_same (h : Struck (Asking record) l l' l.dom) : Rumour record l l' r := by
  refine .nothing (isConnected_congr h.dom h.document r) (fun o => core?_of_observers h.observers o) ?_
  obtain ⟨asked, hAsked, hRecord⟩ := h.client
  refine ⟨asked, hAsked, ?_⟩
  rw [Writes, hRecord, List.append_nil]

section Transitions

variable (hO : l.Observed) (hClient : client.Records record) (depth : Nat)
variable (hQuiet : l.QuietFor fun _ => True) (hr : l.dom.Known r)

namespace Struck

variable {d : Dom} (h : Struck (Asking record) l l₁ d)
include h

theorem after_unheard (hSame : (l.withDom d).isConnected r = l.isConnected r) :
    After (sure (noteMoves r) : Act κ σ Unit).run l₁ fun _ l' => Rumour record l l' r := by
  refine h.unheard.mono ?_
  rintro _ l' ⟨hChanged, hHears⟩
  refine .nothing ((hChanged.seen r).1.trans hSame) (fun o => ?_) hHears
  rw [hChanged.core, Option.map_id, id]

variable (hQuiet₁ : l₁.QuietFor fun _ => True) (hOnce : ((l.withDom d).observersIn r).Nodup)
include hClient hQuiet₁ hOnce

/-- The observers in what comes to reach the document are told. -/
theorem after_comes (hWas : l.isConnected r = false) (hIs : (l.withDom d).isConnected r = true) :
    After (do
        notifyConnected (Calls.upTo client (depth + 2)) r
        sure (noteMoves r) : Act κ σ Unit).run l₁ fun _ l' => Rumour record l l' r := by
  have hSeen := (h.toChanged.seen r).2
  refine (h.heard ((notifyConnected_changed hClient.quiet depth hQuiet₁ fun _ _ => trivial).and
    (notifyConnected_writes hClient depth hQuiet₁ (hSeen ▸ hOnce) fun _ _ => trivial))).mono ?_
  rintro _ l' ⟨hChanged, hHears⟩
  obtain ⟨hConnected, hObservers⟩ := hChanged.seen r
  refine .comes hWas (hConnected.trans hIs) ?_ ?_
  · rw [hObservers, ← hSeen]
    exact hChanged.core
  · rw [hObservers, ← hSeen]
    have hNews : l₁.newsFor .connect = l.newsFor .connect :=
      funext fun o => newsFor_congr (core?_of_observers h.observers o) _
    exact hNews ▸ hHears

/-- The observers in what ceases to reach the document are told. -/
theorem after_ceases (hWas : l.isConnected r = true) (hIs : (l.withDom d).isConnected r = false) :
    After (do
        notifyDisconnected (Calls.upTo client (depth + 2)) r
        sure (noteMoves r) : Act κ σ Unit).run l₁ fun _ l' => Rumour record l l' r := by
  have hSeen := (h.toChanged.seen r).2
  refine (h.heard ((notifyDisconnected_changed hClient.quiet depth hQuiet₁ fun _ _ => trivial).and
    (notifyDisconnected_writes hClient depth hQuiet₁ (hSeen ▸ hOnce) fun _ _ => trivial))).mono ?_
  rintro _ l' ⟨hChanged, hHears⟩
  obtain ⟨hConnected, hObservers⟩ := hChanged.seen r
  refine .ceases hWas (hConnected.trans hIs) ?_ ?_
  · rw [hObservers, ← hSeen]
    exact hChanged.core
  · rw [hObservers, ← hSeen]
    have hNews : l₁.newsFor .disconnect = l.newsFor .disconnect :=
      funext fun o => newsFor_congr (core?_of_observers h.observers o) _
    exact hNews ▸ hHears

end Struck

namespace Observed

include hO hClient hQuiet hr

theorem attach_crosses (hNe : r ≠ .node l.document) (hParent : l.dom.Known parent)
    (hOut : ¬ l.dom.Inside r (l.dom.key parent)) :
    After (Live.attach (Calls.upTo client (depth + 2)) r parent before).run l fun _ l' =>
      Crossing record l l' r := by
  have hKey := hO.key_ne_document hr hNe
  have hPut : l.stateOf r = .detached → ∀ d', l.dom.place r parent before = .ok d' →
      d'.Sound ∧ Dom.SameParts l.dom d' := by
    intro hState d' hPlace
    obtain ⟨host, reference, -, hHost, hHoused⟩ := hO.sound.housed_of_place hr hParent
      (fun he => hOut (he ▸ Dom.inside_key _)) hOut ((isPlaced_of_state (hO.settled _) hKey).1 hState)
      hPlace
    exact ⟨hHoused.sound hO.sound hr hHost, hHoused.toSameParts⟩
  suffices hRumour : After (Live.attach (Calls.upTo client (depth + 2)) r parent before).run l
      fun _ l' => Rumour record l l' r from
    ((hO.attach hClient.quiet depth hQuiet hr hNe hParent hOut).and hRumour).mono
      fun _ _ h => h.2.crossing hO h.1 hr
  refine After.attach hClient.quiet depth (asks_asking hClient depth)
    (hQuiet.pliant fun _ _ => trivial) (hO.settled _)
    (fun hState d' hPlace => (hPut hState d' hPlace).2.key r)
    (fun _ _ hStruck _ => hStruck.rumour_same) ?_
  intro d' l₁ _ hState _ _ hPlace hStruck
  have hQuiet₁ : l₁.QuietFor fun _ => True := hStruck.quietFor hQuiet fun _ _ _ he => he
  obtain ⟨hSound, hParts⟩ := hPut hState d' hPlace
  have hWas : l.isConnected r = false := by
    rw [Bool.eq_false_iff, Ne, hO.isConnected_self hr]
    exact hO.sound.not_up_of_not_placed hr hO.plain hNe
      ((isPlaced_of_state (hO.settled _) hKey).1 hState)
  have hSeen := (hStruck.toChanged.seen r).1
  refine ⟨fun hIs => ?_, fun hIs => ?_⟩
  · exact hStruck.after_comes hClient depth hQuiet₁ (hO.observersIn_nodup hr hSound hParts) hWas
      (hSeen ▸ hIs)
  · exact hStruck.after_unheard ((hSeen.symm.trans hIs).trans hWas.symm)

theorem detach_crosses (hNe : r ≠ .node l.document) :
    After (Live.detach (Calls.upTo client (depth + 2)) r).run l fun _ l' =>
      Crossing record l l' r := by
  have hKey := hO.key_ne_document hr hNe
  have hTaken : l.stateOf r = .attached → (l.dom.takeOut r).Sound ∧
      Dom.SameParts l.dom (l.dom.takeOut r) ∧ (l.withDom (l.dom.takeOut r)).isConnected r = false := by
    intro hState
    obtain ⟨hUnhoused, hLinked⟩ :=
      hO.sound.unhoused_takeOut hr ((isPlaced_of_state (hO.settled _) hKey).2 hState)
    have hSound := hUnhoused.sound hO.sound hr hLinked
    have hNot := hO.sound.not_inside_root hr hO.plain hO.top hNe
    have hTop : (l.dom.takeOut r).parent? l.document = none := by
      rw [hUnhoused.parent, if_neg fun hMem => hNot ⟨_, hMem, Forest.up_refl _⟩]
      exact hO.top
    refine ⟨hSound, hUnhoused.toSameParts, ?_⟩
    rw [Bool.eq_false_iff, Ne, hO.isConnected_iff hSound hUnhoused.toSameParts hTop hr]
    exact hUnhoused.not_up_of_inside hO.sound hr (Dom.inside_key r) hO.plain hO.top hNot
  suffices hRumour : After (Live.detach (Calls.upTo client (depth + 2)) r).run l
      fun _ l' => Rumour record l l' r from
    ((hO.detach hClient.quiet depth hQuiet hr hNe).and hRumour).mono
      fun _ _ h => h.2.crossing hO h.1 hr
  refine After.detach hClient.quiet depth (asks_asking hClient depth)
    (hQuiet.pliant fun _ _ => trivial) (hO.settled _) hKey (fun hState => (hTaken hState).2.1.key r)
    (fun _ _ hStruck _ => hStruck.rumour_same) ?_
  intro l₁ _ hState _ hStruck
  have hQuiet₁ : l₁.QuietFor fun _ => True := hStruck.quietFor hQuiet fun _ _ _ he => he
  obtain ⟨hSound, hParts, hIs⟩ := hTaken hState
  refine ⟨fun hWas => ?_, fun hWas => ?_⟩
  · exact hStruck.after_ceases hClient depth hQuiet₁ (hO.observersIn_nodup hr hSound hParts)
      hWas hIs
  · exact hStruck.after_unheard (hIs.trans hWas.symm)

theorem moveTo_crosses (hNe : r ≠ .node l.document) (hParent : l.dom.Known parent)
    (hOut : ¬ l.dom.Inside r (l.dom.key parent)) :
    After (Live.moveTo (Calls.upTo client (depth + 2)) r parent before).run l fun _ l' =>
      Crossing record l l' r := by
  have hAsks := asks_asking hClient depth
  have hSame : Struck (Asking record) l l l.dom := .refl (hAsks.refl _)
  suffices hRumour : After (Live.moveTo (Calls.upTo client (depth + 2)) r parent before).run l
      fun _ l' => Rumour record l l' r from
    ((hO.moveTo hClient.quiet depth hQuiet hr hNe hParent hOut).and hRumour).mono
      fun _ _ h => h.2.crossing hO h.1 hr
  refine After.moveTo (m := .strict) (fun _ _ => hSame.rumour_same) ?_
  intro d' _ hState hMove
  have hKey := hO.key_ne_document hr hNe
  have hStruck := hSame.withDom (.move hMove)
  have hQuiet₁ : (l.withDom d').QuietFor fun _ => True :=
    hStruck.toChanged.quietFor hQuiet fun _ _ _ he => he
  have hOnce : ((l.withDom d').observersIn r).Nodup := by
    rcases hO.sound.housed_of_move hr hParent (fun he => hOut (he ▸ Dom.inside_key _)) hOut
      ((isPlaced_of_state (hO.settled _) hKey).2 hState) hMove with
      rfl | ⟨host, reference, -, hHost, hHoused⟩
    · exact hO.observersIn_nodup hr hO.sound (Dom.SameParts.refl _)
    · exact hO.observersIn_nodup hr (hHoused.sound hO.sound hr hHost) hHoused.toSameParts
  exact ⟨hStruck.after_comes hClient depth hQuiet₁ hOnce,
    hStruck.after_ceases hClient depth hQuiet₁ hOnce,
    fun hStays => hStruck.after_unheard hStays.symm⟩

omit hO hr in
/-- What hooks hear of destroying. -/
theorem destroy_hears (hOnce : (l.observersIn r).Nodup) :
    After (Live.destroy (Calls.upTo client (depth + 2)) r).run l fun out l' =>
      (∃ e, out = .error e ∧ Hears record l l' []) ∨ out = .ok () ∧
        Hears record l l' ((l.observersIn r).reverse.flatMap (l.newsFor .destroy)) := by
  have hSame : Hears record l l [] := ⟨[], (fun _ he => by cases he), .of_client rfl⟩
  unfold Live.destroy
  refine After.ensureLive (fun _ => .inl ⟨_, rfl, hSame⟩) fun _ => ?_
  refine After.needState (fun _ => .inl ⟨_, rfl, hSame⟩) fun _ => ?_
  refine After.sure_bind (setState_noted l r .destroying) fun _ l₁ h₁ => ?_
  have hObservers : l₁.observersIn r = l.observersIn r := observersIn_congr h₁.dom h₁.observer r
  refine After.get_act ?_
  refine After.act_ok (After.forM_sure (tellAllDestroyed_writes hClient depth (h₁.quietFor hQuiet)
    (hObservers ▸ hOnce) fun _ _ => trivial)) ?_
  rintro l₂ hWrites
  have hNews : l₁.newsFor .destroy = l.newsFor .destroy :=
    funext fun o => newsFor_congr (h₁.core o) _
  rw [hObservers, hNews] at hWrites
  refine After.get_act ?_
  have hBuried : After ((l₂.dom.subtree r).forM bury) l₂ fun _ l' => l'.client = l₂.client :=
    After.forM (k := fun _ l' => l'.client = l₂.client) rfl fun _ _ _ h => h
  refine (After.forM_sure hBuried).mono ?_
  rintro _ l' ⟨rfl, hClient'⟩
  have hAll := ((Writes.of_client h₁.client).trans hWrites).trans (.of_client hClient')
  rw [List.nil_append, List.append_nil] at hAll
  exact .inr ⟨rfl, [], (fun _ he => by cases he), hAll⟩

theorem destroy_tells : After (Live.destroy (Calls.upTo client (depth + 2)) r).run l fun out l' =>
    (∃ e, out = .error e ∧ Announced record l l' .destroy Observer.Core.ended []) ∨
      out = .ok () ∧ l.stateOf r = .detached ∧
        Announced record l l' .destroy Observer.Core.ended (l.observersIn r).reverse := by
  have hKeyIn : l.dom.key r ∈ l.dom.subtree r :=
    (hO.sound.key_mem_subtree hr hr).mpr (Dom.inside_key r)
  have hOnce := hO.observersIn_nodup hr hO.sound (Dom.SameParts.refl _)
  refine ((destroy_outcome hClient.quiet depth hQuiet hKeyIn fun _ _ => trivial).and
    (destroy_hears hClient depth hQuiet hOnce)).mono ?_
  rintro out l' ⟨hOut, ⟨e, rfl, hHears⟩ | ⟨rfl, hHears⟩⟩
  · refine .inl ⟨e, rfl, Announced.nobody (fun o => ?_) hHears _ _⟩
    rcases hOut.changed with ⟨hAlike, -⟩ | ⟨hEq, -⟩
    · exact hAlike.core_eq o
    · cases hEq
  · cases hOut with
    | destroyed _ hState hD =>
      refine .inr ⟨rfl, hState, .of_news (List.pairwise_reverse.mpr (hOnce.imp Ne.symm))
        (fun o ho => ?_) (fun o => ?_) hHears⟩
      · -- whoever is in the node or container has not ended
        obtain ⟨n, -, ho⟩ := List.mem_filterMap.mp (List.mem_reverse.mp ho)
        obtain ⟨x, hx, -, hLives⟩ := hO.tracked n o ho
        rw [statusOf_eq hx]
        exact EventKind.destroy_isNewsTo.mpr hLives
      · rw [hD.core]
        simp only [List.mem_reverse]

end Observed

end Transitions

end LiveMarkup.Live
