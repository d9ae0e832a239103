import LiveMarkup.Proofs.Live.Lineup
import LiveMarkup.Proofs.Live.Staged

/-!
# Followers between steps

A follower is poised when its container, its wire and what it keeps fit together: the observer of
the container knows whether that reaches the document, and the wire is live just then. What it does
to what it keeps leaves it so.

* `Poised`: a follower between steps;
* `Client.LetsGo`: hooks that cancel no detaching but that of a container;
* `Built`, `Builds`: what is asked of a factory;
* `Poised.present_unless`, `Poised.withdraw_unless`, `Poised.build`: what a follower can do.
-/

namespace LiveMarkup.Live

variable {κ σ : Type} {client : Client κ σ} {l l₁ l' : Live κ σ} {m : Leeway κ} {f : Follower κ}
variable {on : Bool} {rs order : List NodeRef} {r : NodeRef}

/-! ## Between steps -/

/-- What a follower keeps stands as it says, and its wire is live while its container reaches the
document. -/
structure Poised (l : Live κ σ) (f : Follower κ) (rs order : List NodeRef) (on : Bool)
    (m : Leeway κ) : Prop extends Staged l f rs order m where
  hung : l.Hung f on m
  circuit : ∃ registered : Option Nat, l.Circuit f registered m ∧ registered.isSome = on
  connected : l.isConnected (.container f.box) = on

namespace Poised

theorem signal_eq (h : l.Poised f rs order on m) (hStill : Still l l' m) :
    l'.valueOf f.signal = l.valueOf f.signal := by
  obtain ⟨_, hCircuit, -⟩ := h.circuit
  exact hStill.value _ hCircuit.lt_size hCircuit.drives

theorem stirred {rs' order' : List NodeRef} (h : l.Poised f rs order on m) (hS : Stirred l l' f m)
    (hStaged : l'.Staged f rs' order' m) : l'.Poised f rs' order' on m := by
  obtain ⟨registered, hCircuit, hOn⟩ := h.circuit
  exact ⟨hStaged, hS.hung on h.hung, ⟨registered, hS.circuit registered hCircuit, hOn⟩,
    hS.connected.trans h.connected⟩

theorem less {rs' : List NodeRef} (h : l.Poised f rs order on m) (hLess : ∀ r ∈ rs', r ∈ rs)
    (hOrder : ∀ r ∈ order, r ∈ rs') : l.Poised f rs' order on m :=
  ⟨h.toStaged.mono hLess hOrder, h.hung, h.circuit, h.connected⟩

theorem alike (h : l.Poised f rs order on m) (hAlike : Alike l l' m) : l'.Poised f rs order on m :=
  h.stirred (.of_alike hAlike h.spared) (h.toStaged.alike hAlike)

/-- What the client keeps, what waits for its time and what is recorded of conditionals and switches
does not matter. -/
theorem aside (h : l.Poised f rs order on m) (client : σ) (clock : Clock κ)
    (conditionals : Array (Conditional κ)) (switches : Array (Switch κ)) :
    Abides l { l with client, clock, conditionals, switches } m ∧
      ({ l with client, clock, conditionals, switches } : Live κ σ).Poised f rs order on m := by
  have hSturdy : Sturdy l { l with client, clock, conditionals, switches } :=
    .of_tree rfl rfl (.refl _)
  have hClosed : l.Closed m → Closed { l with client, clock, conditionals, switches } m :=
    fun h s hs w hw => hSturdy.slight (h s hs w hw)
  have hAbides : Abides l { l with client, clock, conditionals, switches } m :=
    ⟨rfl, rfl, rfl, fun _ hr => hr, fun _ _ hr => hr, fun _ x hx => ⟨x, hx, rfl, fun _ he => he⟩,
      Nat.le_refl _, fun _ _ => Iff.rfl, fun _ => hSturdy.slight, hClosed,
      fun _ => hSturdy.hook_quiet hClosed rfl rfl⟩
  obtain ⟨registered, hCircuit, hOn⟩ := h.circuit
  exact ⟨hAbides, h.toStaged.abides hAbides (.refl _) fun _ => rfl,
    h.hung.of_same hAbides.quiet rfl fun _ hx => hx, ⟨registered, hCircuit.aside _ _ _ _, hOn⟩,
    h.connected⟩

end Poised

/-! ## What is done to what is kept -/

/-- Hooks may cancel what they like, but not that anything except a container is detached. -/
def Client.LetsGo (client : Client κ σ) (box : ContainerId) : Prop :=
  ∀ r, r ≠ .container box → client.Grants { kind := .beforeDetach, target := r }

theorem Client.Consents.letsGo (h : client.Consents) (box : ContainerId) : client.LetsGo box :=
  fun _ _ => h.grants _

/-- If one thing is kept, it is shown or nothing is. -/
theorem Poised.alone (h : l.Poised f [r] order on m) : order = [] ∨ order = [r] := by
  have hOnly : ∀ a ∈ order, a = r := fun a ha => List.mem_singleton.mp (h.shelf.subset a ha)
  cases hOrder : order with
  | nil => exact .inl rfl
  | cons a rest =>
    have hNodup := hOrder ▸ h.shelf.nodup
    rw [hOrder] at hOnly
    obtain ⟨rfl, hRest⟩ := List.forall_mem_cons.mp hOnly
    refine .inr (congrArg _ (List.eq_nil_iff_forall_not_mem.mpr fun b hb => ?_))
    exact (List.nodup_cons.mp hNodup).1 (hRest b hb ▸ hb)

theorem Poised.order_eq_nil (h : l.Poised f [] order on m) : order = [] :=
  List.eq_nil_iff_forall_not_mem.mpr fun a ha => absurd (h.shelf.subset a ha) List.not_mem_nil

section Transitions

variable (hClient : client.Quiet) (hConsents : client.Consents) (depth : Nat)
include hClient

namespace Poised

/-- What is kept is put where it is shown, unless hooks cancel that. -/
theorem put (h : l.Poised f rs [] on m) (hr : r ∈ rs) :
    After (Live.attach (Calls.upTo client (depth + 2)) r (.container f.box) none).run l fun out l' =>
      out = .ok () ∧ Still l l' m ∧ ∃ order', l'.Poised f rs order' on m ∧ (order' = [r] ∨
        order' = [] ∧ ¬ client.Grants { kind := .beforeAttach, target := r }) := by
  refine (h.toStaged.attach hClient depth hr List.not_mem_nil).mono ?_
  rintro _ l' ⟨rfl, hStirred, ⟨hCancelled, hStaged⟩ | hStaged⟩
  · exact ⟨rfl, hStirred.toStill, [], h.stirred hStirred hStaged, .inr ⟨rfl, hCancelled⟩⟩
  · exact ⟨rfl, hStirred.toStill, [r], h.stirred hStirred hStaged, .inl rfl⟩

/-- What is kept is shown alone, whether it was shown before or not, unless hooks cancel that. Then it
stays where it is, or is not shown at all. -/
theorem present_unless (h : l.Poised f rs order on m) (hr : r ∈ rs)
    (hAlone : order = [] ∨ order = [r]) :
    After (attachAnywhere (Calls.upTo client (depth + 2)) r (.container f.box) none).run l
      fun out l' => out = .ok () ∧ Still l l' m ∧ ∃ order', l'.Poised f rs order' on m ∧
        (order' = [r] ∨ order' = [] ∧ ¬ client.Grants { kind := .beforeAttach, target := r }) := by
  unfold attachAnywhere
  refine After.get_act ?_
  rcases hAlone with rfl | rfl
  · rw [(h.stateOf_detached_iff hr).mpr List.not_mem_nil]
    exact h.put hClient depth hr
  have hIn : r ∈ [r] := List.mem_singleton_self r
  rw [(h.stateOf_attached_iff hr).mpr hIn]
  dsimp only
  split
  · refine After.act_bind (h.toStaged.detach hClient depth hIn) ?_ ?_
    · rintro _ l₁ ⟨-, hStirred, ⟨-, hStaged⟩ | hStaged⟩
      · have h₁ := h.stirred hStirred hStaged
        refine After.get_act ?_
        rw [(h₁.stateOf_attached_iff hr).mpr hIn, if_neg (by simp)]
        exact ⟨rfl, hStirred.toStill, [r], h₁, .inl rfl⟩
      · have h₁ := h.stirred hStirred hStaged
        have hNone : ([r].filter (· ≠ r)) = [] := by simp
        rw [hNone] at h₁
        refine After.get_act ?_
        rw [(h₁.stateOf_detached_iff hr).mpr List.not_mem_nil, if_pos rfl]
        refine (h₁.put hClient depth hr).mono ?_
        rintro _ l' ⟨rfl, hStill, h'⟩
        exact ⟨rfl, hStirred.toStill.trans hStill, h'⟩
    · rintro _ _ ⟨hError, -⟩
      cases hError
  · exact ⟨rfl, Still.refl l, [r], h, .inl rfl⟩

/-- What is kept is not shown any more, unless hooks cancel that. -/
theorem withdraw_unless (h : l.Poised f rs order on m) (hr : r ∈ rs) :
    After (detachIfAttached (Calls.upTo client (depth + 2)) r).run l fun out l' =>
      out = .ok () ∧ Still l l' m ∧ ∃ order', l'.Poised f rs order' on m ∧
        (order' = order.filter (· ≠ r) ∨
          order' = order ∧ ¬ client.Grants { kind := .beforeDetach, target := r }) := by
  unfold detachIfAttached
  refine After.get_act ?_
  split
  · rename_i hState
    have hIn := (h.stateOf_attached_iff hr).mp hState
    refine (h.toStaged.detach hClient depth hIn).mono ?_
    rintro _ l' ⟨rfl, hStirred, ⟨hCancelled, hStaged⟩ | hStaged⟩
    · exact ⟨rfl, hStirred.toStill, order, h.stirred hStirred hStaged, .inr ⟨rfl, hCancelled⟩⟩
    · exact ⟨rfl, hStirred.toStill, _, h.stirred hStirred hStaged, .inl rfl⟩
  · rename_i hState
    have hOut := mt (h.stateOf_attached_iff hr).mpr hState
    have hSame : order.filter (· ≠ r) = order :=
      List.filter_eq_self.mpr fun x hx => decide_eq_true fun he : x = r => hOut (he ▸ hx)
    exact ⟨rfl, Still.refl l, order, h, .inl hSame.symm⟩

/-- What is kept and hidden is destroyed. -/
theorem destroy (h : l.Poised f rs order on m) (hr : r ∈ rs) (hOut : r ∉ order) :
    After (Live.destroy (Calls.upTo client (depth + 2)) r).run l fun out l' =>
      out = .ok () ∧ Still l l' m ∧ l'.stateOf r = .destroyed ∧
        l'.Poised f (rs.filter (· ≠ r)) order on m :=
  (h.toStaged.destroy hClient depth hr hOut).mono fun _ _ hPost =>
    ⟨hPost.1, hPost.2.1.toStill, hPost.2.2.1, h.stirred hPost.2.1 hPost.2.2.2⟩

include hConsents

end Poised

end Transitions

/-! ## Factories -/

/-- A node or container was made; it is detached and its hooks are quiet. All that was there is as it
was, and the followers that are left alone are wired as before. -/
structure Built (l l' : Live κ σ) (r : NodeRef) (m : Leeway κ) : Prop extends Spared l l' m where
  fresh : Fresh l l' r m
  posted : l'.Posted r
  unmarked : ∀ c, r = .container c → (l'.trackedOf (l'.dom.part c .finish)).observer = none
  config : l'.config = l.config
  clock : l'.clock = l.clock
  conditionals : ∀ c < l.conditionals.size, l'.conditional? c = l.conditional? c
  switches : ∀ s < l.switches.size, l'.switch? s = l.switch? s
  values : ∀ s < l.signals.size, ¬ m.Drives l s → l'.valueOf s = l.valueOf s
  wires : ∀ f, m.spared f → ∀ registered, l.Wire f registered → l'.Wire f registered

/-- A factory makes a new node or container whenever it is asked to. The followers that are to be left
alone are wired. -/
def Builds (calls : Calls κ σ) (factory : NodeFactory κ) (m : Leeway κ) : Prop :=
  ∀ l, l.Ready m → l.document < l.dom.nodes.size → l.tornDown = false →
    (∀ f, m.spared f → ∃ registered, l.Wire f registered) →
      After (calls.build factory).run l fun out l' => ∃ r, out = .ok r ∧ Built l l' r m

namespace Built

variable (hB : Built l l' r m)
include hB

theorem abides (h : l.Staged f rs order m) : Abides l l' m where
  config := hB.config
  document := hB.document
  tornDown := hB.tornDown
  known _ := hB.kept.known
  destroyed := (h.passed hB.toSpared).destroyed
  core o x hx := ⟨x, hB.core o x hx, rfl, fun _ he => he⟩
  signals_size := hB.signals_size
  drives := hB.drives
  slight := hB.slight
  closed _ := hB.closed
  quiet := hB.quiet

/-- A circuit is not touched. -/
theorem circuit {registered : Option Nat} (h : l.Circuit f registered m) (hSpared : m.spared f) :
    l'.Circuit f registered m where
  toWire := hB.wires f hSpared registered h.toWire
  undriven := h.undriven
  others w hw := by
    rcases hB.watchers f.signal h.lt_size w hw with hOld | hNew
    · exact (h.others w hOld).imp_left (hB.slight _)
    · exact .inl hNew

/-- The new node or container is kept with the others. -/
theorem staged (h : l.Staged f rs order m) : l'.Staged f (r :: rs) order m := by
  have hBox : l.dom.Known (.container f.box) := h.shelf.box_lt
  refine ⟨h.toUnhindered.add hB.toSpared hB.fresh hB.posted, h.only, ?_, fun c hc => ?_⟩
  · rw [hB.kept.key hBox, hB.document]
    exact h.ne_document
  · rcases List.mem_cons.mp hc with hNew | hOld
    · exact hB.unmarked c hNew.symm
    · have hKnown : c < l.dom.containers.size := h.shelf.known _ hOld
      rw [hB.kept.part hKnown, hB.tracked _ (h.sound.part_lt c hKnown .finish)]
      exact h.ends c hOld

theorem poised (h : l.Poised f rs order on m) : l'.Poised f (r :: rs) order on m := by
  obtain ⟨registered, hCircuit, hOn⟩ := h.circuit
  have hBox : f.box < l.dom.containers.size := h.shelf.box_lt
  refine ⟨hB.staged h.toStaged, ?_, ⟨registered, hB.circuit hCircuit h.spared, hOn⟩, ?_⟩
  · have hKnown : l.dom.Known (.container f.box) := hBox
    refine h.hung.of_same hB.quiet ?_ fun x hx => hB.core _ x hx
    rw [hB.kept.key hKnown, hB.tracked _ (h.sound.key_lt_size hKnown)]
  · refine Eq.trans (Bool.eq_iff_iff.mpr ?_) h.connected
    rw [isConnected_container_iff hB.sound, isConnected_container_iff h.sound, hB.document,
      hB.kept.container _ hBox, hB.kept.part hBox, hB.kept.parent _ h.document]
    refine and_congr_right fun _ => and_congr_left fun _ => ⟨fun hUp => ?_, hB.kept.up⟩
    exact (hB.kept.up_of_lt h.sound (h.sound.part_lt _ hBox .start) hUp).1

theorem signal_eq (h : l.Poised f rs order on m) : l'.valueOf f.signal = l.valueOf f.signal := by
  obtain ⟨_, hCircuit, -⟩ := h.circuit
  exact hB.values _ hCircuit.lt_size hCircuit.drives

end Built

namespace Poised

/-- What a factory is asked for by a follower is built. -/
theorem builds {calls : Calls κ σ} {factory : NodeFactory κ} (h : l.Poised f rs order on m)
    (hBuilds : Builds calls factory m) :
    After (calls.build factory).run l fun out l' => ∃ r, out = .ok r ∧ Built l l' r m := by
  refine hBuilds l h.toReady h.document h.up fun f' hf' => ?_
  obtain ⟨registered, hCircuit, -⟩ := h.circuit
  exact ⟨registered, (h.only f').mp hf' ▸ hCircuit.toWire⟩

/-- A follower has something built. -/
theorem build {calls : Calls κ σ} {factory : NodeFactory κ} (h : l.Poised f rs order on m)
    (hBuilds : Builds calls factory m) :
    After (calls.build factory).run l fun out l' => ∃ r, out = .ok r ∧ Built l l' r m ∧
      r ∉ rs ∧ Abides l l' m ∧ l'.Poised f (r :: rs) order on m := by
  refine (h.builds hBuilds).mono ?_
  rintro _ l' ⟨r, rfl, hB⟩
  exact ⟨r, rfl, hB, hB.fresh.not_mem h.toLineup hB.toSpared, hB.abides h.toStaged, hB.poised h⟩

end Poised

end LiveMarkup.Live
