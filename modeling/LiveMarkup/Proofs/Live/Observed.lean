import LiveMarkup.Proofs.Dom.Taking
import LiveMarkup.Proofs.Live.Transitions

/-!
# Observers and the tree

Between two operations nothing is under way, the tables know the observers that have not ended,
and each of these reports whether its target reaches the document.

* `Observed.attach`, `Observed.detach`, `Observed.destroy`, `Observed.moveTo`: every transition
  with quiet hooks keeps that up.
-/

namespace LiveMarkup.Live

variable {κ σ : Type} {client : Client κ σ} {l l' : Live κ σ} {r parent : NodeRef}
variable {before : Option NodeRef}

/-- The tree, the tables and the observers agree. -/
structure Observed (l : Live κ σ) : Prop where
  sound : l.dom.Sound
  plain : l.dom.Plain l.document
  top : l.dom.parent? l.document = none
  settled : l.Settled
  lasting : (l.trackedOf l.document).state = none
  buried : ∀ n, (l.trackedOf n).state = some .destroyed → (l.trackedOf n).observer = none
  known : ∀ o x, l.core? o = some x → l.dom.Known x.target
  kept : ∀ o x, l.core? o = some x → x.status ≠ .destroyed →
    (l.trackedOf (l.dom.key x.target)).observer = some o
  ended : ∀ o x, l.core? o = some x → x.status = .destroyed →
    (l.trackedOf (l.dom.key x.target)).state = some .destroyed
  tracked : ∀ n o, (l.trackedOf n).observer = some o →
    ∃ x, l.core? o = some x ∧ l.dom.key x.target = n ∧ x.status ≠ .destroyed
  reports : ∀ o x, l.core? o = some x → x.status ≠ .destroyed →
    (x.status = .connected ↔ l.dom.nodes.Up (l.dom.key x.target) l.document)

/-- What stays the same about a node or container in a transition, while all still agrees. -/
structure Carried (l l' : Live κ σ) (r : NodeRef) : Prop extends Observed l' where
  document : l'.document = l.document
  parts : Dom.SameParts l.dom l'.dom
  inside : ∀ m, l'.dom.Inside r m ↔ l.dom.Inside r m

namespace Observed

variable (hO : l.Observed)
include hO

/-- A change of the tree and of observers that keeps targets and keeps reports true. -/
theorem transport {f : ObserverId → Observer.Core κ → Observer.Core κ}
    (hDocument : l'.document = l.document) (hTracked : ∀ n, l'.trackedOf n = l.trackedOf n)
    (hCore : ∀ o, l'.core? o = (l.core? o).map (f o)) (hSound : l'.dom.Sound)
    (hParts : Dom.SameParts l.dom l'.dom) (hTop : l'.dom.parent? l.document = none)
    (hTarget : ∀ o x, (f o x).target = x.target)
    (hEnded : ∀ o x, (f o x).status = .destroyed ↔ x.status = .destroyed)
    (hReports : ∀ o x, l.core? o = some x → x.status ≠ .destroyed →
      ((f o x).status = .connected ↔ l'.dom.nodes.Up (l.dom.key x.target) l.document)) :
    l'.Observed := by
  have hOld : ∀ o x', l'.core? o = some x' → ∃ x, l.core? o = some x ∧ f o x = x' :=
    fun o x' hx' => Option.map_eq_some_iff.mp ((hCore o).symm.trans hx')
  refine ⟨hSound, ?_, ?_, fun n => ?_, ?_, fun n hn => ?_, fun o x' hx' => ?_,
    fun o x' hx' hNe => ?_, fun o x' hx' hEq => ?_, fun n o ho => ?_, fun o x' hx' hNe => ?_⟩
  · rw [hDocument]
    exact hParts.plain_iff.mpr hO.plain
  · rw [hDocument]
    exact hTop
  · rw [hTracked]
    exact hO.settled n
  · rw [hTracked, hDocument]
    exact hO.lasting
  · rw [hTracked] at hn ⊢
    exact hO.buried n hn
  · obtain ⟨x, hx, rfl⟩ := hOld o x' hx'
    rw [hTarget]
    exact hParts.known_iff.mpr (hO.known o x hx)
  · obtain ⟨x, hx, rfl⟩ := hOld o x' hx'
    rw [hTracked, hParts.key, hTarget]
    exact hO.kept o x hx (mt (hEnded o x).mpr hNe)
  · obtain ⟨x, hx, rfl⟩ := hOld o x' hx'
    rw [hTracked, hParts.key, hTarget]
    exact hO.ended o x hx ((hEnded o x).mp hEq)
  · rw [hTracked] at ho
    obtain ⟨x, hx, hn, hNe⟩ := hO.tracked n o ho
    refine ⟨f o x, by rw [hCore, hx]; rfl, ?_, mt (hEnded o x).mp hNe⟩
    rw [hParts.key, hTarget, hn]
  · obtain ⟨x, hx, rfl⟩ := hOld o x' hx'
    rw [hParts.key, hDocument, hTarget]
    exact hReports o x hx (mt (hEnded o x).mpr hNe)

/-- A change of the tree and of statuses that keeps reports true. -/
theorem changed {d' : Dom} {f : ObserverId → Observer.Core κ → Observer.Core κ}
    (hC : Changed l l' d' f) (hSound : d'.Sound) (hParts : Dom.SameParts l.dom d')
    (hTop : d'.parent? l.document = none) (hTarget : ∀ o x, (f o x).target = x.target)
    (hEnded : ∀ o x, (f o x).status = .destroyed ↔ x.status = .destroyed)
    (hReports : ∀ o x, l.core? o = some x → x.status ≠ .destroyed →
      ((f o x).status = .connected ↔ d'.nodes.Up (l.dom.key x.target) l.document)) :
    l'.Observed := by
  obtain rfl := hC.dom
  exact hO.transport hC.document hC.tracked hC.core hSound hParts hTop hTarget hEnded hReports

theorem alike (h : Alike l l') : l'.Observed :=
  hO.changed h hO.sound (Dom.SameParts.refl _) hO.top (fun _ _ => rfl) (fun _ _ => Iff.rfl)
    hO.reports

/-- The observers in a node or container are those whose targets are inside. -/
theorem mem_observersIn {d' : Dom} (hSound : d'.Sound) (hParts : Dom.SameParts l.dom d')
    (hr : l.dom.Known r) {o : ObserverId} {x : Observer.Core κ} (hx : l.core? o = some x)
    (hNe : x.status ≠ .destroyed) :
    o ∈ (l.withDom d').observersIn r ↔ d'.Inside r (l.dom.key x.target) := by
  have hKnown := hParts.known_iff.mpr (hO.known o x hx)
  rw [← hParts.key, ← hSound.key_mem_subtree (hParts.known_iff.mpr hr) hKnown, hParts.key]
  change o ∈ (d'.subtree r).filterMap (fun n => (l.trackedOf n).observer) ↔ _
  rw [List.mem_filterMap]
  constructor
  · rintro ⟨n, hn, ho⟩
    obtain ⟨y, hy, rfl, _⟩ := hO.tracked n o ho
    rw [hx] at hy
    rwa [Option.some.inj hy]
  · exact fun hn => ⟨_, hn, hO.kept o x hx hNe⟩

theorem key_ne_document (hr : l.dom.Known r) (hNe : r ≠ .node l.document) :
    l.dom.key r ≠ l.document := by
  intro hKey
  cases r with
  | node n => exact hNe (congrArg NodeRef.node hKey)
  | container c => exact hO.plain.ne_part c hr .start hKey.symm

/-- Whether something reaches the document, as a way up. -/
theorem isConnected_iff {d' : Dom} (hSound : d'.Sound) (hParts : Dom.SameParts l.dom d')
    (hTop : d'.parent? l.document = none) (hr : l.dom.Known r) :
    (l.withDom d').isConnected r = true ↔ d'.nodes.Up (l.dom.key r) l.document := by
  rw [← hParts.key, ← hSound.first_up_root_iff (hParts.known_iff.mpr hr)
    (hParts.plain_iff.mpr hO.plain)]
  change (d'.first? r).any (fun n => d'.nodes.root n == l.document) = true ↔ _
  rw [Option.any_eq_true]
  refine exists_congr fun n => and_congr_right fun _ => ?_
  rw [beq_iff_eq, hSound.linked.root_eq_iff]
  exact and_iff_left hTop

theorem isConnected_self (hr : l.dom.Known r) :
    l.isConnected r = true ↔ l.dom.nodes.Up (l.dom.key r) l.document :=
  hO.isConnected_iff hO.sound (Dom.SameParts.refl _) hO.top hr

/-! ## Transitions -/

/-- A node or container that is put into a host keeps the reports true if what is inside is told
whether the host reaches the document. -/
theorem housed {d' : Dom} {host : NodeId} {reference : Option NodeId}
    {f : ObserverId → Observer.Core κ → Observer.Core κ} (hC : Changed l l' d' f)
    (hr : l.dom.Known r) (hNe : r ≠ .node l.document) (hHost : l.dom.Host r host)
    (hHoused : Dom.Housed l.dom d' r host reference)
    (hTarget : ∀ o x, (f o x).target = x.target)
    (hEnded : ∀ o x, (f o x).status = .destroyed ↔ x.status = .destroyed)
    (hIn : ∀ o x, l.core? o = some x → x.status ≠ .destroyed →
      o ∈ (l.withDom d').observersIn r → (x.status = .connected ↔ l.isConnected r = true) →
        ((f o x).status = .connected ↔ (l.withDom d').isConnected r = true))
    (hOut : ∀ o x, o ∉ (l.withDom d').observersIn r → f o x = x) : l'.Observed := by
  have hSound := hHoused.sound hO.sound hr hHost
  have hNot := hO.sound.not_inside_root hr hO.plain hO.top hNe
  have hTop : d'.parent? l.document = none := by
    rw [hHoused.parent, if_neg fun hMem => hNot ⟨_, hMem, Forest.up_refl _⟩]
    exact hO.top
  refine hO.changed hC hSound hHoused.toSameParts hTop hTarget hEnded fun o x hx hLive => ?_
  have hMem := hO.mem_observersIn hSound hHoused.toSameParts hr hx hLive
  rw [hHoused.inside_iff hO.sound hr hHost] at hMem
  by_cases hInside : l.dom.Inside r (l.dom.key x.target)
  · rw [hIn o x hx hLive (hMem.mpr hInside), hO.isConnected_iff hSound hHoused.toSameParts hTop hr,
      hHoused.up_iff_of_inside hHost hInside hO.top hNot,
      hHoused.up_iff_of_inside hHost (Dom.inside_key r) hO.top hNot]
    rw [hO.reports o x hx hLive, hO.isConnected_self hr]
    exact hO.sound.inside_up_root_iff hr hInside hO.plain hO.top
  · rw [hOut o x (mt hMem.mp hInside), hHoused.up_iff_of_outside hInside]
    exact hO.reports o x hx hLive

theorem carried_of_alike (h : Alike l l') : Carried l l' r where
  toObserved := hO.alike h
  document := h.document
  parts := by
    rw [h.dom]
    exact Dom.SameParts.refl _
  inside m := by rw [h.dom]

section Transitions

variable (hClient : client.Quiet) (depth : Nat) (hQuiet : l.QuietFor fun _ => True)
variable (hr : l.dom.Known r) (hNe : r ≠ .node l.document)
include hClient hQuiet hr hNe

theorem attach (hParent : l.dom.Known parent) (hOut : ¬ l.dom.Inside r (l.dom.key parent)) :
    After (attach (Calls.upTo client (depth + 2)) r parent before).run l fun _ l' =>
      Carried l l' r := by
  have hKey := hO.key_ne_document hr hNe
  have hPut : l.stateOf r = .detached → ∀ d', l.dom.place r parent before = .ok d' →
      ∃ host reference, l.dom.Host r host ∧ Dom.Housed l.dom d' r host reference := by
    intro hState d' hPlace
    have hParentNe : parent ≠ r := by
      rintro rfl
      exact hOut (Dom.inside_key _)
    obtain ⟨host, reference, _, hHost, hHoused⟩ := hO.sound.housed_of_place hr hParent hParentNe
      hOut ((isPlaced_of_state (hO.settled _) hKey).1 hState) hPlace
    exact ⟨host, reference, hHost, hHoused⟩
  refine ((attach_outcome hClient depth hQuiet (hO.settled _) (fun _ _ => trivial)
    fun hState d' hPlace => ?_).mono fun _ _ h => h.changed).mono ?_
  · obtain ⟨host, reference, _, hHoused⟩ := hPut hState d' hPlace
    exact ⟨hHoused.key r, fun _ _ => trivial⟩
  · rintro out l' (⟨hAlike, _⟩ | ⟨d', hPlace, _, _, hState, hC⟩)
    · exact hO.carried_of_alike hAlike
    · obtain ⟨host, reference, hHost, hHoused⟩ := hPut hState d' hPlace
      have hOff := (isPlaced_of_state (hO.settled _) hKey).1 hState
      have hWas : ¬ l.isConnected r = true := by
        rw [hO.isConnected_self hr]
        exact hO.sound.not_up_of_not_placed hr hO.plain hNe hOff
      refine ⟨hO.housed hC hr hNe hHost hHoused (fun o x => ?_) (fun o x => ?_)
        (fun o x hx hLive ho hReport => ?_) (fun o x ho => ?_), hC.document, ?_, fun m => ?_⟩
      · unfold connecting
        split
        · exact turnAll_target _ _ o x
        · rfl
      · unfold connecting
        split
        · exact turnAll_ended _ (by decide) o x
        · rfl
      · unfold connecting
        split
        · rename_i hIs
          exact iff_of_true (turnAll_of_mem _ ho hLive) hIs
        · rename_i hIs
          exact (hReport.trans (iff_of_false hWas hIs))
      · unfold connecting
        split
        · exact turnAll_of_not_mem _ x ho
        · rfl
      · rw [hC.dom]
        exact hHoused.toSameParts
      · rw [hC.dom]
        exact hHoused.inside_iff hO.sound hr hHost

theorem moveTo (hParent : l.dom.Known parent) (hOut : ¬ l.dom.Inside r (l.dom.key parent)) :
    After (moveTo (Calls.upTo client (depth + 2)) r parent before).run l fun _ l' =>
      Carried l l' r := by
  have hKey := hO.key_ne_document hr hNe
  have hParentNe : parent ≠ r := by
    rintro rfl
    exact hOut (Dom.inside_key _)
  refine ((moveTo_outcome hClient depth hQuiet fun _ _ _ _ _ => trivial).mono
    fun _ _ h => h.changed).mono ?_
  rintro out l' (⟨hAlike, _⟩ | ⟨d', hMove, _, hState, hC⟩)
  · exact hO.carried_of_alike hAlike
  · rcases hO.sound.housed_of_move hr hParent hParentNe hOut
      ((isPlaced_of_state (hO.settled _) hKey).2 hState) hMove with
      rfl | ⟨host, reference, _, hHost, hHoused⟩
    · refine hO.carried_of_alike ?_
      have hSame : l.moving l.dom r = fun _ => id := by
        change (if !l.isConnected r && l.isConnected r then _ else
          if l.isConnected r && !l.isConnected r then _ else _) = _
        cases l.isConnected r <;> rfl
      rwa [hSame] at hC
    · refine ⟨hO.housed hC hr hNe hHost hHoused (fun o x => ?_) (fun o x => ?_)
        (fun o x hx hLive ho hReport => ?_) (fun o x ho => ?_), hC.document, ?_, fun m => ?_⟩
      · unfold moving
        split
        · exact turnAll_target _ _ o x
        · split
          · exact turnAll_target _ _ o x
          · rfl
      · unfold moving
        split
        · exact turnAll_ended _ (by decide) o x
        · split
          · exact turnAll_ended _ (by decide) o x
          · rfl
      · unfold moving
        cases hWas : l.isConnected r <;> cases hIs : (l.withDom d').isConnected r <;>
          simp [hWas] at hReport ⊢
        · exact hReport
        · exact turnAll_of_mem _ ho hLive
        · rw [turnAll_of_mem _ ho hLive]
          decide
        · exact hReport
      · unfold moving
        split
        · exact turnAll_of_not_mem _ x ho
        · split
          · exact turnAll_of_not_mem _ x ho
          · rfl
      · rw [hC.dom]
        exact hHoused.toSameParts
      · rw [hC.dom]
        exact hHoused.inside_iff hO.sound hr hHost

theorem detach : After (detach (Calls.upTo client (depth + 2)) r).run l fun _ l' =>
    Carried l l' r := by
  have hKey := hO.key_ne_document hr hNe
  have hTaken := fun hState =>
    hO.sound.unhoused_takeOut hr ((isPlaced_of_state (hO.settled _) hKey).2 hState)
  refine ((detach_outcome hClient depth hQuiet (hO.settled _) hKey (fun _ _ => trivial)
    fun hState => ⟨(hTaken hState).1.key r, fun _ _ => trivial⟩).mono fun _ _ h => h.changed).mono ?_
  rintro out l' (⟨hAlike, _⟩ | ⟨_, hState, hC⟩)
  · exact hO.carried_of_alike hAlike
  obtain ⟨hUnhoused, hLinked⟩ := hTaken hState
  have hSound := hUnhoused.sound hO.sound hr hLinked
  have hNot := hO.sound.not_inside_root hr hO.plain hO.top hNe
  refine ⟨hO.changed hC hSound hUnhoused.toSameParts ?_ (fun o x => ?_) (fun o x => ?_)
    fun o x hx hLive => ?_, hC.document, ?_, fun m => ?_⟩
  · rw [hUnhoused.parent, if_neg fun hMem => hNot ⟨_, hMem, Forest.up_refl _⟩]
    exact hO.top
  · split
    · exact turnAll_target _ _ o x
    · rfl
  · split
    · exact turnAll_ended _ (by decide) o x
    · rfl
  · have hMem := hO.mem_observersIn hSound hUnhoused.toSameParts hr hx hLive
    rw [hUnhoused.inside_iff hr] at hMem
    by_cases hInside : l.dom.Inside r (l.dom.key x.target)
    · refine iff_of_false ?_ (hUnhoused.not_up_of_inside hO.sound hr hInside hO.plain hO.top hNot)
      split
      · rw [disconnecting, turnAll_of_mem _ (hMem.mpr hInside) hLive]
        decide
      · rename_i hWas
        change ¬ x.status = .connected
        rw [hO.reports o x hx hLive, hO.sound.inside_up_root_iff hr hInside hO.plain hO.top,
          ← hO.isConnected_self hr]
        exact hWas
    · rw [hUnhoused.up_iff_of_outside hInside, ← hO.reports o x hx hLive]
      split
      · rw [disconnecting, turnAll_of_not_mem _ x (mt hMem.mp hInside)]
      · rfl
  · rw [hC.dom]
    exact hUnhoused.toSameParts
  · rw [hC.dom]
    exact hUnhoused.inside_iff hr

end Transitions

/-- What is destroyed has ended observers only, and all others report as before. -/
theorem destroyed (h : Destroyed l l' r) (hr : l.dom.Known r) (hNe : r ≠ .node l.document) :
    l'.Observed := by
  have hOld : ∀ o x', l'.core? o = some x' → ∃ x, l.core? o = some x ∧
      (if o ∈ l.observersIn r then x.ended else x) = x' :=
    fun o x' hx' => Option.map_eq_some_iff.mp ((h.core o).symm.trans hx')
  have hTarget : ∀ (o : ObserverId) (x : Observer.Core κ),
      (if o ∈ l.observersIn r then x.ended else x).target = x.target := by
    intro o x
    split <;> simp
  -- an observer that is told has its target inside
  have hMem : ∀ o x, l.core? o = some x → x.status ≠ .destroyed →
      (o ∈ l.observersIn r ↔ l.dom.key x.target ∈ l.dom.subtree r) := by
    intro o x hx hLive
    rw [hO.sound.key_mem_subtree hr (hO.known o x hx)]
    exact hO.mem_observersIn hO.sound (Dom.SameParts.refl _) hr hx hLive
  refine ⟨?_, ?_, ?_, fun n => ?_, ?_, fun n hn => ?_, fun o x' hx' => ?_,
    fun o x' hx' hNe => ?_, fun o x' hx' hEq => ?_, fun n o ho => ?_, fun o x' hx' hNe => ?_⟩
  · rw [h.dom]
    exact hO.sound
  · rw [h.dom, h.document]
    exact hO.plain
  · rw [h.dom, h.document]
    exact hO.top
  · rw [h.tracked]
    split
    · exact .inr rfl
    · exact hO.settled n
  · rw [h.document, h.tracked, if_neg]
    · exact hO.lasting
    · rw [hO.sound.mem_subtree hr]
      exact fun hIn => hO.sound.not_inside_root hr hO.plain hO.top hNe hIn.1
  · rw [h.tracked] at hn ⊢
    split
    · rfl
    · rename_i hOut
      rw [if_neg hOut] at hn
      exact hO.buried n hn
  · obtain ⟨x, hx, rfl⟩ := hOld o x' hx'
    rw [h.dom, hTarget]
    exact hO.known o x hx
  · obtain ⟨x, hx, rfl⟩ := hOld o x' hx'
    by_cases ho : o ∈ l.observersIn r
    · simp [ho] at hNe
    · rw [if_neg ho] at hNe ⊢
      rw [h.tracked, h.dom, if_neg (mt (hMem o x hx hNe).mpr ho)]
      exact hO.kept o x hx hNe
  · obtain ⟨x, hx, rfl⟩ := hOld o x' hx'
    rw [h.tracked, h.dom, hTarget]
    split
    · rfl
    · rename_i hOut
      refine hO.ended o x hx ?_
      by_contra hLive
      rw [if_neg (mt (hMem o x hx hLive).mp hOut)] at hEq
      exact hLive hEq
  · rw [h.tracked] at ho
    split at ho
    · cases ho
    · rename_i hOut
      obtain ⟨x, hx, rfl, hLive⟩ := hO.tracked n o ho
      have hNot := mt (hMem o x hx hLive).mp hOut
      refine ⟨x, by rw [h.core, hx, Option.map_some, if_neg hNot], ?_, hLive⟩
      rw [h.dom]
  · obtain ⟨x, hx, rfl⟩ := hOld o x' hx'
    by_cases ho : o ∈ l.observersIn r
    · simp [ho] at hNe
    · rw [if_neg ho] at hNe ⊢
      rw [h.dom, h.document]
      exact hO.reports o x hx hNe

theorem destroy (hClient : client.Quiet) (depth : Nat) (hQuiet : l.QuietFor fun _ => True)
    (hr : l.dom.Known r) (hNe : r ≠ .node l.document) :
    After (destroy (Calls.upTo client (depth + 2)) r).run l fun _ l' => Carried l l' r := by
  have hKeyIn : l.dom.key r ∈ l.dom.subtree r := by
    rw [hO.sound.key_mem_subtree hr hr]
    exact Dom.inside_key r
  refine ((destroy_outcome hClient depth hQuiet hKeyIn fun _ _ => trivial).mono
    fun _ _ h => h.changed).mono ?_
  rintro out l' (⟨hAlike, _⟩ | ⟨_, _, hD⟩)
  · exact hO.carried_of_alike hAlike
  · refine ⟨hO.destroyed hD hr hNe, hD.document, ?_, fun m => by rw [hD.dom]⟩
    rw [hD.dom]
    exact Dom.SameParts.refl _

end Observed

end LiveMarkup.Live
