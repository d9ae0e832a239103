import LiveMarkup.Proofs.Live.Audience
import LiveMarkup.Proofs.Live.Beginning

/-!
# The lives of observers

In a session an observer hears of a connection and of its loss by turns, and of its end last.

* `Life`: what an observer hears between two statuses;
* `heardBy`: what a hook hears of a target, by a record;
* `Lives`, `Orderly.lives`: what every deed of a session adds to a life;
* `Run.tells`: a whole session.
-/

namespace LiveMarkup.Live

variable {κ σ : Type} {client : Client κ σ} {record : σ → List (κ × Event)}
variable {l l₁ l' : Live κ σ} {r : NodeRef} {o : ObserverId} {k : κ}

/-! ## Lives -/

/-- What an observer hears between two statuses: while it is disconnected that it gets connected or is
destroyed, while it is connected that it gets disconnected, and nothing once it is destroyed. -/
inductive Life : Connectivity → List EventKind → Connectivity → Prop
  | rest (c : Connectivity) : Life c [] c
  | connect {kinds : List EventKind} {c : Connectivity} (h : Life .connected kinds c) :
    Life .disconnected (.connect :: kinds) c
  | disconnect {kinds : List EventKind} {c : Connectivity} (h : Life .disconnected kinds c) :
    Life .connected (.disconnect :: kinds) c
  | destroy : Life .disconnected [.destroy] .destroyed

theorem Life.append {a b c : Connectivity} {kinds kinds' : List EventKind} (h : Life a kinds b)
    (h' : Life b kinds' c) : Life a (kinds ++ kinds') c := by
  induction h with
  | rest => exact h'
  | connect _ ih => exact .connect (ih h')
  | disconnect _ ih => exact .disconnect (ih h')
  | destroy =>
    cases h'
    exact .destroy

/-! ## What a hook hears -/

section Hearing

variable [DecidableEq κ]

/-- What a hook hears of the connection and the end of a target. -/
def heardBy (k : κ) (target : NodeRef) (entries : List (κ × Event)) : List EventKind :=
  (entries.filter fun e => e.1 = k ∧ e.2.target = target ∧ e.2.kind.isCancelable = false).map
    (·.2.kind)

theorem heardBy_append (target : NodeRef) (u v : List (κ × Event)) :
    heardBy k target (u ++ v) = heardBy k target u ++ heardBy k target v := by
  rw [heardBy, List.filter_append, List.map_append, heardBy, heardBy]

theorem heardBy_eq_nil {target : NodeRef} {entries : List (κ × Event)}
    (h : ∀ e ∈ entries, e.2.target = target → e.2.kind.isCancelable = true) :
    heardBy k target entries = [] := by
  rw [heardBy, List.filter_eq_nil_iff.mpr, List.map_nil]
  intro e he hEq
  obtain ⟨-, hTarget, hKind⟩ := of_decide_eq_true hEq
  rw [h e he hTarget] at hKind
  cases hKind

def Hook.client? : Hook κ → Option κ
  | .client k => some k
  | _ => none

/-- Just one hook of an observer for each of a connection, its loss and the end is the given one. -/
def Observer.Core.Listens (x : Observer.Core κ) (k : κ) : Prop :=
  ∀ kind : EventKind, kind.isCancelable = false → ((x.hooksFor kind).filterMap Hook.client?).count k = 1

theorem heardBy_entries (k : κ) (event : Event) (hKind : event.kind.isCancelable = false)
    (hooks : List (Hook κ)) : heardBy k event.target (hooks.flatMap (Hook.entries event)) =
      List.replicate ((hooks.filterMap Hook.client?).count k) event.kind := by
  induction hooks with
  | nil => rfl
  | cons h hooks ih =>
    rw [List.flatMap_cons, heardBy_append, ih]
    cases h with
    | client k' =>
      by_cases hk : k' = k
      · subst hk
        simp [Hook.entries, heardBy, Hook.client?, hKind, List.replicate_succ]
      · simp [Hook.entries, heardBy, Hook.client?, hk]
    | _ => rfl

theorem Observer.Core.Listens.heard {x : Observer.Core κ} (h : x.Listens k) {kind : EventKind}
    (hKind : kind.isCancelable = false) : heardBy k x.target (x.notices kind) = [kind] := by
  rw [Observer.Core.notices, heardBy_entries k { kind, target := x.target } hKind, h kind hKind]
  rfl

omit [DecidableEq κ] in
theorem target_of_mem_notices {x : Observer.Core κ} {kind : EventKind} {e : κ × Event}
    (he : e ∈ x.notices kind) : e.2.target = x.target := by
  obtain ⟨h, -, he⟩ := List.mem_flatMap.mp he
  cases h with
  | client k => rw [List.mem_singleton.mp he]
  | _ => cases he

/-- More hooks, none of which is the given one, are listened to by others. -/
theorem Observer.Core.Listens.hooked {x : Observer.Core κ} (h : x.Listens k)
    {es : List (Observer.Entry κ)} (hOther : ∀ e ∈ es, e.hook.client? ≠ some k) :
    (x.hooked es).Listens k := by
  intro kind hKind
  unfold Observer.Core.hooked
  split
  · exact h kind hKind
  · have hNone : ((es.filterMap fun e => if e.kind = kind then some e.hook else none).filterMap
        Hook.client?).count k = 0 := by
      refine List.count_eq_zero.mpr fun hIn => ?_
      obtain ⟨hook, hHook, hk⟩ := List.mem_filterMap.mp hIn
      obtain ⟨e, he, hEq⟩ := List.mem_filterMap.mp hHook
      split at hEq
      · obtain rfl := Option.some.inj hEq
        exact hOther e he hk
      · cases hEq
    rw [Observer.Core.hooksFor, List.filterMap_append, List.filterMap_append, List.count_append, hNone]
    exact h kind hKind

theorem heardBy_flatMap_eq_nil {target : NodeRef} {os : List ObserverId}
    {said : ObserverId → List (κ × Event)} (h : ∀ p ∈ os, heardBy k target (said p) = []) :
    heardBy k target (os.flatMap said) = [] := by
  induction os with
  | nil => rfl
  | cons p os ih =>
    rw [List.flatMap_cons, heardBy_append, h p List.mem_cons_self,
      ih fun q hq => h q (List.mem_cons_of_mem _ hq)]
    rfl

/-- Of what different observers say, only one may be about a target. -/
theorem heardBy_flatMap {target : NodeRef} {os : List ObserverId} (hOnce : os.Nodup) (ho : o ∈ os)
    {said : ObserverId → List (κ × Event)}
    (h : ∀ p ∈ os, p ≠ o → heardBy k target (said p) = []) :
    heardBy k target (os.flatMap said) = heardBy k target (said o) := by
  obtain ⟨u, v, rfl⟩ := List.append_of_mem ho
  obtain ⟨hNotIn, -⟩ := List.nodup_cons.mp ((List.perm_middle.nodup_iff).mp hOnce)
  have hOther : ∀ p ∈ u ++ v, heardBy k target (said p) = [] := by
    refine fun p hp => h p ?_ fun he => hNotIn (he ▸ hp)
    exact List.mem_append.mpr ((List.mem_append.mp hp).imp_right (List.mem_cons_of_mem _))
  rw [List.flatMap_append, List.flatMap_cons, heardBy_append, heardBy_append,
    heardBy_flatMap_eq_nil fun p hp => hOther p (List.mem_append_left v hp),
    heardBy_flatMap_eq_nil fun p hp => hOther p (List.mem_append_right u hp), List.nil_append,
    List.append_nil]

/-! ## What a deed adds -/

/-- A hook that an observer has just once for each kind of event hears the life of the observer. -/
def Lives (record : σ → List (κ × Event)) (k : κ) (o : ObserverId) (l l' : Live κ σ) : Prop :=
  ∀ x, l.core? o = some x → (x.status ≠ .destroyed → x.Listens k) → ∃ x' entries,
    l'.core? o = some x' ∧ x'.target = x.target ∧ (x'.status ≠ .destroyed → x'.Listens k) ∧
    Writes record l l' entries ∧ Life x.status (heardBy k x.target entries) x'.status

theorem Lives.trans (h₁ : Lives record k o l l₁) (h₂ : Lives record k o l₁ l') :
    Lives record k o l l' := by
  intro x hx hListens
  obtain ⟨x₁, u, hx₁, hTarget₁, hListens₁, hWrites₁, hLife₁⟩ := h₁ x hx hListens
  obtain ⟨x', v, hx', hTarget', hListens', hWrites', hLife'⟩ := h₂ x₁ hx₁ hListens₁
  refine ⟨x', u ++ v, hx', hTarget'.trans hTarget₁, hListens', hWrites₁.trans hWrites', ?_⟩
  rw [heardBy_append]
  exact hLife₁.append (hTarget₁ ▸ hLife')

/-- Nothing is heard. -/
theorem Lives.of_writes (hWrites : Writes record l l' [])
    (hCore : ∀ x, l.core? o = some x → ∃ es : List (Observer.Entry κ),
      l'.core? o = some (x.hooked es) ∧ ∀ e ∈ es, e.hook.client? ≠ some k) :
    Lives record k o l l' := by
  intro x hx hListens
  obtain ⟨es, hx', hOther⟩ := hCore x hx
  refine ⟨_, [], hx', Observer.Core.hooked_target es x, fun hLives => ?_, hWrites, ?_⟩
  · rw [Observer.Core.hooked_status] at hLives
    exact (hListens hLives).hooked hOther
  · rw [Observer.Core.hooked_status]
    exact .rest _

omit [DecidableEq κ] in
theorem Observer.Core.hooked_nil (x : Observer.Core κ) : x.hooked [] = x := by
  unfold Observer.Core.hooked
  split <;> simp

theorem Lives.refl (l : Live κ σ) : Lives record k o l l := by
  refine .of_writes (.of_client rfl) fun x hx => ⟨[], ?_, fun e he => by cases he⟩
  rw [hx, Observer.Core.hooked_nil]

theorem Lives.same (hWrites : Writes record l l' []) (hCore : ∀ o, l'.core? o = l.core? o) :
    Lives record k o l l' := by
  refine .of_writes hWrites fun x hx => ⟨[], ?_, fun e he => by cases he⟩
  rw [hCore, hx, Observer.Core.hooked_nil]

omit [DecidableEq κ] in
/-- An observer whose target is that of one that has not ended is that one. -/
theorem Observed.alone (hO : l.Observed) {p : ObserverId} {x y : Observer.Core κ}
    (hx : l.core? o = some x) (hy : l.core? p = some y) (hLives : y.status ≠ .destroyed)
    (hTarget : y.target = x.target) : p = o := by
  have hp := hO.kept p y hy hLives
  rw [hTarget] at hp
  by_cases hEnded : x.status = .destroyed
  · rw [hO.buried _ (hO.ended o x hx hEnded)] at hp
    cases hp
  · exact Option.some.inj (hp.symm.trans (hO.kept o x hx hEnded))

/-- Who is told hears it once, and nobody else does. -/
theorem Announced.lives {kind : EventKind} {f : Observer.Core κ → Observer.Core κ}
    {os : List ObserverId} (h : Announced record l l' kind f os) (hO : l.Observed)
    (hKind : kind.isCancelable = false) (hTarget : ∀ x, (f x).target = x.target)
    (hHooks : ∀ x, (f x).status ≠ .destroyed → (f x).hooks = x.hooks)
    (hLife : ∀ p ∈ os, ∀ x, l.core? p = some x → Life x.status [kind] (f x).status) :
    Lives record k o l l' := by
  intro x hx hListens
  obtain ⟨asked, hAsked, hWrites⟩ := h.hears
  have hNone : heardBy k x.target asked = [] := heardBy_eq_nil fun e he _ => hAsked e he
  have hOther : ∀ p ∈ os, p ≠ o → heardBy k x.target (l.noticesOf kind p) = [] := by
    intro p hp hNe
    refine heardBy_eq_nil fun e he hTarget => ?_
    unfold noticesOf at he
    split at he
    · cases he
    · rename_i y hy
      rw [target_of_mem_notices he] at hTarget
      refine absurd (hO.alone hx hy (fun hEnded => ?_) hTarget) hNe
      have hNews := h.news p hp
      rw [statusOf_eq hy, hEnded] at hNews
      cases kind <;> cases hNews
  have hx' := h.core o
  rw [hx, Option.map_some] at hx'
  by_cases ho : o ∈ os
  · rw [if_pos ho] at hx'
    have hLives : x.status ≠ .destroyed := by
      intro hEnded
      have hNews := h.news o ho
      rw [statusOf_eq hx, hEnded] at hNews
      cases kind <;> cases hNews
    have hNotices : l.noticesOf kind o = x.notices kind := by rw [noticesOf, hx]
    refine ⟨f x, _, hx', hTarget x, fun hLives' kind' hKind' => ?_, hWrites, ?_⟩
    · rw [Observer.Core.hooksFor, hHooks x hLives']
      exact hListens hLives kind' hKind'
    · rw [heardBy_append, hNone, heardBy_flatMap h.once ho hOther, hNotices,
        (hListens hLives).heard hKind]
      exact hLife o ho x hx
  · rw [if_neg ho] at hx'
    refine ⟨x, _, hx', rfl, hListens, hWrites, ?_⟩
    rw [heardBy_append, hNone, heardBy_flatMap_eq_nil fun p hp => hOther p hp fun he => ho (he ▸ hp)]
    exact .rest _

/-- A transition adds to a life what it told. -/
theorem Crossing.lives (h : Crossing record l l' r) (hO : l.Observed) : Lives record k o l l' := by
  cases hWas : l.isConnected r <;> cases hIs : l'.isConnected r
  case false.true =>
    have hA := h.comes hWas hIs
    refine hA.lives hO rfl (by simp) (by simp) fun p hp x hx => ?_
    have hStatus := EventKind.connect_isNewsTo.mp (statusOf_eq hx ▸ hA.news p hp)
    rw [Observer.Core.turn_of_ne _ (by rw [hStatus]; decide), hStatus]
    exact .connect (.rest _)
  case true.false =>
    have hA := h.ceases hWas hIs
    refine hA.lives hO rfl (by simp) (by simp) fun p hp x hx => ?_
    have hStatus := EventKind.disconnect_isNewsTo.mp (statusOf_eq hx ▸ hA.news p hp)
    rw [Observer.Core.turn_of_ne _ (by rw [hStatus]; decide), hStatus]
    exact .disconnect (.rest _)
  all_goals
    exact (h.stays (hIs.trans hWas.symm)).lives hO rfl (fun _ => rfl) (fun _ _ => rfl) (by simp)

section Deeds

variable (hClient : client.Records record) (depth : Nat)
include hClient

/-- So does destroying. -/
theorem Observed.destroy_lives (hO : l.Observed) (hQuiet : l.QuietFor fun _ => True)
    (hr : l.dom.Known r) (hNe : r ≠ .node l.document) :
    After (Live.destroy (Calls.upTo client (depth + 2)) r).run l fun _ l' =>
      Lives record k o l l' := by
  refine (hO.destroy_tells hClient depth hQuiet hr).mono ?_
  rintro _ l' (⟨_, -, hA⟩ | ⟨-, hState, hA⟩)
  · exact hA.lives hO rfl (by simp) (fun x hx => absurd x.ended_status hx) (by simp)
  refine hA.lives hO rfl (by simp) (fun x hx => absurd x.ended_status hx) fun p hp x hx => ?_
  -- what is destroyed does not reach the document
  have hOff : ¬ l.isConnected r = true := by
    rw [hO.isConnected_self hr]
    exact hO.sound.not_up_of_not_placed hr hO.plain hNe
      ((isPlaced_of_state (hO.settled _) (hO.key_ne_document hr hNe)).1 hState)
  obtain ⟨y, hy, hLives, hIn⟩ := ((hO.audience hr).mem_iff p).mp (List.mem_reverse.mp hp)
  have hCore : l.core? p = some y.core := by rw [core?, hy]; rfl
  obtain rfl := Option.some.inj (hCore.symm.trans hx)
  have hStatus : y.core.status = .disconnected := by
    have hNot := mt (hO.reports_in hr hCore hLives hIn).mp hOff
    change y.status = _
    change ¬ y.status = _ at hNot
    cases hy : y.status <;> simp_all
  rw [hStatus, Observer.Core.ended_status]
  exact .destroy

omit hClient in
theorem observe_lives (l : Live κ σ) (r : NodeRef) :
    After (observe r).run l fun _ l' => Lives record k o l l' := by
  refine ((observe_cases l r).and (observe_recast l r)).mono ?_
  rintro _ l' ⟨hCases, hRecast⟩
  have hWrites : Writes record l l' [] := by
    obtain ⟨_, _, _, rfl⟩ := hRecast
    exact .of_client rfl
  have hJoin : ∀ {status : Connectivity}, Joined l l' r status → Lives record k o l l' := by
    intro status hJoined x hx hListens
    refine ⟨x, [], ?_, rfl, hListens, hWrites, .rest _⟩
    rw [hJoined.core, if_neg, hx]
    rintro rfl
    rw [core?_size] at hx
    cases hx
  rcases hCases with ⟨-, -, rfl⟩ | ⟨_, -, -, -, hAlike, -, -⟩ | ⟨-, ⟨-, hJoined⟩ | ⟨-, -, hJoined⟩⟩
  · exact .same hWrites fun _ => rfl
  · exact .same hWrites hAlike.core_eq
  · exact hJoin hJoined
  · exact hJoin hJoined

omit hClient in
theorem addHook_lives (l : Live κ σ) {p : ObserverId} (kind : EventKind) {k' : κ}
    (hOther : ¬ (p = o ∧ k' = k)) :
    After (addHook p kind (.client k')) l fun _ l' => Lives record k o l l' := by
  refine (addHook_recast l p kind (.client k')).mono ?_
  rintro n l' ⟨hRecast, hTurned⟩
  have hWrites : Writes record l l' [] := by
    obtain ⟨_, _, _, rfl⟩ := hRecast
    exact .of_client rfl
  refine .of_writes hWrites fun x hx => ?_
  by_cases hp : o = p
  · subst hp
    refine ⟨_, hTurned.of_self hx, fun e he => ?_⟩
    rw [List.mem_singleton.mp he]
    exact fun hk => hOther ⟨rfl, Option.some.inj hk⟩
  · refine ⟨[], ?_, fun e he => by cases he⟩
    rw [(hTurned.of_other hp).mpr hx, Observer.Core.hooked_nil]

omit [DecidableEq κ] in
theorem tie_writes {feed : Feed κ} (hFeed : feed.Quiet) (held : Bool) (p : ObserverId) :
    After (tie (Calls.upTo client (depth + 2)) p feed held l.bindings.size) l fun _ l' =>
      Writes record l l' [] := by
  refine After.tie (P := fun l₁ => l₁.client = l.client ∧
    l₁.subscriptions = l.subscriptions.push { feed }) ⟨rfl, rfl⟩ (fun _ h => h) (fun l₁ h₁ _ => ?_)
    fun _ h₁ _ => .of_client h₁.1
  refine (activate_writes hClient (depth + 1) (s := l.subscriptions.size) fun f hf => ?_).mono
    fun _ _ h => (Writes.of_client h₁.1).trans h
  rw [feed?, subscription?, h₁.2, Array.getElem?_push_size] at hf
  exact Option.some.inj hf ▸ hFeed

/-- A binding may be told at once of the value of its signal. -/
theorem bind_lives (hO : l.Observed) {hosts : List NodeRef} {byHand : List BindingId}
    (hW : Wired l hosts byHand) {feed : Feed κ} (hFeed : feed.Quiet) (held : Bool)
    (hr : l.dom.Known r) :
    After (bind (Calls.upTo client (depth + 2)) r feed held).run l fun _ l' =>
      Lives record k o l l' := by
  refine After.bind_tie ((observe_orderly hO hW hr).and (observe_lives (k := k) (o := o) l r))
    (fun _ _ h => h.2) (fun _ _ h => h.2) ?_
  rintro p l₁ ⟨⟨-, hW₁, -⟩, hLives⟩ -
  have hSizes := hW₁.subscriptions_size.trans hW₁.bindings_size.symm
  refine ((tie_tied hClient.quiet depth hFeed held hSizes p).and
    (tie_writes hClient depth hFeed held p)).mono ?_
  rintro _ l₂ ⟨⟨-, hTied⟩, hWrites⟩
  obtain ⟨n, m, n', hCore⟩ := hTied.core
  refine hLives.trans (.of_writes hWrites fun x hx => ?_)
  by_cases hp : o = p
  · refine ⟨tieHooks l₁.bindings.size n m n', by rw [hCore, hx, Option.map_some, if_pos hp], ?_⟩
    intro e he
    simp only [tieHooks, List.mem_cons, List.not_mem_nil, or_false] at he
    rcases he with rfl | rfl | rfl <;> simp [Hook.client?]
  · refine ⟨[], ?_, fun e he => by cases he⟩
    rw [hCore, hx, Option.map_some, if_neg hp, Observer.Core.hooked_nil]

end Deeds

/-! ## Sessions -/

section Moving

variable {parent : NodeRef} {before : Option NodeRef} {hosts : List NodeRef} {byHand : List BindingId}
variable (hClient : client.Records record) (depth : Nat)
variable (hO : l.Observed) (hW : Wired l hosts byHand)
include hClient hO hW

namespace Observed

theorem detachIfAttached_lives (hr : l.Movable r) :
    After (Live.detachIfAttached (Calls.upTo client (depth + 2)) r).run l fun _ l' =>
      Lives record k o l l' := by
  refine After.get_act ?_
  split
  · exact (hO.detach_crosses hClient depth hW.quietFor hr.1 hr.2).mono fun _ _ h => h.lives hO
  · exact .refl l

/-- What is detached first crosses once more. -/
theorem detached_lives (hr : l.Movable r) :
    After (Live.detach (Calls.upTo client (depth + 2)) r).run l fun _ l' =>
      (Carried l l' r ∧ Wired l' hosts byHand) ∧ Lives record k o l l' :=
  ((hO.detach hClient.quiet depth hW.quietFor hr.1 hr.2).and
    (((Wired.stepwise hClient.quiet depth).detach r).keeps l hW)).and
      ((hO.detach_crosses hClient depth hW.quietFor hr.1 hr.2).mono fun _ _ h => h.lives hO)

theorem attachAnywhere_lives (hr : l.MovableInto r parent) :
    After (Live.attachAnywhere (Calls.upTo client (depth + 2)) r parent before).run l fun _ l' =>
      Lives record k o l l' := by
  refine After.get_act ?_
  split
  · exact (hO.attach_crosses hClient depth hW.quietFor hr.1.1 hr.1.2 hr.2.1 hr.2.2).mono
      fun _ _ h => h.lives hO
  · split
    · refine After.act_bind (hO.detached_lives hClient depth hW hr.1) ?_ fun _ _ h => h.2
      rintro _ l₁ ⟨⟨hCarried, hW₁⟩, hLives⟩
      have hr₁ := hCarried.movableInto hr
      refine After.get_act ?_
      split
      · exact (hCarried.attach_crosses hClient depth hW₁.quietFor hr₁.1.1 hr₁.1.2 hr₁.2.1
          hr₁.2.2).mono fun _ _ h => hLives.trans (h.lives hCarried.toObserved)
      · exact hLives
    · exact .refl l
  · exact .refl l

theorem destroyFully_lives (hr : l.Movable r) :
    After (Live.destroyFully (Calls.upTo client (depth + 2)) r).run l fun _ l' =>
      Lives record k o l l' := by
  refine After.get_act ?_
  split
  · exact .refl l
  · exact .refl l
  · refine After.act_bind (hO.detached_lives hClient depth hW hr) ?_ fun _ _ h => h.2
    rintro _ l₁ ⟨⟨hCarried, hW₁⟩, hLives⟩
    have hr₁ := hCarried.movable hr
    refine After.get_act ?_
    split
    · exact (hCarried.destroy_lives hClient depth hW₁.quietFor hr₁.1 hr₁.2).mono
        fun _ _ h => hLives.trans h
    · exact hLives
  · exact hO.destroy_lives hClient depth hW.quietFor hr.1 hr.2

end Observed

omit hO in
theorem switchOn_lives (b : BindingId) :
    After (activateBinding (Calls.upTo client (depth + 2)) b).run l fun _ l' =>
      Lives record k o l l' := by
  unfold activateBinding
  refine After.get_act ?_
  dsimp only
  split
  · rw [after_act_throw_bind]
    exact .refl l
  have hQuiet : (Hook.switchOn b : Hook κ).Quiet l :=
    Hook.quiet_switchOn.mpr fun x _ feed hFeed => hW.feeds _ feed hFeed
  rw [after_lift]
  exact ((switchOn_quiet hClient.quiet (depth + 1) hQuiet).and
    (switchOn_writes hClient (depth + 1) hQuiet)).mono fun _ _ h => .same h.2 h.1.1.core?_eq

omit hClient hO hW in
theorem switchOff_lives (l : Live κ σ) (b : BindingId) :
    After (switchOff b) l fun _ l' => Lives record k o l l' :=
  ((switchOff_quiet (.of_slight trivial)).and (switchOff_writes l b)).mono
    fun _ _ h => .same h.2 h.1.1.core?_eq

end Moving

/-- A deed that does not give an observer a hook. -/
def Deed.Spares (o : ObserverId) (k : κ) (d : Deed κ) : Prop :=
  ∀ kind, d ≠ .hook o kind k

/-- A proper deed adds to the life of an observer. -/
theorem Orderly.lives {s : Session κ σ} (hClient : client.Records record) (depth : Nat)
    (hs : Orderly s) (d : Deed κ) (hProper : d.Proper s.live) (hSpares : d.Spares o k) :
    Lives record k o s.live (s.step (Calls.upTo client (depth + 2)) d).live := by
  have hO := hs.observed
  obtain ⟨hosts, hW, -⟩ := hs.wired
  have hQuiet := hW.quietFor
  have hCrosses : ∀ {r : NodeRef} {op : Act κ σ Unit},
      (After op.run s.live fun _ l' => Crossing record s.live l' r) →
      Lives record k o s.live (s.after op).live := fun h => h.lives hO
  cases d with
  | observe r => exact observe_lives s.live r
  | hook p kind k' =>
    refine addHook_lives s.live kind ?_
    rintro ⟨rfl, rfl⟩
    exact hSpares kind rfl
  | bind r feed held =>
    have hAfter := bind_lives (k := k) (o := o) hClient depth hO hW hProper.2 held hProper.1
    unfold After at hAfter
    simp only [Session.step]
    split <;> rename_i hRun <;> rwa [hRun] at hAfter
  | switchOn b => exact switchOn_lives hClient depth hW b
  | switchOff b => exact switchOff_lives s.live b
  | attach r parent before =>
    rcases hProper with rfl | ⟨hr, hParent, hOut⟩
    · have hSame : (s.after (Live.attach (Calls.upTo client (depth + 2)) (.node s.live.document)
        parent before)).live = s.live := attach_document s.live _ parent before
      change Lives record k o s.live (s.after _).live
      rw [hSame]
      exact .refl _
    exact hCrosses (hO.attach_crosses hClient depth hQuiet hr.1 hr.2 hParent hOut)
  | detach r => exact hCrosses (hO.detach_crosses hClient depth hQuiet hProper.1 hProper.2)
  | destroy r =>
    rcases hProper with rfl | hr
    · have hSame : (s.after (Live.destroy (Calls.upTo client (depth + 2))
        (.node s.live.document))).live = s.live := destroy_document s.live _
      change Lives record k o s.live (s.after _).live
      rw [hSame]
      exact .refl _
    exact hO.destroy_lives hClient depth hQuiet hr.1 hr.2
  | moveTo r parent before =>
    exact hCrosses (hO.moveTo_crosses hClient depth hQuiet hProper.1.1 hProper.1.2 hProper.2.1
      hProper.2.2)
  | attachAnywhere r parent before => exact hO.attachAnywhere_lives hClient depth hW hProper
  | detachIfAttached r => exact hO.detachIfAttached_lives hClient depth hW hProper
  | destroyFully r => exact hO.destroyFully_lives hClient depth hW hProper

end Hearing

/-- The sessions that come out of one by proper deeds that do not give an observer a hook. -/
inductive Sequel (calls : Calls κ σ) (o : ObserverId) (k : κ) (s₀ : Session κ σ) :
    Session κ σ → Prop where
  | start : Sequel calls o k s₀ s₀
  | step {s : Session κ σ} (h : Sequel calls o k s₀ s) (d : Deed κ) (hProper : d.Proper s.live)
      (hSpares : d.Spares o k) : Sequel calls o k s₀ (s.step calls d)

theorem Sequel.orderly {s₀ s : Session κ σ} (hClient : client.Quiet) (depth : Nat)
    (h : Sequel (Calls.upTo client (depth + 2)) o k s₀ s) (h₀ : Orderly s₀) : Orderly s := by
  induction h with
  | start => exact h₀
  | step _ d hProper _ ih => exact ih.step hClient depth d hProper

/-- So do proper deeds one after the other. -/
theorem Sequel.lives [DecidableEq κ] {s₀ s : Session κ σ} (hClient : client.Records record)
    (depth : Nat) (h : Sequel (Calls.upTo client (depth + 2)) o k s₀ s) (h₀ : Orderly s₀) :
    Lives record k o s₀.live s.live := by
  induction h with
  | start => exact .refl _
  | step h d hProper hSpares ih =>
    exact ih.trans ((h.orderly hClient.quiet depth h₀).lives hClient depth d hProper hSpares)

/-- A transition tells the observers in a node or container that comes to reach the document, or
ceases to, in document order. -/
def Tells (record : σ → List (κ × Event)) (l : Live κ σ) (r : NodeRef)
    (_ : Except Fault Unit) (l' : Live κ σ) : Prop :=
  Crossing record l l' r ∧ l'.Audience r (l'.observersIn r)

/-- In a session that begins with nothing observed, what comes to reach the document has all
observers in it told of it, each once and in document order, and what ceases to has them told in the
reverse order. Nobody else is told, and nobody of anything else. So it is with what is destroyed, and
nobody is told if that is refused. A hook that an observer has just once hears of connections and
their losses by turns, and of the end last. -/
theorem Run.tells [DecidableEq κ] {l : Live κ σ} {s : Session κ σ}
    (hClient : client.Records record) (depth : Nat) (hFresh : l.Unobserved)
    (h : Run (Calls.upTo client (depth + 2)) { live := l } s) :
    (∀ r parent before, s.live.MovableInto r parent →
      After (attach (Calls.upTo client (depth + 2)) r parent before).run s.live
        (Tells record s.live r) ∧
      After (moveTo (Calls.upTo client (depth + 2)) r parent before).run s.live
        (Tells record s.live r)) ∧
    (∀ r, s.live.Movable r →
      After (detach (Calls.upTo client (depth + 2)) r).run s.live (Tells record s.live r) ∧
      s.live.Audience r (s.live.observersIn r) ∧
      After (destroy (Calls.upTo client (depth + 2)) r).run s.live fun out l' =>
        (∃ e, out = .error e ∧
          Announced record s.live l' .destroy Observer.Core.ended []) ∨
        out = .ok () ∧ Announced record s.live l' .destroy Observer.Core.ended
          (s.live.observersIn r).reverse) ∧
    ∀ o k x s', s.live.core? o = some x → x.Listens k →
      Sequel (Calls.upTo client (depth + 2)) o k s s' → ∃ x' entries,
        s'.live.core? o = some x' ∧ Writes record s.live s'.live entries ∧
        Life x.status (heardBy k x.target entries) x'.status := by
  have hs := h.orderly hClient.quiet depth hFresh.orderly
  have hO := hs.observed
  obtain ⟨hosts, hW, -⟩ := hs.wired
  have hQuiet := hW.quietFor
  have hTells : ∀ {r : NodeRef} {l' : Live κ σ}, s.live.dom.Known r → Carried s.live l' r →
      Crossing record s.live l' r → ∀ out, Tells record s.live r out l' := fun hr hC hCrossing _ =>
    ⟨hCrossing, hC.audience (hC.parts.known_iff.mpr hr)⟩
  refine ⟨fun r parent before ⟨hr, hParent, hOut⟩ => ⟨?_, ?_⟩, fun r hr =>
    ⟨?_, hO.audience hr.1, ?_⟩, fun o k x s' hx hListens hSequel => ?_⟩
  · exact ((hO.attach hClient.quiet depth hQuiet hr.1 hr.2 hParent hOut).and
      (hO.attach_crosses hClient depth hQuiet hr.1 hr.2 hParent hOut)).mono
        fun out _ h => hTells hr.1 h.1 h.2 out
  · exact ((hO.moveTo hClient.quiet depth hQuiet hr.1 hr.2 hParent hOut).and
      (hO.moveTo_crosses hClient depth hQuiet hr.1 hr.2 hParent hOut)).mono
        fun out _ h => hTells hr.1 h.1 h.2 out
  · exact ((hO.detach hClient.quiet depth hQuiet hr.1 hr.2).and
      (hO.detach_crosses hClient depth hQuiet hr.1 hr.2)).mono
        fun out _ h => hTells hr.1 h.1 h.2 out
  · exact (hO.destroy_tells hClient depth hQuiet hr.1).mono
      fun _ _ h => h.imp_right fun h => ⟨h.1, h.2.2⟩
  · obtain ⟨x', entries, hx', -, -, hWrites, hLife⟩ :=
      hSequel.lives hClient depth hs x hx fun _ => hListens
    exact ⟨x', entries, hx', hWrites, hLife⟩

/-- A client whose hooks write down what they hear. -/
def Client.scribe : Client κ (List (κ × Event)) :=
  { Client.still with
    hook := fun _ k event => do
      modify fun l => { l with client := l.client ++ [(k, event)] }
      pure false }

theorem Client.scribe_records : (Client.scribe : Client κ (List (κ × Event))).Records id :=
  ⟨fun _ k event l => ⟨l.client ++ [(k, event)], rfl, rfl⟩, fun _ _ _ l => ⟨l.client, rfl, rfl⟩⟩

/-- A session on a fresh document that writes down what it hears. -/
def scribeSession (ds : List (Deed Unit)) : Session Unit (List (Unit × Event)) :=
  ds.foldl (Session.step (Calls.upTo Client.scribe 2)) { live := create {} [] }

/-- The body is observed, with a hook for each kind of event that cannot be cancelled. -/
def listening : List (Deed Unit) :=
  [.observe (.node 2), .hook 0 .connect (), .hook 0 .disconnect (), .hook 0 .destroy ()]

theorem scribeSession_run : Run (Calls.upTo Client.scribe 2) (scribeSession [])
    (scribeSession listening) := by
  have h₁ : Run (Calls.upTo Client.scribe 2) (scribeSession [])
      (scribeSession [.observe (.node 2)]) :=
    Run.start.step (.observe (.node 2))
      ⟨by decide +kernel, fun c hc => by cases hc⟩
  have h₂ : Run (Calls.upTo Client.scribe 2) (scribeSession [])
      (scribeSession [.observe (.node 2), .hook 0 .connect ()]) :=
    h₁.step (.hook 0 .connect ()) trivial
  have h₃ : Run (Calls.upTo Client.scribe 2) (scribeSession [])
      (scribeSession [.observe (.node 2), .hook 0 .connect (), .hook 0 .disconnect ()]) :=
    h₂.step (.hook 0 .disconnect ()) trivial
  exact h₃.step (.hook 0 .destroy ()) trivial

theorem listening_tells :
    let s := scribeSession listening
    let s' := scribeSession (listening ++ [.detach (.node 2), .destroy (.node 2)])
    After (detach (Calls.upTo Client.scribe 2) (.node 2)).run s.live (Tells id s.live (.node 2)) ∧
    s'.live.client.map (fun e => (e.2.kind, e.2.target)) =
      [(.disconnect, .node 2), (.destroy, .node 2)] ∧
    ∃ x x' entries, s.live.core? 0 = some x ∧ s'.live.core? 0 = some x' ∧
      Writes id s.live s'.live entries ∧
      Life x.status (heardBy () x.target entries) x'.status := by
  intro s s'
  obtain ⟨-, hMovable, hLives⟩ :=
    Run.tells Client.scribe_records 0 (create_unobserved {} []) scribeSession_run
  have hBody : s.live.Movable (.node 2) :=
    ⟨⟨by decide +kernel, fun c hc => by cases hc⟩, by decide +kernel⟩
  refine ⟨(hMovable _ hBody).1, by decide +kernel, ?_⟩
  obtain ⟨x, hx⟩ : ∃ x, s.live.core? 0 = some x := Option.isSome_iff_exists.mp (by decide +kernel)
  have hListens : x.Listens () := by
    have hCounts : (s.live.core? 0).all (fun x => [.connect, .disconnect, .destroy].all fun kind =>
        ((x.hooksFor kind).filterMap Hook.client?).count () = 1) = true := by decide +kernel
    rw [hx, Option.all_some] at hCounts
    intro kind hKind
    cases kind with
    | connect | disconnect | destroy =>
      exact of_decide_eq_true (List.all_eq_true.mp hCounts _ (by decide))
    | _ => cases hKind
  have hDetached : Sequel (Calls.upTo Client.scribe 2) 0 () s
      (scribeSession (listening ++ [.detach (.node 2)])) :=
    Sequel.start.step (.detach (.node 2)) hBody fun _ => nofun
  have hDestroyed : Sequel (Calls.upTo Client.scribe 2) 0 () s s' :=
    hDetached.step (.destroy (.node 2))
      (.inr ⟨⟨by decide +kernel, fun c hc => by cases hc⟩, by decide +kernel⟩) fun _ => nofun
  obtain ⟨x', entries, hx', hWrites, hLife⟩ := hLives 0 () x s' hx hListens hDestroyed
  exact ⟨x, x', entries, hx, hx', hWrites, hLife⟩

end LiveMarkup.Live
