import LiveMarkup.Proofs.Json.Exact
import LiveMarkup.Proofs.Live.Arranged

/-!
# Series that follow signals

A series follows a signal. As long as nobody sets the signal again before the series is in line with
it, every set arranges the items for the value that the signal holds in the end. If a hook of an item
sets it again meanwhile, the items that are made for the inner set are forgotten where they stand.

* `Feeds`: the series is what follows a signal, besides the client;
* `Listings`: runs that set the signal;
* `Listings.set_arranges`: every set of a run arranges the items for the value;
* `relisted_doubled`: a hook that sets the signal again while an item is destroyed.
-/

namespace LiveMarkup.Live

variable {κ σ : Type} {client : Client κ σ} {calls : Calls κ σ} {l l₀ l₁ l' : Live κ σ}
variable {order : List NodeRef} {x x' : Series κ} {values : List Value} {v : SignalId} {s : SeriesId}
variable {m : Leeway κ}

/-! ## What slight watchers leave -/

theorem Stock.calm {box : ContainerId} {items : List Series.Item} (h : l.Stock box items order m)
    (hCalm : Calm l l' m) : l'.Stock box items order m :=
  h.spared (.of_calm hCalm h.lineup.toReady)

theorem Calm.destroyed (h : Calm l l' m) {r : NodeRef} (hr : l.stateOf r = .destroyed) :
    l'.stateOf r = .destroyed := by
  rw [stateOf_destroyed_iff] at hr ⊢
  rwa [h.tree.relabeled.key, h.document, h.trackedOf_eq]

theorem Aligned.calm {current lingering : List Series.Item}
    (h : Aligned calls l l₁ x values current lingering order m) (hCalm : Calm l₁ l' m) :
    Aligned calls l l' x values current lingering order m where
  stock := h.stock.calm hCalm
  numbered := by
    rw [← h.numbered]
    refine List.map_congr_left fun item hItem => ?_
    rw [hCalm.kept _ (h.stock.cursors.undriven _ (List.mem_map_of_mem
      (List.mem_append_left _ hItem)))]
  listed := h.listed
  standing := h.standing
  whole := h.whole
  left := h.left
  former := h.former
  gone former hFormer := (h.gone former hFormer).imp_right hCalm.destroyed
  final r hr hState := (h.final r hr hState).imp hCalm.tree.relabeled.known_iff.mpr hCalm.destroyed
  values t ht hUndriven hOther := by
    rw [hCalm.kept t (mt (h.drives t ht).mp hUndriven)]
    exact h.values t ht hUndriven hOther
  drives t ht := (hCalm.drives_iff t).trans (h.drives t ht)
  slight sink hSlight := hCalm.slight (h.slight sink hSlight)

/-! ## Setting the signal -/

/-- A series follows a signal that follows none and that only slight watchers have besides. -/
structure Feeds (l : Live κ σ) (v : SignalId) (s : SeriesId) (m : Leeway κ := .strict) : Prop where
  lt_size : v < l.signals.size
  undriven : ¬ m.Drives l v
  watchers : ∃ before n after, l.watchersOf v = before ++ ⟨n, .series s⟩ :: after ∧
    ∀ w ∈ before ++ after, w.sink.Slight l m

theorem Feeds.not_mem (h : l.Feeds v s m) {cursors : List SignalId}
    (hNumbered : l.Numbered cursors m) : v ∉ cursors := by
  intro hIn
  obtain ⟨before, n, after, hWatchers, -⟩ := h.watchers
  exact hNumbered.watchers v hIn ⟨n, .series s⟩ (by rw [hWatchers]; simp)

section Setting

variable (hClient : client.Quiet) (depth : Nat)
variable (hCrafts : Crafts (Calls.upTo client (depth + 2)) x.factory m)
include hClient hCrafts

omit hClient hCrafts in
/-- Passing a value to the series brings it in line with the items of the value. -/
theorem pass_series {Q : Live κ σ → Prop} {value : Value}
    (h : After (reconcile (Calls.upTo client depth) s value.items).run l fun _ => Q) :
    After ((Calls.upTo client (depth + 1)).receive (.series s) value) l fun _ => Q := by
  have hDone : After (do let _ ← reconcile (Calls.upTo client depth) s value.items : Act κ σ Unit).run
      l fun _ => Q :=
    After.act_bind h (fun _ _ hQ => hQ) fun _ _ hQ => hQ
  exact hDone.bind fun _ _ hQ => hQ

/-- What setting the signal leaves. The pass begins when the watchers before the series were told. -/
theorem setSignal_aligned (hx : l.series? s = some x) (h : l.InLine x order m)
    (hFeeds : l.Feeds v s m) (value : Value) :
    After (setSignal (Calls.upTo client (depth + 3)) v value) l fun _ l' =>
      l'.valueOf v = value ∧ ∃ before n after current lingering stats order',
        l.watchersOf v = before ++ ⟨n, .series s⟩ :: after ∧
        l'.series? s = some { x with items := current ++ lingering, stats } ∧
        Aligned (Calls.upTo client (depth + 2))
          (emptied ((before.forM fun w => (Calls.upTo client (depth + 3)).receive w.sink value).run
            (l.given v value)).2 s) l' x value.items current lingering order' m := by
  obtain ⟨before, n, after, hWatchers, hSlight⟩ := hFeeds.watchers
  have hSpared := given_spared h.stock.lineup.toReady v value
  have hGiven := valueOf_given hFeeds.lt_size value
  have hUndriven : ¬ m.Drives (l.given v value) v :=
    mt (hSpared.drives v hFeeds.lt_size).mp hFeeds.undriven
  have hLt := Nat.lt_of_lt_of_le hFeeds.lt_size hSpared.signals_size
  unfold setSignal
  refine After.bind (m := fun _ l₁ => l₁ = l.given v value) rfl ?_
  rintro _ _ rfl
  rw [after_bind, after_get, watchersOf_given, hWatchers, List.forM_eq_forM, List.forM_append]
  refine (tellAll_slight hClient (depth + 3) (fun w hw => hSpared.slight _
    (hSlight w (List.mem_append_left _ hw))) hSpared.closed value).run_eq.bind ?_
  rintro _ l₁ ⟨hRun₁, hSilent₁⟩
  have hx₁ : l₁.series? s = some x := by
    rw [series?, hSilent₁.series]
    exact hx
  have hInLine₁ : l₁.InLine x order m := ⟨(h.stock.spared hSpared).calm hSilent₁.toCalm, h.standing⟩
  rw [List.forM_cons]
  refine After.bind (pass_series (depth + 2)
    (reconcile_aligned hClient depth hCrafts hx₁ hInLine₁ value.items)) ?_
  rintro _ l₂ ⟨current, lingering, stats, order', hx', hAligned⟩
  refine (tellAll_slight hClient (depth + 3) (fun w hw => hAligned.slight _ (hSilent₁.slight
    (hSpared.slight _ (hSlight w (List.mem_append_right _ hw)))))
    hAligned.stock.lineup.closed value).mono ?_
  intro _ l' hSilent
  have hOff : v ∉ x.items.map (·.cursor) := hFeeds.not_mem h.stock.cursors
  have hUndriven₁ := mt (hSilent₁.drives_iff v).mp hUndriven
  have hLt₁ := Nat.lt_of_lt_of_eq hLt hSilent₁.signals_size.symm
  refine ⟨?_, before, n, after, current, lingering, stats, order', rfl, ?_, ?_⟩
  · rw [hSilent.kept v (mt (hAligned.drives v hLt₁).mp hUndriven₁),
      hAligned.values v hLt₁ hUndriven₁ hOff]
    exact (hSilent₁.kept v hUndriven).trans hGiven
  · rw [series?, hSilent.series]
    exact hx'
  · rw [← List.forM_eq_forM, hRun₁]
    exact hAligned.calm hSilent.toCalm

end Setting

/-! ## Runs -/

/-- Sets of a signal that a series follows, one after the other. -/
inductive Listings (calls : Calls κ σ) (v : SignalId) (s : SeriesId) (l : Live κ σ)
    (m : Leeway κ := .strict) : Live κ σ → Prop
  | start : Listings calls v s l m l
  | set {l₁ : Live κ σ} (h : Listings calls v s l m l₁) (hFeeds : l₁.Feeds v s m) (value : Value) :
    Listings calls v s l m ((setSignal calls v value).run l₁).2

section Running

variable (hClient : client.Quiet) (depth : Nat) {x₀ : Series κ}
variable (hCrafts : Crafts (Calls.upTo client (depth + 2)) x₀.factory m)
include hClient hCrafts

theorem Listings.inLine (h : Listings (Calls.upTo client (depth + 3)) v s l₀ m l)
    (h₀ : l₀.series? s = some x₀) (hStart : l₀.InLine x₀ order m) : ∃ x order,
      l.series? s = some x ∧ x.box = x₀.box ∧ x.factory = x₀.factory ∧ l.InLine x order m := by
  induction h with
  | start => exact ⟨x₀, order, h₀, rfl, rfl, hStart⟩
  | set _ hFeeds value ih =>
    obtain ⟨x, order, hx, hBox, hFactory, hInLine⟩ := ih
    obtain ⟨-, _, _, _, current, lingering, stats, order', -, hx', hAligned⟩ :=
      setSignal_aligned hClient depth (hFactory ▸ hCrafts) hx hInLine hFeeds value
    exact ⟨_, order', hx', hBox, hFactory, hAligned.inLine rfl rfl⟩

/-- A series that showed nothing follows a signal, which is set to any values. If the hooks and
listeners of the client set nothing, every set arranges the items for the value that the signal
holds when it is over. -/
theorem Listings.set_arranges (hBlank : l₀.Blank s x₀ m)
    (h : Listings (Calls.upTo client (depth + 3)) v s l₀ m l) (hFeeds : l.Feeds v s m)
    (value : Value) : After (setSignal (Calls.upTo client (depth + 3)) v value) l fun _ l' =>
      l'.valueOf v = value ∧ ∃ before n after x x',
        l.watchersOf v = before ++ ⟨n, .series s⟩ :: after ∧
        l.series? s = some x ∧ l'.series? s = some x' ∧
        x.box = x₀.box ∧ x'.box = x₀.box ∧ x.factory = x₀.factory ∧
        Arranged (Calls.upTo client (depth + 2))
          (emptied ((before.forM fun w => (Calls.upTo client (depth + 3)).receive w.sink value).run
            (l.given v value)).2 s) l' x x' value.items := by
  obtain ⟨x, order, hx, hBox, hFactory, hInLine⟩ :=
    h.inLine hClient depth hCrafts hBlank.there hBlank.inLine
  refine (setSignal_aligned hClient depth (hFactory ▸ hCrafts) hx hInLine hFeeds value).mono ?_
  rintro _ l' ⟨hValue, before, n, after, current, lingering, stats, order', hWatchers, hx', hAligned⟩
  exact ⟨hValue, before, n, after, x, _, hWatchers, hx, hx', hBox, hBox, hFactory,
    hAligned.toArranged rfl⟩

end Running

/-! ## Lists of elements -/

/-- A fresh document with a series that follows a signal. -/
def fedList : Live Unit Unit :=
  { blankList with
    signals := #[{ value := .null, watchers := [⟨0, .series 0⟩], nextWatcher := 1 }] }

theorem fedList_tabled : fedList.Tabled where
  sound := blankList_blank.sound
  observers := blankList_tabled.observers
  untracked := blankList_tabled.untracked

theorem fedList_blank : fedList.Blank 0 { box := 0, factory := .client () } where
  toReady := fedList_tabled.ready
  document := blankList_blank.document
  there := rfl
  box_lt := blankList_blank.box_lt
  items := rfl
  span := blankList_blank.span

/-- The series that a sink belongs to. -/
def Sink.series? : Sink κ → Option SeriesId
  | .series s => some s
  | _ => none

theorem watchers_eq_singleton {ws : List (Signal.Watcher κ)} {n : Nat}
    (h : ws.map (fun w => (w.number, w.sink.series?)) = [(n, some s)]) : ws = [⟨n, .series s⟩] := by
  obtain ⟨w, rfl, hw⟩ := List.map_eq_singleton_iff.mp h
  obtain ⟨number, sink⟩ := w
  obtain ⟨rfl, hSink⟩ := Prod.mk.inj hw
  cases sink with
  | series t => rw [Option.some.inj hSink]
  | _ => cases hSink

/-- A signal is set to a list of two values and then to another one. -/
theorem fedList_arranged :
    let calls := Calls.upTo Client.listing 3
    let l := ((setSignal calls 0 (.array [.string "a", .string "b"])).run fedList).2
    l.Feeds 0 0 ∧
    After (setSignal calls 0 (.array [.string "b", .string "c"])) l fun _ l' =>
      l'.valueOf 0 = .array [.string "b", .string "c"] ∧
        ∃ before n after x x', l.watchersOf 0 = before ++ ⟨n, .series 0⟩ :: after ∧
          l.series? 0 = some x ∧ l'.series? 0 = some x' ∧ x.box = 0 ∧ x'.box = 0 ∧
          x.factory = .client () ∧
          Arranged (Calls.upTo Client.listing 2)
            (emptied ((before.forM fun w =>
              calls.receive w.sink (.array [.string "b", .string "c"])).run
                (l.given 0 (.array [.string "b", .string "c"]))).2 0) l' x x'
            [.string "b", .string "c"] := by
  have hStart : fedList.Feeds 0 0 := ⟨by decide, fun h => h.2.1, [], 0, [], rfl, by simp⟩
  have hFeeds : ((setSignal (Calls.upTo Client.listing 3) 0
      (.array [.string "a", .string "b"])).run fedList).2.Feeds 0 0 :=
    ⟨by decide +kernel, fun h => h.2.1, [], 0, [], watchers_eq_singleton (by decide +kernel), by simp⟩
  exact ⟨hFeeds, Listings.set_arranges Client.listing_quiet 0 (Client.listing_makes 1).crafts
    fedList_blank
    (Listings.start.set hStart _) hFeeds (.array [.string "b", .string "c"])⟩

/-! ## Setting the signal again -/

/-- A client that makes elements as items, and an element for the first value has a hook that sets
the first signal when it is destroyed. -/
def relisting : Client Unit Unit :=
  { Client.still with
    buildItem := fun _ _ value _ => do
      let n ← sure (makeInDom fun d => d.createElement "li")
      if value.string? = some "a" then
        let o ← observe (.node n)
        let _ ← sure (addHook o .destroy (.client ()))
      pure (.node n)
    hook := fun calls _ _ => do
      setSignal calls 0 (.array [.string "z"])
      pure false }

/-- The body shows a list of one value, which is set to another one. Meanwhile a hook sets it to a
third one. -/
def relisted : Live Unit Unit :=
  let calls := Calls.upTo relisting 6
  let l₀ : Live Unit Unit := create {} ()
  let act : Act Unit Unit Unit := do
    let v ← sure (newSignal (.array [.string "a"]))
    let (_, box) ← newSeries calls v (.client ())
    attach calls (.container box) (.node l₀.body) none
    sure (setSignal calls v (.array [.string "b"]))
  (act.run.run l₀).2

/-- The signal has the third value, and the only item is for the second one. The container holds two
elements, of which the one for the third value is in no item. -/
theorem relisted_doubled : relisted.valueOf 0 = .array [.string "z"] ∧
    (relisted.series? 0).map (fun x => x.items.map fun item =>
      (item.key, relisted.dom.runOf item.node)) = some [(Value.key (.string "b"), [7])] ∧
    relisted.dom.span 0 = [8, 7] ∧ relisted.overrun = false :=
  ⟨Value.eq_of_beq_exact (by decide +kernel), by decide +kernel, by decide +kernel, by decide +kernel⟩

end LiveMarkup.Live
