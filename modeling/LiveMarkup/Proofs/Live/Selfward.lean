import LiveMarkup.Proofs.Dom.Spots
import LiveMarkup.Proofs.Live.Rows

/-!
# Children put before themselves

The reference of an insertion is looked up again when the child is out of the row. A child that is
its own reference is not found then, and comes last: behind its siblings, and behind the end marker
of the live container that it was in. A container that is its own reference stays where it is.

* `Dom.Backmost`: a child became the last one of its parent, and nothing else changed;
* `Dom.Sound.insertBefore_itself`, `Dom.Sound.insertInto_itself`: so it does before itself;
* `Dom.Backmost.children_eq_iff`: that changes nothing exactly if the child was last before;
* `Dom.Sound.replaceIn_itself`: in place of itself it is taken out, or refused;
* `moveTo_node_itself`, `moveTo_container_itself`: moving does the same to a node, and nothing to a
  container;
* `before_itself`: all of this, for every child of every sound document.
-/

namespace LiveMarkup

namespace Forest

variable {α : Type} {f f' : Forest α}

theorem climb_congr (h : ∀ n, f'.parent? n = f.parent? n) (k : Nat) (n : NodeId) :
    f'.climb k n = f.climb k n := by
  induction k generalizing n with
  | zero => rfl
  | succ k ih =>
    rw [climb, climb, h]
    cases f.parent? n with
    | none => rfl
    | some p => exact congrArg (p :: ·) (ih p)

theorem root_congr (hSize : f'.size = f.size) (h : ∀ n, f'.parent? n = f.parent? n) (n : NodeId) :
    f'.root n = f.root n := by
  rw [root, root, ancestors, ancestors, hSize, climb_congr h]

end Forest

namespace Dom

variable {d d' : Dom} {p n : NodeId} {c : ContainerId}

theorem plain_of_parts (hLt : n < d.nodes.size)
    (hNe : ∀ c < d.containers.size, ∀ p ∈ [Part.start, .finish, .fragment], n ≠ d.part c p) :
    d.Plain n :=
  ⟨hLt, fun c hc p => hNe c hc p (by cases p <;> simp)⟩

/-! ## Last among the siblings -/

/-- A child became the last one of its parent. Its siblings are in the same order, all other rows
are the same, and so are all parents and containers. -/
structure Backmost (d d' : Dom) (n : NodeId) : Prop where
  nodes_size : d'.nodes.size = d.nodes.size
  containers : d'.containers = d.containers
  parent : ∀ m, d'.parent? m = d.parent? m
  row : ∀ p, n ∈ d.children p → d'.children p = (d.children p).erase n ++ [n]
  rest : ∀ q, n ∉ d.children q → d'.children q = d.children q

namespace Backmost

variable (h : Backmost d d' n)
include h

theorem perm (q : NodeId) : (d'.children q).Perm (d.children q) := by
  by_cases hq : n ∈ d.children q
  · rw [h.row q hq]
    exact List.perm_append_comm.trans (List.perm_cons_erase hq).symm
  · rw [h.rest q hq]

theorem linked (hd : d.Sound) : d'.nodes.Linked where
  mem_children q m := by
    change m ∈ d'.children q ↔ d'.parent? m = some q
    rw [(h.perm q).mem_iff, h.parent, hd.mem_children]
  nodup q := (h.perm q).nodup_iff.mpr (hd.nodup q)
  ranked := by
    obtain ⟨rank, hRank⟩ := hd.linked.ranked
    exact ⟨rank, fun m q hq => hRank m q ((h.parent m).symm.trans hq)⟩

theorem container (c : ContainerId) : d'.container c = d.container c := by
  rw [Dom.container, Dom.container, h.containers]

/-- Nothing changed exactly if the child was the last one. -/
theorem children_eq_iff (hp : n ∈ d.children p) (hd : d.Sound) :
    (∀ q, d'.children q = d.children q) ↔ (d.children p).getLast? = some n := by
  constructor
  · intro hSame
    rw [← hSame p, h.row p hp, List.getLast?_concat]
  · intro hLast q
    by_cases hq : n ∈ d.children q
    · obtain rfl : q = p :=
        Option.some.inj ((hd.mem_children.mp hq).symm.trans (hd.mem_children.mp hp))
      obtain ⟨u, hRow⟩ := List.getLast?_eq_some_iff.mp hLast
      have hNodup := hd.nodup q
      rw [hRow, List.nodup_append] at hNodup
      have hOut : n ∉ u := fun hMem => hNodup.2.2 n hMem n (List.mem_singleton.mpr rfl) rfl
      rw [h.row q hq, hRow, List.erase_append_right _ hOut, List.erase_cons_head, List.append_nil]
    · exact h.rest q hq

/-- A child of a live container leaves it, as the end marker is before it then. -/
theorem span_of_live (hd : d.Sound) (hc : c < d.containers.size)
    (hLive : (d.container c).live = true) (hn : n ∈ d.span c) :
    d'.span c = (d.span c).erase n := by
  obtain ⟨host, u, v, hHost, hRow, _⟩ := hd.live_row hc hLive
  have hNodup := hd.nodup host
  have hMem : n ∈ d.children host := by
    rw [hRow]
    simp [hn]
  have hu : n ∉ u := by
    rw [hRow, List.nodup_append] at hNodup
    exact fun hu => hNodup.2.2 n hu n (by simp [hn]) rfl
  have hStart : d.part c .start ≠ n := fun he => hd.start_not_mem_span hc (he ▸ hn)
  have hPart : ∀ q, d'.part c q = d.part c q := fun q => by
    cases q <;> simp only [part, h.container]
  have hStart' : d'.parent? (d'.part c .start) = some host := by
    rw [hPart, h.parent, hHost]
  have hRow' : d'.children host =
      u ++ d'.part c .start :: ((d.span c).erase n ++ d'.part c .finish :: (v ++ [n])) := by
    rw [h.row host hMem, hRow, hPart, hPart, List.erase_append_right _ hu,
      List.erase_cons_tail (by simpa using hStart), List.erase_append_left _ hn]
    simp
  exact span_eq_of_row (by rw [h.container, hLive]) hStart' hRow'
    ((h.perm host).nodup_iff.mpr (hd.nodup host))

/-- A child of a container that is not live becomes its last one. -/
theorem span_of_not_live (hLive : (d.container c).live = false) (hn : n ∈ d.span c) :
    d'.span c = (d.span c).erase n ++ [n] := by
  have hLive' : (d'.container c).live = false := by rw [h.container, hLive]
  have hFragment : d'.part c .fragment = d.part c .fragment := by
    rw [part, part, h.container]
  rw [Dom.span_of_not_live hLive] at hn ⊢
  rw [Dom.span_of_not_live hLive', hFragment, h.row _ hn]

end Backmost

/-! ## Insertions -/

namespace Sound

variable (hd : d.Sound)
include hd

/-- A child that is put before itself becomes the last one. -/
theorem insertBefore_itself (hn : n ∈ d.children p) :
    ∃ d', d.insertBefore p n (some n) = .ok d' ∧ Backmost d d' n := by
  have hParent := hd.mem_children.mp hn
  obtain ⟨d', hInsert⟩ : ∃ d', d.insertBefore p n (some n) = .ok d' :=
    exists_insertBefore fun x hx => Option.some.inj hx ▸ hn
  obtain ⟨hPlaced, hBoxes⟩ := insertBefore_ok hd.linked (hd.linked.parent_lt_size hParent)
    (Forest.lt_size_of_parent hParent) hInsert
  have hErase : ∀ q, (d.children q).filter (· ∉ [n]) = (d.children q).erase n := fun q => by
    rw [(hd.nodup q).erase_eq_filter]
    exact List.filter_congr fun x _ => by by_cases hx : x = n <;> simp [hx]
  refine ⟨d', hInsert, hPlaced.size, hBoxes, fun m => ?_, fun q hq => ?_, fun q hq => ?_⟩
  · refine (hPlaced.parent m).trans ?_
    split
    · rename_i hm
      rw [List.mem_singleton.mp hm, hParent]
    · rfl
  · obtain rfl : q = p := Option.some.inj ((hd.mem_children.mp hq).symm.trans hParent)
    refine (hPlaced.children q).trans ?_
    -- the child is not in the row any more when it is looked up
    have hOut : n ∉ (d.children q).filter (· ∉ [n]) := by simp
    rw [if_pos rfl]
    exact (Forest.splice_of_not_mem hOut).trans (congrArg (· ++ [n]) (hErase q))
  · have hNe : q ≠ p := fun he => hq (he ▸ hn)
    refine (hPlaced.children q).trans ?_
    rw [if_neg hNe]
    exact (hErase q).trans (List.erase_of_not_mem hq)

theorem exists_point {parent : NodeRef} (hParent : d.Known parent) {b : NodeRef}
    (hFirst : d.first? b = some n) (hn : n ∈ d.childrenOf parent) :
    ∃ host, d.point parent (some b) = .ok (host, some n) ∧ n ∈ d.children host := by
  obtain ⟨host, u, v, hFramed⟩ := hd.exists_framed hParent
  have hStands : d.Stands parent (some b) := fun _ hb => Option.some.inj hb ▸ ⟨n, hFirst, hn⟩
  refine ⟨host, ?_, ?_⟩
  · rw [hFramed.point_eq hStands, Option.bind_some, hFirst, Option.some_or]
  · rw [hFramed.row]
    simp [hn]

theorem insertInto_itself (hc : c < d.containers.size) (hn : n ∈ d.span c) :
    ∃ d', d.insertInto c n (some n) = .ok d' ∧ Backmost d d' n := by
  obtain ⟨host, u, v, hHost, hRow, hFlanked⟩ := hd.flanked_row hc
  have hMem : n ∈ d.children host := by
    rw [hRow]
    simp [hn]
  obtain ⟨d', hInsert, hBack⟩ := hd.insertBefore_itself hMem
  refine ⟨d', ?_, hBack⟩
  rw [insertInto, hFlanked.spanPoint_eq hHost fun x hx => Option.some.inj hx ▸ hn]
  exact hInsert

/-- A child that takes its own place is refused by a live container, outside of which it is by then,
and taken out of any other one. -/
theorem replaceIn_itself (hc : c < d.containers.size) (hn : n ∈ d.span c) :
    ∃ d', d.insertInto c n (some n) = .ok d' ∧ Backmost d d' n ∧
      ((d.container c).live = true → d'.removeFrom c n = .error (d'.notInContainer n)) ∧
      ((d.container c).live = false → ∃ d'', d.replaceIn c n n = .ok d'' ∧
        d''.parent? n = none ∧ d''.span c = (d.span c).erase n) := by
  obtain ⟨d', hInsert, hBack⟩ := hd.insertInto_itself hc hn
  refine ⟨d', hInsert, hBack, fun hLive => ?_, fun hLive => ?_⟩
  · have hOut : (d'.span c).contains n = false := by
      rw [hBack.span_of_live hd hc hLive hn]
      simpa using (hd.nodup_span hc).not_mem_erase
    rw [removeFrom, if_neg (by rw [hOut]; exact Bool.false_ne_true)]
  · have hSpan := hBack.span_of_not_live hLive hn
    have hTaken := (hBack.linked hd).taken_remove n
    refine ⟨d'.remove n, ?_, ?_, ?_⟩
    · rw [replaceIn, hInsert]
      exact if_pos (by rw [hSpan]; simp)
    · exact (hTaken.parent n).trans (if_pos rfl)
    · have hLive' : ((d'.remove n).container c).live = false := by
        rw [← hLive, ← hBack.container c]
        rfl
      have hFragment : (d'.remove n).part c .fragment = d'.part c .fragment := rfl
      have hOff : (d'.container c).live = false := by rw [hBack.container, hLive]
      rw [Dom.span_of_not_live hOff] at hSpan
      rw [Dom.span_of_not_live hLive', hFragment]
      refine (hTaken.children _).trans ?_
      change (d'.children _).filter _ = _
      rw [hSpan, List.filter_append,
        Forest.filter_ne_of_not_mem (hd.nodup_span hc).not_mem_erase]
      simp

end Sound

end Dom

namespace Live

variable {κ σ : Type} {l : Live κ σ} {r parent : NodeRef} {before : Option NodeRef} {n : NodeId}
variable {calls : Calls κ σ}

/-! ## Moves -/

/-- Nobody is told of a move that leaves what is moved as connected as it was. -/
theorem moveTo_untold {d' : Dom} (hTorn : l.tornDown = false) (hState : l.stateOf r = .attached)
    (hMove : l.dom.move r parent before = .ok d')
    (hSame : (l.withDom d').isConnected r = l.isConnected r) :
    After (moveTo calls r parent before).run l fun out l' =>
      out = .ok () ∧ Changed l l' d' fun _ => id := by
  have hMoved : Changed l (l.withDom d') d' fun _ => id :=
    ((Struck.refl (A := fun _ _ => True) trivial).withDom (.move hMove)).toChanged
  refine After.moveTo (m := .strict) (fun out hOut => ?_) fun d₁ _ _ hMove₁ => ?_
  · cases hOut with
    | tornDown hTorn' => exact absurd (hTorn.symm.trans hTorn') Bool.false_ne_true
    | wrongState _ hState' => exact absurd hState hState'
    | astray _ _ hMove' => exact nomatch hMove.symm.trans hMove'
    | moved _ _ hMove' hChanged =>
      obtain rfl := Except.ok.inj (hMove.symm.trans hMove')
      refine ⟨rfl, hChanged.toFrame, hChanged.dom, hChanged.tracked, fun o => ?_⟩
      simp
  · obtain rfl := Except.ok.inj (hMove.symm.trans hMove₁)
    refine ⟨fun hWas hIs => ?_, fun hWas hIs => ?_, fun _ => hMoved.unheard⟩
    · rw [hSame, hWas] at hIs
      cases hIs
    · rw [hSame, hWas] at hIs
      cases hIs

/-- A node that is moved before itself becomes the last child of the node that it is in. -/
theorem moveTo_node_itself (hd : l.dom.Sound) (hTorn : l.tornDown = false)
    (hState : l.stateOf (.node n) = .attached) (hParent : l.dom.Known parent)
    (hn : n ∈ l.dom.childrenOf parent) :
    After (moveTo calls (.node n) parent (some (.node n))).run l fun out l' =>
      out = .ok () ∧ l.dom.Backmost l'.dom n := by
  obtain ⟨host, hPoint, hMem⟩ := hd.exists_point hParent (b := .node n) rfl hn
  obtain ⟨d', hInsert, hBack⟩ := hd.insertBefore_itself hMem
  have hMove : l.dom.move (.node n) parent (some (.node n)) = .ok d' := by
    rw [Dom.move, hPoint]
    exact hInsert
  have hSame : (l.withDom d').isConnected (.node n) = l.isConnected (.node n) := by
    change (some n).any (fun m => d'.nodes.root m == l.document) = _
    rw [funext (Forest.root_congr hBack.nodes_size hBack.parent)]
    rfl
  refine (moveTo_untold hTorn hState hMove hSame).mono ?_
  rintro _ l' ⟨rfl, hChanged⟩
  exact ⟨rfl, hChanged.dom ▸ hBack⟩

/-- A container that is moved before itself stays. -/
theorem moveTo_container_itself {c : ContainerId} (hd : l.dom.Sound) (hTorn : l.tornDown = false)
    (hState : l.stateOf (.container c) = .attached) (hLive : (l.dom.container c).live = true)
    (hParent : l.dom.Known parent) (hc : l.dom.key (.container c) ∈ l.dom.childrenOf parent) :
    After (moveTo calls (.container c) parent (some (.container c))).run l fun out l' =>
      out = .ok () ∧ l'.dom = l.dom := by
  have hFirst : l.dom.first? (.container c) = some (l.dom.key (.container c)) := if_pos hLive
  obtain ⟨host, hPoint, -⟩ := hd.exists_point hParent hFirst hc
  have hMove : l.dom.move (.container c) parent (some (.container c)) = .ok l.dom := by
    rw [Dom.move, hPoint]
    exact if_pos (by simp [Dom.run, Dom.key])
  refine (moveTo_untold hTorn hState hMove rfl).mono ?_
  rintro _ l' ⟨rfl, hChanged⟩
  exact ⟨rfl, hChanged.dom⟩

/-! ## All of them -/

/-- What comes of putting a child before itself or in place of itself, by whatever way: a node
becomes the last child of the node that it is in, so that nothing changes exactly if it was that
before, and it leaves a live container; a container stays where it is. -/
theorem before_itself (l : Live κ σ) (calls : Calls κ σ) (hd : l.dom.Sound) :
    (∀ p n, n ∈ l.dom.children p → ∃ d', l.dom.insertBefore p n (some n) = .ok d' ∧
      l.dom.Backmost d' n ∧
      ((∀ q, d'.children q = l.dom.children q) ↔ (l.dom.children p).getLast? = some n)) ∧
    (∀ c < l.dom.containers.size, ∀ n ∈ l.dom.span c, ∃ d',
      l.dom.insertInto c n (some n) = .ok d' ∧ l.dom.Backmost d' n ∧
      ((l.dom.container c).live = true → d'.span c = (l.dom.span c).erase n ∧
        d'.removeFrom c n = .error (d'.notInContainer n)) ∧
      ((l.dom.container c).live = false → d'.span c = (l.dom.span c).erase n ++ [n] ∧
        ∃ d'', l.dom.replaceIn c n n = .ok d'' ∧ d''.parent? n = none ∧
          d''.span c = (l.dom.span c).erase n)) ∧
    (l.tornDown = false → ∀ parent, l.dom.Known parent →
      (∀ n ∈ l.dom.childrenOf parent, l.stateOf (.node n) = .attached →
        After (moveTo calls (.node n) parent (some (.node n))).run l fun out l' =>
          out = .ok () ∧ l.dom.Backmost l'.dom n) ∧
      ∀ c, (l.dom.container c).live = true → l.stateOf (.container c) = .attached →
        l.dom.key (.container c) ∈ l.dom.childrenOf parent →
          After (moveTo calls (.container c) parent (some (.container c))).run l fun out l' =>
            out = .ok () ∧ l'.dom = l.dom) := by
  refine ⟨fun p n hn => ?_, fun c hc n hn => ?_, fun hTorn parent hParent => ⟨?_, ?_⟩⟩
  · obtain ⟨d', hInsert, hBack⟩ := hd.insertBefore_itself hn
    exact ⟨d', hInsert, hBack, hBack.children_eq_iff hn hd⟩
  · obtain ⟨d', hInsert, hBack, hOn, hOff⟩ := hd.replaceIn_itself hc hn
    exact ⟨d', hInsert, hBack, fun hLive => ⟨hBack.span_of_live hd hc hLive hn, hOn hLive⟩,
      fun hLive => ⟨hBack.span_of_not_live hLive hn, hOff hLive⟩⟩
  · exact fun n hn hState => moveTo_node_itself hd hTorn hState hParent hn
  · exact fun c hLive hState hc => moveTo_container_itself hd hTorn hState hLive hParent hc

/-! ## Two elements in a container -/

/-- A container in the body with two elements in it. -/
def pairWorks : List (Work Unit) :=
  [.create (.element "i" []), .create (.element "p" []), .createContainer,
    .insert (.container 0) 3 none, .insert (.container 0) 4 none,
    .attach (.container 0) (.node 2) none]

/-- The container with both elements, before it is put into the body. -/
theorem pairWorks_held :
    Works (Calls.upTo Client.still 2) (create {} ()) (worked (pairWorks.take 5)) := by
  have hApart : ∀ {d : Dom} {n m : NodeId}, d.parent? m = none → m ≠ n →
      ¬ d.Inside (.node n) m := fun hTop hNe hIn =>
    hNe ((Dom.inside_node.mp hIn).eq_of_parent_none hTop)
  have h₃ : Works (Calls.upTo Client.still 2) (create {} ()) (worked (pairWorks.take 3)) :=
    ((Works.start.work (.create (.element "i" [])) trivial).work (.create (.element "p" []))
      trivial).work .createContainer trivial
  have h₄ := h₃.work (.insert (.container 0) 3 none)
    ⟨Dom.plain_of_parts (by decide +kernel) (by decide +kernel), by change 0 < _; decide +kernel,
      hApart (by decide +kernel) (by decide +kernel)⟩
  exact h₄.work (.insert (.container 0) 4 none)
    ⟨Dom.plain_of_parts (by decide +kernel) (by decide +kernel), by change 0 < _; decide +kernel,
      hApart (by decide +kernel) (by decide +kernel)⟩

theorem pairWorks_run : Works (Calls.upTo Client.still 2) (create {} ()) (worked pairWorks) :=
  pairWorks_held.work (.attach (.container 0) (.node 2) none)
    ⟨by change 0 < _; decide +kernel,
      Dom.plain_of_parts (by decide +kernel) (by decide +kernel),
      (pairWorks_held.laid Client.still_quiet 0 (create_laid {} ())).not_inside (by decide +kernel)⟩

theorem pairWorks_sound : (worked pairWorks).dom.Sound :=
  (pairWorks_run.laid Client.still_quiet 0 (create_laid {} ())).sound

/-- In the end both the container, which is live, and the first element in it can be moved. -/
theorem pairWorks_end :
    (worked pairWorks).tornDown = false ∧
      ((worked pairWorks).dom.Known (.container 0) ∧ 3 ∈ (worked pairWorks).dom.span 0 ∧
        3 ∈ (worked pairWorks).dom.childrenOf (.container 0) ∧
        (worked pairWorks).stateOf (.node 3) = .attached) ∧
      ((worked pairWorks).dom.Known (.node 2) ∧
        ((worked pairWorks).dom.container 0).live = true ∧
        (worked pairWorks).stateOf (.container 0) = .attached ∧
        (worked pairWorks).dom.key (.container 0) ∈
          (worked pairWorks).dom.childrenOf (.node 2)) := by
  decide +kernel

/-- The first of two elements in a live container, and the container in the body. -/
theorem before_itself_pair :
    let l := worked pairWorks
    let calls : Calls Unit Unit := Calls.upTo Client.still 2
    l.dom.Sound ∧
      (∃ d', l.dom.insertInto 0 3 (some 3) = .ok d' ∧ d'.span 0 = (l.dom.span 0).erase 3) ∧
      (After (moveTo calls (.node 3) (.container 0) (some (.node 3))).run l fun out l' =>
        out = .ok () ∧ l.dom.Backmost l'.dom 3) ∧
      After (moveTo calls (.container 0) (.node 2) (some (.container 0))).run l fun out l' =>
        out = .ok () ∧ l'.dom = l.dom := by
  obtain ⟨hTorn, ⟨hBox, hIn, hChild, hState⟩, hBody, hOn, hBoxState, hBoxChild⟩ := pairWorks_end
  obtain ⟨-, hInto, hMoves⟩ :=
    before_itself (worked pairWorks) (Calls.upTo Client.still 2) pairWorks_sound
  obtain ⟨d', hInsert, -, hLive, -⟩ := hInto 0 hBox 3 hIn
  have hMoves := hMoves hTorn
  exact ⟨pairWorks_sound, ⟨d', hInsert, (hLive hOn).1⟩, (hMoves _ hBox).1 3 hChild hState,
    (hMoves _ hBody).2 0 hOn hBoxState hBoxChild⟩

/-- A child that is put before itself does not stay where it is: the first of two elements in a live
container ends up outside of it, behind the end marker. -/
theorem not_before_itself :
    ¬ ∀ (d d' : Dom) (c : ContainerId) (n : NodeId), d.Sound → n ∈ d.span c →
      d.insertInto c n (some n) = .ok d' → n ∈ d'.span c ∧ ∀ q, d'.children q = d.children q := by
  intro hStays
  have hMoved : ((worked pairWorks).dom.insertInto 0 3 (some 3)).toOption.map
      (fun d' => (d'.span 0, d'.children 2)) = some ([4], [5, 4, 6, 3]) := by
    decide +kernel
  cases hInsert : (worked pairWorks).dom.insertInto 0 3 (some 3) with
  | error e =>
    rw [hInsert] at hMoved
    cases hMoved
  | ok d' =>
    rw [hInsert] at hMoved
    have hSpan : d'.span 0 = [4] := congrArg Prod.fst (Option.some.inj hMoved)
    have hIn := (hStays _ d' 0 3 pairWorks_sound pairWorks_end.2.1.2.1 hInsert).1
    rw [hSpan] at hIn
    exact absurd hIn (by decide)

end Live

end LiveMarkup
