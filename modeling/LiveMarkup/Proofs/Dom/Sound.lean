import LiveMarkup.Dom.Container
import LiveMarkup.Proofs.Forest.Moving
import Mathlib.Data.List.Nodup

/-!
# Sound documents

The two markers of a mounted container stand among other siblings like a pair of brackets. A list
of siblings is balanced if every bracket that is opened is closed in it again, the last one first.

In a sound document the forest is linked, every container has three nodes of its own, and the
markers of the live containers stand among their siblings like brackets.

* `Balanced.insert`, `Balanced.remove`: a balanced run may be put in anywhere, and taken out;
* `Balanced.split`: from an opening bracket there is a balanced run up to the closing one;
* `Sound.live_row`: where a live container stands, its run is one piece of the row of siblings;
* `Sound.balanced_run`: the run of a node or container is balanced;
* `Sound.row_cases`: a row of siblings holds a run in one piece or none of it.
-/

/-! ## Balanced runs of siblings -/

namespace LiveMarkup

/-- What a node is among its siblings: nothing special, or a marker of a container. -/
inductive Bracket where
  | plain
  | opens (c : ContainerId)
  | closes (c : ContainerId)
  deriving Repr, DecidableEq, Inhabited

namespace Bracket

variable {mark : NodeId → Bracket}

/-- The containers that are open after a node, given those that are open before it. -/
def step (mark : NodeId → Bracket) (stack : List ContainerId) (n : NodeId) :
    Option (List ContainerId) :=
  match mark n, stack with
  | plain, stack => some stack
  | opens c, stack => some (c :: stack)
  | closes c, top :: stack => if top = c then some stack else none
  | closes _, [] => none

/-- The containers that are open after some nodes. -/
def scan (mark : NodeId → Bracket) (stack : List ContainerId) (nodes : List NodeId) :
    Option (List ContainerId) :=
  nodes.foldlM (step mark) stack

/-- Every container that is opened is closed again. -/
def Balanced (mark : NodeId → Bracket) (nodes : List NodeId) : Prop :=
  scan mark [] nodes = some []

@[simp]
theorem scan_nil (stack : List ContainerId) : scan mark stack [] = some stack := rfl

theorem scan_cons (stack : List ContainerId) (n : NodeId) (nodes : List NodeId) :
    scan mark stack (n :: nodes) = (step mark stack n).bind fun s => scan mark s nodes := by
  simp [scan, List.foldlM_cons]

theorem scan_append (stack : List ContainerId) (u v : List NodeId) :
    scan mark stack (u ++ v) = (scan mark stack u).bind fun s => scan mark s v := by
  simp [scan, List.foldlM_append]

/-! ### What is open already -/

theorem step_frame {s t : List ContainerId} {n : NodeId} (h : step mark s n = some t)
    (r : List ContainerId) : step mark (s ++ r) n = some (t ++ r) := by
  unfold step at h ⊢
  cases hMark : mark n with
  | plain => simpa [hMark] using h
  | opens c =>
    rw [hMark] at h
    simp only [Option.some.injEq] at h ⊢
    subst h
    rfl
  | closes c =>
    rw [hMark] at h
    cases s with
    | nil => cases h
    | cons top s =>
      simp only [List.cons_append] at h ⊢
      split at h
      · rename_i hTop
        rw [if_pos hTop]
        rw [Option.some.inj h]
      · cases h

theorem scan_frame {s t : List ContainerId} {nodes : List NodeId}
    (h : scan mark s nodes = some t) (r : List ContainerId) :
    scan mark (s ++ r) nodes = some (t ++ r) := by
  induction nodes generalizing s with
  | nil =>
    simp only [scan_nil, Option.some.injEq] at h ⊢
    rw [h]
  | cons n nodes ih =>
    rw [scan_cons] at h ⊢
    obtain ⟨s', hStep, hRest⟩ := Option.bind_eq_some_iff.mp h
    rw [step_frame hStep r]
    exact ih hRest

theorem Balanced.scan {nodes : List NodeId} (h : Balanced mark nodes)
    (stack : List ContainerId) : scan mark stack nodes = some stack := by
  simpa using scan_frame h stack

/-! ### Putting together and taking apart -/

theorem balanced_nil : Balanced mark [] := rfl

theorem balanced_singleton {n : NodeId} (h : mark n = plain) : Balanced mark [n] := by
  simp [Balanced, scan_cons, step, h]

/-- A balanced run between two markers of a container. -/
theorem Balanced.box {n m : NodeId} {c : ContainerId} {inner : List NodeId}
    (hn : mark n = opens c) (hm : mark m = closes c) (h : Balanced mark inner) :
    Balanced mark (n :: (inner ++ [m])) := by
  rw [Balanced, scan_cons]
  have hOpen : step mark [] n = some [c] := by simp [step, hn]
  have hClose : step mark [c] m = some [] := by simp [step, hm]
  rw [hOpen, Option.bind_some, scan_append, h.scan, Option.bind_some, scan_cons, hClose]
  rfl

/-- A balanced run can be put in anywhere. -/
theorem Balanced.insert {u w v : List NodeId} (h : Balanced mark (u ++ v))
    (hw : Balanced mark w) : Balanced mark (u ++ w ++ v) := by
  rw [Balanced, scan_append] at h
  obtain ⟨s, hu, hv⟩ := Option.bind_eq_some_iff.mp h
  rw [Balanced, scan_append, scan_append, hu, Option.bind_some, hw.scan]
  exact hv

/-- A balanced run can be taken out. -/
theorem Balanced.remove {u w v : List NodeId} (h : Balanced mark (u ++ w ++ v))
    (hw : Balanced mark w) : Balanced mark (u ++ v) := by
  rw [Balanced, scan_append, scan_append] at h
  obtain ⟨t, ht, hv⟩ := Option.bind_eq_some_iff.mp h
  obtain ⟨s, hu, hRun⟩ := Option.bind_eq_some_iff.mp ht
  rw [hw.scan] at hRun
  obtain rfl := Option.some.inj hRun
  rw [Balanced, scan_append, hu]
  exact hv

/-! ### From bracket to bracket -/

/-- A container that is open is closed before the ones under it are. -/
theorem scan_split {c : ContainerId} {q s t : List ContainerId} {nodes : List NodeId}
    (h : scan mark (q ++ c :: s) nodes = some t) (hShort : t.length ≤ s.length) :
    ∃ inner m v, nodes = inner ++ m :: v ∧ mark m = closes c ∧ scan mark q inner = some [] ∧
      scan mark s v = some t := by
  induction nodes generalizing q with
  | nil =>
    simp only [scan_nil, Option.some.injEq] at h
    subst h
    simp only [List.length_append, List.length_cons] at hShort
    omega
  | cons n nodes ih =>
    rw [scan_cons] at h
    obtain ⟨s', hStep, hRest⟩ := Option.bind_eq_some_iff.mp h
    -- the next node leaves the container open, unless it is its closing marker
    have hNext : ∀ q', step mark q n = some q' → s' = q' ++ c :: s →
        ∃ inner m v, n :: nodes = inner ++ m :: v ∧ mark m = closes c ∧
          scan mark q inner = some [] ∧ scan mark s v = some t := by
      rintro q' hq rfl
      obtain ⟨inner, m, v, rfl, hm, hInner, hv⟩ := ih hRest
      refine ⟨n :: inner, m, v, rfl, hm, ?_, hv⟩
      rw [scan_cons, hq]
      exact hInner
    unfold step at hStep
    cases hMark : mark n with
    | plain =>
      rw [hMark] at hStep
      exact hNext q (by simp [step, hMark]) (Option.some.inj hStep).symm
    | opens d =>
      rw [hMark] at hStep
      exact hNext (d :: q) (by simp [step, hMark]) (Option.some.inj hStep).symm
    | closes d =>
      rw [hMark] at hStep
      cases q with
      | nil =>
        simp only [List.nil_append] at hStep
        split at hStep
        · rename_i hTop
          obtain rfl := Option.some.inj hStep
          exact ⟨[], n, nodes, rfl, hTop ▸ hMark, rfl, hRest⟩
        · cases hStep
      | cons top q =>
        simp only [List.cons_append] at hStep
        split at hStep
        · rename_i hTop
          exact hNext q (by simp [step, hMark, hTop]) (Option.some.inj hStep).symm
        · cases hStep

/-- From an opening marker a balanced run leads to the closing one. -/
theorem Balanced.split {c : ContainerId} {n : NodeId} {u rest : List NodeId}
    (h : Balanced mark (u ++ n :: rest)) (hn : mark n = opens c) :
    ∃ inner m v, rest = inner ++ m :: v ∧ mark m = closes c ∧ Balanced mark inner := by
  rw [Balanced, scan_append] at h
  obtain ⟨s, _, hRest⟩ := Option.bind_eq_some_iff.mp h
  have hOpen : step mark s n = some (c :: s) := by simp [step, hn]
  rw [scan_cons, hOpen, Option.bind_some] at hRest
  obtain ⟨inner, m, v, hEq, hm, hInner, _⟩ := scan_split (q := []) hRest (Nat.zero_le _)
  exact ⟨inner, m, v, hEq, hm, hInner⟩

/-- A container that is closed among some nodes is open before them or opened among them. -/
theorem opens_of_closes {c : ContainerId} {s t : List ContainerId} {m : NodeId}
    {nodes : List NodeId} (h : scan mark s nodes = some t) (hMem : m ∈ nodes)
    (hm : mark m = closes c) : c ∈ s ∨ ∃ n ∈ nodes, mark n = opens c := by
  induction nodes generalizing s with
  | nil => cases hMem
  | cons n nodes ih =>
    rw [scan_cons] at h
    obtain ⟨s', hStep, hRest⟩ := Option.bind_eq_some_iff.mp h
    unfold step at hStep
    rcases List.mem_cons.mp hMem with rfl | hMem
    · rw [hm] at hStep
      cases s with
      | nil => cases hStep
      | cons top s =>
        simp only at hStep
        split at hStep
        · rename_i hTop
          exact .inl (hTop ▸ List.mem_cons_self)
        · cases hStep
    · rcases ih hRest hMem with hOpen | ⟨k, hk, hMark⟩
      · cases hMark : mark n with
        | plain =>
          rw [hMark] at hStep
          exact .inl (Option.some.inj hStep ▸ hOpen)
        | opens d =>
          rw [hMark] at hStep
          obtain rfl := Option.some.inj hStep
          rcases List.mem_cons.mp hOpen with rfl | hOpen
          · exact .inr ⟨n, List.mem_cons_self, hMark⟩
          · exact .inl hOpen
        | closes d =>
          rw [hMark] at hStep
          cases s with
          | nil => cases hStep
          | cons top s =>
            simp only at hStep
            split at hStep
            · obtain rfl := Option.some.inj hStep
              exact .inl (List.mem_cons_of_mem _ hOpen)
            · cases hStep
      · exact .inr ⟨k, List.mem_cons_of_mem _ hk, hMark⟩

/-- Among balanced nodes a container is not closed without being opened. -/
theorem Balanced.opens_of_closes {c : ContainerId} {m : NodeId} {nodes : List NodeId}
    (h : Balanced mark nodes) (hMem : m ∈ nodes) (hm : mark m = closes c) :
    ∃ n ∈ nodes, mark n = opens c := by
  rcases Bracket.opens_of_closes h hMem hm with hNil | hOpen
  · cases hNil
  · exact hOpen

end Bracket

end LiveMarkup

namespace LiveMarkup

namespace Dom

variable {d : Dom}

/-! ## The nodes of containers -/

/-- The nodes that belong to a container. -/
inductive Part where
  | start
  | finish
  | fragment
  deriving Repr, DecidableEq, Inhabited

/-- A node of a container. -/
def part (d : Dom) (c : ContainerId) : Part → NodeId
  | .start => (d.container c).start
  | .finish => (d.container c).finish
  | .fragment => (d.container c).fragment

def owner? (d : Dom) (p : Part) (n : NodeId) : Option ContainerId :=
  (List.range d.containers.size).find? fun c => d.part c p == n

/-- What a node is among its siblings. -/
def mark (d : Dom) (n : NodeId) : Bracket :=
  match d.owner? .start n, d.owner? .finish n with
  | some c, _ => .opens c
  | none, some c => .closes c
  | none, none => .plain

/-- A node of the document that belongs to no container. -/
structure Plain (d : Dom) (n : NodeId) : Prop where
  lt_size : n < d.nodes.size
  ne_part : ∀ c < d.containers.size, ∀ p, n ≠ d.part c p

/-- A plain node or a container of the document. -/
def Known (d : Dom) : NodeRef → Prop
  | .node n => d.Plain n
  | .container c => c < d.containers.size

instance (d : Dom) (n : NodeId) : Decidable (d.Plain n) :=
  decidable_of_iff (n < d.nodes.size ∧ ∀ c < d.containers.size,
      n ≠ d.part c .start ∧ n ≠ d.part c .finish ∧ n ≠ d.part c .fragment)
    ⟨fun h => ⟨h.1, fun c hc p => match p with
      | .start => (h.2 c hc).1
      | .finish => (h.2 c hc).2.1
      | .fragment => (h.2 c hc).2.2⟩,
    fun h => ⟨h.lt_size, fun c hc => ⟨h.ne_part c hc _, h.ne_part c hc _, h.ne_part c hc _⟩⟩⟩

instance (d : Dom) : (r : NodeRef) → Decidable (d.Known r)
  | .node n => inferInstanceAs (Decidable (d.Plain n))
  | .container c => inferInstanceAs (Decidable (c < d.containers.size))

/-- A node, or the markers of a container and what is between them. -/
def runOf (d : Dom) : NodeRef → List NodeId
  | .node n => [n]
  | .container c => d.run c

theorem runOf_container (d : Dom) (c : ContainerId) :
    d.runOf (.container c) = d.part c .start :: (d.span c ++ [d.part c .finish]) := rfl

theorem mem_run {c : ContainerId} {k : NodeId} :
    k ∈ d.runOf (.container c) ↔ k = d.part c .start ∨ k ∈ d.span c ∨ k = d.part c .finish := by
  simp [runOf_container]

theorem mem_runOf_node {n k : NodeId} : k ∈ d.runOf (.node n) ↔ k = n := by
  simp [runOf]

/-- A node is in a node or container, or one of those that stand for it. -/
def Inside (d : Dom) (r : NodeRef) (m : NodeId) : Prop :=
  ∃ k ∈ d.runOf r, d.nodes.Up m k

/-- A document whose links agree and whose containers are where their markers say. -/
structure Sound (d : Dom) : Prop where
  linked : d.nodes.Linked
  part_lt : ∀ c < d.containers.size, ∀ p, d.part c p < d.nodes.size
  part_inj : ∀ c < d.containers.size, ∀ c' < d.containers.size, ∀ p p',
    d.part c p = d.part c' p' → c = c' ∧ p = p'
  fragment_root : ∀ c < d.containers.size, d.parent? (d.part c .fragment) = none
  leaf : ∀ c < d.containers.size, ∀ p, p ≠ .fragment → d.children (d.part c p) = []
  live_iff : ∀ c < d.containers.size,
    (d.container c).live = true ↔ ∃ host, d.parent? (d.part c .start) = some host
  empty : ∀ c < d.containers.size, (d.container c).live = true →
    d.children (d.part c .fragment) = []
  balanced : ∀ p, Bracket.Balanced d.mark (d.children p)

theorem owner_some {p : Part} {n : NodeId} {c : ContainerId} (h : d.owner? p n = some c) :
    c < d.containers.size ∧ n = d.part c p := by
  have hEq : (d.part c p == n) = true := List.find?_some (p := fun c => d.part c p == n) h
  exact ⟨List.mem_range.mp (List.mem_of_find?_eq_some h), (beq_iff_eq.mp hEq).symm⟩

theorem owner_ne_none {p : Part} {c : ContainerId} (hc : c < d.containers.size) :
    d.owner? p (d.part c p) ≠ none := by
  intro hNone
  have := List.find?_eq_none.mp hNone c (List.mem_range.mpr hc)
  simp at this

theorem eq_part_of_opens {n : NodeId} {c : ContainerId} (h : d.mark n = .opens c) :
    c < d.containers.size ∧ n = d.part c .start := by
  unfold mark at h
  split at h
  · rename_i c' hFind
    obtain rfl : c' = c := by simpa using h
    exact owner_some hFind
  · cases h
  · cases h

theorem eq_part_of_closes {n : NodeId} {c : ContainerId} (h : d.mark n = .closes c) :
    c < d.containers.size ∧ n = d.part c .finish := by
  unfold mark at h
  split at h
  · cases h
  · rename_i c' _ hFind
    obtain rfl : c' = c := by simpa using h
    exact owner_some hFind
  · cases h

theorem mark_eq_plain {n : NodeId}
    (h : ∀ c < d.containers.size, n ≠ d.part c .start ∧ n ≠ d.part c .finish) :
    d.mark n = .plain := by
  cases hMark : d.mark n with
  | plain => rfl
  | opens c =>
    obtain ⟨hc, rfl⟩ := eq_part_of_opens hMark
    exact absurd rfl (h c hc).1
  | closes c =>
    obtain ⟨hc, rfl⟩ := eq_part_of_closes hMark
    exact absurd rfl (h c hc).2

theorem Plain.mark {n : NodeId} (h : d.Plain n) : d.mark n = .plain :=
  mark_eq_plain fun c hc => ⟨h.ne_part c hc .start, h.ne_part c hc .finish⟩

/-! ## Rows of siblings -/

theorem between_eq {u s v : List NodeId} {a b : NodeId} (h : (u ++ a :: (s ++ b :: v)).Nodup) :
    between a b (u ++ a :: (s ++ b :: v)) = s := by
  obtain ⟨_, hRest, hDisjoint⟩ := List.nodup_append.mp h
  have hu : ∀ x ∈ u, (!(x == a)) = true := by
    intro x hx
    simpa using hDisjoint x hx a List.mem_cons_self
  have hs : ∀ x ∈ s, (!(x == b)) = true := by
    intro x hx
    have hTail := (List.nodup_append.mp (List.nodup_cons.mp hRest).2).2.2
    simpa using hTail x hx b List.mem_cons_self
  rw [between, List.dropWhile_append_of_pos hu]
  simp only [List.dropWhile_cons, beq_self_eq_true, Bool.not_true, Bool.false_eq_true, if_false,
    List.drop_one, List.tail_cons]
  rw [List.takeWhile_append_of_pos hs]
  simp

/-- The span of a live container, read off the row in which its markers stand. -/
theorem span_eq_of_row {c : ContainerId} {host : NodeId} {u s v : List NodeId}
    (hLive : (d.container c).live = true) (hHost : d.parent? (d.part c .start) = some host)
    (hRow : d.children host = u ++ d.part c .start :: (s ++ d.part c .finish :: v))
    (hNodup : (d.children host).Nodup) : d.span c = s := by
  have hParent : d.parent? (d.container c).start = some host := hHost
  simp only [span, hLive, if_true, hParent]
  rw [hRow] at hNodup ⊢
  exact between_eq hNodup

theorem span_of_not_live {c : ContainerId} (h : (d.container c).live = false) :
    d.span c = d.children (d.part c .fragment) := by
  simp [span, h, part]

namespace Sound

variable (hd : d.Sound)
include hd

theorem mem_children {p n : NodeId} : n ∈ d.children p ↔ d.parent? n = some p :=
  hd.linked.mem_children p n

theorem nodup (p : NodeId) : (d.children p).Nodup :=
  hd.linked.nodup p

theorem mark_start {c : ContainerId} (hc : c < d.containers.size) :
    d.mark (d.part c .start) = .opens c := by
  cases hMark : d.mark (d.part c .start) with
  | opens c' =>
    obtain ⟨hc', hEq⟩ := eq_part_of_opens hMark
    rw [(hd.part_inj c hc c' hc' _ _ hEq).1]
  | closes c' =>
    obtain ⟨hc', hEq⟩ := eq_part_of_closes hMark
    cases (hd.part_inj c hc c' hc' _ _ hEq).2
  | plain =>
    unfold mark at hMark
    split at hMark
    · cases hMark
    · cases hMark
    · rename_i hNone _
      exact absurd hNone (owner_ne_none hc)

theorem mark_finish {c : ContainerId} (hc : c < d.containers.size) :
    d.mark (d.part c .finish) = .closes c := by
  cases hMark : d.mark (d.part c .finish) with
  | opens c' =>
    obtain ⟨hc', hEq⟩ := eq_part_of_opens hMark
    cases (hd.part_inj c hc c' hc' _ _ hEq).2
  | closes c' =>
    obtain ⟨hc', hEq⟩ := eq_part_of_closes hMark
    rw [(hd.part_inj c hc c' hc' _ _ hEq).1]
  | plain =>
    unfold mark at hMark
    split at hMark
    · cases hMark
    · cases hMark
    · rename_i _ hNone
      exact absurd hNone (owner_ne_none hc)

/-- A live container stands in one piece among its siblings, and what it holds is balanced. -/
theorem live_row {c : ContainerId} (hc : c < d.containers.size)
    (hLive : (d.container c).live = true) :
    ∃ host u v, d.parent? (d.part c .start) = some host ∧
      d.children host = u ++ d.part c .start :: (d.span c ++ d.part c .finish :: v) ∧
      Bracket.Balanced d.mark (d.span c) := by
  obtain ⟨host, hHost⟩ := (hd.live_iff c hc).mp hLive
  have hMem := hd.mem_children.mpr hHost
  obtain ⟨u, rest, hRow⟩ := List.append_of_mem hMem
  have hBalanced := hd.balanced host
  rw [hRow] at hBalanced
  obtain ⟨inner, m, v, rfl, hm, hInner⟩ := hBalanced.split (hd.mark_start hc)
  obtain ⟨_, rfl⟩ := eq_part_of_closes hm
  have hSpan := span_eq_of_row hLive hHost hRow (hd.nodup host)
  exact ⟨host, u, v, hHost, by rw [hSpan, hRow], by rw [hSpan]; exact hInner⟩

theorem balanced_span {c : ContainerId} (hc : c < d.containers.size) :
    Bracket.Balanced d.mark (d.span c) := by
  cases hLive : (d.container c).live with
  | true =>
    obtain ⟨_, _, _, _, _, hBalanced⟩ := hd.live_row hc hLive
    exact hBalanced
  | false =>
    rw [span_of_not_live hLive]
    exact hd.balanced _

/-- A node, or a container with all between its markers, is a balanced run. -/
theorem balanced_run {r : NodeRef} (hr : d.Known r) : Bracket.Balanced d.mark (d.runOf r) := by
  cases r with
  | node n => exact Bracket.balanced_singleton (Plain.mark hr)
  | container c => exact (hd.balanced_span hr).box (hd.mark_start hr) (hd.mark_finish hr)

/-! ### Parents of runs -/

theorem parent_start_of_not_live {c : ContainerId} (hc : c < d.containers.size)
    (hLive : (d.container c).live = false) : d.parent? (d.part c .start) = none := by
  cases hParent : d.parent? (d.part c .start) with
  | none => rfl
  | some host =>
    rw [(hd.live_iff c hc).mpr ⟨host, hParent⟩] at hLive
    cases hLive

theorem parent_finish {c : ContainerId} (hc : c < d.containers.size) :
    d.parent? (d.part c .finish) = d.parent? (d.part c .start) := by
  cases hLive : (d.container c).live with
  | true =>
    obtain ⟨host, u, v, hHost, hRow, _⟩ := hd.live_row hc hLive
    rw [hHost, ← hd.mem_children, hRow]
    simp
  | false =>
    rw [hd.parent_start_of_not_live hc hLive]
    cases hParent : d.parent? (d.part c .finish) with
    | none => rfl
    | some host =>
      obtain ⟨n, hn, hMark⟩ := (hd.balanced host).opens_of_closes (hd.mem_children.mpr hParent)
        (hd.mark_finish hc)
      obtain ⟨_, rfl⟩ := eq_part_of_opens hMark
      rw [(hd.live_iff c hc).mpr ⟨host, hd.mem_children.mp hn⟩] at hLive
      cases hLive

theorem parent_of_mem_span {c : ContainerId} {n : NodeId} (hc : c < d.containers.size)
    (hn : n ∈ d.span c) : d.parent? n = d.spanHost? c := by
  cases hLive : (d.container c).live with
  | true =>
    obtain ⟨host, u, v, hHost, hRow, _⟩ := hd.live_row hc hLive
    have hMem : n ∈ d.children host := by
      rw [hRow]
      simp [hn]
    rw [hd.mem_children.mp hMem]
    exact (by simpa [spanHost?, hLive, part] using hHost.symm)
  | false =>
    rw [span_of_not_live hLive] at hn
    rw [hd.mem_children.mp hn]
    simp [spanHost?, hLive, part]

theorem spanHost_some {c : ContainerId} (hc : c < d.containers.size) :
    ∃ host, d.spanHost? c = some host := by
  cases hLive : (d.container c).live with
  | true =>
    obtain ⟨host, hHost⟩ := (hd.live_iff c hc).mp hLive
    exact ⟨host, by simpa [spanHost?, hLive, part] using hHost⟩
  | false => exact ⟨d.part c .fragment, by simp [spanHost?, hLive, part]⟩

omit hd in
theorem spanHost_of_live {c : ContainerId} (hLive : (d.container c).live = true) :
    d.spanHost? c = d.parent? (d.part c .start) := by
  simp [spanHost?, hLive, part]

theorem lt_size_of_mem_run {r : NodeRef} (hr : d.Known r) {k : NodeId} (hk : k ∈ d.runOf r) :
    k < d.nodes.size := by
  cases r with
  | node n =>
    obtain rfl := mem_runOf_node.mp hk
    exact hr.lt_size
  | container c =>
    rcases mem_run.mp hk with rfl | hSpan | rfl
    · exact hd.part_lt c hr .start
    · obtain ⟨host, hHost⟩ := hd.spanHost_some hr
      exact Forest.lt_size_of_parent ((hd.parent_of_mem_span hr hSpan).trans hHost)
    · exact hd.part_lt c hr .finish

theorem fragment_not_mem_run {r : NodeRef} {c : ContainerId} (hr : d.Known r)
    (hc : c < d.containers.size) : d.part c .fragment ∉ d.runOf r := by
  intro hMem
  cases r with
  | node n =>
    exact hr.ne_part c hc .fragment (mem_runOf_node.mp hMem).symm
  | container c' =>
    rcases mem_run.mp hMem with hStart | hSpan | hFinish
    · cases (hd.part_inj c hc c' hr .fragment .start hStart).2
    · obtain ⟨host, hHost⟩ := hd.spanHost_some hr
      have hParent := (hd.parent_of_mem_span hr hSpan).trans hHost
      rw [hd.fragment_root c hc] at hParent
      cases hParent
    · cases (hd.part_inj c hc c' hr .fragment .finish hFinish).2

theorem nodup_run {r : NodeRef} (hr : d.Known r) : (d.runOf r).Nodup := by
  cases r with
  | node n => exact List.nodup_singleton n
  | container c =>
    cases hLive : (d.container c).live with
    | true =>
      obtain ⟨host, u, v, _, hRow, _⟩ := hd.live_row hr hLive
      have hNodup := hd.nodup host
      have hSplit : d.children host = u ++ (d.runOf (.container c) ++ v) := by
        rw [hRow]
        simp [runOf, run, part]
      rw [hSplit] at hNodup
      exact (List.nodup_append.mp (List.nodup_append.mp hNodup).2.1).1
    | false =>
      have hStart := hd.parent_start_of_not_live hr hLive
      have hFinish := (hd.parent_finish hr).trans hStart
      have hOut : ∀ n, d.parent? n = none → n ∉ d.span c := by
        intro n hn hMem
        obtain ⟨host, hHost⟩ := hd.spanHost_some hr
        rw [hd.parent_of_mem_span hr hMem, hHost] at hn
        cases hn
      have hSpan : (d.span c).Nodup := by
        rw [span_of_not_live hLive]
        exact hd.nodup _
      have hNe : d.part c .start ≠ d.part c .finish := fun hEq => by
        cases (hd.part_inj c hr c hr _ _ hEq).2
      refine List.nodup_cons.mpr ⟨?_, ?_⟩
      · intro hMem
        rcases List.mem_append.mp hMem with hMem | hMem
        · exact hOut _ hStart hMem
        · exact hNe (List.mem_singleton.mp hMem)
      · refine List.nodup_append.mpr ⟨hSpan, List.nodup_singleton _, ?_⟩
        rintro a ha b hb rfl
        obtain rfl := List.mem_singleton.mp hb
        exact hOut _ hFinish ha

/-! ### Rows without a run -/

/-- The run of a node or container is one piece of a row, or no part of it. An exception is the
row of the fragment, which is the run without its markers. -/
theorem row_cases {r : NodeRef} (hr : d.Known r) (q : NodeId) :
    (∃ u v, d.children q = u ++ d.runOf r ++ v) ∨ (∀ k ∈ d.runOf r, k ∉ d.children q) ∨
      ∃ c, r = .container c ∧ q = d.part c .fragment ∧ (d.container c).live = false ∧
        d.children q = d.span c := by
  cases r with
  | node n =>
    by_cases hMem : n ∈ d.children q
    · obtain ⟨u, v, hRow⟩ := List.append_of_mem hMem
      exact .inl ⟨u, v, by simp [runOf, hRow]⟩
    · exact .inr (.inl fun k hk => mem_runOf_node.mp hk ▸ hMem)
  | container c =>
    cases hLive : (d.container c).live with
    | true =>
      obtain ⟨host, u, v, hHost, hRow, _⟩ := hd.live_row hr hLive
      by_cases hq : q = host
      · subst hq
        exact .inl ⟨u, v, by rw [hRow]; simp [runOf, run, part]⟩
      · refine .inr (.inl fun k hk hMem => hq ?_)
        have hParent : d.parent? k = some host := by
          rcases mem_run.mp hk with rfl | hSpan | rfl
          · exact hHost
          · rw [hd.parent_of_mem_span hr hSpan, spanHost_of_live hLive, hHost]
          · rw [hd.parent_finish hr, hHost]
        rw [hd.mem_children.mp hMem] at hParent
        exact Option.some.inj hParent
    | false =>
      by_cases hq : q = d.part c .fragment
      · exact .inr (.inr ⟨c, rfl, hq, hLive, by rw [hq, span_of_not_live hLive]⟩)
      · refine .inr (.inl fun k hk hMem => ?_)
        have hParent := hd.mem_children.mp hMem
        have hStart := hd.parent_start_of_not_live hr hLive
        rcases mem_run.mp hk with rfl | hSpan | rfl
        · exact absurd (hStart.symm.trans hParent) (by simp)
        · rw [hd.parent_of_mem_span hr hSpan] at hParent
          have hEq : d.part c .fragment = q := by simpa [spanHost?, hLive, part] using hParent
          exact hq hEq.symm
        · rw [hd.parent_finish hr, hStart] at hParent
          cases hParent

theorem balanced_filter {r : NodeRef} (hr : d.Known r) (q : NodeId) :
    Bracket.Balanced d.mark ((d.children q).filter (· ∉ d.runOf r)) := by
  have hAll : ∀ l : List NodeId, (∀ k ∈ l, k ∈ d.runOf r) →
      l.filter (· ∉ d.runOf r) = [] := by
    intro l hl
    exact List.filter_eq_nil_iff.mpr fun k hk => by simpa using hl k hk
  have hNone : ∀ l : List NodeId, (∀ k ∈ l, k ∉ d.runOf r) →
      l.filter (· ∉ d.runOf r) = l := by
    intro l hl
    exact List.filter_eq_self.mpr fun k hk => by simpa using hl k hk
  have hBalanced := hd.balanced q
  rcases hd.row_cases hr q with ⟨u, v, hRow⟩ | hOut | ⟨c, rfl, _, _, hSpan⟩
  · have hNodup := hd.nodup q
    rw [hRow] at hBalanced hNodup ⊢
    rw [List.nodup_append, List.nodup_append] at hNodup
    obtain ⟨⟨_, _, huw⟩, _, hv⟩ := hNodup
    have hu : ∀ k ∈ u, k ∉ d.runOf r := fun k hk hRun => huw k hk k hRun rfl
    have hv' : ∀ k ∈ v, k ∉ d.runOf r := fun k hk hRun =>
      hv k (List.mem_append_right _ hRun) k hk rfl
    rw [List.filter_append, List.filter_append, hNone u hu, hAll _ fun _ hk => hk, hNone v hv',
      List.append_nil]
    exact hBalanced.remove (hd.balanced_run hr)
  · rw [hNone _ fun k hk hRun => hOut k hRun hk]
    exact hBalanced
  · rw [hSpan, hAll _ fun k hk => by simp [runOf, run, hk]]
    exact Bracket.balanced_nil

end Sound

end Dom

end LiveMarkup
