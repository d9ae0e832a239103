import LiveMarkup.Proofs.Program.Gathered
import Mathlib.Data.List.Forall2
import Mathlib.Data.List.Perm.Basic

/-!
# The order of attributes

The order of the attributes of an element matters within four groups only: plain attributes,
bindings of properties, other bindings, and events. What an element does to itself is done group by
group, and what its commands ask for is told apart by their names. A template in which attributes
change places across the groups is compiled to the same program.

* `Compile.operations_eq`: what an element does, by the groups of its attributes;
* `Compile.Regrouped`: a reordering of attributes that keeps the order in each group;
* `Compile.Rearranged`: a template with regrouped attributes at any depth;
* `Compile.lower_rearranged`: it is compiled to the same program.
-/

namespace LiveMarkup

namespace Compile

/-- The groups of attributes in which the order matters. -/
inductive Group where
  | plain
  | property
  | binding
  | event
  deriving DecidableEq

/-- The groups in the order in which an element does what is in them. -/
def Group.all : List Group :=
  [.plain, .property, .binding, .event]

end Compile

namespace Classified

open Compile (Group)

/-- The group of an attribute. A command has none. -/
def group? : Classified → Option Group
  | plain _ => some .plain
  | directive d => some (if d.isProperty then .property else .binding)
  | event _ => some .event
  | command _ => none

/-- What an attribute does to its element. -/
def operation? : Classified → Option Operation
  | plain a => some (plainOperation a)
  | directive d => some d.operation
  | event a => some (eventOperation a)
  | command _ => none

end Classified

namespace Compile

open Template (Node)

section

variable (ctx : Context)

/-- The group of an attribute, if it means something. -/
def groupOf (a : Template.Attribute) : Option Group :=
  (meaning? ctx a).bind Classified.group?

/-- What an attribute does to its element, if it means something. -/
def operation? (a : Template.Attribute) : Option Operation :=
  (meaning? ctx a).bind Classified.operation?

/-- The attributes of a group, in their order. -/
def ofGroup (g : Group) (attributes : List Template.Attribute) : List Template.Attribute :=
  attributes.filter fun a => groupOf ctx a = some g

/-- The same attributes in an order that is the same within each group. -/
structure Regrouped (xs ys : List Template.Attribute) : Prop where
  perm : xs.Perm ys
  order : ∀ g, ofGroup ctx g xs = ofGroup ctx g ys

/-- The same node, but for the order of the attributes of some elements. -/
inductive Rearranged : Node → Node → Prop where
  | text (value : String) : Rearranged (.text value) (.text value)
  | interpolation (code : String) (raw : Bool) :
    Rearranged (.interpolation code raw) (.interpolation code raw)
  | element {xs ys : List Template.Attribute} {cs ds : List Node}
    (hAttributes : Regrouped ctx xs ys) (hChildren : List.Forall₂ Rearranged cs ds)
    (tag : String) (range : Range) :
    Rearranged (.element tag xs cs range) (.element tag ys ds range)

end

variable {ctx : Context}

/-! ## What an element does -/

theorem Sorted.operations_ofMeanings (meanings : List Classified) :
    (ofMeanings meanings).operations = Group.all.flatMap fun g =>
      (meanings.filter fun m => m.group? = some g).filterMap Classified.operation? := by
  have hParts :
      (ofMeanings meanings).plain.map Classified.plainOperation =
        (meanings.filter fun m => m.group? = some .plain).filterMap Classified.operation? ∧
      ((ofMeanings meanings).directives.filter Directive.isProperty).map Directive.operation =
        (meanings.filter fun m => m.group? = some .property).filterMap Classified.operation? ∧
      ((ofMeanings meanings).directives.filter fun d => !d.isProperty).map Directive.operation =
        (meanings.filter fun m => m.group? = some .binding).filterMap Classified.operation? ∧
      (ofMeanings meanings).events.map Classified.eventOperation =
        (meanings.filter fun m => m.group? = some .event).filterMap Classified.operation? := by
    induction meanings with
    | nil => exact ⟨rfl, rfl, rfl, rfl⟩
    | cons m rest ih =>
      obtain ⟨hPlain, hProperty, hBinding, hEvent⟩ := ih
      rw [ofMeanings_cons]
      cases m with
      | directive d =>
        cases hd : d.isProperty <;>
          simp [add, Classified.group?, Classified.operation?, hd, hPlain, hProperty, hBinding,
            hEvent]
      | plain =>
        simp [add, Classified.group?, Classified.operation?, hPlain, hProperty, hBinding, hEvent]
      | command => simp [add, Classified.group?, hPlain, hProperty, hBinding, hEvent]
      | event =>
        simp [add, Classified.group?, Classified.operation?, hPlain, hProperty, hBinding, hEvent]
  obtain ⟨hPlain, hProperty, hBinding, hEvent⟩ := hParts
  rw [operations, hPlain, hProperty, hBinding, hEvent]
  simp [Group.all]

/-- An element does what its attributes say, group by group, each group in its order. -/
theorem operations_eq (n : Node) : (sortedOf ctx n).operations =
    Group.all.flatMap fun g => (ofGroup ctx g n.attributes).filterMap (operation? ctx) := by
  rw [sortedOf, Sorted.operations_ofMeanings]
  apply List.flatMap_congr
  intro g _
  rw [ofGroup, List.filter_filterMap, List.filterMap_filterMap, List.filterMap_filter]
  apply List.filterMap_congr
  intro a _
  rw [groupOf, operation?]
  cases meaning? ctx a with
  | none => rfl
  | some m => by_cases hGroup : m.group? = some g <;> simp [Option.filter, hGroup]

/-! ## What the commands ask for -/

theorem findSome?_perm {α β : Type} {f : α → Option β} {xs ys : List α} (h : xs.Perm ys)
    (hOne : (xs.filterMap f).length ≤ 1) : xs.findSome? f = ys.findSome? f := by
  have hPerm := h.filterMap f
  rw [← List.head?_filterMap, ← List.head?_filterMap]
  rw [eq_toList_of_length_le hOne] at hPerm
  cases hFound : (xs.filterMap f).head? with
  | none =>
    rw [hFound, Option.toList_none] at hPerm
    rw [← hPerm.nil_eq]
    rfl
  | some b =>
    rw [hFound, Option.toList_some] at hPerm
    rw [← List.singleton_perm.mp hPerm]
    rfl

/-! ## Rearranged nodes -/

section

variable {α β : Type} {R : α → α → Prop} {xs ys : List α}

theorem exists_of_forall₂ (h : List.Forall₂ R xs ys) {y : α} (hy : y ∈ ys) : ∃ x ∈ xs, R x y := by
  induction h with
  | nil => cases hy
  | @cons x z xs ys hxz _ ih =>
    rcases List.mem_cons.mp hy with rfl | hy
    · exact ⟨x, List.mem_cons_self, hxz⟩
    · obtain ⟨w, hw, hwy⟩ := ih hy
      exact ⟨w, List.mem_cons_of_mem _ hw, hwy⟩

theorem forall₂_imp {S : α → α → Prop} (h : List.Forall₂ R xs ys)
    (hImp : ∀ x ∈ xs, ∀ y, R x y → S x y) : List.Forall₂ S xs ys :=
  ((List.forall₂_and_left xs ys).mpr ⟨hImp, h⟩).imp fun _ _ ⟨hx, hxy⟩ => hx _ hxy

theorem map_eq_of_forall₂ (h : List.Forall₂ R xs ys) {f : α → β}
    (hf : ∀ x ∈ xs, ∀ y, R x y → f x = f y) : xs.map f = ys.map f := by
  rw [← List.forall₂_eq_eq_eq, List.forall₂_map_left_iff, List.forall₂_map_right_iff]
  exact forall₂_imp h hf

end

/-- The commands of two nodes ask for the same. -/
structure Agree (ctx : Context) (n m : Node) : Prop where
  condition : conditionOf ctx n = conditionOf ctx m
  loop : loopOf ctx n = loopOf ctx m
  switched : switchOf ctx n = switchOf ctx m
  arm : armOf ctx n = armOf ctx m

theorem Regrouped.symm {xs ys : List Template.Attribute} (h : Regrouped ctx xs ys) :
    Regrouped ctx ys xs :=
  ⟨h.perm.symm, fun g => (h.order g).symm⟩

namespace Rearranged

variable {n m : Node}

theorem attributes (h : Rearranged ctx n m) : Regrouped ctx n.attributes m.attributes := by
  cases h with
  | text => exact ⟨.refl [], fun _ => rfl⟩
  | interpolation => exact ⟨.refl [], fun _ => rfl⟩
  | element hAttributes => exact hAttributes

theorem children (h : Rearranged ctx n m) :
    List.Forall₂ (Rearranged ctx) n.children m.children := by
  cases h with
  | text => exact .nil
  | interpolation => exact .nil
  | element _ hChildren => exact hChildren

theorem operations (h : Rearranged ctx n m) :
    (sortedOf ctx n).operations = (sortedOf ctx m).operations := by
  simp only [operations_eq, h.attributes.order]

theorem commands (h : Rearranged ctx n m) :
    (sortedOf ctx n).commands.Perm (sortedOf ctx m).commands :=
  (h.attributes.perm.filterMap _).filterMap _

theorem ambiguous_iff (h : Rearranged ctx n m) : Ambiguous ctx n ↔ Ambiguous ctx m := by
  have hPerm : (armsOf ctx n).Perm (armsOf ctx m) := h.commands.filterMap _
  simp only [Ambiguous, hPerm.mem_iff]

/-- The commands of an element that is not both a case and a default ask for the same in any
order. -/
theorem agree (h : Rearranged ctx n m)
    (hUnique : ((sortedOf ctx n).commands.map Command.name).Nodup) (hClear : ¬ Ambiguous ctx n) :
    Agree ctx n m := by
  have hOne : ∀ {α : Type} {f : Command → Option α} {name : String},
      (∀ c, (f c).isSome → c.name = name) →
      (sortedOf ctx n).commands.findSome? f = (sortedOf ctx m).commands.findSome? f := by
    intro α f name hf
    refine findSome?_perm h.commands ?_
    rw [Command.filterMap_eq_toList hf hUnique]
    exact Option.length_toList_le
  refine ⟨hOne Command.name_of_condition?, hOne Command.name_of_loop?,
    hOne Command.name_of_switched?, ?_⟩
  rw [Compile.ambiguous_iff hUnique] at hClear
  rw [armOf_eq, armOf_eq]
  exact findSome?_perm h.commands (Nat.not_lt.mp hClear)

theorem within {k : Node} (h : Rearranged ctx n m) (hk : m.Within k) :
    ∃ j, n.Within j ∧ Rearranged ctx j k := by
  induction hk generalizing n with
  | refl m => exact ⟨n, .refl n, h⟩
  | child hChild _ ih =>
    obtain ⟨c, hc, hcd⟩ := exists_of_forall₂ h.children hChild
    obtain ⟨j, hj, hjk⟩ := ih hcd
    exact ⟨j, .child hc hj, hjk⟩

theorem symm : ∀ {m : Node}, Rearranged ctx n m → Rearranged ctx m n := by
  induction n using Node.children_induction with
  | step n ih =>
    intro m h
    cases h with
    | text value => exact .text value
    | interpolation code raw => exact .interpolation code raw
    | element hAttributes hChildren tag range =>
      refine .element hAttributes.symm (List.Forall₂.flip ?_) tag range
      exact forall₂_imp hChildren fun c hc d hcd => ih c hc hcd

/-- The arms among the children of an element stay where they are. -/
theorem arms (h : Rearranged ctx n m)
    (hUnique : ∀ c ∈ n.children, ((sortedOf ctx c).commands.map Command.name).Nodup)
    (hClear : ∀ c ∈ n.children, ¬ Ambiguous ctx c) :
    n.children.map (armOf ctx) = m.children.map (armOf ctx) :=
  map_eq_of_forall₂ h.children fun c hc _ hcd => (hcd.agree (hUnique c hc) (hClear c hc)).arm

theorem fits (h : Rearranged ctx n m) (hn : Fits ctx n) (hChildren : ∀ c ∈ n.children, Fits ctx c)
    (hSelf : ¬ Ambiguous ctx n) (hClear : ∀ c ∈ n.children, ¬ Ambiguous ctx c) : Fits ctx m where
  attributes a ha := hn.attributes a (h.attributes.perm.mem_iff.mpr ha)
  commands := (h.commands.map _).nodup_iff.mp hn.commands
  children := by
    have hPlaced := hn.children
    rw [(h.agree hn.commands hSelf).switched] at hPlaced
    have hArms := h.arms (fun c hc => (hChildren c hc).commands) hClear
    have hMap : ∀ {switched : Option ValueSource} {nodes : List Node},
        Placed id switched (nodes.map (armOf ctx)) ↔ Placed (armOf ctx) switched nodes :=
      placed_map_iff
    rwa [← hMap, hArms, hMap] at hPlaced

theorem lowered_eq : ∀ {m : Node}, Rearranged ctx n m → (∀ k, n.Within k → Fits ctx k) →
    (∀ k, n.Within k → ¬ Ambiguous ctx k) → lowered ctx n = lowered ctx m := by
  induction n using Node.children_induction with
  | step n ih =>
    intro m h hFits hClear
    obtain ⟨hn, hFitsChildren⟩ := Node.forall_within_iff.mp hFits
    obtain ⟨hSelf, hClearChildren⟩ := Node.forall_within_iff.mp hClear
    have hAgree := h.agree hn.commands hSelf
    have hOperations := h.operations
    cases h with
    | text => rfl
    | interpolation => rfl
    | @element xs ys cs ds hAttributes hChildren tag range =>
      have hPairs : loweredChildren ctx cs = loweredChildren ctx ds := by
        rw [loweredChildren_eq, loweredChildren_eq]
        refine map_eq_of_forall₂ hChildren ?_
        intro c hc d hcd
        have hFitsChild := hFitsChildren c hc
        have hClearChild := hClearChildren c hc
        rw [(hcd.agree (hFitsChild c (.refl c)).commands (hClearChild c (.refl c))).arm,
          ih c hc hcd hFitsChild hClearChild]
      rw [lowered, lowered, hAgree.condition, hAgree.loop, hAgree.switched, hOperations, hPairs]

end Rearranged

section

variable {nodes nodes' : List Node}

/-- A rearranged template is compiled to the same instructions. -/
theorem lower_of_rearranged (h : List.Forall₂ (Rearranged ctx) nodes nodes')
    (hClear : ∀ n ∈ nodes, ∀ m, n.Within m → ¬ Ambiguous ctx m) {is : List Instruction}
    (hLower : lower ctx nodes = .ok is) : lower ctx nodes' = .ok is := by
  obtain ⟨hArms, hFits, rfl⟩ := lower_eq_ok.mp hLower
  refine lower_eq_ok.mpr ⟨?_, ?_, ?_⟩
  · intro m hm
    obtain ⟨n, hn, hnm⟩ := exists_of_forall₂ h hm
    have hAgree := hnm.agree (hFits n hn n (.refl n)).commands (hClear n hn n (.refl n))
    rw [← hAgree.arm, hArms n hn]
  · intro m hm k hk
    obtain ⟨n, hn, hnm⟩ := exists_of_forall₂ h hm
    obtain ⟨j, hj, hjk⟩ := hnm.within hk
    have hFitsIn : ∀ i, j.Within i → Fits ctx i := fun i hi => hFits n hn i (hj.trans hi)
    have hClearIn : ∀ i, j.Within i → ¬ Ambiguous ctx i := fun i hi => hClear n hn i (hj.trans hi)
    exact hjk.fits (hFitsIn j (.refl j)) (fun c hc => hFitsIn c (.child hc (.refl c)))
      (hClearIn j (.refl j)) fun c hc => hClearIn c (.child hc (.refl c))
  · refine map_eq_of_forall₂ h ?_
    intro n hn m hnm
    exact hnm.lowered_eq (hFits n hn) (hClear n hn)

theorem lower_iff_of_rearranged (h : List.Forall₂ (Rearranged ctx) nodes nodes')
    (hClear : ∀ n ∈ nodes, ∀ m, n.Within m → ¬ Ambiguous ctx m) {is : List Instruction} :
    lower ctx nodes = .ok is ↔ lower ctx nodes' = .ok is := by
  have hClear' : ∀ n ∈ nodes', ∀ m, n.Within m → ¬ Ambiguous ctx m := by
    intro n hn m hm
    obtain ⟨k, hk, hkn⟩ := exists_of_forall₂ h hn
    obtain ⟨j, hj, hjm⟩ := hkn.within hm
    rw [← hjm.ambiguous_iff]
    exact hClear k hk j hj
  have hBack : List.Forall₂ (Rearranged ctx) nodes' nodes :=
    (forall₂_imp h fun _ _ _ hnm => hnm.symm).flip
  exact ⟨lower_of_rearranged h hClear, lower_of_rearranged hBack hClear'⟩

/-- A text is compiled as any template is in which attributes change places across their groups. -/
theorem compileWith_rearranged {registry : Registry} {markup : String} {options : Options}
    {p : Program} (h : List.Forall₂ (Rearranged ⟨registry, ⟨options.file, markup⟩⟩)
      (Template.read markup options).nodes nodes')
    (hClear : ∀ n ∈ (Template.read markup options).nodes, ∀ m, n.Within m →
      ¬ Ambiguous ⟨registry, ⟨options.file, markup⟩⟩ m) :
    Program.compileWith registry markup options = .ok p ↔
      (lower ⟨registry, ⟨options.file, markup⟩⟩ nodes').map
        (Program.ofInstructions options.file) = .ok p := by
  rw [Program.compileWith_eq]
  simp only [Except.map_eq_ok, lower_iff_of_rearranged h hClear]

/-- A template in which attributes change places across their groups is compiled to the same
program, or neither is compiled. Each element does what its plain attributes say, then its bindings
of properties, its other bindings and its events, each group in its order; the condition on it is
outside of the loop over it. -/
theorem lower_rearranged (h : List.Forall₂ (Rearranged ctx) nodes nodes')
    (hClear : ∀ n ∈ nodes, ∀ m, n.Within m → ¬ Ambiguous ctx m) :
    (∀ file p, (lower ctx nodes).map (Program.ofInstructions file) = .ok p ↔
      (lower ctx nodes').map (Program.ofInstructions file) = .ok p) ∧
    ∀ is, lower ctx nodes = .ok is → ∀ n ∈ nodes, ∀ tag attributes children range,
      let m := Node.element tag attributes children range
      n.Within m → ∃ inner,
        let element := Instruction.element tag
          (Group.all.flatMap fun g => (ofGroup ctx g attributes).filterMap (operation? ctx)) inner
        compileNode ctx m =
          .ok ⟨around (conditionOf ctx m) (loopOf ctx m) element, claimOf ctx m⟩ ∧
        ∃ i ∈ is, ∃ loops,
          Instruction.Within loops i (around (conditionOf ctx m) (loopOf ctx m) element) := by
  refine ⟨?_, ?_⟩
  · intro file p
    simp only [Except.map_eq_ok, lower_iff_of_rearranged h hClear]
  · intro is hLower n hn tag attributes children range m hm
    obtain ⟨-, hFits, rfl⟩ := lower_eq_ok.mp hLower
    have hLowered := @lowered_element ctx tag attributes children range
    simp only [operations_eq] at hLowered
    refine ⟨inside (armOf ctx) (lowered ctx) (switchOf ctx m) children, ?_, ?_⟩
    · rw [compileNode_eq_ok]
      exact ⟨fun k hk => hFits n hn k (hm.trans hk), by rw [hLowered]; rfl⟩
    · obtain ⟨loops, hWithin⟩ := lowered_within (hFits n hn) hm
      rw [hLowered] at hWithin
      exact ⟨_, List.mem_map_of_mem hn, loops, hWithin⟩

/-- An entry of a list with some attributes. -/
def entry (attributes : List Template.Attribute) : Node :=
  .element "ul" [] [.element "li" attributes [.text "entry"] {}] {}

/-- Attributes with the commands between the others. -/
def scattered : List Template.Attribute :=
  [⟨"(click)", "go()", {}⟩, ⟨"class", "a", {}⟩, ⟨"*if", "open", {}⟩, ⟨"[value]", "n", {}⟩,
    ⟨"[class.b]", "c", {}⟩, ⟨"*for", "let n of ns", {}⟩, ⟨"title", "t", {}⟩]

/-- The same attributes group by group. -/
def tidy : List Template.Attribute :=
  [⟨"*for", "let n of ns", {}⟩, ⟨"*if", "open", {}⟩, ⟨"class", "a", {}⟩, ⟨"title", "t", {}⟩,
    ⟨"[value]", "n", {}⟩, ⟨"[class.b]", "c", {}⟩, ⟨"(click)", "go()", {}⟩]

theorem entry_rearranged : ∃ p,
    (lower plainContext [entry scattered]).map (Program.ofInstructions "page.html") = .ok p ∧
    (lower plainContext [entry tidy]).map (Program.ofInstructions "page.html") = .ok p := by
  have hEntry : Rearranged plainContext (entry scattered) (entry tidy) := by
    have hRegrouped : Regrouped plainContext scattered tidy :=
      ⟨by decide +kernel, fun g => by cases g <;> decide +kernel⟩
    refine .element ⟨.refl [], fun _ => rfl⟩ (.cons ?_ .nil) _ _
    exact .element hRegrouped (.cons (.text _) .nil) _ _
  have hArms : ∀ m, (entry scattered).Within m → (armsOf plainContext m).isEmpty := by
    refine Node.forall_within_iff.mpr ⟨by decide +kernel, ?_⟩
    intro c hc
    obtain rfl := List.mem_singleton.mp hc
    refine Node.forall_within_iff.mpr ⟨by decide +kernel, ?_⟩
    intro d hd
    obtain rfl := List.mem_singleton.mp hd
    exact Node.forall_within_iff.mpr ⟨by decide +kernel, nofun⟩
  have hClear : ∀ n ∈ [entry scattered], ∀ m, n.Within m → ¬ Ambiguous plainContext m := by
    intro n hn m hm hBoth
    obtain rfl := List.mem_singleton.mp hn
    have hNil := List.isEmpty_iff.mp (hArms m hm)
    rw [Ambiguous, hNil] at hBoth
    exact List.not_mem_nil hBoth.2
  obtain ⟨p, hp⟩ : ∃ p,
      (lower plainContext [entry scattered]).map (Program.ofInstructions "page.html") = .ok p :=
    Except.isSome_toOption.mp (by decide +kernel)
  exact ⟨p, hp, ((lower_rearranged (.cons hEntry .nil) hClear).1 _ p).mp hp⟩

end

end Compile

end LiveMarkup
