import LiveMarkup.Proofs.Program.Gathered
import Mathlib.Data.List.Perm.Basic

/-!
# What becomes of the commands of a template

The commands of an element ask for a role: a condition and a loop around it, a switch among its
children, and a place as an arm in the switch around it. In a program each element has a role,
which can be read off it. An element that is both a case and a default has a place only as the
first of them; all else that the commands ask for is there, and nothing besides.

* `Compile.Role`: what commands make of an element;
* `Instruction.roles`, `Compile.askedRoles`: the roles in a program and those that are asked for;
* `Compile.roles_lowered`: the roles in a program are those that are granted;
* `Compile.lower_realises`: when they are those that are asked for.
-/

namespace LiveMarkup

namespace Compile

/-- What commands make of an element: the element and those around it, the innermost first, each
with its tag and what is done to it; the conditions and the loops directly around the element; the
switches among its children; and the arms that it is of the switch around it. -/
structure Role where
  path : List (String × List Operation)
  conditions : List ValueSource
  loops : List Loop
  switches : List ValueSource
  arms : List Arm

/-- A role with the first arm only. -/
def Role.granted (r : Role) : Role :=
  { r with arms := r.arms.take 1 }

end Compile

open Compile (Role)

namespace Instruction

/-- The value of a switch. -/
def switched? : Instruction → Option ValueSource
  | switch value _ _ => some value
  | _ => none

mutual

/-- The roles of the elements in an instruction. It stands in some elements as some arms of a
switch, directly inside of some conditions and loops. -/
def roles (path : List (String × List Operation)) (arms : List Arm)
    (conditions : List ValueSource) (loops : List Loop) : Instruction → List Role
  | element tag operations children =>
    ⟨(tag, operations) :: path, conditions, loops, children.filterMap switched?, arms⟩ ::
      rolesOfAll ((tag, operations) :: path) children
  | text _ => []
  | dynamicText _ => []
  | conditional condition body => body.roles path arms (conditions ++ [condition]) loops
  | forLoop loop body => body.roles path arms conditions (loops ++ [loop])
  | switch _ cases default => rolesOfCases path cases ++ rolesOfDefault path default

/-- The roles of the elements in a list of instructions. -/
def rolesOfAll (path : List (String × List Operation)) : List Instruction → List Role
  | [] => []
  | i :: rest => i.roles path [] [] [] ++ rolesOfAll path rest

/-- The roles of the elements in the cases of a switch. -/
def rolesOfCases (path : List (String × List Operation)) :
    List (Value × Instruction) → List Role
  | [] => []
  | (value, body) :: rest => body.roles path [.case value] [] [] ++ rolesOfCases path rest

/-- The roles of the elements in the default of a switch. -/
def rolesOfDefault (path : List (String × List Operation)) : Option Instruction → List Role
  | none => []
  | some body => body.roles path [.default] [] []

end

variable {path : List (String × List Operation)}

theorem rolesOfAll_eq (is : List Instruction) :
    rolesOfAll path is = is.flatMap (roles path [] [] []) := by
  induction is with
  | nil => rfl
  | cons i rest ih => rw [rolesOfAll, ih, List.flatMap_cons]

theorem rolesOfCases_eq (cases : List (Value × Instruction)) :
    rolesOfCases path cases = cases.flatMap fun x => x.2.roles path [.case x.1] [] [] := by
  induction cases with
  | nil => rfl
  | cons x rest ih => rw [rolesOfCases, ih, List.flatMap_cons]

theorem rolesOfDefault_eq (default : Option Instruction) :
    rolesOfDefault path default = default.toList.flatMap (roles path [.default] [] []) := by
  cases default <;> simp [rolesOfDefault]

theorem roles_around (condition : Option ValueSource) (loop : Option Loop) (arms : List Arm)
    (inner : Instruction) : (Compile.around condition loop inner).roles path arms [] [] =
      inner.roles path arms condition.toList loop.toList := by
  cases condition <;> cases loop <;> simp [Compile.around, roles]

end Instruction

namespace Compile

open Template (Node)

variable {ctx : Context} {path : List (String × List Operation)}

/-! ## The roles that a template asks for -/

section

variable (ctx : Context)

/-- The role that a node asks for, with each of its commands. -/
def asked (path : List (String × List Operation)) (n : Node) : Role where
  path := path
  conditions := (sortedOf ctx n).commands.filterMap Command.condition?
  loops := (sortedOf ctx n).commands.filterMap Command.loop?
  switches := (sortedOf ctx n).commands.filterMap Command.switched?
  arms := armsOf ctx n

mutual

/-- The roles that the elements in a node ask for. -/
def askedRoles (path : List (String × List Operation)) : Node → List Role
  | .element tag attributes children range =>
    let n := Node.element tag attributes children range
    let path := (tag, (sortedOf ctx n).operations) :: path
    asked ctx path n :: askedRolesOfAll path children
  | .text _ => []
  | .interpolation _ _ => []

/-- The roles that the elements in a list of nodes ask for. -/
def askedRolesOfAll (path : List (String × List Operation)) : List Node → List Role
  | [] => []
  | n :: rest => askedRoles path n ++ askedRolesOfAll path rest

end

end

theorem askedRolesOfAll_eq (nodes : List Node) :
    askedRolesOfAll ctx path nodes = nodes.flatMap (askedRoles ctx path) := by
  induction nodes with
  | nil => rw [askedRolesOfAll, List.flatMap_nil]
  | cons n rest ih => rw [askedRolesOfAll, ih, List.flatMap_cons]

/-! ## The children of a switch -/

section

variable {α : Type} {arm : α → Option Arm} {body : α → Instruction}

theorem flatMap_filter_eq {β : Type} (p : α → Bool) (f : α → List β) (l : List α) :
    (l.filter p).flatMap f = l.flatMap fun a => if p a then f a else [] := by
  induction l with
  | nil => rfl
  | cons a l ih => cases hp : p a <;> simp [hp, ih]

theorem roles_cases (children : List α) :
    Instruction.rolesOfCases path (casesAmong arm body children) =
      children.flatMap fun c => ((arm c).bind Arm.value?).toList.flatMap fun v =>
        (body c).roles path [.case v] [] [] := by
  rw [Instruction.rolesOfCases_eq]
  induction children with
  | nil => rfl
  | cons c rest ih =>
    rw [casesAmong_cons, List.flatMap_append, ih, List.flatMap_cons]
    cases (arm c).bind Arm.value? <;> rfl

theorem roles_default {children : List α} (hOne : (children.filter (isDefault arm)).length ≤ 1) :
    Instruction.rolesOfDefault path (defaultAmong arm body children) =
      children.flatMap fun c =>
        if isDefault arm c then (body c).roles path [.default] [] [] else [] := by
  rw [Instruction.rolesOfDefault_eq, defaultAmong, ← List.head?_filter, ← flatMap_filter_eq]
  conv_rhs => rw [eq_toList_of_length_le hOne]
  cases (children.filter (isDefault arm)).head? <;> simp

/-- What is in the children of an element is what is in each of them as the arm that it is. -/
theorem rolesOfAll_inside {switched : Option ValueSource} {children : List α}
    (hPlaced : Placed arm switched children) :
    (Instruction.rolesOfAll path (inside arm body switched children)).Perm
      (children.flatMap fun c => (body c).roles path (arm c).toList [] []) := by
  cases switched with
  | none =>
    have hEq : Instruction.rolesOfAll path (inside arm body none children) =
        children.flatMap fun c => (body c).roles path (arm c).toList [] [] := by
      rw [Instruction.rolesOfAll_eq, inside, Option.elim_none, List.flatMap_map]
      apply List.flatMap_congr
      intro c hc
      rw [hPlaced.arms rfl c hc]
      rfl
    rw [hEq]
  | some value =>
    obtain ⟨before, after, hGather, hOrder, -⟩ := gather_eq arm body value children
    -- The children that are no arms, the cases and the default are looked at apart.
    have hBeside : (before.map body ++ after.map body).flatMap (Instruction.roles path [] [] []) =
        children.flatMap fun c =>
          if (arm c).isNone then (body c).roles path [] [] [] else [] := by
      rw [← List.map_append, hOrder, List.flatMap_map, flatMap_filter_eq]
    have hSplit : (fun c => (body c).roles path (arm c).toList [] []) = fun c =>
        (if (arm c).isNone then (body c).roles path [] [] [] else []) ++
          ((((arm c).bind Arm.value?).toList.flatMap fun v =>
              (body c).roles path [.case v] [] []) ++
            if isDefault arm c then (body c).roles path [.default] [] [] else []) := by
      funext c
      cases hArm : arm c with
      | none => simp [isDefault, hArm]
      | some a => cases a <;> simp [isDefault, hArm, Arm.value?, Arm.isDefault]
    have hInside : Instruction.rolesOfAll path (inside arm body (some value) children) =
        (before.map body).flatMap (Instruction.roles path [] [] []) ++
          ((Instruction.rolesOfCases path (casesAmong arm body children) ++
              Instruction.rolesOfDefault path (defaultAmong arm body children)) ++
            (after.map body).flatMap (Instruction.roles path [] [] [])) := by
      rw [Instruction.rolesOfAll_eq, inside, Option.elim_some, hGather, List.flatMap_append,
        List.flatMap_cons, Instruction.roles]
    rw [hInside, hSplit]
    refine (List.perm_append_comm.append_left _).trans ?_
    rw [← List.append_assoc, ← List.flatMap_append, hBeside, roles_cases,
      roles_default hPlaced.default]
    exact ((List.flatMap_append_perm _ _ _).append_left _).trans (List.flatMap_append_perm _ _ _)

end

/-! ## The roles in a program -/

theorem switched?_lowered (n : Node) : (lowered ctx n).switched? = none := by
  cases h : lowered ctx n with
  | switch value cases default => exact absurd h (lowered_ne_switch n value cases default)
  | element => rfl
  | text => rfl
  | dynamicText => rfl
  | conditional => rfl
  | forLoop => rfl

/-- Among the children of an element is a switch if it switches on a value. -/
theorem switches_inside (switched : Option ValueSource) (children : List Node) :
    (inside (armOf ctx) (lowered ctx) switched children).filterMap Instruction.switched? =
      switched.toList := by
  have hNone : ∀ nodes : List Node,
      (nodes.map (lowered ctx)).filterMap Instruction.switched? = [] := by
    intro nodes
    rw [List.filterMap_map, List.filterMap_eq_nil_iff]
    intro n _
    exact switched?_lowered n
  cases switched with
  | none => exact hNone children
  | some value =>
    obtain ⟨before, after, hGather, -, -⟩ := gather_eq (armOf ctx) (lowered ctx) value children
    rw [inside, Option.elim_some, hGather, List.filterMap_append, List.filterMap_cons, hNone, hNone]
    rfl

/-- An element asks for one condition, one loop and one switch at most, and for its arms. -/
theorem asked_eq {n : Node} (hFits : Fits ctx n) : asked ctx path n =
    ⟨path, (conditionOf ctx n).toList, (loopOf ctx n).toList, (switchOf ctx n).toList,
      armsOf ctx n⟩ := by
  rw [asked, Command.filterMap_eq_toList Command.name_of_condition? hFits.commands,
    Command.filterMap_eq_toList Command.name_of_loop? hFits.commands,
    Command.filterMap_eq_toList Command.name_of_switched? hFits.commands]
  rfl

/-- The role of an element is the one that it asks for, but for a second arm. -/
theorem asked_granted {n : Node} (hFits : Fits ctx n) : (asked ctx path n).granted =
    ⟨path, (conditionOf ctx n).toList, (loopOf ctx n).toList, (switchOf ctx n).toList,
      (armOf ctx n).toList⟩ := by
  rw [asked_eq hFits, Role.granted, armOf_eq, armsOf, List.take_one, List.head?_filterMap]

/-- The roles in what a node is compiled to are those that are granted to the elements in it. -/
theorem roles_lowered (n : Node) : ∀ (path : List (String × List Operation)),
    (∀ m, n.Within m → Fits ctx m) →
      ((lowered ctx n).roles path (armOf ctx n).toList [] []).Perm
        ((askedRoles ctx path n).map Role.granted) := by
  induction n using Node.children_induction with
  | step n ih =>
    intro path hFits
    obtain ⟨hn, hChildren⟩ := Node.forall_within_iff.mp hFits
    cases n with
    | text => exact List.Perm.nil
    | interpolation => exact List.Perm.nil
    | element tag attributes children range =>
      rw [lowered_element, Instruction.roles_around, Instruction.roles, askedRoles,
        switches_inside, List.map_cons, asked_granted hn, askedRolesOfAll_eq, List.map_flatMap]
      refine List.Perm.cons _ ((rolesOfAll_inside hn.children).trans ?_)
      refine List.Perm.flatMap_left _ ?_
      intro c hc
      exact ih c hc _ (hChildren c hc)

/-! ## What is granted and what is asked for -/

/-- All roles are granted in full if none has a second arm. -/
theorem granted_perm_iff {roles : List Role} :
    (roles.map Role.granted).Perm roles ↔ ∀ r ∈ roles, r.arms.length ≤ 1 := by
  constructor
  · intro h r hr
    obtain ⟨asked, -, rfl⟩ := List.mem_map.mp (h.mem_iff.mpr hr)
    exact List.length_take_le 1 asked.arms
  · intro h
    have hEq : roles.map Role.granted = roles := by
      conv_rhs => rw [← List.map_id roles]
      apply List.map_congr_left
      intro r hr
      rw [Role.granted, List.take_of_length_le (h r hr)]
      rfl
    rw [hEq]

/-- The roles that are asked for in a node are those of the elements in it. -/
theorem mem_askedRoles {n : Node} {r : Role} : ∀ {path : List (String × List Operation)},
    r ∈ askedRoles ctx path n → ∃ inner m, n.Within m ∧ r = asked ctx inner m := by
  induction n using Node.children_induction with
  | step n ih =>
    intro path hr
    cases n with
    | text => cases hr
    | interpolation => cases hr
    | element tag attributes children range =>
      rw [askedRoles, askedRolesOfAll_eq] at hr
      rcases List.mem_cons.mp hr with rfl | hr
      · exact ⟨_, _, .refl _, rfl⟩
      · obtain ⟨c, hc, hr⟩ := List.mem_flatMap.mp hr
        obtain ⟨inner, m, hm, rfl⟩ := ih c hc hr
        exact ⟨inner, m, .child hc hm, rfl⟩

/-- Each node that is an arm asks for a role. -/
theorem asked_mem {n m : Node} (h : n.Within m) (hArms : armsOf ctx m ≠ []) :
    ∀ (path : List (String × List Operation)),
      ∃ inner, asked ctx inner m ∈ askedRoles ctx path n := by
  induction h with
  | refl n =>
    intro path
    cases n with
    | text => exact absurd rfl hArms
    | interpolation => exact absurd rfl hArms
    | element tag attributes children range =>
      rw [askedRoles]
      exact ⟨_, List.mem_cons_self⟩
  | @child n c m hChild h ih =>
    intro path
    cases n with
    | text => cases hChild
    | interpolation => cases hChild
    | element tag attributes children range =>
      rw [askedRoles, askedRolesOfAll_eq]
      obtain ⟨inner, hInner⟩ := ih hArms
        ((tag, (sortedOf ctx (.element tag attributes children range)).operations) :: path)
      exact ⟨inner, List.mem_cons_of_mem _ (List.mem_flatMap.mpr ⟨c, hChild, hInner⟩)⟩

/-- The roles of nodes that fit, none of them an arm, are those that they ask for as far as they are
granted. -/
theorem rolesOfAll_lowered {nodes : List Node} (hArms : ∀ n ∈ nodes, armOf ctx n = none)
    (hFits : ∀ n ∈ nodes, ∀ m, n.Within m → Fits ctx m) :
    (Instruction.rolesOfAll [] (nodes.map (lowered ctx))).Perm
      ((askedRolesOfAll ctx [] nodes).map Role.granted) := by
  rw [Instruction.rolesOfAll_eq, List.flatMap_map, askedRolesOfAll_eq, List.map_flatMap]
  refine List.Perm.flatMap_left _ ?_
  intro n hn
  have hPerm := roles_lowered n [] (hFits n hn)
  rwa [hArms n hn] at hPerm

/-- A compiled text has the roles that its elements ask for as far as they are granted. -/
theorem compileWith_roles {registry : Registry} {markup : String} {options : Options}
    {p : Program} (h : Program.compileWith registry markup options = .ok p) :
    (Instruction.rolesOfAll [] p.instructions).Perm
      ((askedRolesOfAll ⟨registry, ⟨options.file, markup⟩⟩ []
        (Template.read markup options).nodes).map Role.granted) := by
  obtain ⟨hArms, hFits, rfl⟩ := Program.compileWith_eq_ok_iff.mp h
  exact rolesOfAll_lowered hArms hFits

/-- In a compiled template each element has the conditions, the loops and the switch that its
commands ask for, one of each kind at most, and a place in the switch around it for the first arm
among them. These are all that is asked for exactly if no element is both a case and a default. -/
theorem lower_realises {nodes : List Node} {is : List Instruction} (h : lower ctx nodes = .ok is) :
    (Instruction.rolesOfAll [] is).Perm ((askedRolesOfAll ctx [] nodes).map Role.granted) ∧
    ((Instruction.rolesOfAll [] is).Perm (askedRolesOfAll ctx [] nodes) ↔
      ∀ n ∈ nodes, ∀ m, n.Within m → ¬ Ambiguous ctx m) ∧
    ∀ r ∈ askedRolesOfAll ctx [] nodes,
      r.conditions.length ≤ 1 ∧ r.loops.length ≤ 1 ∧ r.switches.length ≤ 1 := by
  obtain ⟨hArms, hFits, rfl⟩ := lower_eq_ok.mp h
  have hGranted := rolesOfAll_lowered hArms hFits
  have hMem : ∀ r ∈ askedRolesOfAll ctx [] nodes, ∃ path n m, n ∈ nodes ∧ n.Within m ∧
      r = asked ctx path m := by
    intro r hr
    rw [askedRolesOfAll_eq] at hr
    obtain ⟨n, hn, hr⟩ := List.mem_flatMap.mp hr
    obtain ⟨path, m, hm, rfl⟩ := mem_askedRoles hr
    exact ⟨path, n, m, hn, hm, rfl⟩
  refine ⟨hGranted, ?_, ?_⟩
  · rw [hGranted.congr_left, granted_perm_iff]
    constructor
    · intro hOne n hn m hm hBoth
      have hMore := (ambiguous_iff (hFits n hn m hm).commands).mp hBoth
      have hSome : armsOf ctx m ≠ [] := by
        intro hNil
        simp [hNil] at hMore
      obtain ⟨path, hAsked⟩ := asked_mem hm hSome []
      have := hOne _ (by rw [askedRolesOfAll_eq]; exact List.mem_flatMap.mpr ⟨n, hn, hAsked⟩)
      exact absurd hMore (Nat.not_lt.mpr this)
    · intro hNone r hr
      obtain ⟨path, n, m, hn, hm, rfl⟩ := hMem r hr
      have hNot := hNone n hn m hm
      rw [ambiguous_iff (hFits n hn m hm).commands] at hNot
      exact Nat.not_lt.mp hNot
  · intro r hr
    obtain ⟨path, n, m, hn, hm, rfl⟩ := hMem r hr
    rw [asked_eq (hFits n hn m hm)]
    exact ⟨Option.length_toList_le, Option.length_toList_le, Option.length_toList_le⟩

theorem modes_realised : ∃ is, lower plainContext [modes] = .ok is ∧
    (Instruction.rolesOfAll [] is).Perm (askedRolesOfAll plainContext [] [modes]) := by
  obtain ⟨is, h⟩ : ∃ is, lower plainContext [modes] = .ok is :=
    Except.isSome_toOption.mp (by decide +kernel)
  have hOne : ∀ r ∈ askedRolesOfAll plainContext [] [modes], r.arms.length ≤ 1 := by
    have hAll : (askedRolesOfAll plainContext [] [modes]).all fun r => r.arms.length ≤ 1 := by
      decide +kernel
    simpa using hAll
  exact ⟨is, h, (lower_realises h).1.trans (granted_perm_iff.mpr hOne)⟩

/-- A switch with an element that is a case and a default, and another default. -/
def twoDefaults : String :=
  "<div *switch=\"m\"><p *switch-case=\"1\" *switch-default>A</p><p *switch-default>B</p></div>"

/-- The one element is compiled to a case only, and the switch has the other for its default. -/
theorem twoDefaults_dropped : ∃ p, Program.compile twoDefaults {} = .ok p ∧
    ¬ (Instruction.rolesOfAll [] p.instructions).Perm
      (askedRolesOfAll ⟨.standard, ⟨Options.file {}, twoDefaults⟩⟩ []
        (Template.read twoDefaults {}).nodes) := by
  have hOne : (Program.compile twoDefaults {}).toOption.any fun p =>
      (Instruction.rolesOfAll [] p.instructions).all fun r => r.arms.length ≤ 1 := by
    decide +kernel
  have hTwo : (askedRolesOfAll ⟨.standard, ⟨Options.file {}, twoDefaults⟩⟩ []
      (Template.read twoDefaults {}).nodes).any fun r => r.arms.length = 2 := by
    decide +kernel
  obtain ⟨p, hp, hOne⟩ := (Option.any_eq_true _ _).mp hOne
  obtain ⟨r, hr, hTwo⟩ := List.any_eq_true.mp hTwo
  refine ⟨p, Except.toOption_eq_some.mp hp, ?_⟩
  intro h
  have hLe := List.all_eq_true.mp hOne r (h.mem_iff.mpr hr)
  simp only [decide_eq_true_eq] at hLe hTwo
  omega

end Compile

end LiveMarkup
