import LiveMarkup.Attribute.Classified
import LiveMarkup.Proofs.Markup.Printed

/-!
# The two spellings of an attribute

A binding, a command and an event can each be written with brackets or a star, and with a word and
a dash. The two spellings say the same, as long as no name begins with the mark of an expression of
either spelling, and no property with a group.

* `Spelling.written`, `Spelling.read?_written`: a name in one of the spellings of a form is read as
  what it says;
* `Directive.Bodies`, `Directive.Bodies.targetOf_eq`: what stands between the brackets and behind
  the dash names the same target;
* `Spelling.Twins`: the pairs of names that are two spellings of one attribute;
* `Classified.twins_alike`: both are refused for the same reason, or mean the same.
-/

namespace LiveMarkup

namespace Text

variable {pattern cs : List Char}

theorem after?_eq_none (h : ¬ pattern <+: cs) : after? pattern cs = none := by
  cases hAfter : after? pattern cs with
  | none => rfl
  | some rest => exact absurd ⟨rest, (after?_eq_append hAfter).symm⟩ h

end Text

namespace Spelling

/-! ## Reading the two spellings -/

/-- The mark of an expression in a spelling. -/
def mark (dashed : Bool) : List Char :=
  if dashed then exp else dollar

/-- A name that begins with no mark of an expression. -/
def Unmarked (cs : List Char) : Prop :=
  ∀ dashed, ¬ mark dashed <+: cs

/-- What is read of a name in a spelling of a form. -/
def readName (dashed : Bool) : Form → List Char → Option Spelling
  | .binding, cs => readMark (mark dashed) true dashed cs
  | .command, cs => readMark (mark dashed) false dashed cs
  | .event, cs => some ⟨cs, dashed, false⟩

/-- The character that a form begins with in the spelling with brackets or a star. -/
def opening : Form → Char
  | .binding => '['
  | .command => '*'
  | .event => '('

/-- The word that a form begins with in the spelling with a dash. -/
def word : Form → List Char
  | .binding => "bind-".toList
  | .command => "cmd-".toList
  | .event => "on-".toList

/-- A name in one of the spellings of a form. -/
def written (dashed : Bool) (form : Form) (cs : List Char) : List Char :=
  if dashed then word form ++ cs
  else
    match form with
    | .binding => '[' :: (cs ++ [']'])
    | .command => '*' :: cs
    | .event => '(' :: (cs ++ [')'])

variable {cs : List Char} {dashed : Bool} {form : Form} {s : Spelling}

theorem readName_unmarked (hMark : ¬ mark dashed <+: cs) (hNe : form = .command → cs ≠ []) :
    readName dashed form cs = some ⟨cs, dashed, false⟩ := by
  cases form with
  | binding => simp [readName, readMark, Text.after?_eq_none hMark]
  | command => simp [readName, readMark, Text.after?_eq_none hMark, hNe rfl]
  | event => rfl

theorem readName_marked (hForm : form ≠ .event) (hNe : form = .command → cs ≠ []) :
    readName dashed form (mark dashed ++ cs) = some ⟨cs, dashed, true⟩ := by
  cases form with
  | binding => simp [readName, readMark, Text.after?_append]
  | command => simp [readName, readMark, Text.after?_append, hNe rfl]
  | event => exact absurd rfl hForm

theorem between?_wrapped (first last : Char) (cs : List Char) :
    between? first last (first :: (cs ++ [last])) = some cs := by
  rw [between?, List.getLast?_concat, List.dropLast_concat]
  simp

theorem readDashed?_eq (cs : List Char) (form : Form) :
    readDashed? cs form = (Text.after? (word form) cs).bind (readName true form) := by
  cases form with
  | binding => rfl
  | command => rfl
  | event => exact Option.map_eq_bind

theorem readBracket?_written (cs : List Char) (form : Form) :
    readBracket? (written false form cs) form = readName false form cs := by
  cases form with
  | binding => exact congrArg (Option.bind · _) (between?_wrapped _ _ _)
  | command => rfl
  | event => exact congrArg (Option.map _) (between?_wrapped _ _ _)

theorem readBracket?_eq_none {c : Char} (h : c ≠ opening form) (cs : List Char) :
    readBracket? (c :: cs) form = none := by
  have hEq : (c == opening form) = false := beq_eq_false_iff_ne.mpr h
  have hEq' : (opening form == c) = false := beq_eq_false_iff_ne.mpr h.symm
  cases form with
  | binding => simp [readBracket?, between?, show (c == '[') = false from hEq]
  | command => simp [readBracket?, Text.after?, show ('*' == c) = false from hEq']
  | event => simp [readBracket?, between?, show (c == '(') = false from hEq]

theorem readDashed?_eq_none {c : Char} (h : (word form).head? ≠ some c) (cs : List Char) :
    readDashed? (c :: cs) form = none := by
  rw [readDashed?_eq, Text.after?_eq_none, Option.bind_none]
  rintro ⟨rest, hRest⟩
  refine h ?_
  rw [← List.head?_cons (a := c) (l := cs), ← hRest]
  cases form <;> rfl

theorem read?_eq_none {c : Char} (hOpening : c ≠ opening form) (hWord : (word form).head? ≠ some c)
    (cs : List Char) : read? form (String.ofList (c :: cs)) = none := by
  simp [read?, readBracket?_eq_none hOpening, readDashed?_eq_none hWord]

/-- A name in one of the spellings of a form is read as what it says. -/
theorem read?_written (hLine : '\n' ∉ cs) (h : readName dashed form cs = some s) :
    read? form (String.ofList (written dashed form cs)) = some s := by
  have hNone : '\n' ∉ written dashed form cs := by
    cases dashed <;> cases form <;> simp [written, word, hLine]
  rw [read?, String.toList_ofList]
  simp only [List.contains_iff_mem, if_neg hNone]
  cases dashed with
  | false => rw [readBracket?_written, h, Option.some_or]
  | true =>
    have hBracket : readBracket? (written true form cs) form = none := by
      cases form <;> exact readBracket?_eq_none (by decide) _
    have hAfter : Text.after? (word form) (written true form cs) = some cs :=
      Text.after?_append (word form) cs
    rw [hBracket, Option.none_or, readDashed?_eq, hAfter, Option.bind_some, h]

/-- The spellings of different forms begin differently. -/
theorem read?_written_eq_none {other : Form} (h : other ≠ form) (cs : List Char) :
    read? other (String.ofList (written dashed form cs)) = none := by
  cases dashed <;> cases form <;> cases other <;> first
    | exact absurd rfl h
    | exact read?_eq_none (by decide) (by decide) _

end Spelling

namespace Classified

/-- What an attribute of a form means. -/
def ofForm (registry : Registry) (origin : Origin) (a : Attribute) :
    Spelling.Form → Except Diagnostic Classified
  | .binding => (Directive.read a origin).map .directive
  | .command => (registry.read a origin).map .command
  | .event => readEvent a origin

/-- An attribute that is written as one of a form is classified as one. -/
theorem ofAttribute_written {registry : Registry} {origin : Origin} {a : Template.Attribute}
    {s : Spelling} (dashed : Bool) (form : Spelling.Form) {cs : List Char} (hLine : '\n' ∉ cs)
    (h : Spelling.readName dashed form cs = some s)
    (hName : a.name = String.ofList (Spelling.written dashed form cs)) :
    ofAttribute registry origin a = ofForm registry origin (s.apply a) form := by
  have hSome : Spelling.read? form a.name = some s := hName ▸ Spelling.read?_written hLine h
  have hNone : ∀ other, other ≠ form → Spelling.read? other a.name = none := fun other hOther =>
    hName ▸ Spelling.read?_written_eq_none hOther cs
  cases form with
  | binding => simp [ofAttribute, hSome, ofForm]
  | command => simp [ofAttribute, hSome, hNone .binding (by decide), ofForm]
  | event =>
    simp [ofAttribute, hSome, hNone .binding (by decide), hNone .command (by decide), ofForm]

end Classified

namespace Directive

/-! ## Targets -/

/-- What is written after a binding, between brackets and behind a dash. -/
inductive Bodies : List Char → List Char → Prop where
  | property {name : List Char} (hMark : Spelling.Unmarked name)
      (hGroup : ∀ (group : Group) (dashed : Bool),
        ¬ group.word.toList ++ [separator dashed] <+: name) : Bodies name name
  | className {name : List Char} (hDots : name ≠ ['.', '.']) (hDashes : name ≠ ['-', '-']) :
      Bodies ("class.".toList ++ name) ("class-".toList ++ name)
  | attr {name : List Char} (hDots : name ≠ ['.', '.']) (hDashes : name ≠ ['-', '-']) :
      Bodies ("attr.".toList ++ name) ("attr-".toList ++ name)
  | whole (group : Group) : Bodies (group.word.toList ++ "...".toList)
      (group.word.toList ++ "---".toList)
  | style {property : List Char} {unit : String} (hProperty : isStyleProperty property = true)
      (hUnit : unit ∈ units) :
      Bodies ("style.".toList ++ property ++ ['.'] ++ unit.toList)
        ("style-".toList ++ property ++ ['-'] ++ unit.toList)

variable {name bracketed behind : List Char} {dashed : Bool}

/-- A name that begins with no group is one of a property. -/
theorem targetAmong_eq_property
    (h : ∀ group : Group, ¬ group.word.toList ++ [separator dashed] <+: name)
    (groups : List Group) :
    targetAmong dashed name groups =
      if name.all Text.isBlank then .error "Binding names no property."
      else .ok (.property (String.ofList name)) := by
  induction groups with
  | nil => rfl
  | cons group groups ih => rw [targetAmong, Text.after?_eq_none (h group)]; exact ih

/-- A name that begins with a group is one in that group. -/
theorem targetOf_group (group : Group) (dashed : Bool) (name : List Char) :
    targetOf dashed (String.ofList (group.word.toList ++ [separator dashed] ++ name)) =
      if name == [separator dashed, separator dashed] then .ok group.whole
      else targetIn dashed name group := by
  rw [targetOf, String.toList_ofList]
  cases group <;> cases dashed <;> rfl

theorem targetOf_in_group (group : Group) (dashed : Bool)
    (h : name ≠ [separator dashed, separator dashed]) :
    targetOf dashed (String.ofList (group.word.toList ++ [separator dashed] ++ name)) =
      targetIn dashed name group := by
  rw [targetOf_group, if_neg (mt beq_iff_eq.mp h)]

/-! ## Styles -/

theorem splitUnit_dot {property : List Char} (h : '.' ∉ property) (unit : List Char) :
    splitUnit false (property ++ ['.'] ++ unit) = (property, some unit) := by
  rw [splitUnit, Text.cut_append_pattern h]
  rfl

theorem unit_spec : ∀ unit ∈ units,
    unit.toList ≠ [] ∧ '-' ∉ unit.toList ∧ isStyleUnit unit.toList = true := by
  decide

theorem splitUnit_dash {property : List Char} {unit : String} (hNe : property ≠ [])
    (hUnit : unit ∈ units) :
    splitUnit true (property ++ ['-'] ++ unit.toList) = (property, some unit.toList) := by
  have hLast : ((property ++ ['-'] ++ unit.toList).reverse.takeWhile (· != '-')).reverse =
      unit.toList := by
    have hAll : ∀ c ∈ unit.toList.reverse, (c != '-') = true := by
      intro c hc
      rw [bne_iff_ne]
      rintro rfl
      exact (unit_spec unit hUnit).2.1 (List.mem_reverse.mp hc)
    rw [List.reverse_append, List.takeWhile_append_of_pos hAll, List.reverse_append]
    simp
  have hFront : (property ++ ['-'] ++ unit.toList).take
      ((property ++ ['-'] ++ unit.toList).length - unit.toList.length - 1) = property := by
    have hLength : (property ++ ['-'] ++ unit.toList).length - unit.toList.length - 1 =
        property.length := by
      simp only [List.length_append, List.length_singleton]
      omega
    rw [hLength, List.append_assoc, List.take_left]
  rw [splitUnit, if_pos rfl]
  simp only [hLast, hFront, String.ofList_toList]
  have hLonger : unit.toList.length < (property ++ ['-'] ++ unit.toList).length := by
    simp only [List.length_append, List.length_singleton]
    omega
  rw [if_pos]
  simpa [hNe, hUnit] using hLonger

theorem isStyleProperty_spec {property : List Char} (h : isStyleProperty property = true) :
    property ≠ [] ∧ '.' ∉ property := by
  have hSplit : property.takeWhile (· == '-') ++ property.dropWhile (· == '-') = property :=
    List.takeWhile_append_dropWhile
  rw [isStyleProperty] at h
  split at h
  next => cases h
  next c rest hRest =>
    rw [hRest] at hSplit
    simp only [Bool.and_eq_true, List.all_eq_true] at h
    refine ⟨fun hNil => by simp [hNil] at hSplit, fun hDot => ?_⟩
    rw [← hSplit] at hDot
    rcases List.mem_append.mp hDot with hFront | hBehind
    · exact absurd (List.all_eq_true.mp List.all_takeWhile _ hFront) (by decide)
    · rcases List.mem_cons.mp hBehind with rfl | hBehind
      · exact absurd h.1.2 (by decide)
      · exact absurd (h.2 _ hBehind) (by decide)

theorem targetIn_style {property : List Char} {unit : String}
    (hProperty : isStyleProperty property = true) (hUnit : unit ∈ units) (dashed : Bool) :
    targetIn dashed (property ++ [separator dashed] ++ unit.toList) .style =
      .ok (.style (String.ofList property) (some unit)) := by
  obtain ⟨hNe, hDot⟩ := isStyleProperty_spec hProperty
  have hSplit : splitUnit dashed (property ++ [separator dashed] ++ unit.toList) =
      (property, some unit.toList) := by
    cases dashed with
    | false => exact splitUnit_dot hDot _
    | true => exact splitUnit_dash hNe hUnit
  rw [targetIn, hSplit]
  simp [hProperty, (unit_spec unit hUnit).2.2]

/-- Both ways of writing a binding name the same target, or are wrong in the same way. -/
theorem Bodies.targetOf_eq (h : Bodies bracketed behind) :
    targetOf false (String.ofList bracketed) = targetOf true (String.ofList behind) := by
  cases h with
  | property hMark hGroup =>
    rw [targetOf, targetOf, String.toList_ofList,
      targetAmong_eq_property fun group => hGroup group false,
      targetAmong_eq_property fun group => hGroup group true]
  | className hDots hDashes =>
    exact (targetOf_in_group .className false hDots).trans
      (targetOf_in_group .className true hDashes).symm
  | attr hDots hDashes =>
    exact (targetOf_in_group .attr false hDots).trans (targetOf_in_group .attr true hDashes).symm
  | whole group =>
    have hBracketed := targetOf_group group false ['.', '.']
    have hBehind := targetOf_group group true ['-', '-']
    rw [if_pos (by rfl)] at hBracketed hBehind
    rw [List.append_assoc] at hBracketed hBehind
    exact hBracketed.trans hBehind.symm
  | @style property unit hProperty hUnit =>
    have hLong : ∀ sep : Char, property ++ [sep] ++ unit.toList ≠ [sep, sep] := by
      intro sep hEq
      have hLength := congrArg List.length hEq
      have hFront := List.length_pos_of_ne_nil (isStyleProperty_spec hProperty).1
      have hBehind := List.length_pos_of_ne_nil (unit_spec unit hUnit).1
      simp only [List.length_append, List.length_cons, List.length_nil] at hLength
      omega
    have hTarget : ∀ dashed, targetOf dashed (String.ofList (Group.style.word.toList ++
        [separator dashed] ++ (property ++ [separator dashed] ++ unit.toList))) =
          .ok (.style (String.ofList property) (some unit)) := by
      intro dashed
      rw [targetOf_in_group _ _ (hLong _), targetIn_style hProperty hUnit]
    have hBracketed := hTarget false
    have hBehind := hTarget true
    simp only [← List.append_assoc] at hBracketed hBehind
    exact hBracketed.trans hBehind.symm

end Directive

namespace Spelling

/-! ## Twins -/

/-- The two spellings of an attribute, with brackets or a star and with a dash. -/
inductive Twins : List Char → List Char → Prop where
  | event (name : List Char) : Twins ('(' :: (name ++ [')'])) ("on-".toList ++ name)
  | command {name : List Char} (hNe : name ≠ []) (hMark : Unmarked name) :
      Twins ('*' :: name) ("cmd-".toList ++ name)
  | commandExpression {name : List Char} (hNe : name ≠ []) :
      Twins ('*' :: '$' :: name) ("cmd-exp-".toList ++ name)
  | binding {bracketed behind : List Char} (h : Directive.Bodies bracketed behind) :
      Twins ('[' :: (bracketed ++ [']'])) ("bind-".toList ++ behind)
  | bindingExpression {bracketed behind : List Char} (h : Directive.Bodies bracketed behind) :
      Twins ('[' :: '$' :: (bracketed ++ [']'])) ("bind-exp-".toList ++ behind)

theorem unmarked_group (group : Directive.Group) (rest : List Char) :
    Unmarked (group.word.toList ++ rest) := by
  rintro dashed ⟨tail, hTail⟩
  cases group <;> cases dashed <;> cases hTail

theorem unmarked_of_bodies {bracketed behind : List Char}
    (h : Directive.Bodies bracketed behind) : Unmarked bracketed ∧ Unmarked behind := by
  cases h with
  | property hMark => exact ⟨hMark, hMark⟩
  | className => exact ⟨unmarked_group .className ('.' :: _), unmarked_group .className ('-' :: _)⟩
  | attr => exact ⟨unmarked_group .attr ('.' :: _), unmarked_group .attr ('-' :: _)⟩
  | whole group => exact ⟨unmarked_group group _, unmarked_group group _⟩
  | style =>
    simp only [List.append_assoc]
    exact ⟨unmarked_group .style ('.' :: _), unmarked_group .style ('-' :: _)⟩

end Spelling

namespace Attribute

/-- Two attributes that differ in their recorded names only, and in that the first one is written
with brackets or a star and the second one with a dash. -/
structure Mirrors (a b : Attribute) : Prop where
  value : a.value = b.value
  isExpression : a.isExpression = b.isExpression
  range : a.range = b.range
  bracketed : a.dashed = false
  dashed : b.dashed = true

variable {a b : Attribute}

theorem Mirrors.source (h : a.Mirrors b) : a.source = b.source := by
  rw [Attribute.source, Attribute.source, h.value, h.isExpression]

theorem Mirrors.complain (h : a.Mirrors b) (origin : Origin) (rule : Rule) (message : String) :
    a.complain origin rule message = b.complain origin rule message := by
  rw [Attribute.complain, Attribute.complain, h.range]

end Attribute

/-- A registry of parsers of the language, each any number of times and in any order. -/
def Registry.BuiltIn (registry : Registry) : Prop :=
  ∀ parser ∈ registry.parsers, parser ∈ Registry.standard.parsers

namespace Classified

/-! ## Classification -/

/-- Two attributes mean the same: they are of one kind, do the same to their element or are the same
command, and differ in what is recorded of their spelling only. -/
inductive Same : Classified → Classified → Prop where
  | directive {d e : Directive} (hWritten : d.written.Mirrors e.written)
      (hTarget : d.target = e.target) (hOperation : d.operation = e.operation) :
      Same (.directive d) (.directive e)
  | command {c k : Command} (hWritten : c.written.Mirrors k.written) (hKind : c.kind = k.kind) :
      Same (.command c) (.command k)
  | event {a b : Attribute} (hWritten : a.Mirrors b)
      (hOperation : eventOperation a = eventOperation b) : Same (.event a) (.event b)

/-- Two attributes are refused with the same diagnostic, or both are accepted and mean the same. -/
inductive Alike : Except Diagnostic Classified → Except Diagnostic Classified → Prop where
  | refused (d : Diagnostic) : Alike (.error d) (.error d)
  | accepted {c k : Classified} (h : Same c k) : Alike (.ok c) (.ok k)

variable {registry : Registry} {a b : Attribute} {origin : Origin}

theorem readEvent_alike (h : a.Mirrors b) (hName : a.name = b.name) (origin : Origin) :
    Alike (readEvent a origin) (readEvent b origin) := by
  rw [readEvent, readEvent, hName, h.complain]
  split
  · exact .refused _
  · refine .accepted (.event h ?_)
    rw [eventOperation, eventOperation, hName, h.value]

theorem readDirective_alike (h : a.Mirrors b)
    (hTarget : Directive.targetOf false a.name = Directive.targetOf true b.name)
    (origin : Origin) :
    Alike ((Directive.read a origin).map .directive)
      ((Directive.read b origin).map .directive) := by
  rw [Directive.read, Directive.read, h.bracketed, h.dashed, hTarget]
  cases Directive.targetOf true b.name with
  | error message =>
    simp only [h.complain]
    exact .refused _
  | ok target =>
    refine .accepted (.directive h rfl ?_)
    rw [Directive.operation, Directive.operation]
    exact congrArg _ h.source

/-- Each parser of the language reads both in the same way. -/
theorem parser_alike {parser : CommandParser} (hParser : parser ∈ Registry.standard.parsers)
    (h : a.Mirrors b) (origin : Origin) :
    Alike ((parser.read a origin).map .command) ((parser.read b origin).map .command) := by
  simp only [Registry.standard, List.mem_cons, List.not_mem_nil, or_false] at hParser
  rcases hParser with rfl | rfl | rfl | rfl | rfl
  · exact .accepted (.command h (congrArg Command.Kind.condition h.source))
  · simp only [CommandParser.loop, h.isExpression, h.value]
    cases Loop.parse b.isExpression b.value with
    | ok l => exact .accepted (.command h rfl)
    | error e =>
      simp only [CommandParser.loopDiagnostic, h.complain]
      exact .refused _
  · refine .accepted (.command h ?_)
    exact congrArg (fun text => Command.Kind.arm (.case (CommandParser.caseValue text))) h.value
  · exact .accepted (.command h rfl)
  · exact .accepted (.command h (congrArg Command.Kind.switch h.source))

theorem readCommand_alike (hRegistry : registry.BuiltIn) (h : a.Mirrors b)
    (hName : a.name = b.name) (origin : Origin) :
    Alike ((registry.read a origin).map .command) ((registry.read b origin).map .command) := by
  rw [Registry.read, Registry.read, hName, h.complain]
  cases hFind : registry.find? b.name with
  | none => exact .refused _
  | some parser => exact parser_alike (hRegistry parser (List.mem_of_find?_eq_some hFind)) h origin

/-- What two spellings say differs in the name and in the dash only. -/
theorem mirrors_apply (a : Template.Attribute) (first second : String) (name name' : List Char)
    (isExpression : Bool) :
    (Spelling.apply ⟨name, false, isExpression⟩ { a with name := first }).Mirrors
      (Spelling.apply ⟨name', true, isExpression⟩ { a with name := second }) :=
  ⟨rfl, rfl, rfl, rfl, rfl⟩

/-- Two spellings of one attribute are classified alike. -/
theorem twins_alike (hRegistry : registry.BuiltIn) {first second : List Char}
    (h : Spelling.Twins first second) (hFirst : '\n' ∉ first) (hSecond : '\n' ∉ second)
    (origin : Origin) (a : Template.Attribute) :
    Alike (ofAttribute registry origin { a with name := String.ofList first })
      (ofAttribute registry origin { a with name := String.ofList second }) := by
  cases h with
  | event name =>
    have hLine : '\n' ∉ name := fun hMem => hFirst (by simp [hMem])
    rw [ofAttribute_written false .event hLine rfl rfl,
      ofAttribute_written true .event hLine rfl rfl]
    exact readEvent_alike (mirrors_apply ..) rfl origin
  | @command name hNe hMark =>
    have hLine : '\n' ∉ name := fun hMem => hFirst (by simp [hMem])
    rw [ofAttribute_written false .command hLine
        (Spelling.readName_unmarked (hMark false) fun _ => hNe) rfl,
      ofAttribute_written true .command hLine
        (Spelling.readName_unmarked (hMark true) fun _ => hNe) rfl]
    exact readCommand_alike hRegistry (mirrors_apply ..) rfl origin
  | @commandExpression name hNe =>
    have hDollar : '\n' ∉ Spelling.mark false ++ name := fun hMem =>
      hFirst (List.mem_cons_of_mem _ hMem)
    have hExp : '\n' ∉ Spelling.mark true ++ name := fun hMem =>
      hSecond (List.mem_append_right "cmd-".toList hMem)
    rw [ofAttribute_written false .command hDollar
        (Spelling.readName_marked (by decide) fun _ => hNe) rfl,
      ofAttribute_written true .command hExp
        (Spelling.readName_marked (by decide) fun _ => hNe) rfl]
    exact readCommand_alike hRegistry (mirrors_apply ..) rfl origin
  | @binding bracketed behind h =>
    obtain ⟨hBracketed, hBehind⟩ := Spelling.unmarked_of_bodies h
    have hLine : '\n' ∉ bracketed := fun hMem => hFirst (by simp [hMem])
    have hLine' : '\n' ∉ behind := fun hMem => hSecond (by simp [hMem])
    rw [ofAttribute_written false .binding hLine
        (Spelling.readName_unmarked (hBracketed false) nofun) rfl,
      ofAttribute_written true .binding hLine'
        (Spelling.readName_unmarked (hBehind true) nofun) rfl]
    exact readDirective_alike (mirrors_apply ..) h.targetOf_eq origin
  | @bindingExpression bracketed behind h =>
    have hDollar : '\n' ∉ Spelling.mark false ++ bracketed := fun hMem =>
      hFirst (List.mem_cons_of_mem _ (List.mem_append_left [']'] hMem))
    have hExp : '\n' ∉ Spelling.mark true ++ behind := fun hMem =>
      hSecond (List.mem_append_right "bind-".toList hMem)
    rw [ofAttribute_written false .binding hDollar
        (Spelling.readName_marked (by decide) nofun) rfl,
      ofAttribute_written true .binding hExp (Spelling.readName_marked (by decide) nofun) rfl]
    exact readDirective_alike (mirrors_apply ..) h.targetOf_eq origin

/-- A style with a unit whose value is code. -/
theorem twins_alike_width :
    Registry.standard.BuiltIn ∧
      Spelling.Twins "[$style.width.px]".toList "bind-exp-style-width-px".toList ∧
      '\n' ∉ "[$style.width.px]".toList ∧ '\n' ∉ "bind-exp-style-width-px".toList ∧
      Alike (ofAttribute .standard ⟨"", ""⟩ ⟨"[$style.width.px]", "w", {}⟩)
        (ofAttribute .standard ⟨"", ""⟩ ⟨"bind-exp-style-width-px", "w", {}⟩) := by
  have hRegistry : Registry.standard.BuiltIn := fun _ h => h
  have hBodies : Directive.Bodies "style.width.px".toList "style-width-px".toList :=
    @Directive.Bodies.style "width".toList "px" (by decide) (by decide)
  have hTwins : Spelling.Twins "[$style.width.px]".toList "bind-exp-style-width-px".toList :=
    .bindingExpression hBodies
  exact ⟨hRegistry, hTwins, by decide, by decide,
    twins_alike hRegistry hTwins (by decide) (by decide) ⟨"", ""⟩ ⟨"", "w", {}⟩⟩

end Classified

end LiveMarkup
