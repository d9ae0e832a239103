import LiveMarkup.Markup.Reading
import LiveMarkup.Proofs.Markup.Spans

/-!
# The places of attributes

The elements of a fragment take the start tags of the text one after the other, each the next one
of its name. An attribute is in its place, which is to say that its range in the text begins with
its name, exactly if its element has taken a start tag with an attribute of this name. Each element
takes its own start tag if there are as many of both, with the same names in the same order. The
parser of fragments does not leave all of them in order: an element that it puts in takes the start
tag of a later one, and one that it moves or doubles finds none or that of another.

* `Template.Taking`: an element of a fragment with the start tag that it takes;
* `Template.InPlace`: the range of an attribute begins with its name;
* `Template.heads_ofNodes`: the elements of a template are those of the fragment, in order;
* `Template.read_places`: which attributes of a template are in their places.
-/

namespace LiveMarkup

namespace Template

/-! ## The elements of a template -/

/-- An element without its children. -/
structure Head where
  tag : String
  attributes : List Attribute
  range : Range

mutual

/-- The elements in a node, in the order in which they begin. -/
def heads : Node → List Head
  | .element tag attributes children range => ⟨tag, attributes, range⟩ :: headsOfAll children
  | .text _ => []
  | .interpolation _ _ => []

def headsOfAll : List Node → List Head
  | [] => []
  | n :: rest => heads n ++ headsOfAll rest

end

/-- An element of a fragment with the start tag that it takes. -/
structure Taking where
  name : String
  attributes : Html.Attributes
  tag : Option StartTag

mutual

/-- What the elements in a node take of some start tags, and what they leave. -/
def takings (tags : List StartTag) : Html.Node → List Taking × List StartTag
  | .element name attributes children =>
    let (tag, tags) := StartTag.claim name.name tags
    let (inner, tags) := takingsOfAll tags children
    (⟨name.name, attributes, tag⟩ :: inner, tags)
  | .text _ => ([], tags)
  | .comment => ([], tags)

/-- What the elements in a list of nodes take, and what they leave. -/
def takingsOfAll (tags : List StartTag) : List Html.Node → List Taking × List StartTag
  | [] => ([], tags)
  | n :: rest =>
    let (first, tags) := takings tags n
    let (others, tags) := takingsOfAll tags rest
    (first ++ others, tags)

end

namespace Taking

/-- Where the start tag of an element has an attribute of a name. -/
def span? (e : Taking) (name : String) : Option AttributeSpan :=
  e.tag.bind fun t => t.attributes.find? fun a => Text.sameAscii a.name name

/-- An element of a template. -/
def head (markup : String) (options : Options) (e : Taking) : Head where
  tag := e.name
  attributes := e.attributes.map fun x => placeAttribute markup options e.tag x.1 x.2
  range := elementRange markup e.tag

end Taking

variable {markup : String} {options : Options}

theorem headsOfAll_append (xs ys : List Node) :
    headsOfAll (xs ++ ys) = headsOfAll xs ++ headsOfAll ys := by
  induction xs with
  | nil => rw [headsOfAll, List.nil_append, List.nil_append]
  | cons x xs ih => rw [List.cons_append, headsOfAll, headsOfAll, ih, List.append_assoc]

theorem headsOfAll_consText (cs : List Char) (nodes : List Node) :
    headsOfAll (Interpolation.consText cs nodes) = headsOfAll nodes := by
  unfold Interpolation.consText
  split
  · rfl
  · cases nodes with
    | nil => simp [headsOfAll, heads]
    | cons n rest => cases n <;> simp [headsOfAll, heads]

theorem headsOfAll_splitChars (cs : List Char) :
    headsOfAll (Interpolation.splitChars cs) = [] := by
  fun_induction Interpolation.splitChars cs with
  | case1 => rw [headsOfAll_consText, headsOfAll]
  | case2 cs before raw inner after h hlt code hCode ih => rw [headsOfAll_consText, ih]
  | case3 cs before raw inner after h hlt code hCode ih =>
    rw [headsOfAll_consText, headsOfAll, heads, ih, List.append_nil]

mutual

/-- The elements in what a node is read as are those in the node, with what they take. -/
theorem heads_ofNode (tags : List StartTag) : ∀ node : Html.Node,
    headsOfAll (ofNode markup options tags node).1 =
        (takings tags node).1.map (Taking.head markup options) ∧
      (ofNode markup options tags node).2 = (takings tags node).2
  | .element name attributes children => by
    obtain ⟨hInner, hLeft⟩ := heads_ofNodes (StartTag.claim name.name tags).2 children
    simp only [ofNode, takings, headsOfAll, heads, List.append_nil, List.map_cons, hInner]
    exact ⟨rfl, hLeft⟩
  | .text chars => by
    rw [ofNode, takings]
    split
    · exact ⟨rfl, rfl⟩
    · exact ⟨headsOfAll_splitChars chars, rfl⟩
  | .comment => ⟨rfl, rfl⟩

/-- `heads_ofNode` for a list of nodes. -/
theorem heads_ofNodes (tags : List StartTag) : ∀ nodes : List Html.Node,
    headsOfAll (ofNodes markup options tags nodes).1 =
        (takingsOfAll tags nodes).1.map (Taking.head markup options) ∧
      (ofNodes markup options tags nodes).2 = (takingsOfAll tags nodes).2
  | [] => ⟨rfl, rfl⟩
  | node :: rest => by
    obtain ⟨hFirst, hLeft⟩ := heads_ofNode tags node
    obtain ⟨hRest, hLast⟩ := heads_ofNodes (takings tags node).2 rest
    simp only [ofNodes, takingsOfAll, headsOfAll_append, hLeft, hFirst, hRest, hLast,
      List.map_append, and_self]

end

/-! ## Which start tags are taken -/

theorem claim_sublist (name : String) (tags : List StartTag) :
    (∀ t, (StartTag.claim name tags).1 = some t → t ∈ tags) ∧
      (StartTag.claim name tags).2 ⊆ tags := by
  rw [StartTag.claim]
  have hDrop := List.dropWhile_sublist (l := tags) fun t => t.tag != name
  split
  · exact ⟨nofun, List.Subset.refl tags⟩
  · rename_i t later hLater
    rw [hLater] at hDrop
    refine ⟨?_, List.Subset.trans (List.subset_cons_self t later) hDrop.subset⟩
    intro u hu
    obtain rfl := Option.some.inj hu
    exact hDrop.subset List.mem_cons_self

mutual

/-- Elements take some of the start tags that there are. -/
theorem takings_subset (tags : List StartTag) : ∀ node : Html.Node,
    (∀ e ∈ (takings tags node).1, ∀ t, e.tag = some t → t ∈ tags) ∧ (takings tags node).2 ⊆ tags
  | .element name attributes children => by
    obtain ⟨hOwn, hLeft⟩ := claim_sublist name.name tags
    obtain ⟨hInner, hLast⟩ := takingsOfAll_subset (StartTag.claim name.name tags).2 children
    refine ⟨?_, List.Subset.trans hLast hLeft⟩
    intro e he t ht
    rcases List.mem_cons.mp he with rfl | he
    · exact hOwn t ht
    · exact hLeft (hInner e he t ht)
  | .text _ => ⟨nofun, List.Subset.refl tags⟩
  | .comment => ⟨nofun, List.Subset.refl tags⟩

/-- `takings_subset` for a list of nodes. -/
theorem takingsOfAll_subset (tags : List StartTag) : ∀ nodes : List Html.Node,
    (∀ e ∈ (takingsOfAll tags nodes).1, ∀ t, e.tag = some t → t ∈ tags) ∧
      (takingsOfAll tags nodes).2 ⊆ tags
  | [] => ⟨nofun, List.Subset.refl tags⟩
  | node :: rest => by
    obtain ⟨hFirst, hLeft⟩ := takings_subset tags node
    obtain ⟨hRest, hLast⟩ := takingsOfAll_subset (takings tags node).2 rest
    refine ⟨?_, List.Subset.trans hLast hLeft⟩
    intro e he t ht
    rcases List.mem_append.mp he with he | he
    · exact hFirst e he t ht
    · exact hLeft (hRest e he t ht)

end

mutual

/-- Elements with the names of the next start tags take these. -/
theorem takings_aligned : ∀ (node : Html.Node) {front rest : List StartTag},
    (takings (front ++ rest) node).1.map Taking.name = front.map StartTag.tag →
      (takings (front ++ rest) node).1.map Taking.tag = front.map some ∧
        (takings (front ++ rest) node).2 = rest
  | .element name attributes children, [], rest, h => by cases h
  | .element name attributes children, t :: front, rest, h => by
    have hName : name.name = t.tag := (List.cons.inj h).1
    have hClaim : StartTag.claim name.name (t :: front ++ rest) = (some t, front ++ rest) := by
      simp [StartTag.claim, hName]
    simp only [takings, hClaim, List.map_cons, List.cons.injEq] at h ⊢
    obtain ⟨hInner, hLeft⟩ := takingsOfAll_aligned children h.2
    exact ⟨⟨trivial, hInner⟩, hLeft⟩
  | .text _, [], rest, _ => ⟨rfl, rfl⟩
  | .text _, t :: front, rest, h => by cases h
  | .comment, [], rest, _ => ⟨rfl, rfl⟩
  | .comment, t :: front, rest, h => by cases h

/-- `takings_aligned` for a list of nodes. -/
theorem takingsOfAll_aligned : ∀ (nodes : List Html.Node) {front rest : List StartTag},
    (takingsOfAll (front ++ rest) nodes).1.map Taking.name = front.map StartTag.tag →
      (takingsOfAll (front ++ rest) nodes).1.map Taking.tag = front.map some ∧
        (takingsOfAll (front ++ rest) nodes).2 = rest
  | [], [], rest, _ => ⟨rfl, rfl⟩
  | [], t :: front, rest, h => by cases h
  | node :: nodes, front, rest, h => by
    simp only [takingsOfAll, List.map_append] at h ⊢
    obtain ⟨own, later, rfl, hOwn, hLater⟩ := List.map_eq_append_iff.mp h.symm
    rw [List.append_assoc] at hOwn hLater ⊢
    obtain ⟨hFirst, hLeft⟩ := takings_aligned node hOwn.symm
    rw [hLeft] at hLater ⊢
    obtain ⟨hOthers, hLast⟩ := takingsOfAll_aligned nodes hLater.symm
    rw [hFirst, hOthers, List.map_append]
    exact ⟨rfl, hLast⟩

end

/-! ## Attributes in their places -/

/-- The range of an attribute in a text begins with its name. -/
def InPlace (markup : String) (a : Attribute) : Prop :=
  ∃ text, Source.slice? markup a.range.start a.range.stop = some text ∧
    a.name.toList <+: text.toList

/-- A name that is not empty and does not begin like a tag. -/
def isUsual (name : String) : Bool :=
  name.toList.head?.any (· != '<')

theorem toLower_eq_lt {c : Char} : c.toLower = '<' ↔ c = '<' := by
  unfold Char.toLower
  split
  · rename_i h
    constructor
    · intro hc
      have hVal := congrArg UInt32.toNat (congrArg Char.val hc)
      obtain ⟨hLow, hHigh⟩ := h
      rw [ge_iff_le, UInt32.le_iff_toNat_le] at hLow
      rw [UInt32.le_iff_toNat_le] at hHigh
      simp at hVal hLow hHigh
      omega
    · rintro rfl
      simp at h
  · rfl

theorem isUsual_congr {s t : String} (h : Text.sameAscii s t = true) : isUsual s = isUsual t := by
  have hLower : ∀ name : String, isUsual name =
      (name.toList.map Char.toLower).head?.any (· != '<') := by
    intro name
    rw [isUsual, List.head?_map]
    cases name.toList.head? with
    | none => rfl
    | some c =>
      rw [Option.map_some, Option.any_some, Option.any_some, Bool.eq_iff_iff]
      simp [toLower_eq_lt]
  have hSame : s.toList.map Char.toLower = t.toList.map Char.toLower :=
    String.ofList_injective (beq_iff_eq.mp h)
  rw [hLower, hLower, hSame]

section

variable {e : Taking} {x : String × String}

/-- An attribute that the start tag of its element has is in its place there, with the capital
letters that it has there. -/
theorem inPlace_of_span? (hCase : options.restoreCase = true)
    (hScan : ∀ t, e.tag = some t → t ∈ StartTag.scan markup) {s : AttributeSpan}
    (hSpan : e.span? x.1 = some s) :
    placeAttribute markup options e.tag x.1 x.2 = ⟨s.name, x.2, rangeIn markup s.start s.stop⟩ ∧
      InPlace markup (placeAttribute markup options e.tag x.1 x.2) := by
  have hPlace : placeAttribute markup options e.tag x.1 x.2 =
      ⟨s.name, x.2, rangeIn markup s.start s.stop⟩ := by
    rw [Taking.span?] at hSpan
    rw [placeAttribute, hSpan, hCase]
    rfl
  obtain ⟨t, ht, hFind⟩ := Option.bind_eq_some_iff.mp hSpan
  obtain ⟨-, hBegins⟩ := StartTag.begins_of_scan (hScan t ht)
  obtain ⟨more, hSlice⟩ := (hBegins s (List.mem_of_find?_eq_some hFind)).slice?
  refine ⟨hPlace, ?_⟩
  rw [hPlace]
  exact ⟨_, hSlice, by simp⟩

/-- An attribute that the start tag of its element does not have is in no place of its own. -/
theorem not_inPlace_of_span? (hScan : ∀ t, e.tag = some t → t ∈ StartTag.scan markup)
    (hSpan : e.span? x.1 = none) :
    placeAttribute markup options e.tag x.1 x.2 = ⟨x.1, x.2, elementRange markup e.tag⟩ ∧
      (isUsual x.1 = true → ¬ InPlace markup (placeAttribute markup options e.tag x.1 x.2)) := by
  have hPlace : placeAttribute markup options e.tag x.1 x.2 =
      ⟨x.1, x.2, elementRange markup e.tag⟩ := by
    rw [Taking.span?] at hSpan
    rw [placeAttribute, hSpan]
  refine ⟨hPlace, ?_⟩
  rw [hPlace]
  rintro hUsual ⟨text, hSlice, hPrefix⟩
  obtain ⟨c, hc, hNot⟩ := (Option.any_eq_true _ _).mp hUsual
  obtain ⟨rest, hName⟩ := List.head?_eq_some_iff.mp hc
  -- The range is that of an element: empty at the start, or from the `<` of a start tag on.
  have hText : text = "" ∨ ∃ more, text = String.ofList ('<' :: more) := by
    cases hTag : e.tag with
    | none =>
      rw [hTag] at hSlice
      have hEmpty := (Source.Stands.refl markup.toList).slice? []
      exact .inl (Option.some.inj (hSlice.symm.trans hEmpty))
    | some t =>
      rw [hTag] at hSlice
      obtain ⟨more, hMore⟩ := (StartTag.begins_of_scan (hScan t hTag)).1.slice?
      exact .inr ⟨more, Option.some.inj (hSlice.symm.trans hMore)⟩
  obtain ⟨after, hPrefix⟩ := hPrefix
  rcases hText with rfl | ⟨more, rfl⟩
  · rw [hName] at hPrefix
    cases hPrefix
  · rw [hName, String.toList_ofList] at hPrefix
    obtain ⟨rfl, -⟩ := List.cons.inj hPrefix
    cases hNot

end

theorem isUsual_placeAttribute (markup : String) (options : Options) (e : Taking)
    (x : String × String) :
    isUsual (placeAttribute markup options e.tag x.1 x.2).name = isUsual x.1 := by
  rw [placeAttribute]
  split
  · rename_i s hSpan
    obtain ⟨t, -, hFind⟩ := Option.bind_eq_some_iff.mp hSpan
    have hSame := List.find?_some hFind
    cases options.restoreCase
    · rfl
    · exact isUsual_congr hSame
  · rfl

/-- The elements of a template are those of the fragment, each in the place of the start tag that
it takes; these are their own if both have the same names in the same order. An attribute that the
start tag of its element has is in its place there; another one has the range of its element and is
in no place, unless its name is empty or begins like a tag. So all other attributes are in their
places exactly if the start tags that the elements take have them. -/
theorem read_places (markup : String) (options : Options) (hCase : options.restoreCase = true) :
    let tags := StartTag.scan markup
    let elements := (takingsOfAll tags (Html.fragment markup)).1
    let result := headsOfAll (read markup options).nodes
    result = elements.map (Taking.head markup options) ∧
    (elements.map Taking.name = tags.map StartTag.tag → elements.map Taking.tag = tags.map some) ∧
    (∀ e ∈ elements, ∀ x ∈ e.attributes,
      let a := placeAttribute markup options e.tag x.1 x.2
      (∀ s, e.span? x.1 = some s →
        a = ⟨s.name, x.2, rangeIn markup s.start s.stop⟩ ∧ InPlace markup a) ∧
      (e.span? x.1 = none →
        a = ⟨x.1, x.2, elementRange markup e.tag⟩ ∧ (isUsual x.1 = true → ¬ InPlace markup a))) ∧
    ((∀ m ∈ result, ∀ a ∈ m.attributes, isUsual a.name = true → InPlace markup a) ↔
      ∀ e ∈ elements, ∀ x ∈ e.attributes, isUsual x.1 = true → ∃ s, e.span? x.1 = some s) := by
  intro tags elements result
  have hResult : result = elements.map (Taking.head markup options) :=
    (heads_ofNodes tags (Html.fragment markup)).1
  obtain ⟨hScan, -⟩ := takingsOfAll_subset tags (Html.fragment markup)
  refine ⟨hResult, ?_, ?_, ?_⟩
  · intro hNames
    have hAligned : (takingsOfAll (tags ++ []) (Html.fragment markup)).1.map Taking.name =
        tags.map StartTag.tag := by rwa [List.append_nil]
    have hTags := (takingsOfAll_aligned (Html.fragment markup) hAligned).1
    rwa [List.append_nil] at hTags
  · intro e he x _
    exact ⟨fun s hSpan => inPlace_of_span? hCase (hScan e he) hSpan,
      fun hSpan => not_inPlace_of_span? (hScan e he) hSpan⟩
  · constructor
    · intro hAll e he x hx hUsual
      cases hSpan : e.span? x.1 with
      | some s => exact ⟨s, rfl⟩
      | none =>
        have hMem : e.head markup options ∈ result := hResult ▸ List.mem_map_of_mem he
        have hPlaced := hAll _ hMem _ (List.mem_map_of_mem hx)
        rw [isUsual_placeAttribute] at hPlaced
        exact absurd (hPlaced hUsual) ((not_inPlace_of_span? (hScan e he) hSpan).2 hUsual)
    · intro hAll m hm a ha hUsual
      rw [hResult] at hm
      obtain ⟨e, he, rfl⟩ := List.mem_map.mp hm
      obtain ⟨x, hx, rfl⟩ := List.mem_map.mp ha
      rw [isUsual_placeAttribute] at hUsual
      obtain ⟨s, hSpan⟩ := hAll e he x hx hUsual
      exact (inPlace_of_span? hCase (hScan e he) hSpan).2

/-- An element with one attribute. -/
def greeting : String :=
  "<p Title=\"hello\">hi</p>"

theorem greeting_placed :
    ∃ m ∈ headsOfAll (read greeting {}).nodes, ∃ a ∈ m.attributes, InPlace greeting a := by
  obtain ⟨hResult, -, hAttributes, -⟩ := read_places greeting {} rfl
  have hTitle : (takingsOfAll (StartTag.scan greeting) (Html.fragment greeting)).1.any fun e =>
      e.attributes.any fun x => (e.span? x.1).isSome := by
    decide +kernel
  obtain ⟨e, he, hTitle⟩ := List.any_eq_true.mp hTitle
  obtain ⟨x, hx, hTitle⟩ := List.any_eq_true.mp hTitle
  obtain ⟨s, hSpan⟩ := Option.isSome_iff_exists.mp hTitle
  refine ⟨e.head greeting {}, hResult ▸ List.mem_map_of_mem he, _, List.mem_map_of_mem hx, ?_⟩
  exact ((hAttributes e he x hx).1 s hSpan).2

/-- A row in a table without a body, and a table with one. -/
def twoTables : String :=
  "<table><tr Aa=\"1\"></tr></table><table><tbody></tbody></table>"

/-- The body that is put into the first table takes the start tag of the other, and the row none. -/
theorem twoTables_misplaced :
    ∃ m ∈ headsOfAll (read twoTables {}).nodes, ∃ a ∈ m.attributes, ¬ InPlace twoTables a := by
  have hRow : (headsOfAll (read twoTables {}).nodes).any fun m =>
      m.attributes.contains ⟨"aa", "1", {}⟩ := by
    decide +kernel
  obtain ⟨m, hm, hRow⟩ := List.any_eq_true.mp hRow
  refine ⟨m, hm, _, List.contains_iff_mem.mp hRow, ?_⟩
  rintro ⟨text, hSlice, hPrefix⟩
  have hEmpty := (Source.Stands.refl twoTables.toList).slice? []
  obtain rfl : text = "" := Option.some.inj (hSlice.symm.trans hEmpty)
  exact absurd (List.prefix_nil.mp hPrefix) (by decide)

end Template

end LiveMarkup
