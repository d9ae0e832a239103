import LiveMarkup.Proofs.Dom.Declarations
import LiveMarkup.Proofs.Json.Floats
import LiveMarkup.Proofs.Live.Projecting

/-!
# Runs of maps

A projector that writes a map to the attributes or to the style of an element writes only what has
changed since its last map. What an attribute or a property is in the end is told by the maps alone,
and is the same as if all of the last map had been written anew.

* `Slots`: places with names that texts are assigned to, like the attributes of an element;
* `Slots.read_writeMap`, `Slots.read_rewriteMap`: what is read after a map was written;
* `Reflected`: what is read after several maps;
* `Projecting.maps_reflected`: what a run leaves in the attributes or in the style of an element.
-/

namespace LiveMarkup

namespace Fields

variable {α : Type} {name : String} {fields : List (String × α)}

theorem get?_filter (hNodup : (fields.map (·.1)).Nodup) (p : String × α → Bool) :
    get? name (fields.filter p) = (get? name fields).filter fun v => p (name, v) := by
  induction fields with
  | nil => rfl
  | cons x fields ih =>
    obtain ⟨hNew, hRest⟩ := List.nodup_cons.mp hNodup
    by_cases hName : name = x.1
    · subst hName
      have hNone : get? x.1 (fields.filter p) = none := by
        rw [ih hRest, get?_eq_none_iff.mpr hNew, Option.filter_none]
      rw [get?, beq_self_eq_true, if_pos rfl, Option.filter_some]
      by_cases hp : p x = true
      · rw [List.filter_cons_of_pos hp, get?, beq_self_eq_true, if_pos rfl, if_pos hp]
      · rw [List.filter_cons_of_neg hp, hNone, if_neg hp]
    · have hOther : (name == x.1) = false := beq_eq_false_iff_ne.mpr hName
      by_cases hp : p x = true
      · rw [List.filter_cons_of_pos hp, get?, get?, hOther, ih hRest]
        rfl
      · rw [List.filter_cons_of_neg hp, get?, hOther, ih hRest]
        rfl

end Fields

namespace Live

/-! ## Slots -/

/-- Places of a tree that have names, each of which holds a text or nothing. What is assigned to one
of them is read from it, and no other one changes, as long as the tree fits. -/
structure Slots where
  read : Dom → String → Option String
  assign : Dom → String → Option String → Dom
  Fits : Dom → Prop
  Takes : String → Option String → Prop
  fits_assign : ∀ {d name text}, Fits d → Takes name text → Fits (assign d name text)
  read_assign : ∀ {d name text}, Fits d → Takes name text → ∀ other,
    read (assign d name text) other = if name = other then text else read d other
  takes_none : ∀ {name text}, Takes name text → Takes name none

namespace Slots

/-- The attributes of an element. -/
def attributes (n : NodeId) : Slots where
  read d := d.attribute? n
  assign d name text :=
    match text with
    | some text => d.setAttribute n name text
    | none => d.removeAttribute n name
  Fits d := (d.label n).isElement = true
  Takes _ _ := True
  fits_assign {_ _ text} h _ := by
    cases text with
    | none => rwa [Dom.isElement_removeAttribute]
    | some text => rwa [Dom.isElement_setAttribute]
  read_assign {_ _ text} h _ other := by
    cases text with
    | none => exact Dom.attribute?_removeAttribute h _ other
    | some text => exact Dom.attribute?_setAttribute h _ text other
  takes_none _ := trivial

/-- The style properties of an element that declares none of them twice. -/
def styles (n : NodeId) : Slots where
  read d := d.style? n
  assign d := d.setStyle n
  Fits d := (d.label n).isElement = true ∧ ((d.styles n).map (·.1)).Nodup
  Takes name text := Style.IsName name ∧ ∀ value ∈ text, Style.IsText value
  fits_assign := by
    rintro d name text ⟨hElement, hNodup⟩ ⟨hName, hText⟩
    refine ⟨?_, ?_⟩
    · rwa [Dom.Label.isElement, Dom.tag?_setStyle]
    · rw [Dom.styles_setStyle hElement hName hText]
      exact Style.nodup_set hNodup name text
  read_assign := by
    rintro d name text ⟨hElement, hNodup⟩ ⟨hName, hText⟩ other
    rw [Dom.style?, Dom.styles_setStyle hElement hName hText]
    exact Style.get?_set hNodup name text other
  takes_none h := ⟨h.1, fun _ hNone => nomatch hNone⟩

/-! ### Several texts at once -/

variable (S : Slots) {α : Type} {text : α → Option String} {d : Dom}

/-- Takes away the texts of several slots. -/
def eraseAll (names : List String) (d : Dom) : Dom :=
  names.foldl (fun d name => S.assign d name none) d

/-- Assigns the texts of the entries of a map. -/
def assignAll (text : α → Option String) (entries : List (String × α)) (d : Dom) : Dom :=
  entries.foldl (fun d x => S.assign d x.1 (text x.2)) d

theorem read_eraseAll (names : List String) (hTakes : ∀ name ∈ names, S.Takes name none)
    (h : S.Fits d) :
    S.Fits (S.eraseAll names d) ∧
      ∀ name, S.read (S.eraseAll names d) name = if name ∈ names then none else S.read d name := by
  induction names generalizing d with
  | nil => exact ⟨h, fun _ => rfl⟩
  | cons first names ih =>
    have hFirst := hTakes first List.mem_cons_self
    obtain ⟨hFits, hRead⟩ := ih (fun name hName => hTakes name (List.mem_cons_of_mem _ hName))
      (S.fits_assign h hFirst)
    refine ⟨hFits, fun name => (hRead name).trans ?_⟩
    rw [S.read_assign h hFirst]
    by_cases hName : name = first
    · simp [hName]
    · simp [hName, Ne.symm hName]

theorem read_assignAll (text : α → Option String) {entries : List (String × α)}
    (hNodup : (entries.map (·.1)).Nodup) (hTakes : ∀ x ∈ entries, S.Takes x.1 (text x.2))
    (h : S.Fits d) :
    S.Fits (S.assignAll text entries d) ∧
      ∀ name, S.read (S.assignAll text entries d) name =
        (Fields.get? name entries).elim (S.read d name) text := by
  induction entries generalizing d with
  | nil => exact ⟨h, fun _ => rfl⟩
  | cons x entries ih =>
    obtain ⟨hNew, hRest⟩ := List.nodup_cons.mp hNodup
    have hFirst := hTakes x List.mem_cons_self
    obtain ⟨hFits, hRead⟩ := ih hRest (fun y hy => hTakes y (List.mem_cons_of_mem _ hy))
      (S.fits_assign h hFirst)
    refine ⟨hFits, fun name => (hRead name).trans ?_⟩
    rw [S.read_assign h hFirst, Fields.get?]
    by_cases hName : name = x.1
    · rw [hName, Fields.get?_eq_none_iff.mpr hNew, beq_self_eq_true]
      simp
    · simp [hName, Ne.symm hName]

/-! ### Maps -/

variable {applied next : List (String × α)}

/-- Writes what a map has changed. -/
def writeMap [BEq α] (text : α → Option String) (applied next : List (String × α)) (d : Dom) :
    Dom :=
  Aspect.writeMap (fun d name => S.assign d name none) (fun d name v => S.assign d name (text v))
    applied next d

/-- Takes away all of the map that was written before, and writes all of the next one. -/
def rewriteMap (text : α → Option String) (applied next : List (String × α)) (d : Dom) : Dom :=
  S.assignAll text next (S.eraseAll (applied.map (·.1)) d)

/-- A map that can be written: no name stands in it twice, and the slots take its texts. -/
structure Writable (text : α → Option String) (m : List (String × α)) : Prop where
  nodup : (m.map (·.1)).Nodup
  takes : ∀ x ∈ m, S.Takes x.1 (text x.2)

variable {S}

theorem Writable.takes_none (h : S.Writable text applied) :
    ∀ name ∈ applied.map (·.1), S.Takes name none := by
  intro name hName
  obtain ⟨x, hx, rfl⟩ := List.mem_map.mp hName
  exact S.takes_none (h.takes x hx)

/-- What is read after the changes were written: an entry that is equal to the one before is not
written again. -/
theorem read_writeMap [BEq α] (hApplied : S.Writable text applied) (hNext : S.Writable text next)
    (h : S.Fits d) :
    S.Fits (S.writeMap text applied next d) ∧
      ∀ name, S.read (S.writeMap text applied next d) name =
        match Fields.get? name next with
        | some v => if (Fields.get? name applied).any (· == v) then S.read d name else text v
        | none => if name ∈ applied.map (·.1) then none else S.read d name := by
  have hSublist : (Aspect.changed applied next).Sublist next := List.filter_sublist
  obtain ⟨hErased, hReadErased⟩ := S.read_eraseAll (Aspect.gone applied next)
    (fun name hName => hApplied.takes_none name (Aspect.mem_gone.mp hName).1) h
  obtain ⟨hFits, hRead⟩ := S.read_assignAll text
    (hNext.nodup.sublist (hSublist.map _)) (fun x hx => hNext.takes x (hSublist.subset hx)) hErased
  refine ⟨hFits, fun name => (hRead name).trans ?_⟩
  rw [hReadErased, Aspect.changed, Fields.get?_filter hNext.nodup]
  cases hName : Fields.get? name next with
  | some v =>
    -- what the next map has is not taken away before
    have hThere : name ∈ next.map (·.1) := List.mem_map_of_mem (Fields.mem_of_get? hName)
    rw [Option.filter_some, if_neg fun hGone => (Aspect.mem_gone.mp hGone).2 hThere]
    by_cases hSame : (Fields.get? name applied).any (· == v) = true <;> simp [hSame]
  | none =>
    have hGone : name ∈ Aspect.gone applied next ↔ name ∈ applied.map (·.1) := by
      rw [Aspect.mem_gone, and_iff_left (Fields.get?_eq_none_iff.mp hName)]
    simp only [Option.filter_none, Option.elim_none, hGone]

/-- What is read after all of a map was written. -/
theorem read_rewriteMap (hApplied : S.Writable text applied) (hNext : S.Writable text next)
    (h : S.Fits d) (name : String) :
    S.read (S.rewriteMap text applied next d) name =
      match Fields.get? name next with
      | some v => text v
      | none => if name ∈ applied.map (·.1) then none else S.read d name := by
  obtain ⟨hErased, hReadErased⟩ := S.read_eraseAll _ hApplied.takes_none h
  obtain ⟨-, hRead⟩ := S.read_assignAll text hNext.nodup hNext.takes hErased
  rw [rewriteMap, hRead, hReadErased]
  cases Fields.get? name next <;> rfl

end Slots

/-! ## Sequences of maps -/

section Sequences

variable {α : Type} {S : Slots} {text : α → Option String} {Alike : α → α → Prop} {d : Dom}
variable {maps : List (List (String × α))} {next : List (String × α)}
variable {initial : String → Option String}

/-- The last of some maps; before the first one there was nothing. -/
def lastMap (maps : List (List (String × α))) : List (String × α) :=
  maps.getLast?.getD []

@[simp] theorem lastMap_append_singleton (maps : List (List (String × α)))
    (next : List (String × α)) : lastMap (maps ++ [next]) = next := by
  rw [lastMap, List.getLast?_concat]
  rfl

theorem lastMap_eq_nil_or_mem (maps : List (List (String × α))) :
    lastMap maps = [] ∨ lastMap maps ∈ maps := by
  rw [lastMap]
  cases hLast : maps.getLast? with
  | none => exact .inl rfl
  | some m => exact .inr (List.mem_of_getLast? hLast)

/-- What is read after several maps were written. A name of the last map has the text of its entry
there, or of one that was written for it before and is alike. A name of earlier maps alone has
nothing, and a name of no map has what it had in the beginning. -/
structure Reflected (Alike : α → α → Prop) (text : α → Option String)
    (initial read : String → Option String) (maps : List (List (String × α))) : Prop where
  last : ∀ name v, Fields.get? name (lastMap maps) = some v →
    ∃ m ∈ maps, ∃ w, Fields.get? name m = some w ∧ Alike w v ∧ read name = text w
  gone : ∀ name ∉ (lastMap maps).map (·.1), (∃ m ∈ maps, name ∈ m.map (·.1)) → read name = none
  rest : ∀ name, (∀ m ∈ maps, name ∉ m.map (·.1)) → read name = initial name

/-- Entries that are equal are alike, and so are those that are alike to one. -/
structure Lenient [BEq α] (Alike : α → α → Prop) : Prop where
  refl : ∀ v, Alike v v
  trans : ∀ {u v w}, Alike u v → Alike v w → Alike u w
  of_beq : ∀ {v w : α}, (v == w) = true → Alike v w

theorem writable_lastMap (h : ∀ m ∈ maps, S.Writable text m) : S.Writable text (lastMap maps) := by
  rcases lastMap_eq_nil_or_mem maps with hNil | hMem
  · rw [hNil]
    exact ⟨List.nodup_nil, fun _ hNone => absurd hNone List.not_mem_nil⟩
  · exact h _ hMem

/-- Writing the changes of one more map. -/
theorem Reflected.write [BEq α] (hAlike : Lenient Alike) (hMaps : ∀ m ∈ maps, S.Writable text m)
    (hNext : S.Writable text next) (hFits : S.Fits d)
    (h : Reflected Alike text initial (S.read d) maps) :
    Reflected Alike text initial (S.read (S.writeMap text (lastMap maps) next d))
      (maps ++ [next]) := by
  obtain ⟨-, hRead⟩ := Slots.read_writeMap (writable_lastMap hMaps) hNext hFits
  have hMem : next ∈ maps ++ [next] := List.mem_append_right _ List.mem_cons_self
  refine ⟨fun name v hName => ?_, fun name hName hEarlier => ?_, fun name hName => ?_⟩
  · rw [lastMap_append_singleton] at hName
    rw [hRead, hName]
    dsimp only
    split
    -- an entry that is not written again has the text of an entry that is alike
    next hSame =>
      obtain ⟨old, hOld, hEq⟩ := (Option.any_eq_true _ _).mp hSame
      obtain ⟨m, hm, w, hw, hLike, hText⟩ := h.last name old hOld
      exact ⟨m, List.mem_append_left _ hm, w, hw, hAlike.trans hLike (hAlike.of_beq hEq), hText⟩
    next => exact ⟨next, hMem, v, hName, hAlike.refl v, rfl⟩
  · rw [lastMap_append_singleton] at hName
    obtain ⟨m, hm, hThere⟩ := hEarlier
    have hBefore : ∃ m ∈ maps, name ∈ m.map (·.1) := by
      rcases List.mem_append.mp hm with hm | hm
      · exact ⟨m, hm, hThere⟩
      · obtain rfl := List.mem_singleton.mp hm
        exact absurd hThere hName
    rw [hRead, Fields.get?_eq_none_iff.mpr hName]
    dsimp only
    split
    next => rfl
    next hNot => exact h.gone name hNot hBefore
  · have hBefore : ∀ m ∈ maps, name ∉ m.map (·.1) := fun m hm => hName m (List.mem_append_left _ hm)
    have hLast : name ∉ (lastMap maps).map (·.1) := by
      rcases lastMap_eq_nil_or_mem maps with hNil | hMem
      · rw [hNil]
        exact List.not_mem_nil
      · exact hBefore _ hMem
    rw [hRead, Fields.get?_eq_none_iff.mpr (hName next hMem)]
    dsimp only
    rw [if_neg hLast, h.rest name hBefore]

/-- Two trees are read alike: the same, or as texts of entries that are alike. -/
def ReadAlike (Alike : α → α → Prop) (text : α → Option String)
    (read read' : String → Option String) : Prop :=
  ∀ name, read name = read' name ∨ ∃ v w, Alike v w ∧ read name = text v ∧ read' name = text w

/-- Writing the changes reads like writing all anew. -/
theorem Reflected.rewrite [BEq α] (hAlike : Lenient Alike) (hMaps : ∀ m ∈ maps, S.Writable text m)
    (hNext : S.Writable text next) (hFits : S.Fits d)
    (h : Reflected Alike text initial (S.read d) maps) :
    ReadAlike Alike text (S.read (S.writeMap text (lastMap maps) next d))
      (S.read (S.rewriteMap text (lastMap maps) next d)) := by
  intro name
  have hLast := writable_lastMap hMaps
  obtain ⟨-, hRead⟩ := Slots.read_writeMap hLast hNext hFits
  have hAnew := Slots.read_rewriteMap hLast hNext hFits name
  cases hName : Fields.get? name next with
  | none =>
    rw [hRead, hAnew, hName]
    exact .inl rfl
  | some v =>
    obtain ⟨-, -, w, -, hLike, hText⟩ :=
      (h.write hAlike hMaps hNext hFits).last name v (by rw [lastMap_append_singleton, hName])
    rw [hName] at hAnew
    exact .inr ⟨w, v, hLike, hText, hAnew⟩

end Sequences

/-! ## Runs -/

/-- An aspect of a node that maps are written to. -/
structure MapAspect (n : NodeId) (α : Type) [BEq α] where
  slots : Slots
  text : α → Option String
  Alike : α → α → Prop
  lenient : Lenient Alike
  Own : String → Prop
  aspect : List (String × α) → Aspect
  entries : Value → List (String × α)
  tree : ∀ applied name, aspect applied ≠ .property name
  write : ∀ applied d v, (aspect applied).write d n v =
    (slots.writeMap text applied (entries v) d, aspect (entries v))
  aside : ∀ {d d' : Dom}, (d'.label n).tag? = (d.label n).tag? →
    (∀ name, Own name → d'.attribute? n name = d.attribute? n name) →
      slots.read d' = slots.read d ∧ (slots.Fits d → slots.Fits d')

/-- The entries of an object; any other value has none. -/
def entriesOf (v : Value) : List (String × Value) :=
  v.fields?.getD []

/-- An object whose entries can be declared as style, none of them twice. -/
structure Declarable (v : Value) : Prop where
  nodup : ((Aspect.styleTexts v).map (·.1)).Nodup
  entries : ∀ x ∈ Aspect.styleTexts v, Style.IsName x.1 ∧ ∀ text ∈ x.2, Style.IsText text

namespace MapAspect

/-- The attributes of an element. Values that differ by signs of zeros are not told apart. -/
def attributes (n : NodeId) : MapAspect n Value where
  slots := .attributes n
  text := Value.attributeText?
  Alike w v := w.unsigned = v.unsigned
  lenient := ⟨fun _ => rfl, Eq.trans, Value.unsigned_eq_of_same⟩
  Own _ := True
  aspect := .attributeMap
  entries := entriesOf
  tree _ _ h := nomatch h
  write _ _ _ := rfl
  aside {d d'} hTag hOwn := by
    refine ⟨funext fun name => hOwn name trivial, fun h => ?_⟩
    change (d'.label n).isElement = true
    rw [Dom.Label.isElement, hTag]
    exact h

/-- The style of an element. -/
def styles (n : NodeId) : MapAspect n (Option String) where
  slots := .styles n
  text := id
  Alike := Eq
  lenient := ⟨Eq.refl, Eq.trans, beq_iff_eq.mp⟩
  Own := (· = "style")
  aspect := .styleMap
  entries := Aspect.styleTexts
  tree _ _ h := nomatch h
  write _ _ _ := rfl
  aside {d d'} hTag hOwn := by
    have hStyles : d'.styles n = d.styles n := by
      rw [Dom.styles, hOwn "style" rfl, Dom.styles]
    refine ⟨funext fun name => ?_, fun h => ?_⟩
    · change d'.style? n name = d.style? n name
      rw [Dom.style?, hStyles, Dom.style?]
    · refine ⟨?_, hStyles ▸ h.2⟩
      rw [Dom.Label.isElement, hTag]
      exact h.1

variable {α : Type} [BEq α]

/-- Between its values a map is reflected by its slots, and its last value is remembered. -/
structure Mapped (A : MapAspect n α) (initial : String → Option String) (vs : List Value) (d : Dom)
    (a : Aspect) : Prop where
  aspect : a = A.aspect (lastMap (vs.map A.entries))
  reflects : (∀ m ∈ vs.map A.entries, A.slots.Writable A.text m) →
    A.slots.Fits d ∧ Reflected A.Alike A.text initial (A.slots.read d) (vs.map A.entries)

namespace Mapped

variable {A : MapAspect n α} {initial : String → Option String} {vs : List Value} {d d' : Dom}
variable {a : Aspect}

theorem start (h : A.slots.Fits d) : Mapped A (A.slots.read d) [] d (A.aspect []) where
  aspect := rfl
  reflects _ := ⟨h, fun _ _ hNone => (nomatch hNone), fun _ _ ⟨_, hNone, _⟩ => (nomatch hNone),
    fun _ _ => rfl⟩

theorem given (h : Mapped A initial vs d a) (v : Value) :
    Mapped A initial (vs ++ [v]) (a.write d n v).1 (a.write d n v).2 := by
  obtain ⟨rfl, hReflects⟩ := h
  refine ⟨?_, fun hMaps => ?_⟩
  · rw [A.write, List.map_append, List.map_singleton, lastMap_append_singleton]
  · rw [List.map_append, List.map_singleton] at hMaps ⊢
    have hBefore : ∀ m ∈ vs.map A.entries, A.slots.Writable A.text m := fun m hm =>
      hMaps m (List.mem_append_left _ hm)
    have hNext := hMaps (A.entries v) (List.mem_append_right _ List.mem_cons_self)
    obtain ⟨hFits, hReflected⟩ := hReflects hBefore
    rw [A.write]
    exact ⟨(Slots.read_writeMap (writable_lastMap hBefore) hNext hFits).1,
      hReflected.write A.lenient hBefore hNext hFits⟩

theorem aside (h : Mapped A initial vs d a) (hTag : (d'.label n).tag? = (d.label n).tag?)
    (hOwn : ∀ name, A.Own name → d'.attribute? n name = d.attribute? n name) :
    Mapped A initial vs d' a where
  aspect := h.aspect
  reflects hMaps := by
    obtain ⟨hRead, hStays⟩ := A.aside hTag hOwn
    obtain ⟨hFits, hReflected⟩ := h.reflects hMaps
    exact ⟨hStays hFits, hRead ▸ hReflected⟩

end Mapped

variable {κ σ : Type} {client : Client κ σ} {l l₀ : Live κ σ} {p : ProjectorId} {vs : List Value}

/-- After a run the slots reflect the maps; and one more map is reflected as if all of it were
written. -/
theorem reflected (A : MapAspect n α)
    (hStart : l₀.projectors[p]? = some { node := n, aspect := A.aspect [] })
    (hFits : A.slots.Fits l₀.dom) (h : Projecting client p n A.Own l₀ vs l)
    (hMaps : ∀ m ∈ vs.map A.entries, A.slots.Writable A.text m) :
    Reflected A.Alike A.text (A.slots.read l₀.dom) (A.slots.read l.dom) (vs.map A.entries) ∧
      ∀ depth v, A.slots.Writable A.text (A.entries v) →
        ReadAlike A.Alike A.text
          (A.slots.read (((Calls.upTo client (depth + 1)).receive (.projector p) v).run l).2.dom)
          (A.slots.read
            (A.slots.rewriteMap A.text (lastMap (vs.map A.entries)) (A.entries v) l.dom)) := by
  obtain ⟨a, hThere, hMapped⟩ := h.holds (Mapped A (A.slots.read l₀.dom))
    (fun _ _ _ hMapped name hEq => A.tree _ name (hMapped.aspect.symm.trans hEq))
    (fun _ _ _ v hMapped => hMapped.given v)
    (fun _ _ _ _ hMapped hTag hOwn => hMapped.aside hTag hOwn) hStart (.start hFits)
  obtain ⟨hFits', hReflected⟩ := hMapped.reflects hMaps
  obtain rfl := hMapped.aspect
  refine ⟨hReflected, fun depth v hNext => ?_⟩
  rw [(receive_projector depth v (A.tree _) hThere).1, A.write]
  exact hReflected.rewrite A.lenient hMaps hNext hFits'

end MapAspect

/-- A run of a map that is written to the attributes of an element, or to the style of an element
that declares no property twice. After it every name of the last map has what that map prescribes,
every name of earlier maps alone has nothing, and every other name has what it had in the beginning.
To write one more map leaves what it would leave to take away the map before and to write all of the
next one.

Values of attributes that differ by signs of zeros are not told apart. Names and texts of styles can
be declared, and no object has a name twice. -/
theorem Projecting.maps_reflected {κ σ : Type} (client : Client κ σ) (p : ProjectorId)
    (n : NodeId) :
    (∀ (l₀ l : Live κ σ) (vs : List Value), (l₀.dom.label n).isElement = true →
      l₀.projectors[p]? = some { node := n, aspect := .ofTarget .attributeMap } →
      Projecting client p n (fun _ => True) l₀ vs l →
      (∀ v ∈ vs, ((entriesOf v).map (·.1)).Nodup) →
      Reflected (fun w v => w.unsigned = v.unsigned) Value.attributeText? (l₀.dom.attribute? n)
        (l.dom.attribute? n) (vs.map entriesOf) ∧
      ∀ depth v, ((entriesOf v).map (·.1)).Nodup →
        ReadAlike (fun w v => w.unsigned = v.unsigned) Value.attributeText?
          ((((Calls.upTo client (depth + 1)).receive (.projector p) v).run l).2.dom.attribute? n)
          (((Slots.attributes n).rewriteMap Value.attributeText? (lastMap (vs.map entriesOf))
            (entriesOf v) l.dom).attribute? n)) ∧
    ∀ (l₀ l : Live κ σ) (vs : List Value), (l₀.dom.label n).isElement = true →
      ((l₀.dom.styles n).map (·.1)).Nodup →
      l₀.projectors[p]? = some { node := n, aspect := .ofTarget .styleMap } →
      Projecting client p n (· = "style") l₀ vs l → (∀ v ∈ vs, Declarable v) →
      Reflected Eq id (l₀.dom.style? n) (l.dom.style? n) (vs.map Aspect.styleTexts) ∧
      ∀ depth v, Declarable v →
        (((Calls.upTo client (depth + 1)).receive (.projector p) v).run l).2.dom.style? n =
          ((Slots.styles n).rewriteMap id (lastMap (vs.map Aspect.styleTexts))
            (Aspect.styleTexts v) l.dom).style? n := by
  constructor
  · intro l₀ l vs hElement hStart hRun hNodup
    have hWritable {v : Value} (hv : ((entriesOf v).map (·.1)).Nodup) :
        (Slots.attributes n).Writable Value.attributeText? (entriesOf v) :=
      ⟨hv, fun _ _ => trivial⟩
    obtain ⟨hReflected, hAnew⟩ := (MapAspect.attributes n).reflected hStart hElement hRun
      (List.forall_mem_map.mpr fun v hv => hWritable (hNodup v hv))
    exact ⟨hReflected, fun depth v hv => hAnew depth v (hWritable hv)⟩
  · intro l₀ l vs hElement hNodup hStart hRun hDeclarable
    have hWritable {v : Value} (hv : Declarable v) :
        (Slots.styles n).Writable id (Aspect.styleTexts v) :=
      ⟨hv.nodup, hv.entries⟩
    obtain ⟨hReflected, hAnew⟩ := (MapAspect.styles n).reflected hStart ⟨hElement, hNodup⟩ hRun
      (List.forall_mem_map.mpr fun v hv => hWritable (hDeclarable v hv))
    refine ⟨hReflected, fun depth v hv => funext fun name => ?_⟩
    rcases hAnew depth v (hWritable hv) name with hSame | ⟨w, u, rfl, hText, hText'⟩
    · exact hSame
    · exact hText.trans hText'.symm

/-- The body of a document is given two maps: what only the first one had is gone, and what no map
had is still there. -/
theorem boundBody_maps_reflected :
    let vs : List Value :=
      [.object [("a", .string "1"), ("b", .null)], .object [("b", .string "2")]]
    let attributed := boundBody .attributeMap "title" "t"
    let styled := boundBody .styleMap "style" "c: 3"
    Reflected (fun w v => w.unsigned = v.unsigned) Value.attributeText?
      (attributed.dom.attribute? 2) ((passAll Client.still 0 attributed vs).dom.attribute? 2)
      (vs.map entriesOf) ∧
    Reflected Eq id (styled.dom.style? 2) ((passAll Client.still 0 styled vs).dom.style? 2)
      (vs.map Aspect.styleTexts) := by
  intro vs attributed styled
  have hNodup : ∀ v ∈ vs, ((entriesOf v).map (·.1)).Nodup := by
    simp only [vs, List.forall_mem_cons]
    decide
  have hDeclarable : ∀ v ∈ vs, Declarable v := by
    simp only [vs, List.forall_mem_cons]
    refine ⟨⟨by decide, by decide⟩, ⟨by decide, by decide⟩, by simp⟩
  obtain ⟨hAttributes, hStyles⟩ := Projecting.maps_reflected (σ := Unit) Client.still 0 2
  exact ⟨(hAttributes attributed _ vs rfl rfl (projecting_passAll ..) hNodup).1,
    (hStyles styled _ vs rfl (by decide +kernel) rfl (projecting_passAll ..) hDeclarable).1⟩

end Live

end LiveMarkup
