import LiveMarkup.Html.Foreign
import LiveMarkup.Html.Misnesting

/-!
# The insertion modes

What a token does to a fragment under construction, mode by mode. A mode either deals with a token
or changes the state and hands the token on.

* `Rules.dispatch` applies the rules of the mode, or those of foreign markup;
* `Builder.feed` goes on until a token is dealt with.
-/

namespace LiveMarkup.Html

/-- What comes of a token: it is dealt with, or it goes to the rules that now apply. -/
inductive Outcome where
  | done (builder : Builder)
  | again (builder : Builder)

namespace Rules

open Outcome
open ElementName

/-- Whether a text has a character that is not blank. -/
def hasInk (chars : List Char) : Bool :=
  !chars.all Token.isSpace

/-- Hands a token on to a mode. -/
def retry (b : Builder) (mode : Mode) : Outcome :=
  again (b.enter mode)

/-- Opens a template. -/
def openTemplate (b : Builder) (tag : Tag) : Builder :=
  let b := (b.openTag tag).pushMarker
  { b with mode := .template, templateModes := .template :: b.templateModes }

/-- Closes everything up to a template. -/
def leaveTemplate (b : Builder) : Builder :=
  let b := (b.popThroughNamed "template").clearFormatting
  { b with templateModes := b.templateModes.tail }.resetMode

/-- Closes the innermost template, if there is one. -/
def endTemplate (b : Builder) : Builder :=
  if b.hasOpen "template" then leaveTemplate (b.popWhile mayEndInTemplate) else b

/-- The start tags that work alike almost everywhere. -/
def everywhere (b : Builder) (tag : Tag) : Option Builder :=
  match tag.name with
  | "base" | "basefont" | "bgsound" | "link" | "meta" => some (b.addVoid tag)
  | "title" => some (b.openText tag (.withReferences "title"))
  | "noframes" | "style" => some (b.openText tag (.raw tag.name))
  | "script" => some (b.openText tag .script)
  | "template" => some (openTemplate b tag)
  | _ => none

/-- The end of the text in the mode for templates. -/
def finishTemplate (b : Builder) : Outcome :=
  if b.hasOpen "template" then again (leaveTemplate b) else done b

/-- Opens foreign markup. -/
def openForeign (b : Builder) (vocabulary : Vocabulary) (name : String) (tag : Tag) : Builder :=
  let attributes := Foreign.attributes vocabulary tag
  if tag.selfClosing then (b.insertClosed ⟨vocabulary, name⟩ attributes).1
  else (b.insertElement ⟨vocabulary, name⟩ attributes).1

/-- Closes the item that a new item of a list ends. -/
def closeItem (b : Builder) (names : List String) : Builder :=
  let ends := fun e : ElementName => e.isSpecial && !e.isAmong ["address", "div", "p"]
  match b.opened.find? fun n => (b.nameOf n).isAmong names || ends (b.nameOf n) with
  | none => b
  | some n =>
    let e := b.nameOf n
    if e.isAmong names then (b.closeImplied e.name).popThroughNamed e.name else b

/-- Adds an element without content after the open formatting elements. -/
def addInline (b : Builder) (tag : Tag) : Builder :=
  b.reopenFormatting.addVoid tag

/-- A start tag in the body of a page. -/
def startInBody (b : Builder) (tag : Tag) : Builder :=
  match everywhere b tag with
  | some b => b
  | none =>
    match tag.name with
    | "html" | "body" | "frameset" => b
    | "address" | "article" | "aside" | "blockquote" | "center" | "details" | "dialog" | "dir"
    | "div" | "dl" | "fieldset" | "figcaption" | "figure" | "footer" | "header" | "hgroup"
    | "main" | "menu" | "nav" | "ol" | "p" | "search" | "section" | "summary" | "ul" =>
      b.closeOpenParagraph.openTag tag
    | "h1" | "h2" | "h3" | "h4" | "h5" | "h6" =>
      let b := b.closeOpenParagraph
      (if b.currentName.isHeading then b.pop else b).openTag tag
    | "pre" | "listing" => { b.closeOpenParagraph.openTag tag with dropLineFeed := true }
    | "form" =>
      if b.form.isSome && !b.hasOpen "template" then b
      else
        let (b, n) := b.closeOpenParagraph.insertElement { name := "form" } tag.attributes
        if b.hasOpen "template" then b else { b with form := some n }
    | "li" => (closeItem b ["li"]).closeOpenParagraph.openTag tag
    | "dd" | "dt" => (closeItem b ["dd", "dt"]).closeOpenParagraph.openTag tag
    | "plaintext" => { b.closeOpenParagraph.openTag tag with content := .plain }
    | "button" =>
      let b :=
        if b.inScopeNamed endsScope "button" then b.closeAllImplied.popThroughNamed "button"
        else b
      b.reopenFormatting.openTag tag
    | "a" => b.endAnchor.reopenFormatting.openFormatting tag
    | "b" | "big" | "code" | "em" | "font" | "i" | "s" | "small" | "strike" | "strong" | "tt"
    | "u" => b.reopenFormatting.openFormatting tag
    | "nobr" =>
      let b := b.reopenFormatting
      let b :=
        if b.inScopeNamed endsScope "nobr" then (b.endFormatting "nobr").reopenFormatting else b
      b.openFormatting tag
    | "applet" | "marquee" | "object" => (b.reopenFormatting.openTag tag).pushMarker
    | "table" => (b.closeOpenParagraph.openTag tag).enter .table
    | "area" | "br" | "embed" | "img" | "keygen" | "wbr" | "input" => addInline b tag
    | "param" | "source" | "track" => b.addVoid tag
    | "hr" => b.closeOpenParagraph.addVoid tag
    | "image" => addInline b { tag with name := "img" }
    | "textarea" =>
      { b.openText tag (.withReferences "textarea") with dropLineFeed := true }
    | "xmp" => b.closeOpenParagraph.reopenFormatting.openText tag (.raw "xmp")
    | "iframe" | "noembed" | "noscript" => b.openText tag (.raw tag.name)
    | "select" =>
      let inTable := [Mode.table, .caption, .tableBody, .row, .cell].contains b.mode
      (b.reopenFormatting.openTag tag).enter (if inTable then .selectInTable else .select)
    | "optgroup" | "option" =>
      (if b.currentIs "option" then b.pop else b).reopenFormatting.openTag tag
    | "rb" | "rtc" =>
      (if b.inScopeNamed endsScope "ruby" then b.closeAllImplied else b).openTag tag
    | "rp" | "rt" =>
      (if b.inScopeNamed endsScope "ruby" then b.closeImplied "rtc" else b).openTag tag
    | "math" => openForeign b .math "math" tag
    | "svg" => openForeign b .svg "svg" tag
    | "caption" | "col" | "colgroup" | "frame" | "head" | "tbody" | "td" | "tfoot" | "th"
    | "thead" | "tr" => b
    | _ => b.reopenFormatting.openTag tag

/-- The end tag of a form. -/
def endForm (b : Builder) : Builder :=
  if b.hasOpen "template" then
    if b.inScopeNamed endsScope "form" then b.closeAllImplied.popThroughNamed "form" else b
  else
    match b.form with
    | none => b
    | some n =>
      let b := { b with form := none }
      if b.reaches (· == n) endsScope b.opened then b.closeAllImplied.dropOpen n else b

/-- An end tag in the body of a page. -/
def endInBody (b : Builder) (name : String) : Builder :=
  match name with
  | "template" => endTemplate b
  | "body" | "html" => b
  | "address" | "article" | "aside" | "blockquote" | "button" | "center" | "details" | "dialog"
  | "dir" | "div" | "dl" | "fieldset" | "figcaption" | "figure" | "footer" | "header" | "hgroup"
  | "listing" | "main" | "menu" | "nav" | "ol" | "pre" | "search" | "section" | "summary"
  | "ul" =>
    if b.inScopeNamed endsScope name then b.closeAllImplied.popThroughNamed name else b
  | "form" => endForm b
  | "p" =>
    (if b.inScopeNamed endsButtonScope "p" then b else b.openImplied "p").closeParagraph
  | "li" =>
    if b.inScopeNamed endsListScope name then (b.closeImplied name).popThroughNamed name else b
  | "dd" | "dt" =>
    if b.inScopeNamed endsScope name then (b.closeImplied name).popThroughNamed name else b
  | "h1" | "h2" | "h3" | "h4" | "h5" | "h6" =>
    if b.inScope endsScope isHeading then b.closeAllImplied.popThrough isHeading else b
  | "a" | "b" | "big" | "code" | "em" | "font" | "i" | "nobr" | "s" | "small" | "strike"
  | "strong" | "tt" | "u" => b.endFormatting name
  | "applet" | "marquee" | "object" =>
    if b.inScopeNamed endsScope name then
      (b.closeAllImplied.popThroughNamed name).clearFormatting
    else b
  | "br" => addInline b { name := "br" }
  | _ => b.endOther name

/-- The rules of the body of a page. -/
def inBody (b : Builder) : Token → Outcome
  | .text _ chars => done (b.reopenFormatting.insertText chars)
  | .comment => done b.insertComment
  | .startTag tag => done (startInBody b tag)
  | .endTag name => done (endInBody b name)
  | .finish => if b.templateModes.isEmpty then done b else finishTemplate b
  | .null => done b
  | .skipped => done b

/-- The rules of an element whose content is text. -/
def inText (b : Builder) : Token → Outcome
  | .text _ chars => done (b.insertText chars)
  | .endTag _ => done { b.pop with mode := b.returnTo, content := .markup }
  | .finish => retry { b.pop with content := .markup } b.returnTo
  | _ => done b

/-- Applies the rules of the body with content moved out of a table. -/
def fosterInBody (b : Builder) (token : Token) : Outcome :=
  match inBody { b with fostering := true } token with
  | done b => done { b with fostering := false }
  | again b => again { b with fostering := false }

/-- Characters in a table. -/
def charsInTable (b : Builder) (token : Token) : Outcome :=
  if b.currentName.isTablePart then
    again { b with returnTo := b.mode, mode := .tableText, tableText := [] }
  else fosterInBody b token

/-- Whether a tag makes a hidden field. -/
def isHiddenField (tag : Tag) : Bool :=
  tag.attributes.any fun (name, value) => name == "type" && Text.sameAscii value "hidden"

/-- The rules of a table. -/
def inTable (b : Builder) (token : Token) : Outcome :=
  match token with
  | .null | .text _ _ => charsInTable b token
  | .comment => done b.insertComment
  | .startTag tag =>
    match tag.name with
    | "caption" =>
      done (((b.popDownTo holdsSections).pushMarker.openTag tag).enter .caption)
    | "colgroup" => done (((b.popDownTo holdsSections).openTag tag).enter .columnGroup)
    | "col" => retry ((b.popDownTo holdsSections).openImplied "colgroup") .columnGroup
    | "tbody" | "tfoot" | "thead" =>
      done (((b.popDownTo holdsSections).openTag tag).enter .tableBody)
    | "td" | "th" | "tr" => retry ((b.popDownTo holdsSections).openImplied "tbody") .tableBody
    | "table" =>
      if b.inScopeNamed endsTableScope "table" then again (b.popThroughNamed "table").resetMode
      else done b
    | "style" | "script" | "template" => done ((everywhere b tag).getD b)
    | "input" => if isHiddenField tag then done (b.addVoid tag) else fosterInBody b token
    | "form" =>
      if b.hasOpen "template" || b.form.isSome then done b
      else
        let (b, n) := b.insertClosed { name := "form" } tag.attributes
        done { b with form := some n }
    | _ => fosterInBody b token
  | .endTag name =>
    match name with
    | "table" =>
      if b.inScopeNamed endsTableScope "table" then done (b.popThroughNamed "table").resetMode
      else done b
    | "body" | "caption" | "col" | "colgroup" | "html" | "tbody" | "td" | "tfoot" | "th"
    | "thead" | "tr" => done b
    | "template" => done (endTemplate b)
    | _ => fosterInBody b token
  | .finish => inBody b token
  | .skipped => done b

/-- Adds the characters that were read in a table, outside of it if there is ink among them. -/
def flushTableText (b : Builder) : Builder :=
  let runs := b.tableText
  let b := { b with tableText := [] }
  if runs.any fun (_, chars) => hasInk chars then
    let b :=
      runs.foldl (fun b (_, chars) => b.reopenFormatting.insertText chars)
        { b with fostering := true }
    { b with fostering := false }
  else runs.foldl (fun b (_, chars) => b.insertText chars) b

/-- The rules of the characters in a table. -/
def inTableText (b : Builder) : Token → Outcome
  | .null => done b
  | .text blank chars => done { b with tableText := b.tableText ++ [(blank, chars)] }
  | _ => retry (flushTableText b) b.returnTo

/-- Whether a tag starts or ends a part of a table, other than the whole of it. -/
def tableParts : List String :=
  ["caption", "col", "colgroup", "tbody", "td", "tfoot", "th", "thead", "tr"]

/-- The rules of the caption of a table. -/
def inCaption (b : Builder) (token : Token) : Outcome :=
  let close := fun (proceed : Builder → Outcome) =>
    if b.inScopeNamed endsTableScope "caption" then
      proceed (b.closeAllImplied.popThroughNamed "caption").clearFormatting
    else done b
  match token with
  | .startTag tag =>
    if tableParts.contains tag.name then close fun b => retry b .table else inBody b token
  | .endTag name =>
    if name == "caption" then close fun b => done (b.enter .table)
    else if name == "table" then close fun b => retry b .table
    else if name == "body" || name == "html" || tableParts.contains name then done b
    else inBody b token
  | _ => inBody b token

/-- The rules of a group of columns. -/
def inColumnGroup (b : Builder) (token : Token) : Outcome :=
  let leave : Unit → Outcome := fun _ =>
    if b.currentIs "colgroup" then retry b.pop .table else done b
  match token with
  | .text blank chars => if blank then done (b.insertText chars) else leave ()
  | .comment => done b.insertComment
  | .startTag tag =>
    match tag.name with
    | "html" => done b
    | "col" => done (b.addVoid tag)
    | "template" => done (openTemplate b tag)
    | _ => leave ()
  | .endTag name =>
    match name with
    | "colgroup" => if b.currentIs "colgroup" then done (b.pop.enter .table) else done b
    | "col" => done b
    | "template" => done (endTemplate b)
    | _ => leave ()
  | .finish => inBody b token
  | .null => leave ()
  | .skipped => done b

/-- The rules of a section of a table. -/
def inTableBody (b : Builder) (token : Token) : Outcome :=
  let leave : Unit → Outcome := fun _ =>
    if b.inScope endsTableScope fun e => e.isAmong ["table", "tbody", "tfoot"] then
      retry (b.popDownTo holdsRows).pop .table
    else done b
  match token with
  | .startTag tag =>
    match tag.name with
    | "tr" => done (((b.popDownTo holdsRows).openTag tag).enter .row)
    | "th" | "td" => retry ((b.popDownTo holdsRows).openImplied "tr") .row
    | "caption" | "col" | "colgroup" | "tbody" | "tfoot" | "thead" => leave ()
    | _ => inTable b token
  | .endTag name =>
    match name with
    | "tbody" | "tfoot" | "thead" =>
      if b.inScopeNamed endsTableScope name then
        done ((b.popDownTo holdsRows).pop.enter .table)
      else done b
    | "table" => leave ()
    | "body" | "caption" | "col" | "colgroup" | "html" | "td" | "th" | "tr" => done b
    | _ => inTable b token
  | _ => inTable b token

/-- The rules of a row of a table. -/
def inRow (b : Builder) (token : Token) : Outcome :=
  let leave : Unit → Outcome := fun _ =>
    if b.inScopeNamed endsTableScope "tr" then retry (b.popDownTo holdsCells).pop .tableBody
    else done b
  match token with
  | .startTag tag =>
    match tag.name with
    | "th" | "td" => done (((b.popDownTo holdsCells).openTag tag).enter .cell).pushMarker
    | "caption" | "col" | "colgroup" | "tbody" | "tfoot" | "thead" | "tr" => leave ()
    | _ => inTable b token
  | .endTag name =>
    match name with
    | "tr" =>
      if b.inScopeNamed endsTableScope "tr" then
        done ((b.popDownTo holdsCells).pop.enter .tableBody)
      else done b
    | "table" => leave ()
    | "tbody" | "tfoot" | "thead" =>
      if b.inScopeNamed endsTableScope name then leave () else done b
    | "body" | "caption" | "col" | "colgroup" | "html" | "td" | "th" => done b
    | _ => inTable b token
  | _ => inTable b token

/-- The rules of a cell of a table. -/
def inCell (b : Builder) (token : Token) : Outcome :=
  match token with
  | .startTag tag =>
    if tableParts.contains tag.name then
      if b.inScope endsTableScope isCell then retry b.closeCell .row else done b
    else inBody b token
  | .endTag name =>
    match name with
    | "td" | "th" =>
      if b.inScopeNamed endsTableScope name then
        done ((b.closeAllImplied.popThroughNamed name).clearFormatting.enter .row)
      else done b
    | "body" | "caption" | "col" | "colgroup" | "html" => done b
    | "table" | "tbody" | "tfoot" | "thead" | "tr" =>
      if b.inScopeNamed endsTableScope name then retry b.closeCell .row else done b
    | _ => inBody b token
  | _ => inBody b token

/-- Closes an open choice of a selection. -/
def closeChoice (b : Builder) (name : String) : Builder :=
  if b.currentIs name then b.pop else b

/-- The rules of a selection. -/
def inSelect (b : Builder) (token : Token) : Outcome :=
  let isOpen := b.inScopeNamed endsSelectScope "select"
  match token with
  | .text _ chars => done (b.insertText chars)
  | .comment => done b.insertComment
  | .startTag tag =>
    match tag.name with
    | "option" => done ((closeChoice b "option").openTag tag)
    | "optgroup" => done ((closeChoice (closeChoice b "option") "optgroup").openTag tag)
    | "hr" => done ((closeChoice (closeChoice b "option") "optgroup").addVoid tag)
    | "select" => done (if isOpen then (b.popThroughNamed "select").resetMode else b)
    | "input" | "keygen" | "textarea" =>
      if isOpen then again (b.popThroughNamed "select").resetMode else done b
    | "script" | "template" => done ((everywhere b tag).getD b)
    | _ => done b
  | .endTag name =>
    match name with
    | "optgroup" =>
      let inGroup :=
        (b.opened.tail.head?.map fun n => (b.nameOf n).isHtml "optgroup").getD false
      let b := if inGroup then closeChoice b "option" else b
      done (closeChoice b "optgroup")
    | "option" => done (closeChoice b "option")
    | "select" => done (if isOpen then (b.popThroughNamed "select").resetMode else b)
    | "template" => done (endTemplate b)
    | _ => done b
  | .finish => inBody b token
  | .null => done b
  | .skipped => done b

/-- The tags that end a selection inside a table. -/
def selectEnders : List String :=
  ["caption", "table", "tbody", "tfoot", "thead", "tr", "td", "th"]

/-- The rules of a selection inside a table. -/
def inSelectInTable (b : Builder) (token : Token) : Outcome :=
  match token with
  | .startTag tag =>
    if selectEnders.contains tag.name then again (b.popThroughNamed "select").resetMode
    else inSelect b token
  | .endTag name =>
    if selectEnders.contains name then
      if b.inScopeNamed endsTableScope name then again (b.popThroughNamed "select").resetMode
      else done b
    else inSelect b token
  | _ => inSelect b token

/-- The rules of the contents of a template. Its first tag decides how they are read. -/
def inTemplate (b : Builder) (token : Token) : Outcome :=
  let settle := fun (mode : Mode) =>
    retry { b with templateModes := mode :: b.templateModes.tail } mode
  match token with
  | .text _ _ | .comment => inBody b token
  | .startTag tag =>
    match everywhere b tag with
    | some b => done b
    | none =>
      match tag.name with
      | "caption" | "colgroup" | "tbody" | "tfoot" | "thead" => settle .table
      | "col" => settle .columnGroup
      | "tr" => settle .tableBody
      | "td" | "th" => settle .row
      | _ => settle .body
  | .endTag name => done (if name == "template" then endTemplate b else b)
  | .finish => finishTemplate b
  | .null => done b
  | .skipped => done b

/-- The rules of the mode. -/
def inMode (b : Builder) (token : Token) : Outcome :=
  match b.mode with
  | .body => inBody b token
  | .text => inText b token
  | .table => inTable b token
  | .tableText => inTableText b token
  | .caption => inCaption b token
  | .columnGroup => inColumnGroup b token
  | .tableBody => inTableBody b token
  | .row => inRow b token
  | .cell => inCell b token
  | .select => inSelect b token
  | .selectInTable => inSelectInTable b token
  | .template => inTemplate b token

/-- The name of the innermost open element. The root stands for the body of a page. -/
def surroundings (b : Builder) : ElementName :=
  if b.opened.length ≤ 1 then { name := "body" } else b.currentName

/-- Whether the innermost open element is an annotation that holds markup. -/
def holdsAnnotation (b : Builder) : Bool :=
  match b.parts.label? b.current with
  | some (.element _ attributes _) =>
    attributes.any fun (name, value) =>
      name == "encoding" &&
        (Text.sameAscii value "text/html" || Text.sameAscii value "application/xhtml+xml")
  | _ => false

/-- Whether a token is read by the rules of foreign markup. -/
def isForeign (b : Builder) (token : Token) : Bool :=
  let e := surroundings b
  if e.vocabulary == .html then false
  else
    match token with
    | .finish => false
    | .text _ _ | .null =>
      !(e.isMathText || e.isSvgMarkup ||
        (e == ⟨.math, "annotation-xml"⟩ && holdsAnnotation b))
    | .startTag tag =>
      if e.isMathText && !(["mglyph", "malignmark"].contains tag.name) then false
      else if e.isSvgMarkup then false
      else if e == ⟨.math, "annotation-xml"⟩ then
        !(tag.name == "svg" || holdsAnnotation b)
      else true
    | _ => true

/-- An end tag in foreign markup closes the innermost element of its name. The search goes over to
the rules of the mode at the first element of the main vocabulary. -/
def endForeign (b : Builder) (token : Token) (name : String) (first : Bool) :
    List NodeId → Outcome
  | [] => done b
  | [_] => done b
  | n :: below =>
    let e := b.nameOf n
    if !first && e.vocabulary == .html then inMode b token
    else if Text.sameAscii e.name name then done { b with opened := below }
    else endForeign b token name false below

/-- The rules of foreign markup. -/
def inForeign (b : Builder) (token : Token) : Outcome :=
  if Foreign.breaksOut token then
    inMode (b.popDownTo fun e => e.vocabulary == .html || e.isMathText || e.isSvgMarkup) token
  else match token with
  | .null => done (b.insertText ['\ufffd'])
  | .text _ chars => done (b.insertText chars)
  | .comment => done b.insertComment
  | .startTag tag =>
    let vocabulary := (surroundings b).vocabulary
    done (openForeign b vocabulary (Foreign.elementName vocabulary tag.name) tag)
  | .endTag name => endForeign b token name true b.opened
  | .finish => done b
  | .skipped => done b

/-- The rules that apply to a token. -/
def dispatch (b : Builder) (token : Token) : Outcome :=
  if isForeign b token then inForeign b token else inMode b token

/-- Applies rules until a token is dealt with, at most `n` times. -/
def settle : Nat → Builder → Token → Builder
  | 0, b, _ => b
  | n + 1, b, token =>
    match dispatch b token with
    | done b => b
    | again b => settle n b token

end Rules

namespace Builder

/-- The text without the line feed that may stand first in some elements. -/
def dropFirstLineFeed : Token → Token
  | .text blank ('\n' :: chars) => if chars.isEmpty then .skipped else .text blank chars
  | token => token

/-- Deals with a token. Every rule that hands it on closes an element or leaves a mode of table
text, so the number of open elements bounds the number of rules. -/
def feed (b : Builder) (token : Token) : Builder :=
  let token := if b.dropLineFeed then dropFirstLineFeed token else token
  let b := { b with dropLineFeed := false }
  match token with
  | .skipped => b
  | _ => Rules.settle (4 * b.opened.length + 16) b token

/-- Whether sections of literal text may stand here. -/
def allowsSections (b : Builder) : Bool :=
  (Rules.surroundings b).vocabulary != .html

end Builder

end LiveMarkup.Html
