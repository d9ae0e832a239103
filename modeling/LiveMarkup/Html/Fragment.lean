import LiveMarkup.Html.Rules

/-!
# Parsing a fragment

`Html.fragment` reads a text as the content of the body of a page. Every text is the text of some
fragment: what is misplaced is moved, what is missing is added, and what means nothing is left out.
-/

namespace LiveMarkup.Html

namespace Builder

/-- Reads at most `n` tokens and the end of the text. -/
def read : Nat → Builder → List Char → Builder
  | 0, b, _ => b.feed .finish
  | n + 1, b, cs =>
    match Token.next b.content b.allowsSections cs with
    | (.finish, _) => b.feed .finish
    | (token, rest) => read n (b.feed token) rest

/-- The tree of a node, down to a depth. -/
def treeOf (parts : Forest Part) : Nat → NodeId → Option Node
  | 0, _ => none
  | depth + 1, n =>
    match parts.label? n with
    | some (.element name attributes contents) =>
      some (.element name attributes
        ((parts.children (contents.getD n)).filterMap (treeOf parts depth)))
    | some (.text chars) => some (.text chars)
    | some .comment => some .comment
    | _ => none

/-- The nodes of the fragment. -/
def result (b : Builder) : List Node :=
  (b.parts.children root).filterMap (treeOf b.parts b.parts.size)

end Builder

/-- The nodes that a text stands for. -/
def fragment (markup : String) : List Node :=
  let cs := Token.prepare markup.toList
  (Builder.read cs.length Builder.start cs).result

end LiveMarkup.Html
