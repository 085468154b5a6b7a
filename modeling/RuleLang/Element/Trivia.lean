import RuleLang.Element

/-!
# Who owns trivia

A declaration at the top level contains its trivia: what stands before its first significant token,
and what stands after its last. Any other node has no trivia at its edges; the trivia between two
siblings is divided at the first line break, which still belongs to the sibling before it.

## Main definitions

* `Sited` — a node among its siblings.
* `Sited.leadingTrivia`, `Sited.trailingTrivia` — the trivia that belongs to it.
* `Element.comments` — the comments inside an element.
-/

namespace RuleLang

/-- A node among its siblings. -/
structure Sited where
  offset : Nat
  /-- The siblings before it, the nearest first. -/
  before : List Element
  element : Element
  /-- The siblings after it. -/
  after : List Element
  deriving Repr

namespace Element

mutual

/-- The nodes below an element and itself, in preorder, each among its siblings. -/
def sites (offset : Nat) (before after : List Element) : Element → List Sited
  | .token _ _ => []
  | .node k cs => ⟨offset, before, .node k cs, after⟩ :: sitesOf offset [] cs

def sitesOf (offset : Nat) (before : List Element) : List Element → List Sited
  | [] => []
  | e :: es => e.sites offset before es ++ sitesOf (offset + e.width) (e :: before) es

end

/-- The leading trivia tokens of a list. -/
def triviaRun (es : List Element) : List Leaf :=
  Element.leavesOf (es.takeWhile isTrivia)

/-- Trivia up to and including the first line break. -/
def throughNewline : List Leaf → List Leaf
  | [] => []
  | l :: ls => if l.kind == .newline then [l] else l :: throughNewline ls

/-- What follows the first line break; nothing if there is none. -/
def afterNewline : List Leaf → List Leaf
  | [] => []
  | l :: ls => if l.kind == .newline then ls else afterNewline ls

theorem throughNewline_append_afterNewline (ls : List Leaf) :
    throughNewline ls ++ afterNewline ls = ls := by
  induction ls with
  | nil => rfl
  | cons l ls ih =>
    simp only [throughNewline, afterNewline]
    split <;> simp [ih]

/-- The comments inside an element. -/
def comments (e : Element) : List Leaf :=
  e.leaves.filter fun l => l.kind == .commentLine || l.kind == .commentBlock

end Element

namespace Sited

/-- The trivia that belongs in front of a node. -/
def leadingTrivia (s : Sited) : List Leaf :=
  if s.element.kind.isTopLevelDecl then Element.triviaRun s.element.children
  else
    let run := (Element.triviaRun s.before).reverse
    if s.before.all Element.isTrivia then run else Element.afterNewline run

/-- The trivia that belongs after a node. A declaration of nothing but trivia has it all in
front. -/
def trailingTrivia (s : Sited) : List Leaf :=
  if s.element.kind.isTopLevelDecl then
    if s.element.children.all Element.isTrivia then []
    else (Element.triviaRun s.element.children.reverse).reverse
  else Element.throughNewline (Element.triviaRun s.after)

end Sited

/-- The nodes of a tree in preorder, each among its siblings. -/
def Element.sited (root : Element) : List Sited :=
  root.sites 0 [] []

end RuleLang
