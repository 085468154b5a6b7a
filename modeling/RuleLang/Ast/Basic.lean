import RuleLang.Element

/-!
# Typed views of nodes

A view is a node of one kind. Its accessors name the parts of the construct, and find them among the
children by their kinds; a part that is missing in a malformed source is `none`.

## Main definitions

* `View`, `View.ofElement?` — the nodes of a kind.
* `childOf?`, `tokenOf?`, `significantTokens` — the first child node or token of a kind, and all
  tokens that are not trivia.
* `unquote` — the text of a string literal without its quotes.
-/

namespace RuleLang

/-- A node of kind `k`. -/
structure View (k : Kind) where
  children : List Element

namespace View

variable {k : Kind}

def element (v : View k) : Element :=
  .node k v.children

def ofElement? : Element → Option (View k)
  | .node k' cs => if k' = k then some ⟨cs⟩ else none
  | .token _ _ => none

@[simp] theorem ofElement?_element (v : View k) : ofElement? v.element = some v := by
  simp [ofElement?, element]

theorem element_of_ofElement? {e : Element} {v : View k} (h : ofElement? e = some v) :
    v.element = e := by
  cases e with
  | token _ _ => simp [ofElement?] at h
  | node k' cs =>
    simp only [ofElement?] at h
    split at h
    · next hk => simp only [Option.some.injEq] at h; rw [← h, hk]; rfl
    · simp at h

def text (v : View k) : List Char :=
  v.element.text

end View

namespace Ast

/-- The first child node of a kind. -/
def childOf? (k : Kind) (children : List Element) : Option (View k) :=
  children.findSome? View.ofElement?

/-- All child nodes of a kind. -/
def childrenOf (k : Kind) (children : List Element) : List (View k) :=
  children.filterMap View.ofElement?

/-- The tokens among the children. -/
def tokens (children : List Element) : List Leaf :=
  children.filterMap fun
    | .token k t => some ⟨k, t⟩
    | .node _ _ => none

def tokenOf? (k : Kind) (children : List Element) : Option Leaf :=
  (tokens children).find? fun l => l.kind == k

def hasToken (k : Kind) (children : List Element) : Bool :=
  (tokens children).any fun l => l.kind == k

/-- The tokens among the children that are not trivia. -/
def significantTokens (children : List Element) : List Leaf :=
  (tokens children).filter fun l => !l.isTrivia

def qualifiedName? (children : List Element) : Option (List Char) :=
  (childOf? .qualifiedName children).map View.text

def typeName? (children : List Element) : Option (List Char) :=
  (childOf? .typeRef children).map View.text

/-- Every node below an element, itself included, that is of a kind. -/
def descendantsOf (k : Kind) (e : Element) : List (View k) :=
  e.nodes.filterMap View.ofElement?

/-- The text between a pair of equal quotes; other text as it is. -/
def unquote (text : List Char) : List Char :=
  let quoted (q : Char) : Bool := text.head? == some q && text.getLast? == some q
  if 2 ≤ text.length && (quoted '"' || quoted '\x27') then (text.drop 1).dropLast else text

/-- The name of a declaration, without quotes. -/
def declName? (children : List Element) : Option (List Char) :=
  (childOf? .ruleName children).bind fun name =>
    (significantTokens name.children).head?.map fun t => unquote t.text

/-- The name that a binding introduces. -/
def bindingName? (children : List Element) : Option (List Char) :=
  (childOf? .binding children).bind fun b =>
    (significantTokens b.children).head?.map Leaf.text

end Ast

end RuleLang
