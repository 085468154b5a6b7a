import RuleLang.Token

/-!
# Lossless syntax trees

A tree has tokens at its leaves and nodes above them. Blanks and comments are tokens of the tree, so
its text is the source text itself.

## Main definitions

* `Leaf` — kind and text of a token, without its position.
* `Element` — a token or a node with its children.
* `Element.leaves`, `Element.text` — the tokens and the text below an element, left to right.
* `Element.significant` — the tokens that are not trivia.
* `Element.preorder` — every element with its depth and its place in the text.
-/

namespace RuleLang

structure Leaf where
  kind : Kind
  text : List Char
  deriving DecidableEq, Repr, Inhabited

def Token.leaf (t : Token) : Leaf :=
  ⟨t.kind, t.text⟩

def Leaf.isTrivia (l : Leaf) : Bool :=
  l.kind.isTrivia

inductive Element where
  | token (kind : Kind) (text : List Char)
  | node (kind : Kind) (children : List Element)
  deriving Repr, Inhabited, BEq

namespace Element

def ofToken (t : Token) : Element :=
  .token t.kind t.text

def kind : Element → Kind
  | .token k _ => k
  | .node k _ => k

def isNode : Element → Bool
  | .token _ _ => false
  | .node _ _ => true

def isToken (e : Element) : Bool :=
  !e.isNode

/-- A token of a trivia kind. -/
def isTrivia : Element → Bool
  | .token k _ => k.isTrivia
  | .node _ _ => false

def children : Element → List Element
  | .token _ _ => []
  | .node _ cs => cs

/-! ## Leaves and text -/

mutual

/-- The tokens below an element, left to right. -/
def leaves : Element → List Leaf
  | .token k t => [⟨k, t⟩]
  | .node _ cs => leavesOf cs

/-- The tokens below a list of elements, left to right. -/
def leavesOf : List Element → List Leaf
  | [] => []
  | e :: es => e.leaves ++ leavesOf es

end

@[simp] theorem leavesOf_nil : leavesOf [] = [] := rfl

@[simp] theorem leavesOf_cons (e : Element) (es : List Element) :
    leavesOf (e :: es) = e.leaves ++ leavesOf es := rfl

@[simp] theorem leavesOf_append (xs ys : List Element) :
    leavesOf (xs ++ ys) = leavesOf xs ++ leavesOf ys := by
  induction xs with
  | nil => simp
  | cons e es ih => simp [ih]

@[simp] theorem leaves_node (k : Kind) (cs : List Element) :
    (node k cs).leaves = leavesOf cs := by
  simp [leaves]

@[simp] theorem leaves_token (k : Kind) (t : List Char) : (token k t).leaves = [⟨k, t⟩] := by
  simp [leaves]

theorem leavesOf_eq_flatMap (es : List Element) : leavesOf es = es.flatMap leaves := by
  induction es with
  | nil => rfl
  | cons e es ih => simp [ih]

def text (e : Element) : List Char :=
  e.leaves.flatMap Leaf.text

/-- The tokens of an element that are not trivia. -/
def significant (e : Element) : List Leaf :=
  e.leaves.filter fun l => !l.isTrivia

mutual

/-- The bytes that an element covers. -/
def width : Element → Nat
  | .token _ t => Text.byteLength t
  | .node _ cs => widthOf cs

def widthOf : List Element → Nat
  | [] => 0
  | e :: es => e.width + widthOf es

end

@[simp] theorem widthOf_nil : widthOf [] = 0 := rfl

@[simp] theorem widthOf_cons (e : Element) (es : List Element) :
    widthOf (e :: es) = e.width + widthOf es := rfl

theorem width_node (k : Kind) (cs : List Element) : (node k cs).width = widthOf cs := by
  simp [width]

/-! ## Preorder -/

/-- An element at its place: how deep in the tree, and at which byte. -/
structure Placed where
  depth : Nat
  offset : Nat
  element : Element
  deriving Repr

def Placed.span (p : Placed) : Span :=
  ⟨p.offset, p.offset + p.element.width⟩

mutual

/-- Every element below and including this one, parents before their children, left to right. -/
def preorder (depth offset : Nat) : Element → List Placed
  | .token k t => [⟨depth, offset, .token k t⟩]
  | .node k cs => ⟨depth, offset, .node k cs⟩ :: preorderOf (depth + 1) offset cs

def preorderOf (depth offset : Nat) : List Element → List Placed
  | [] => []
  | e :: es => e.preorder depth offset ++ preorderOf depth (offset + e.width) es

end

/-- The elements of a whole tree in preorder. -/
def elements (root : Element) : List Placed :=
  root.preorder 0 0

mutual

/-- The nodes below and including this element, in preorder. -/
def nodes : Element → List Element
  | .token _ _ => []
  | .node k cs => .node k cs :: nodesOf cs

def nodesOf : List Element → List Element
  | [] => []
  | e :: es => e.nodes ++ nodesOf es

end

end Element

end RuleLang
