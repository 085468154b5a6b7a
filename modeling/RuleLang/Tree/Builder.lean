import RuleLang.Element

/-!
# Building trees by calls

A tree can be built from the left by single calls: open a node, add a token, close the node. A mark
remembers a point among the children; a node can be opened at a mark later, and then takes in what
came after it.

## Main definitions

* `TreeBuilder` — the elements built so far, and where the open nodes start among them.
* `TreeBuilder.Call`, `TreeBuilder.apply` — the calls. A call out of order fails.
* `TreeBuilder.finish?` — the tree, if exactly one is built.
-/

namespace RuleLang

structure TreeBuilder where
  /-- The elements that are no child yet, the newest first. -/
  elements : List Element := []
  /-- The open nodes, the innermost first: kind, and how many elements came before its children. -/
  openNodes : List (Kind × Nat) := []

namespace TreeBuilder

inductive Call where
  | start (kind : Kind)
  /-- Opens a node at a mark. -/
  | startAt (mark : Nat) (kind : Kind)
  | token (kind : Kind) (text : List Char)
  | finish
  deriving Repr

/-- A mark: how many elements there are. -/
def mark (b : TreeBuilder) : Nat :=
  b.elements.length

/-- A mark can be used while the node that was open when it was made is the innermost one. -/
def canStartAt (b : TreeBuilder) (mark : Nat) : Bool :=
  mark ≤ b.elements.length && b.openNodes.head?.all fun node => node.2 ≤ mark

def apply (b : TreeBuilder) : Call → Option TreeBuilder
  | .start kind => some { b with openNodes := (kind, b.elements.length) :: b.openNodes }
  | .startAt mark kind =>
    if b.canStartAt mark then some { b with openNodes := (kind, mark) :: b.openNodes } else none
  | .token kind text => some { b with elements := .token kind text :: b.elements }
  | .finish =>
    match b.openNodes with
    | [] => none
    | (kind, first) :: rest =>
      let count := b.elements.length - first
      some ⟨.node kind (b.elements.take count).reverse :: b.elements.drop count, rest⟩

/-- The tree, if exactly one node is built. -/
def finish? (b : TreeBuilder) : Option Element :=
  match b.elements with
  | [.node kind children] => some (.node kind children)
  | _ => none

end TreeBuilder

end RuleLang
