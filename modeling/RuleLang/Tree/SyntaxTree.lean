import RuleLang.Failure
import RuleLang.Tree.Stamped

/-!
# Trees and handles

A tree has an identity of its own, so that a handle made for one tree is never taken for an address
in another, even if both have the same text.

## Main definitions

* `SyntaxTree` — a tree with its identity and the name of its source.
* `TreeIndex` — the places of a tree by their handles.
* `TreeIndex.resolve` — the place of a handle, or why there is none.
* `TreeIndex.handleOf?` — the handle of a place.
-/

namespace RuleLang

open Stamped

structure SyntaxTree where
  id : TreeId
  sourceId : String
  root : Stamped
  /-- No stamp of the tree is as large. -/
  supply : Nat
  deriving Repr, Inhabited

namespace SyntaxTree

/-- The tree of an element that was just read. -/
def ofElement (id : TreeId) (sourceId : String) (e : Element) : SyntaxTree :=
  let (root, supply) := Stamped.ofElement 0 e
  ⟨id, sourceId, root, supply⟩

def element (t : SyntaxTree) : Element :=
  t.root.erase

def text (t : SyntaxTree) : List Char :=
  t.root.text

end SyntaxTree

/-- The places of a tree in preorder, and the way back from a place to its index. -/
structure TreeIndex where
  tree : TreeId
  places : Array Place
  deriving Repr

namespace TreeIndex

def size (i : TreeIndex) : Nat :=
  i.places.size

/-- The place of a handle, if the handle is of this tree. -/
def get? (i : TreeIndex) (h : Handle) : Option Place :=
  if h.tree = i.tree then i.places[h.index]? else none

/-- The place of a handle, or why there is none. -/
def resolve (i : TreeIndex) (h : Handle) : Except Failure Place :=
  if h.tree ≠ i.tree then .error (.staleHandle h (.otherTree i.tree))
  else
    match i.places[h.index]? with
    | some p => .ok p
    | none => .error (.staleHandle h (.outOfRange i.size))

/-- The last of the first `n` places that has an identity. -/
def lastBefore? (i : TreeIndex) (identity : Identity) : Nat → Option Nat
  | 0 => none
  | n + 1 =>
    if i.places[n]?.any fun p => p.identity = identity then some n else i.lastBefore? identity n

/-- The last index at which an element stands. -/
def indexOf? (i : TreeIndex) (identity : Identity) : Option Nat :=
  i.lastBefore? identity i.size

/-- The handle of a place. -/
def handleOf? (i : TreeIndex) (identity : Identity) : Option Handle :=
  (i.indexOf? identity).map fun n => ⟨i.tree, n⟩

/-- The handle of the node right above a place. -/
def parent? (i : TreeIndex) (h : Handle) : Option Handle :=
  (i.get? h).bind fun p => p.above.head?.bind fun n => (i.places[n]?).bind fun q =>
    i.handleOf? q.identity

end TreeIndex

def SyntaxTree.index (t : SyntaxTree) : TreeIndex :=
  ⟨t.id, t.root.places.toArray⟩

end RuleLang
