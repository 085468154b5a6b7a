import RuleLang.Element

/-!
# Trees with stamps

Trees share parts: two places of a tree may hold one and the same element. A stamp tells elements
apart that look alike. Elements with one stamp are one element, and a place in a tree is told by the
stamp and the offset together. Reading a source makes a single empty node of each kind and uses it
wherever such a node stands; all other elements have stamps of their own.

## Main definitions

* `Stamped` — an element with stamps.
* `Stamped.erase` — the element without them.
* `Stamped.ofElement` — the stamps of an element that was just read.
* `Stamped.places` — every place of a tree in preorder.
-/

namespace RuleLang

inductive Stamped where
  | token (stamp : Nat) (kind : Kind) (text : List Char)
  | node (stamp : Nat) (kind : Kind) (children : List Stamped)
  deriving Repr, Inhabited

namespace Stamped

def stamp : Stamped → Nat
  | .token s _ _ => s
  | .node s _ _ => s

def kind : Stamped → Kind
  | .token _ k _ => k
  | .node _ k _ => k

def isNode : Stamped → Bool
  | .token _ _ _ => false
  | .node _ _ _ => true

mutual

/-- The element without its stamps. -/
def erase : Stamped → Element
  | .token _ k t => .token k t
  | .node _ k cs => .node k (eraseAll cs)

def eraseAll : List Stamped → List Element
  | [] => []
  | e :: es => e.erase :: eraseAll es

end

@[simp] theorem eraseAll_eq_map (es : List Stamped) : eraseAll es = es.map erase := by
  induction es with
  | nil => rfl
  | cons e es ih => simp [eraseAll, ih]

def text (e : Stamped) : List Char :=
  e.erase.text

def width (e : Stamped) : Nat :=
  e.erase.width

mutual

/-- The number of elements below an element, itself included. -/
def size : Stamped → Nat
  | .token _ _ _ => 1
  | .node _ _ cs => sizeOfAll cs + 1

def sizeOfAll : List Stamped → Nat
  | [] => 0
  | e :: es => e.size + sizeOfAll es

end

/-! ## Stamping -/

/-- Stamps below this one, counted from the base, are for empty nodes, one for each kind. -/
def firstOwnStamp : Nat := 1000

mutual

/-- Stamps an element: an empty node by its kind, counted from `base`, all else from `next` on.
Also returns the next stamp. -/
def stampFrom (base next : Nat) : Element → Stamped × Nat
  | .token k t => (.token next k t, next + 1)
  | .node k [] => (.node (base + k.raw) k [], next)
  | .node k (c :: cs) =>
    let (c, next') := stampFrom base (next + 1) c
    let (cs, next') := stampAllFrom base next' cs
    (.node next k (c :: cs), next')

def stampAllFrom (base next : Nat) : List Element → List Stamped × Nat
  | [] => ([], next)
  | e :: es =>
    let (e, next) := stampFrom base next e
    let (es, next) := stampAllFrom base next es
    (e :: es, next)

end

/-- The stamps of an element that was just read, counted from `base`, and the first free stamp
after them. -/
def ofElement (base : Nat) (e : Element) : Stamped × Nat :=
  stampFrom base (base + firstOwnStamp) e

/-! ## Places -/

/-- What tells a place of a tree. -/
structure Identity where
  stamp : Nat
  offset : Nat
  deriving DecidableEq, Repr

/-- A place of a tree. -/
structure Place where
  offset : Nat
  element : Stamped
  /-- The preorder indices of the nodes above it, the nearest first. -/
  above : List Nat
  deriving Repr

namespace Place

def identity (p : Place) : Identity :=
  ⟨p.element.stamp, p.offset⟩

def span (p : Place) : Span :=
  ⟨p.offset, p.offset + p.element.width⟩

end Place

mutual

/-- The places of an element in preorder. The element itself has the given index. -/
def placesFrom (index offset : Nat) (above : List Nat) : Stamped → List Place
  | .token s k t => [⟨offset, .token s k t, above⟩]
  | .node s k cs =>
    ⟨offset, .node s k cs, above⟩ :: placesOfAll (index + 1) offset (index :: above) cs

def placesOfAll (index offset : Nat) (above : List Nat) : List Stamped → List Place
  | [] => []
  | e :: es =>
    placesFrom index offset above e ++
      placesOfAll (index + e.size) (offset + e.width) above es

end

/-- Every place of a tree in preorder. -/
def places (root : Stamped) : List Place :=
  placesFrom 0 0 [] root

end Stamped

end RuleLang
