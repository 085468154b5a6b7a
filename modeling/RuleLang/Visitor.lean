import RuleLang.Rewrite.Edit
import RuleLang.Tree.SyntaxTree

/-!
# Visiting trees

A visitor looks at the elements of a tree in source order: at a node before and after its children,
and at every token. It changes nothing; it asks for edits.

## Main definitions

* `VisitAction` — go on, skip the children, or stop.
* `Visitor`, `Reaction` — a visitor with a state, and what a call of it gives.
* `Event`, `Stamped.events` — the calls that a full walk makes, in order.
* `SyntaxTree.walk` — walking a tree, with the children of some nodes skipped, up to a stop.
* `Hook`, `Visitor.ofHooks` — visitors put together from reactions to single kinds.
-/

namespace RuleLang

open Stamped

inductive VisitAction where
  /-- Descend into the children. -/
  | descend
  /-- Pass over the children. -/
  | skipChildren
  /-- End the walk. -/
  | stop
  deriving DecidableEq, Repr, Inhabited

namespace VisitAction

def strength : VisitAction → Nat
  | .descend => 0
  | .skipChildren => 1
  | .stop => 2

/-- The stronger of two actions. -/
def merge (a b : VisitAction) : VisitAction :=
  if a.strength ≤ b.strength then b else a

end VisitAction

/-- What a visitor sees: a place, and the tree around it. -/
structure Visit where
  index : TreeIndex
  place : Place

namespace Visit

def element (v : Visit) : Element :=
  v.place.element.erase

/-- The nodes above the place, the nearest first. -/
def ancestors (v : Visit) : List Element :=
  v.place.above.filterMap fun n => v.index.places[n]?.map fun p => p.element.erase

/-- The nodes above the place, the nearest first, up to one that does not satisfy `p`. -/
def ancestorsWhile (p : Element → Bool) (v : Visit) : List Element :=
  go v.place.above
where
  go : List Nat → List Element
    | [] => []
    | n :: ns =>
      match v.index.places[n]? with
      | none => go ns
      | some q =>
        let e := q.element.erase
        if p e then e :: go ns else []

theorem ancestorsWhile_eq (p : Element → Bool) (v : Visit) :
    v.ancestorsWhile p = v.ancestors.takeWhile p := by
  unfold ancestorsWhile ancestors
  induction v.place.above with
  | nil => rfl
  | cons n ns ih =>
    unfold ancestorsWhile.go
    cases hq : v.index.places[n]? with
    | none => simp [hq, ih]
    | some q => by_cases h : p q.element.erase <;> simp [hq, h, ih]

/-- The children with their identities. -/
def children (v : Visit) : List (Identity × Stamped) :=
  match v.place.element with
  | .token _ _ _ => []
  | .node _ _ cs => go v.place.offset cs
where
  go (offset : Nat) : List Stamped → List (Identity × Stamped)
    | [] => []
    | c :: cs => (⟨c.stamp, offset⟩, c) :: go (offset + c.width) cs

/-- An edit of the element with an identity. -/
def edit (v : Visit) (identity : Identity) (action : Action) : List Edit :=
  ((v.index.handleOf? identity).map fun h => Edit.mk h action).toList

/-- An edit of the visited element itself. -/
def editHere (v : Visit) (action : Action) : List Edit :=
  v.edit v.place.identity action

end Visit

/-- What one call of a visitor gives. -/
structure Reaction (σ : Type) where
  state : σ
  edits : List Edit := []
  action : VisitAction := .descend

/-- The calls get the state that the calls before them left. -/
structure Visitor (σ : Type) where
  /-- At a node, before its children. -/
  enter : Visit → σ → Reaction σ := fun _ s => { state := s }
  /-- At a node, after its children. The action has no effect. -/
  leave : Visit → σ → Reaction σ := fun _ s => { state := s }
  /-- At a token. Only stopping has an effect. -/
  token : Visit → σ → Reaction σ := fun _ s => { state := s }

/-! ## Walking -/

/-- A step of a full walk. -/
inductive Event where
  | enter (place : Place)
  | token (place : Place)
  | leave (place : Place)
  deriving Repr

mutual

/-- The steps of a full walk of an element whose preorder index is `index`. -/
def Stamped.eventsFrom (index offset : Nat) (above : List Nat) : Stamped → List Event
  | .token s k t => [.token ⟨offset, .token s k t, above⟩]
  | .node s k cs =>
    let place : Place := ⟨offset, .node s k cs, above⟩
    .enter place :: (Stamped.eventsOfAll (index + 1) offset (index :: above) cs ++ [.leave place])

def Stamped.eventsOfAll (index offset : Nat) (above : List Nat) : List Stamped → List Event
  | [] => []
  | e :: es =>
    Stamped.eventsFrom index offset above e ++
      Stamped.eventsOfAll (index + e.size) (offset + e.width) above es

end

/-- The steps of a full walk of a tree. -/
def Stamped.events (root : Stamped) : List Event :=
  root.eventsFrom 0 0 []

structure Walk (σ : Type) where
  state : σ
  edits : List Edit
  stopped : Bool

namespace Walk

variable {σ : Type}

/-- After one more call. -/
def after (w : Walk σ) (r : Reaction σ) : Walk σ :=
  ⟨r.state, w.edits ++ r.edits, r.action == .stop⟩

end Walk

namespace Visitor

variable {σ : Type}

/-- Goes through the steps of a walk. The children of a node are passed over by dropping the steps
inside: as many nodes as were entered in the meantime have to be left first. -/
def follow (v : Visitor σ) (index : TreeIndex) : Option Nat → Walk σ → List Event → Walk σ
  | _, w, [] => w
  | some n, w, .enter _ :: es => follow v index (some (n + 1)) w es
  | some n, w, .token _ :: es => follow v index (some n) w es
  | some (n + 1), w, .leave _ :: es => follow v index (some n) w es
  | some 0, w, .leave p :: es =>
    let w := w.after { v.leave ⟨index, p⟩ w.state with action := .descend }
    follow v index none w es
  | none, w, .enter p :: es =>
    let r := v.enter ⟨index, p⟩ w.state
    match r.action with
    | .descend => follow v index none (w.after r) es
    | .skipChildren => follow v index (some 0) (w.after r) es
    | .stop => w.after r
  | none, w, .token p :: es =>
    let r := v.token ⟨index, p⟩ w.state
    if r.action = .stop then w.after r else follow v index none (w.after r) es
  | none, w, .leave p :: es =>
    let w := w.after { v.leave ⟨index, p⟩ w.state with action := .descend }
    follow v index none w es

end Visitor

/-- Walks a tree in source order. -/
def SyntaxTree.walk {σ : Type} (t : SyntaxTree) (v : Visitor σ) (s : σ) : Walk σ :=
  v.follow t.index none ⟨s, [], false⟩ t.root.events

/-! ## Hooks -/

/-- When a hook is called. -/
inductive HookPoint where
  | enter | leave | token
  deriving DecidableEq, Repr

/-- A reaction to the elements of one kind. -/
structure Hook (σ : Type) where
  point : HookPoint
  kind : Kind
  run : Visit → σ → Reaction σ

namespace Visitor

variable {σ : Type}

/-- Calls all hooks for a point and a kind, in order; the strongest action decides. -/
def runHooks (hooks : List (Hook σ)) (point : HookPoint) (v : Visit) (s : σ) : Reaction σ :=
  (hooks.filter fun h => h.point == point && h.kind == v.place.element.kind).foldl
    (fun r h =>
      let next := h.run v r.state
      ⟨next.state, r.edits ++ next.edits, r.action.merge next.action⟩)
    { state := s }

/-- The visitor that calls hooks in the order of the list. -/
def ofHooks (hooks : List (Hook σ)) : Visitor σ where
  enter := runHooks hooks .enter
  leave := runHooks hooks .leave
  token := runHooks hooks .token

end Visitor

end RuleLang
