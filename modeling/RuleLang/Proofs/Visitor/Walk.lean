import RuleLang.Recipe.Basic

/-!
# Walking by recursion on the tree

A walk goes through the list of all its steps and drops those inside the nodes whose children are
passed over. It makes the same calls as a recursion on the tree: enter a node, then its children one
after another unless they are passed over, then leave the node; a call that stops is the last one.

## Main definitions

* `Visitor.walkFrom`, `Visitor.walkAll` — the walk of an element, and of the children of a node.
* `Recipe.LeavesQuietly` — the visitor of a recipe that does nothing more when it leaves a node.

## Main statements

* `Visitor.follow_eventsFrom` — the steps of an element make the calls of the recursion.
* `SyntaxTree.walk_eq` — a walk of a tree is the recursion from its root.
-/

namespace RuleLang

open Stamped

namespace Visitor

variable {σ : Type} (v : Visitor σ) (i : TreeIndex)

/-- After the call that leaves a node. -/
def leaving (p : Place) (w : Walk σ) : Walk σ :=
  w.after { v.leave ⟨i, p⟩ w.state with action := .descend }

mutual

/-- The walk of an element with the given preorder index. -/
def walkFrom (index offset : Nat) (above : List Nat) : Stamped → Walk σ → Walk σ
  | .token s k t, w => w.after (v.token ⟨i, ⟨offset, .token s k t, above⟩⟩ w.state)
  | .node s k cs, w =>
    let place : Place := ⟨offset, .node s k cs, above⟩
    let r := v.enter ⟨i, place⟩ w.state
    match r.action with
    | .stop => w.after r
    | .skipChildren => v.leaving i place (w.after r)
    | .descend =>
      let w := walkAll (index + 1) offset (index :: above) cs (w.after r)
      if w.stopped then w else v.leaving i place w

/-- The walk of elements that stand one after another, up to a stop. -/
def walkAll (index offset : Nat) (above : List Nat) : List Stamped → Walk σ → Walk σ
  | [], w => w
  | e :: es, w =>
    let w := walkFrom index offset above e w
    if w.stopped then w else walkAll (index + e.size) (offset + e.width) above es w

end

/-! ## Passing over -/

mutual

/-- The steps inside a node whose children are passed over make no calls. -/
theorem follow_some_eventsFrom (n : Nat) (w : Walk σ) (rest : List Event)
    (index offset : Nat) (above : List Nat) :
    (e : Stamped) →
      v.follow i (some n) w (e.eventsFrom index offset above ++ rest) =
        v.follow i (some n) w rest
  | .token s k t => by rw [eventsFrom, List.singleton_append, follow]
  | .node s k cs => by
    rw [eventsFrom, List.cons_append, follow, List.append_assoc,
      follow_some_eventsOfAll (n + 1) w _ _ _ _ cs, List.singleton_append, follow]

theorem follow_some_eventsOfAll (n : Nat) (w : Walk σ) (rest : List Event)
    (index offset : Nat) (above : List Nat) :
    (es : List Stamped) →
      v.follow i (some n) w (eventsOfAll index offset above es ++ rest) =
        v.follow i (some n) w rest
  | [] => rfl
  | e :: es => by
    rw [eventsOfAll, List.append_assoc, follow_some_eventsFrom n w _ _ _ _ e,
      follow_some_eventsOfAll n w _ _ _ _ es]

end

/-! ## The calls of a walk -/

/-- Goes on with the steps after a walk, unless it was stopped. -/
def resume (rest : List Event) (w : Walk σ) : Walk σ :=
  if w.stopped then w else v.follow i none w rest

theorem resume_leaving (p : Place) (w : Walk σ) (rest : List Event) :
    v.resume i rest (v.leaving i p w) = v.follow i none (v.leaving i p w) rest :=
  if_neg Bool.false_ne_true

mutual

/-- The steps of an element make the calls of the recursion. -/
theorem follow_eventsFrom (w : Walk σ) (rest : List Event) (index offset : Nat)
    (above : List Nat) :
    (e : Stamped) →
      v.follow i none w (e.eventsFrom index offset above ++ rest) =
        v.resume i rest (v.walkFrom i index offset above e w)
  | .token s k t => by
    rw [eventsFrom, List.singleton_append, follow, walkFrom, resume]
    simp only [Walk.after, beq_iff_eq]
  | .node s k cs => by
    rw [eventsFrom, List.cons_append, follow, List.append_assoc, List.singleton_append, walkFrom]
    -- entering decides whether the children are walked
    dsimp only
    generalize v.enter ⟨i, ⟨offset, .node s k cs, above⟩⟩ w.state = r
    cases hr : r.action with
    | stop => simp [resume, Walk.after, hr]
    | skipChildren =>
      dsimp only
      rw [follow_some_eventsOfAll v i, follow, resume_leaving]
      rfl
    | descend =>
      dsimp only
      have hrunning : (w.after r).stopped = false := by simp [Walk.after, hr]
      rw [follow_eventsOfAll _ _ _ _ _ cs hrunning, resume]
      split
      · rename_i hstopped
        rw [resume, if_pos hstopped]
      · rw [follow, resume_leaving]
        rfl

theorem follow_eventsOfAll (w : Walk σ) (rest : List Event) (index offset : Nat)
    (above : List Nat) :
    (es : List Stamped) → w.stopped = false →
      v.follow i none w (eventsOfAll index offset above es ++ rest) =
        v.resume i rest (v.walkAll i index offset above es w)
  | [], hw => by
    rw [eventsOfAll, List.nil_append, walkAll, resume, if_neg (by simp [hw])]
  | e :: es, hw => by
    rw [eventsOfAll, List.append_assoc, follow_eventsFrom _ _ _ _ _ e, walkAll, resume]
    split
    · rename_i hstopped
      rw [resume, if_pos hstopped]
    · rename_i hrunning
      rw [follow_eventsOfAll _ _ _ _ _ es (by simpa using hrunning)]

end

end Visitor

/-- A walk of a tree is the recursion from its root. -/
theorem SyntaxTree.walk_eq {σ : Type} (t : SyntaxTree) (v : Visitor σ) (s : σ) :
    t.walk v s = v.walkFrom t.index 0 0 [] t.root ⟨s, [], false⟩ := by
  have h := v.follow_eventsFrom t.index ⟨s, [], false⟩ [] 0 0 [] t.root
  rw [List.append_nil] at h
  rw [walk, Stamped.events, h, Visitor.resume, Visitor.follow]
  split <;> rfl

/-! ## Walks of recipes -/

namespace Recipe

/-- The visitor asks for nothing when it leaves a node. -/
def LeavesQuietly (v : Visitor Unit) : Prop :=
  ∀ visit s, v.leave visit s = react []

theorem after_react (w : Walk Unit) (edits : List Edit) (action : VisitAction) :
    w.after (react edits action) = ⟨(), w.edits ++ edits, action == .stop⟩ := rfl

variable {v : Visitor Unit} {i : TreeIndex} {index offset s : Nat} {above : List Nat} {k : Kind}
  {cs : List Stamped} {w : Walk Unit} {edits : List Edit}

theorem LeavesQuietly.leaving (h : LeavesQuietly v) (p : Place) (w : Walk Unit) :
    v.leaving i p w = ⟨(), w.edits, false⟩ := by
  rw [Visitor.leaving, h]
  simp [Walk.after, react]

/-- A node whose children are passed over. -/
theorem LeavesQuietly.walkFrom_of_skip (h : LeavesQuietly v)
    (henter : v.enter ⟨i, ⟨offset, .node s k cs, above⟩⟩ w.state = react edits .skipChildren) :
    v.walkFrom i index offset above (.node s k cs) w = ⟨(), w.edits ++ edits, false⟩ := by
  rw [Visitor.walkFrom, henter, after_react]
  exact h.leaving ..

/-- A node whose children are walked. -/
theorem LeavesQuietly.walkFrom_of_walkAll (h : LeavesQuietly v)
    (henter : v.enter ⟨i, ⟨offset, .node s k cs, above⟩⟩ w.state = react [])
    (hcs : v.walkAll i (index + 1) offset (index :: above) cs ⟨(), w.edits, false⟩ =
      ⟨(), edits, false⟩) :
    v.walkFrom i index offset above (.node s k cs) w = ⟨(), edits, false⟩ := by
  have hrunning : (VisitAction.descend == .stop) = false := rfl
  rw [Visitor.walkFrom, henter, after_react, hrunning]
  simp only [react, List.append_nil, hcs, h.leaving, Bool.false_eq_true, if_false]

end Recipe

end RuleLang
