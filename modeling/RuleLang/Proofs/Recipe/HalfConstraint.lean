import RuleLang.Proofs.Element.Prefixed
import RuleLang.Proofs.Rewrite.MarkedWalk
import RuleLang.Recipe.HalfConstraint

/-!
# The edits for half constraints

The recipe for half constraints walks a tree and asks for one edit at each comparison without left
operand for which it finds an anchor. The anchor is found by way of the nodes above.

## Main definitions

* `halfMarking` — the comparisons that are filled in.

## Main statements

* `Recipe.visit_halfConstraint` — the recipe asks for the edits for these comparisons.
-/

namespace RuleLang

open Stamped Recipe.HalfConstraint

/-! ## The marks -/

/-- What a comparison without left operand gives way to, below the given nodes. -/
def halfEdit? (e : Element) (above : List Element) : Option Action :=
  (anchorOperand? e (above.takeWhile isLogical)).map fun operand =>
    .replace (replacement (operand ++ ' ' :: e.text))

/-- Comparisons without left operand are to be filled in. What is known of an element are the nodes
above it, the nearest first. -/
def halfMarking : Marking (List Element) where
  decide above
    | .token _ _ => .keep
    | .node k cs =>
      if k = .halfConstraint then ((halfEdit? (.node k cs) above).map .act).getD .keep
      else if k.hidesOperators then .keep
      else .into fun _ => .node k cs :: above

namespace HalfMarking

theorem decide_half (above : List Element) (cs : List Element) :
    halfMarking.decide above (.node .halfConstraint cs) =
      ((halfEdit? (.node .halfConstraint cs) above).map .act).getD .keep := rfl

theorem decide_of_hides {k : Kind} (h : k.hidesOperators = true) (above cs : List Element) :
    halfMarking.decide above (.node k cs) = .keep := by
  have hk : k ≠ .halfConstraint := by
    rintro rfl
    cases h
  simp [halfMarking, hk, h]

theorem decide_node {k : Kind} (hk : k ≠ .halfConstraint) (h : k.hidesOperators = false)
    (above cs : List Element) :
    halfMarking.decide above (.node k cs) = .into fun _ => .node k cs :: above := by
  simp [halfMarking, hk, h]

end HalfMarking

namespace Recipe

namespace HalfConstraint

/-! ## The calls -/

theorem enter_visitor (v : Visit) (s : Unit) :
    visitor.enter v s =
      if v.place.element.kind = .halfConstraint then onHalf v
      else if v.place.element.kind.hidesOperators then react [] .skipChildren
      else react [] := by
  simp only [visitor]
  generalize v.place.element.kind = k
  cases k <;> rfl

theorem onHalf_eq (v : Visit) :
    onHalf v =
      react (((halfEdit? v.element v.ancestors).map v.editHere).getD []) .skipChildren := by
  rw [onHalf, Visit.ancestorsWhile_eq, halfEdit?]
  cases anchorOperand? v.element (v.ancestors.takeWhile isLogical) <;> rfl

/-! ## The walk -/

variable {tree : SyntaxTree}

/-- The nodes that stand at some indices. -/
def nodesAt (tree : SyntaxTree) (above : List Nat) : List Element :=
  above.filterMap fun n => tree.index.places[n]?.map fun p => p.element.erase

theorem nodesAt_cons {index offset s : Nat} {above : List Nat} {k : Kind} {cs : List Stamped}
    (h : tree.root.places[index]? = some ⟨offset, .node s k cs, above⟩) :
    nodesAt tree (index :: above) = .node k (cs.map erase) :: nodesAt tree above := by
  have hplace : tree.index.places[index]? = some ⟨offset, .node s k cs, above⟩ := by
    simpa [SyntaxTree.index] using h
  rw [nodesAt, List.filterMap_cons, hplace, Option.map_some, erase, eraseAll_eq_map]
  rfl

/-- The edit of a comparison is the one for its mark. -/
theorem edits_half (hnodup : (tree.root.places.map Place.identity).Nodup)
    {index offset s : Nat} {above : List Nat} {cs : List Stamped}
    (h : Listed tree.root index (placesFrom index offset above (.node s .halfConstraint cs))) :
    let v : Visit := ⟨tree.index, ⟨offset, .node s .halfConstraint cs, above⟩⟩
    ((halfEdit? v.element v.ancestors).map v.editHere).getD [] =
      (halfMarking.marks (nodesAt tree above) index (.node .halfConstraint (cs.map erase))).map
        (Mark.edit tree.id) := by
  intro v
  have helement : v.element = .node .halfConstraint (cs.map erase) := by
    rw [Visit.element, erase, eraseAll_eq_map]
  have hhandle := TreeIndex.handleOf?_identity (i := tree.index)
    (by simpa [SyntaxTree.index] using hnodup) (by simpa [SyntaxTree.index] using h.here)
  rw [Marking.marks, HalfMarking.decide_half, helement,
    show v.ancestors = nodesAt tree above from rfl]
  cases halfEdit? (.node .halfConstraint (cs.map erase)) (nodesAt tree above) with
  | none => rfl
  | some a =>
    rw [Option.map_some, Option.getD_some, Visit.editHere, Visit.edit, hhandle]
    rfl

/-- The visitor decides on elements as the marking does. -/
theorem directs (hnodup : (tree.root.places.map Place.identity).Nodup) :
    halfMarking.Directs tree (fun c above => c = nodesAt tree above) visitor where
  leave _ _ := rfl
  token _ _ := rfl
  node := by
    rintro _ index offset s above k cs rfl h
    have henter := enter_visitor ⟨tree.index, ⟨offset, .node s k cs, above⟩⟩ ()
    by_cases hk : k = .halfConstraint
    · subst hk
      rw [← edits_half hnodup h]
      exact .inl (henter.trans ((if_pos rfl).trans (onHalf_eq _)))
    cases hhides : k.hidesOperators with
    | true =>
      rw [Marking.marks, HalfMarking.decide_of_hides hhides]
      exact .inl (henter.trans ((if_neg hk).trans (if_pos hhides)))
    | false =>
      exact .inr ⟨_, HalfMarking.decide_node hk hhides _ _, fun _ => (nodesAt_cons h.here).symm,
        henter.trans ((if_neg hk).trans (if_neg (Bool.eq_false_iff.1 hhides)))⟩

end HalfConstraint

/-- The recipe asks for the edits for the comparisons that are filled in. -/
theorem visit_halfConstraint {tree : SyntaxTree}
    (hnodup : (tree.root.places.map Place.identity).Nodup) :
    halfConstraint.visit tree = halfMarking.edits [] tree :=
  (HalfConstraint.directs hnodup).edits_walk rfl

end Recipe

end RuleLang
