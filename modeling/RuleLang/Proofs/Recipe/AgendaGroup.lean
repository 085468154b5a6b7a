import RuleLang.Proofs.Rewrite.MarkedWalk
import RuleLang.Recipe.AgendaGroup

/-!
# The edits for agenda groups

The recipe for agenda groups asks for one edit at each attribute that starts with the old key.

## Main definitions

* `agendaChoice` — the key of an attribute, to give way to the new one.

## Main statements

* `Recipe.visit_agendaGroup` — the recipe asks for the edits for these keys.
-/

namespace RuleLang

open Stamped Element

/-- A token that is not trivia. -/
def Element.isSignificant (e : Element) : Bool :=
  !e.isNode && !e.kind.isTrivia

/-- Where the old key stands among the children of an attribute. -/
def agendaKeyAt? (cs : List Element) : Option Nat :=
  (cs.findIdx? isSignificant).filter fun n => cs[n]?.any fun e => e.kind == .agendaGroupKw

/-- The keys that give way to the new one. -/
def agendaChoice : ChildChoice where
  kind := .attribute
  child? := agendaKeyAt?
  lt_length h := by
    obtain ⟨hn, -⟩ := Option.filter_eq_some_iff.1 h
    exact (List.findIdx?_eq_some_iff_getElem.1 hn).1
  change _ := Recipe.AgendaGroup.key
  hides k := k == .whenClause || k == .thenClause

namespace Recipe

namespace AgendaGroup

theorem firstSignificant?_eq (v : Visit) :
    firstSignificant? v = v.children.find? fun x => x.2.erase.isSignificant := by
  simp only [firstSignificant?, isSignificant, isNode_erase, kind_erase]

theorem onAttribute_eq (v : Visit) (s : Unit) :
    onAttribute v s =
      react (((agendaKeyAt? v.childElements).map (v.editChild fun _ => key)).getD [])
        .skipChildren := by
  rw [onAttribute, firstSignificant?_eq, Visit.find?_children, agendaKeyAt?]
  cases hfind : v.childElements.findIdx? isSignificant with
  | none => rfl
  | some n =>
    obtain ⟨x, hx, helement, -⟩ := Visit.exists_child hfind
    simp only [Option.bind_some, hx, helement, Option.filter_some, Option.any_some, kind_erase]
    cases x.2.kind == .agendaGroupKw <;> simp [Visit.editChild, hx]

theorem enter_visitor (v : Visit) (s : Unit) :
    visitor.enter v s =
      if v.place.element.kind = .attribute then onAttribute v s
      else if v.place.element.kind == .whenClause || v.place.element.kind == .thenClause then
        react [] .skipChildren
      else react [] := by
  simp only [visitor, Visitor.ofHooks, Visitor.runHooks]
  generalize v.place.element.kind = k
  cases k <;> rfl

/-- The visitor asks for the keys that give way. -/
theorem chosen : agendaChoice.Chosen visitor where
  leave v s := by
    simp only [visitor, Visitor.ofHooks, Visitor.runHooks]
    generalize v.place.element.kind = k
    cases k <;> rfl
  token v s := by
    simp only [visitor, Visitor.ofHooks, Visitor.runHooks]
    generalize v.place.element.kind = k
    cases k <;> rfl
  choose v s hk := (enter_visitor v s).trans ((if_pos hk).trans (onAttribute_eq v s))
  skip v s hk h := (enter_visitor v s).trans ((if_neg hk).trans (if_pos h))
  descend v s hk h :=
    (enter_visitor v s).trans ((if_neg hk).trans (if_neg (Bool.eq_false_iff.1 h)))

end AgendaGroup

/-- The recipe asks for the edits for the keys that give way. -/
theorem visit_agendaGroup {tree : SyntaxTree}
    (hnodup : (tree.root.places.map Place.identity).Nodup) :
    agendaGroup.visit tree = agendaChoice.marking.edits .outside tree :=
  (AgendaGroup.chosen.directs hnodup).edits_walk rfl

end Recipe

end RuleLang
