import RuleLang.Proofs.Element.Prefixed
import RuleLang.Proofs.Lexer.Relex
import RuleLang.Proofs.Parser.Marked
import RuleLang.Proofs.Rewrite.MarkedWalk
import RuleLang.Recipe.CustomOperator

/-!
# Marks for custom operators

The recipe for custom operators walks a tree and asks for one edit at each identifier that is read as
an operator and lacks the mark `##`. Carried out, these edits give a tree with the text of the tree
with marks. The text that the recipe makes of a source without errors is read as the tree of the
source with these marks, and nothing is left to be done.

## Main definitions

* `operatorMarking` — the identifiers that lack a mark, to give way to a text with the mark.

## Main statements

* `Recipe.visit_customOperator` — the recipe asks for the edits for these identifiers.
* `length_marks_operatorMarking` — there are as many of them as operators that lack a mark.
* `text_changed_operatorMarking` — the edits give the text of the tree with marks.
* `Recipe.customOperator_reads_back` — what the recipe makes of a source without errors is read as the
  tree with marks, and needs no second run.
-/

namespace RuleLang

open Stamped Element

/-! ## The marks -/

/-- What an identifier that lacks its mark gives way to. -/
def Element.markEdit (e : Element) : Action :=
  .replace (.text ('#' :: '#' :: e.text))

/-- The identifiers that lack a mark. -/
def operatorChoice (custom : List Char → Bool) : ChildChoice where
  kind := .operator
  child? := unmarkedAt? custom
  lt_length h := by
    obtain ⟨pre, e, post, rfl, rfl, -⟩ := exists_of_unmarkedAt? h
    simp
  change := Element.markEdit
  hides := Kind.hidesOperators

/-- Identifiers that lack a mark are to give way to a text with the mark. -/
def operatorMarking (custom : List Char → Bool) : Marking ChildStance :=
  (operatorChoice custom).marking

namespace OperatorMarking

open ChildChoice

variable {custom : List Char → Bool}

theorem decide_operator (cs : List Element) :
    (operatorMarking custom).decide .outside (.node .operator cs) =
      .into (.at (unmarkedAt? custom cs)) := rfl

theorem decide_of_hides {k : Kind} (h : k.hidesOperators = true) (cs : List Element) :
    (operatorMarking custom).decide .outside (.node k cs) = .keep := by
  refine ChildChoice.decide_of_hides (q := operatorChoice custom) ?_ h cs
  rintro rfl
  cases h

theorem decide_node {k : Kind} (hk : k ≠ .operator) (h : k.hidesOperators = false)
    (cs : List Element) :
    (operatorMarking custom).decide .outside (.node k cs) = .into fun _ => .outside :=
  ChildChoice.decide_node (q := operatorChoice custom) hk h cs

/-! ### All operators -/

/-- The text of the tree after the edits is that of the tree with marks. -/
theorem text_operator (cs : List Element) :
    textOf (leavesOf ((operatorMarking custom).changedAll (.at (unmarkedAt? custom cs)) cs)) =
      textOf (leavesOf (prefixedOperator custom cs)) := by
  cases h : unmarkedAt? custom cs with
  | none => rw [operatorMarking, changedAll_none, prefixedOperator_of_none h]
  | some n =>
    obtain ⟨pre, e, post, rfl, rfl, hmark, hpre, he⟩ := exists_of_unmarkedAt? h
    rw [operatorMarking, changedAll_some, prefixedOperator_append hpre he hmark]
    simp [operatorChoice, Action.leavesOf_substitute, markEdit, Action.leaves, mark, textOf,
      Element.text]

mutual

theorem text_changed :
    (e : Element) → textOf (leavesOf ((operatorMarking custom).changed .outside e)) =
      textOf (prefixed custom e).leaves
  | .token k t => by
    rw [prefixed_token]
    rfl
  | .node k cs => by
    by_cases hk : k = .operator
    · subst hk
      rw [Marking.changed, decide_operator, prefixed_operator]
      simpa using text_operator cs
    · cases h : k.hidesOperators with
      | true =>
        rw [Marking.changed, decide_of_hides h, prefixed_of_hides h]
        simp
      | false =>
        rw [Marking.changed, decide_node hk h, prefixed_node hk h]
        simpa using textOf_changedAll cs

theorem textOf_changedAll :
    (es : List Element) →
      textOf (leavesOf ((operatorMarking custom).changedAll (fun _ => .outside) es)) =
        textOf (leavesOf (es.map (prefixed custom)))
  | [] => rfl
  | e :: es => by
    rw [Marking.changedAll, leavesOf_append, List.map_cons, leavesOf_cons, textOf, textOf,
      List.flatMap_append, List.flatMap_append]
    exact congrArg₂ _ (text_changed e) (textOf_changedAll es)

end

mutual

/-- There are as many marks as operators that lack one. -/
theorem length_marks (index : Nat) :
    (e : Element) → ((operatorMarking custom).marks .outside index e).length =
      (unmarked custom e).length
  | .token k t => by
    rw [unmarked]
    rfl
  | .node k cs => by
    by_cases hk : k = .operator
    · subst hk
      rw [Marking.marks, decide_operator, unmarked, if_pos rfl]
      cases h : unmarkedAt? custom cs with
      | none => simp [operatorMarking, marksOfAll_none]
      | some n =>
        obtain ⟨pre, e, post, rfl, rfl, -⟩ := exists_of_unmarkedAt? h
        simp [operatorMarking, marksOfAll_some]
    · cases h : k.hidesOperators with
      | true =>
        rw [Marking.marks, decide_of_hides h, unmarked, if_neg hk, if_pos h]
        rfl
      | false =>
        rw [Marking.marks, decide_node hk h, unmarked, if_neg hk, if_neg (by simp [h])]
        exact length_marksOfAll (index + 1) cs

theorem length_marksOfAll (index : Nat) :
    (es : List Element) →
      ((operatorMarking custom).marksOfAll (fun _ => .outside) index es).length =
        (unmarkedOf custom es).length
  | [] => by
    rw [unmarkedOf]
    rfl
  | e :: es => by
    rw [Marking.marksOfAll, unmarkedOf, List.length_append, List.length_append,
      length_marks index e, length_marksOfAll (index + e.size) es]

end

end OperatorMarking

/-! ## The calls -/

namespace Recipe

namespace CustomOperator

variable {extra : List String}

/-- Identifiers that are no operators of the language. -/
def isCustomName (extra : List String) (name : List Char) : Bool :=
  !isBuiltIn extra name

theorem operatorToken?_eq (v : Visit) :
    operatorToken? v = v.children.find? fun x => x.2.erase.namesOperator := by
  simp only [operatorToken?, namesOperator, isNode_erase, kind_erase]

theorem any_isMark (v : Visit) :
    (v.children.any fun x => !x.2.isNode && x.2.kind == .hashHash) =
      v.childElements.any isMark := by
  rw [Visit.childElements, List.any_map, List.any_map]
  refine congrArg (List.any v.children) (funext fun x => ?_)
  simp only [Function.comp, isMark, isNode_erase, kind_erase]

theorem isCustom_erase {e : Stamped} (h : e.erase.namesOperator = true) :
    e.erase.isCustom (isCustomName extra) = (e.kind == .ident && !isBuiltIn extra e.text) := by
  cases e with
  | token s k t => simp [erase, isCustom, Stamped.kind, Stamped.text, Element.text, isCustomName]
  | node s k cs => simp [erase, namesOperator, Element.isNode] at h

/-- The first token that names an operator is asked for, unless a mark stands in the operator or the
name is none of a custom operator. -/
theorem onOperator_eq (v : Visit) :
    onOperator extra v =
      react (((unmarkedAt? (isCustomName extra) v.childElements).map
        (v.editChild Element.markEdit)).getD []) .skipChildren := by
  rw [onOperator, operatorToken?_eq, Visit.find?_children, any_isMark, unmarkedAt?]
  cases hfind : v.childElements.findIdx? namesOperator with
  | none =>
    dsimp only [Option.bind_none]
    split <;> rfl
  | some n =>
    obtain ⟨x, hx, helement, hnames⟩ := Visit.exists_child hfind
    simp only [Option.bind_some, hx, helement, Option.filter_some, Option.any_some,
      isCustom_erase hnames]
    cases v.childElements.any isMark <;> cases x.2.kind == .ident <;>
      cases isBuiltIn extra x.2.text <;> simp [Visit.editChild, hx, markEdit, Stamped.text]

theorem enter_visitor (v : Visit) (s : Unit) :
    (visitor extra).enter v s =
      if v.place.element.kind = .operator then onOperator extra v
      else if v.place.element.kind.hidesOperators then react [] .skipChildren
      else react [] := by
  simp only [visitor]
  generalize v.place.element.kind = k
  cases k <;> rfl

/-- The visitor asks for the marks that are missing. -/
theorem chosen : (operatorChoice (isCustomName extra)).Chosen (visitor extra) where
  leave _ _ := rfl
  token _ _ := rfl
  choose v s hk := (enter_visitor v s).trans ((if_pos hk).trans (onOperator_eq v))
  skip v s hk h := (enter_visitor v s).trans ((if_neg hk).trans (if_pos h))
  descend v s hk h :=
    (enter_visitor v s).trans ((if_neg hk).trans (if_neg (Bool.eq_false_iff.1 h)))

end CustomOperator

variable {tree : SyntaxTree}

/-- The recipe asks for the edits for the marks. -/
theorem visit_customOperator (extra : List String)
    (hnodup : (tree.root.places.map Place.identity).Nodup) :
    (customOperator extra).visit tree =
      (operatorMarking (CustomOperator.isCustomName extra)).edits .outside tree :=
  (CustomOperator.chosen.directs hnodup).edits_walk rfl

end Recipe

/-! ## Reading back -/

namespace Recipe

open CustomOperator (isCustomName)

variable {tree : SyntaxTree}

/-- A batch of the edits of the recipe gives a tree with the text of the tree with marks. -/
theorem exists_apply_customOperator {s : Nat} {cs : List Stamped} (extra : List String)
    (config : RewriteConfig) (newId : TreeId) (hroot : tree.root = .node s .compilationUnit cs)
    (hnodup : (tree.root.places.map Place.identity).Nodup) :
    ∃ r, tree.apply config newId ((customOperator extra).visit tree) = .ok r ∧
      r.text = (tree.element.prefixed (isCustomName extra)).text ∧
      r.applied = ((customOperator extra).visit tree).length ∧ r.dropped = 0 ∧
      r.diagnostics = [] := by
  rw [visit_customOperator extra hnodup]
  have hdecide (a : Action) :
      (operatorMarking (isCustomName extra)).decide .outside tree.element ≠ .act a := by
    rw [SyntaxTree.element, hroot, erase,
      OperatorMarking.decide_node (by decide) (by decide)]
    simp
  obtain ⟨r, hok, helement, hcounts⟩ :=
    (operatorMarking (isCustomName extra)).exists_apply config newId .outside hroot hnodup hdecide
  refine ⟨r, hok, ?_, hcounts⟩
  have htext : _ = textOf (tree.element.prefixed (isCustomName extra)).leaves :=
    OperatorMarking.text_changed tree.element
  rw [← helement, Element.leavesOf_cons, Element.leavesOf_nil, List.append_nil] at htext
  exact htext

/-- The recipe asks for as many edits as operators lack a mark. -/
theorem length_visit_customOperator (extra : List String)
    (hnodup : (tree.root.places.map Place.identity).Nodup) :
    ((customOperator extra).visit tree).length =
      (tree.element.unmarked (isCustomName extra)).length := by
  rw [visit_customOperator extra hnodup, Marking.edits, List.length_map,
    OperatorMarking.length_marks]

/-- One visit and one batch on the tree of a source without errors. All edits are carried out, one for
each operator that lacks a mark. The text is read without errors, as the tree of the source with a mark
directly before each identifier that lacks it. Then no mark is missing, and a second visit asks for
nothing. -/
theorem customOperator_reads_back (extra : List String) (config : RewriteConfig)
    (id newId : TreeId) (sourceId : String) {source : List Char}
    (hlex : (parse source).lexErrors = []) (hclean : IsClean (parse source).syntaxErrors) :
    let before := SyntaxTree.ofElement id sourceId (parse source).root
    ∃ r, before.apply config newId ((customOperator extra).visit before) = .ok r ∧
      r.applied = ((parse source).root.unmarked (isCustomName extra)).length ∧ r.dropped = 0 ∧
      r.diagnostics = [] ∧
      (parse r.text).root = (parse source).root.prefixed (isCustomName extra) ∧
      (parse r.text).lexErrors = [] ∧ IsClean (parse r.text).syntaxErrors ∧
      (parse r.text).root.unmarked (isCustomName extra) = [] ∧
      ∀ id' newId' sourceId', let again := SyntaxTree.ofElement id' sourceId' (parse r.text).root
        (customOperator extra).visit again = [] ∧
          ∃ r', again.apply config newId' [] = .ok r' ∧ r'.text = r.text := by
  intro before
  obtain ⟨s, cs, hroot⟩ := SyntaxTree.exists_root_ofElement id sourceId source none
  have hnodup := SyntaxTree.nodup_ofElement id sourceId source none
  obtain ⟨r, hok, htext, happlied, hdropped, hdiagnostics⟩ :=
    @exists_apply_customOperator before s cs extra config newId hroot hnodup
  have helement : before.element = (parse source).root := erase_stampFrom 0 _ _
  rw [length_visit_customOperator extra hnodup] at happlied
  rw [helement] at htext happlied
  obtain ⟨hparse, hlex', hclean'⟩ := parse_prefixed (isCustomName extra) hlex hclean
  rw [← htext] at hparse hlex' hclean'
  have hunmarked : (parse r.text).root.unmarked (isCustomName extra) = [] := by
    rw [hparse]
    exact Element.unmarked_prefixed _
  refine ⟨r, hok, happlied, hdropped, hdiagnostics, hparse, hlex', hclean', hunmarked,
    fun id' newId' sourceId' => ?_⟩
  obtain ⟨s', cs', hroot'⟩ := SyntaxTree.exists_root_ofElement id' sourceId' r.text none
  have hnodup' := SyntaxTree.nodup_ofElement id' sourceId' r.text none
  have hafter : (SyntaxTree.ofElement id' sourceId' (parse r.text).root).element =
      (parse r.text).root := erase_stampFrom 0 _ _
  have hnone : (customOperator extra).visit
      (SyntaxTree.ofElement id' sourceId' (parse r.text).root) = [] := by
    rw [← List.length_eq_zero_iff, length_visit_customOperator extra hnodup', hafter, hunmarked]
    rfl
  obtain ⟨r', hok', htext', -⟩ :=
    exists_apply_customOperator extra config newId' hroot' hnodup'
  rw [hnone] at hok'
  rw [hafter, Element.prefixed_of_unmarked _ hunmarked] at htext'
  exact ⟨hnone, r', hok', htext'.trans (text_parse r.text none)⟩

/-- In `A(x foo 1, y contains 2)` the mark is missing before `foo`, and before nothing else. -/
theorem customOperator_reads_back_foo :
    ∃ r, (SyntaxTree.ofElement 0 ""
        (parse "rule R when A(x foo 1, y contains 2) then end".toList).root).apply {} 1
          ((customOperator []).visit (.ofElement 0 ""
            (parse "rule R when A(x foo 1, y contains 2) then end".toList).root)) = .ok r ∧
      r.applied = 1 ∧ r.text = "rule R when A(x ##foo 1, y contains 2) then end".toList ∧
      (parse r.text).root.unmarked (isCustomName []) = [] := by
  have hclean :
      IsClean (parse "rule R when A(x foo 1, y contains 2) then end".toList).syntaxErrors :=
    List.all_eq_true.1 (by decide +kernel)
  obtain ⟨r, hok, happlied, -, -, hparse, -, -, hunmarked, -⟩ :=
    customOperator_reads_back [] {} 0 1 "" (by decide +kernel) hclean
  refine ⟨r, hok, ?_, ?_, hunmarked⟩
  · rw [happlied]
    decide +kernel
  · rw [← text_parse r.text none, hparse]
    decide +kernel

end Recipe

end RuleLang
