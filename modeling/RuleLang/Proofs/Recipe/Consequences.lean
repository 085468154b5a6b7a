import RuleLang.Proofs.Recipe.CustomOperator
import RuleLang.Proofs.Recipe.LhsLogical

/-!
# Consequences stay untouched

The recipes that work on the conditions of a rule neither move, make nor drop a consequence. What they
put into a text is no `then` and no action, and where it does not run together with its neighbours, all
other tokens are what they were.

## Main definitions

* `consequencesOf` — the `then` keywords and the actions among some leaves.

## Main statements

* `Recipe.consequences_kept` — one visit and one batch leave the consequences of a text as they are.
-/

namespace RuleLang

open Stamped

/-- The `then` keywords and the actions among some leaves, in order. -/
def consequencesOf (ls : List Leaf) : List Leaf :=
  ls.filter fun l => l.kind == .thenKw || l.kind == .actionText

theorem consequencesOf_append (xs ys : List Leaf) :
    consequencesOf (xs ++ ys) = consequencesOf xs ++ consequencesOf ys :=
  List.filter_append xs ys

/-- Words in the place of symbols are no consequences. -/
theorem consequencesOf_respelled {ls ls' : List Leaf} (h : List.Forall₂ Leaf.Respelled ls ls') :
    consequencesOf ls' = consequencesOf ls := by
  induction h with
  | nil => rfl
  | @cons l l' ls ls' hl _ ih =>
    have hl : consequencesOf [l'] = consequencesOf [l] := by
      rcases hl with rfl | ⟨hk, rfl⟩
      · rfl
      · rcases hk with hk | hk <;> simp [consequencesOf, hk, Leaf.word, Kind.joinWord]
    rw [← List.singleton_append, consequencesOf_append, hl, ih, ← consequencesOf_append,
      List.singleton_append]

/-! ## Marks -/

variable {custom : List Char → Bool}

theorem consequencesOf_prefixedOperator (cs : List Element) :
    consequencesOf (Element.leavesOf (Element.prefixedOperator custom cs)) =
      consequencesOf (Element.leavesOf cs) := by
  cases h : Element.unmarkedAt? custom cs with
  | none => rw [Element.prefixedOperator_of_none h]
  | some n =>
    obtain ⟨pre, e, post, rfl, -, hmark, hpre, he⟩ := Element.exists_of_unmarkedAt? h
    have hnone : consequencesOf Element.mark.leaves = [] := rfl
    rw [Element.prefixedOperator_append hpre he hmark]
    simp only [Element.leavesOf_append, Element.leavesOf_cons, consequencesOf_append, hnone,
      List.nil_append]

mutual

/-- Marks are no consequences. -/
theorem consequencesOf_prefixed :
    (e : Element) → consequencesOf (e.prefixed custom).leaves = consequencesOf e.leaves
  | .token k t => by rw [Element.prefixed_token]
  | .node k cs => by
    by_cases hk : k = .operator
    · subst hk
      rw [Element.prefixed_operator, Element.leaves_node, Element.leaves_node]
      exact consequencesOf_prefixedOperator cs
    · cases h : k.hidesOperators with
      | true => rw [Element.prefixed_of_hides h]
      | false =>
        rw [Element.prefixed_node hk h, Element.leaves_node, Element.leaves_node]
        exact consequencesOf_prefixedAll cs

theorem consequencesOf_prefixedAll :
    (es : List Element) →
      consequencesOf (Element.leavesOf (es.map (Element.prefixed custom))) =
        consequencesOf (Element.leavesOf es)
  | [] => rfl
  | e :: es => by
    rw [List.map_cons, Element.leavesOf_cons, Element.leavesOf_cons, consequencesOf_append,
      consequencesOf_append, consequencesOf_prefixed e, consequencesOf_prefixedAll es]

end

/-! ## Texts -/

/-- Texts with the same consequences in their trees have the same consequences. -/
theorem consequencesOf_lex {source text : List Char} {ls : List Leaf}
    (htext : (lex text).tokens.map Token.leaf = ls ++ [⟨.eof, []⟩])
    (hls : consequencesOf ls = consequencesOf (parse source).root.leaves) :
    consequencesOf ((lex text).tokens.map Token.leaf) =
      consequencesOf ((lex source).tokens.map Token.leaf) := by
  rw [htext, map_leaf_lex source none, consequencesOf_append, consequencesOf_append, hls]

namespace Recipe

/-- One visit and one batch on the tree of a source without errors. The recipe for custom operators
leaves all `then` keywords and actions as they are. So does the recipe for symbols between conditions,
unless a word that it puts in the place of a symbol runs together with its neighbours. -/
theorem consequences_kept (extra : List String) (config : RewriteConfig) (id newId : TreeId)
    (sourceId : String) {source : List Char} (hlex : (parse source).lexErrors = [])
    (hclean : IsClean (parse source).syntaxErrors) :
    let before := SyntaxTree.ofElement id sourceId (parse source).root
    (∃ r, before.apply config newId ((customOperator extra).visit before) = .ok r ∧
      consequencesOf ((lex r.text).tokens.map Token.leaf) =
        consequencesOf ((lex source).tokens.map Token.leaf)) ∧
    ∃ r, before.apply config newId (lhsLogical.visit before) = .ok r ∧
      r.tree.element = before.element.spelled .compilationUnit ∧
      (Detached [] before.element.leaves r.tree.element.leaves →
        consequencesOf ((lex r.text).tokens.map Token.leaf) =
          consequencesOf ((lex source).tokens.map Token.leaf)) := by
  intro before
  obtain ⟨s, cs, hroot⟩ := SyntaxTree.exists_root_ofElement id sourceId source none
  have hnodup := SyntaxTree.nodup_ofElement id sourceId source none
  have hbefore : before.element = (parse source).root := erase_stampFrom 0 _ _
  refine ⟨?_, ?_⟩
  · obtain ⟨r, hok, htext, -⟩ :=
      @exists_apply_customOperator before s cs extra config newId hroot hnodup
    obtain ⟨hparse, -, -⟩ := parse_prefixed (CustomOperator.isCustomName extra) hlex hclean
    rw [hbefore] at htext
    rw [← htext] at hparse
    refine ⟨r, hok, consequencesOf_lex (map_leaf_lex r.text none) ?_⟩
    rw [hparse, consequencesOf_prefixed]
  · obtain ⟨r, hok, helement, -⟩ :=
      @exists_apply_lhsLogical before s cs config newId hroot hnodup
    refine ⟨r, hok, helement, fun hdetached => ?_⟩
    rw [helement, hbefore] at hdetached
    have hrespelled := respelled_leaves .compilationUnit (parse source).root
    obtain ⟨hleaves, -⟩ := lexes_iff_lex.1 (hdetached.lexes hrespelled (lexes_parse hlex))
    have htext : r.text = textOf ((parse source).root.spelled .compilationUnit).leaves := by
      rw [show r.text = r.tree.element.text from rfl, helement, hbefore]
      rfl
    rw [← htext] at hleaves
    exact consequencesOf_lex hleaves (consequencesOf_respelled hrespelled)

/-- In `A() && B()` the word stands apart. -/
theorem consequences_kept_apart :
    ∃ r, (SyntaxTree.ofElement 0 ""
        (parse "rule R when A() && B() then foo(); end".toList).root).apply {} 1
          (lhsLogical.visit (.ofElement 0 ""
            (parse "rule R when A() && B() then foo(); end".toList).root)) = .ok r ∧
      consequencesOf ((lex r.text).tokens.map Token.leaf) =
        [⟨.thenKw, "then".toList⟩, ⟨.actionText, "foo();".toList⟩] := by
  have hclean : IsClean (parse "rule R when A() && B() then foo(); end".toList).syntaxErrors :=
    List.all_eq_true.1 (by decide +kernel)
  obtain ⟨-, r, hok, helement, hkept⟩ := consequences_kept [] {} 0 1 "" (by decide +kernel) hclean
  refine ⟨r, hok, (hkept ?_).trans (by decide +kernel)⟩
  rw [helement]
  decide +kernel

end Recipe

end RuleLang
