import RuleLang.Proofs.Grammar.Transfer
import RuleLang.Proofs.Lexer.Relex
import RuleLang.Proofs.Parser.Lossless

/-!
# The tree of changed tokens

A source without errors is changed in its tree. The tokens of the changed tree are then parsed as the
changed tree, and again without errors, if all productions read the changed tokens.

## Main definitions

* `IsClean` — syntax errors that are warnings.

## Main statements

* `Correspondence.parseTokens_eq` — the tokens of the changed tree are parsed as the changed tree.
* `parse_of_lexes` — a text is read as a tree if its tokens are.
-/

namespace RuleLang

open Grammar

/-- Nothing but warnings. -/
def IsClean (errors : List SyntaxError) : Prop :=
  ∀ e ∈ errors, e.isWarning = true

theorem noErrors_start (tokens : List Token) : NoErrors (.start tokens none) :=
  fun _ he => absurd he List.not_mem_nil

/-- What reading a token list without complaint gives. -/
theorem Accepted.parseTokens_eq {tokens : List Token} {e : Token} {root : Element}
    (h : Accepted Production.body (.call .compilationUnit) ⟨tokens, []⟩ ⟨[e], [root]⟩) :
    (parseTokens tokens none).1 = root ∧ IsClean (parseTokens tokens none).2 := by
  obtain ⟨t, ht⟩ := Accepted.follows (s := .start tokens none) ⟨rfl, rfl⟩ h
  obtain ⟨u, hu, -⟩ := Production.exists_read? .compilationUnit none tokens nofun
  obtain rfl := ht.reads.unique (reads_of_enter hu)
  have hread : Production.compilationUnit.read none tokens = t := by
    simp [Production.read, hu]
  have hgroup : t.group = [root] := congrArg Point.group ht.point
  refine ⟨by simp [parseTokens, hread, Reading.elements, hgroup], fun e he => ?_⟩
  simp only [parseTokens, hread, Reading.recorded, List.mem_reverse] at he
  exact ht.noErrors (noErrors_start tokens) e he

/-- Reading a token list without complaint keeps its tokens. -/
theorem Accepted.leaves_eq {init : List Token} {e : Token} {root : Element}
    (h : Accepted Production.body (.call .compilationUnit) ⟨init ++ [e], []⟩ ⟨[e], [root]⟩) :
    root.leaves = init.map Token.leaf := by
  obtain ⟨t, ht⟩ := Accepted.follows (s := .start (init ++ [e]) none) ⟨rfl, rfl⟩ h
  obtain ⟨taken, htaken, -, hleaves⟩ := ht.reads.keeps
  have hahead : t.ahead = [e] := congrArg Point.ahead ht.point
  have hgroup : t.group = [root] := congrArg Point.group ht.point
  rw [hahead] at htaken
  obtain rfl : init = taken := List.append_cancel_right htaken
  simpa [hgroup, Reading.start] using hleaves

/-- A token list without errors is read without complaint. -/
theorem Ended.accepted {tokens init : List Token} {e : Token} (h : Ended tokens init e)
    (hclean : IsClean (parseTokens tokens none).2) :
    Accepted Production.body (.call .compilationUnit) ⟨tokens, []⟩
      ⟨[e], [(parseTokens tokens none).1]⟩ := by
  obtain ⟨t, children, ht, helements, hahead, -⟩ := exists_read_compilationUnit h none
  have hread : Production.compilationUnit.read none tokens = t := by
    simp [Production.read, ht]
  have hgroup : t.group = [(parseTokens tokens none).1] := by
    have : t.group.reverse = [.node .compilationUnit children] := helements
    simp [parseTokens, hread, helements, List.reverse_eq_iff.1 this]
  have herrors : NoErrors t := fun e he => hclean e (by
    simpa [parseTokens, hread, Reading.recorded] using he)
  obtain ⟨-, hacc⟩ := (reads_of_enter ht).accepted (s := .start tokens none) ⟨rfl, rfl⟩ herrors
  have hpoint : t.point = ⟨[e], [(parseTokens tokens none).1]⟩ := by
    rw [Reading.point, hahead, hgroup]
  exact hpoint ▸ hacc

/-- All leaves are those of some tokens. -/
theorem exists_map_leaf (leaves : List Leaf) :
    ∃ tokens : List Token, tokens.map Token.leaf = leaves := by
  refine ⟨leaves.map fun l => ⟨l.kind, l.text, .origin⟩, ?_⟩
  rw [List.map_map]
  exact List.map_id' _

/-- The tokens of the changed tree are parsed as the changed tree. -/
theorem Correspondence.parseTokens_eq {C : Correspondence}
    (hC : ∀ n, AllCarried C (Enters Production.body n)) {tokens init : List Token} {e : Token}
    (h : Ended tokens init e) (hclean : IsClean (parseTokens tokens none).2) {init' : List Token}
    {e' : Token} (he : C.Related [e] [e'])
    (hinit : init'.map Token.leaf = (C.image (parseTokens tokens none).1).leaves) :
    (parseTokens (init' ++ [e']) none).1 = C.image (parseTokens tokens none).1 ∧
      IsClean (parseTokens (init' ++ [e']) none).2 := by
  obtain ⟨n, hn⟩ := h.accepted hclean
  obtain ⟨leaves, hcarry⟩ := hC n .compilationUnit C.image (C.suits_image _) _ _ hn
  obtain ⟨made, hmade⟩ := exists_map_leaf leaves
  have hleaves := Accepted.leaves_eq (hcarry made [e'] hmade he).2
  rw [hmade] at hleaves
  exact Accepted.parseTokens_eq (hcarry init' [e'] (hinit.trans hleaves) he).2

/-! ## Texts -/

/-- A source without lexical errors falls into the leaves of its tree. -/
theorem lexes_parse {source : List Char} (hlex : (parse source).lexErrors = []) :
    Lexes .normal (parse source).root.leaves := by
  have htext : textOf (parse source).root.leaves = source := text_parse source none
  rw [lexes_iff_lex, htext]
  exact ⟨map_leaf_lex source none, hlex⟩

/-- The text of a tree is read as that tree, without errors, if it falls into the leaves of the tree
and these are parsed so. -/
theorem parse_of_lexes {after : Element} (h : Lexes .normal after.leaves)
    (hparse : ∀ (init : List Token) (e : Token), e.leaf = (⟨.eof, []⟩ : Leaf) → init.map Token.leaf = after.leaves →
      (parseTokens (init ++ [e]) none).1 = after ∧ IsClean (parseTokens (init ++ [e]) none).2) :
    (parse after.text).root = after ∧ (parse after.text).lexErrors = [] ∧
      IsClean (parse after.text).syntaxErrors := by
  obtain ⟨e, hended, htext⟩ := (covers_lex after.text).ended
  obtain ⟨htokens, herrors⟩ := lexes_iff_lex.1 h
  have hinit : (lex after.text).tokens.dropLast.map Token.leaf = after.leaves := by
    rw [List.map_dropLast]
    exact (congrArg List.dropLast htokens).trans List.dropLast_concat
  obtain ⟨hroot, hclean⟩ := hparse _ e (by rw [Token.leaf, hended.kind, htext]) hinit
  rw [← hended.eq] at hroot hclean
  rw [parse_eq]
  exact ⟨hroot, herrors, hclean⟩

end RuleLang
