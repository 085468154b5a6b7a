import RuleLang.Parser
import RuleLang.Proofs.Grammar.Nesting
import RuleLang.Proofs.Grammar.Reads
import RuleLang.Proofs.Lexer.Coverage

/-!
# Parsing is total and lossless

Every token list has a tree, within the bound on the nesting of productions, and the tokens of a
text are the leaves of its tree: none is lost, doubled or reordered, whatever is wrong with the
text.

## Main statements

* `Production.exists_read?` — reading by a production comes to an end.
* `exists_read_compilationUnit` — a token list is read as one compilation unit of all its tokens.
* `parse_leaves` — the leaves of the tree of a text are the tokens of the text.
-/

namespace RuleLang

open Grammar Production

/-! ## Totality -/

theorem Production.exists_read? (p : Production) (limit : Option Nat) (tokens : List Token)
    (h : p.opens = true → p.starts tokens = true) :
    ∃ t, p.read? limit tokens = some t ∧ After p tokens t.ahead := by
  refine ranking.exists_enter obeyed (s := .start tokens limit) h ?_
  have := p.rank_lt
  change 64 * tokens.length + p.rank < 64 * (tokens.length + 1)
  omega

/-! ## The end of the input -/

/-- A token list with `eof` at its end and nowhere else. -/
structure Ended (tokens init : List Token) (e : Token) : Prop where
  eq : tokens = init ++ [e]
  kind : e.kind = .eof
  init : ∀ t ∈ init, t.kind ≠ .eof

theorem Covers.ended {n : Nat} {text : List Char} {tokens : List Token}
    (h : Covers n text tokens) : ∃ e, Ended tokens tokens.dropLast e ∧ e.text = [] := by
  obtain ⟨e, hlast, hkind, htext, -⟩ := h.getLast?_eq
  refine ⟨e, ⟨?_, hkind, fun t ht => (h.dropLast_ne t ht).2⟩, htext⟩
  exact (List.dropLast_append_getLast? e hlast).symm

/-- What is ahead at the end of the input is `eof` alone, if no trivia comes next. -/
theorem Ended.ahead_eq {tokens init taken : List Token} {e : Token} {a : Ahead}
    (h : Ended tokens init e) (htokens : tokens = taken ++ a.afterTrivia)
    (htaken : ∀ t ∈ taken, t.kind ≠ .eof) (ha : a.current = .eof) :
    taken = init ∧ a.afterTrivia = [e] := by
  rw [h.eq] at htokens
  rcases List.append_eq_append_iff.1 htokens with ⟨rest, rfl, hrest⟩ | ⟨rest, rfl, hrest⟩
  · cases rest with
    | nil => exact ⟨by simp, by simpa using hrest.symm⟩
    | cons t ts =>
      obtain ⟨rfl, -⟩ := List.cons.inj hrest
      exact absurd h.kind (htaken e (by simp))
  · cases rest with
    | nil => exact ⟨by simp, by simpa using hrest⟩
    | cons t ts =>
      have ht := h.init t (by simp)
      rw [← Ahead.current_afterTrivia, hrest] at ha
      have := List.head?_dropWhile_not Token.isTrivia a
      rw [show a.dropWhile Token.isTrivia = t :: (ts ++ [e]) from hrest] at this
      have htr : t.isTrivia = false := by simpa using this
      rw [Ahead.current, Ahead.nth, List.cons_append, Ahead.nthToken?, htr] at ha
      exact absurd (by simpa using ha) ht

/-! ## The tree of a token list -/

/-- A compilation unit is one node of the declarations and of the trivia after them. -/
theorem reads_compilationUnit {s t : Reading}
    (h : Reads body (.call Production.compilationUnit) s t) :
    ∃ u, Reads body (.call .declarations) { s with group := [], entered := s.entered + 1 } u ∧
      t.ahead = u.ahead.afterTrivia ∧
      t.group = .node .compilationUnit u.takeTrivia.group.reverse :: s.group := by
  cases h with
  | call h =>
    change Reads body (.group (.enclose _ (.seq (.call Production.declarations) .trivia))) _ _ at h
    cases h with
    | group h => cases h with
      | enclose h => cases h with
        | @seq _ _ _ u _ hu h =>
          cases h
          exact ⟨u, hu, u.ahead_takeTrivia, rfl⟩

/-- Declarations are read up to the end of the input. -/
theorem current_of_reads_declarations {s t : Reading}
    (h : Reads body (.call Production.declarations) s t) : t.ahead.current = .eof := by
  obtain ⟨u, hu, hafter⟩ := ranking.exists_enter obeyed (p := .declarations) (s := s) nofun
    (Nat.lt_succ_self _)
  rw [h.unique (reads_of_enter hu)]
  exact hafter.current rfl

theorem exists_read_compilationUnit {tokens init : List Token} {e : Token}
    (h : Ended tokens init e) (limit : Option Nat) :
    ∃ reading children, Production.compilationUnit.read? limit tokens = some reading ∧
      reading.elements = [.node .compilationUnit children] ∧ reading.ahead = [e] ∧
      Element.leavesOf children = init.map Token.leaf := by
  obtain ⟨t, ht, -⟩ := Production.exists_read? .compilationUnit limit tokens nofun
  have hr := reads_of_enter ht
  obtain ⟨taken, htaken, hne, hleaves⟩ := hr.keeps
  obtain ⟨u, hu, hahead, hgroup⟩ := reads_compilationUnit hr
  rw [hahead] at htaken
  obtain ⟨rfl, he⟩ := h.ahead_eq htaken hne (current_of_reads_declarations hu)
  rw [hgroup] at hleaves
  exact ⟨t, u.takeTrivia.group.reverse, ht, by simp [Reading.elements, hgroup, Reading.start], hahead.trans he,
    by simpa [Reading.start] using hleaves⟩

/-! ## The tree of a text -/

theorem parse_eq (source : List Char) :
    parse source = ⟨(parseTokens (lex source).tokens none).1, (lex source).errors,
      (parseTokens (lex source).tokens none).2⟩ := rfl

/-- A text is read as one compilation unit of all its tokens. -/
theorem exists_parse (source : List Char) (limit : Option Nat) :
    ∃ children,
      (Production.compilationUnit.read limit (lex source).tokens).elements =
        [.node .compilationUnit children] ∧
      (parse source limit).root = .node .compilationUnit children ∧
      Element.leavesOf children = (lex source).tokens.dropLast.map Token.leaf := by
  obtain ⟨e, hended, -⟩ := (covers_lex source).ended
  obtain ⟨reading, children, hread, helements, -, hleaves⟩ :=
    exists_read_compilationUnit hended limit
  have hreading : Production.compilationUnit.read limit (lex source).tokens = reading := by
    simp [Production.read, hread]
  exact ⟨children, by rw [hreading, helements], by simp [parse, parseTokens, hreading, helements],
    hleaves⟩

theorem leaves_parse (source : List Char) (limit : Option Nat) :
    (parse source limit).root.leaves = (lex source).tokens.dropLast.map Token.leaf := by
  obtain ⟨children, -, hroot, hleaves⟩ := exists_parse source limit
  rw [hroot, Element.leaves_node, hleaves]

/-- The tokens of a text are the leaves of its tree and the `eof` after them. -/
theorem map_leaf_lex (source : List Char) (limit : Option Nat) :
    (lex source).tokens.map Token.leaf = (parse source limit).root.leaves ++ [⟨.eof, []⟩] := by
  obtain ⟨e, hended, htext⟩ := (covers_lex source).ended
  rw [leaves_parse]
  conv_lhs => rw [hended.eq]
  simp [Token.leaf, hended.kind, htext]

theorem text_parse (source : List Char) (limit : Option Nat) :
    (parse source limit).root.text = source := by
  obtain ⟨e, hended, htext⟩ := (covers_lex source).ended
  have h := (covers_lex source).flatMap_text
  rw [hended.eq, List.flatMap_append] at h
  rw [Element.text, leaves_parse, List.flatMap_map]
  simpa [htext, Token.leaf] using h

/-- The tree of a text is a single compilation unit. Its leaves are the tokens of the text without
the `eof` at their end, in the same order, so that its text is the text itself. -/
theorem parse_leaves (source : List Char) (limit : Option Nat) :
    (∃ children, (parse source limit).root = .node .compilationUnit children) ∧
    (Production.compilationUnit.read limit (lex source).tokens).elements =
      [(parse source limit).root] ∧
    (lex source).tokens.map Token.leaf = (parse source limit).root.leaves ++ [⟨.eof, []⟩] ∧
    (∀ l ∈ (parse source limit).root.leaves, l.kind ≠ .eof) ∧
    (parse source limit).root.text = source := by
  obtain ⟨children, helements, hroot, -⟩ := exists_parse source limit
  refine ⟨⟨children, hroot⟩, by rw [helements, hroot], map_leaf_lex source limit, fun l hl => ?_,
    text_parse source limit⟩
  obtain ⟨e, hended, -⟩ := (covers_lex source).ended
  rw [leaves_parse] at hl
  obtain ⟨t, ht, rfl⟩ := List.mem_map.1 hl
  exact hended.init t ht

end RuleLang
