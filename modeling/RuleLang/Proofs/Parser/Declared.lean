import RuleLang.Proofs.Grammar.Flushes
import RuleLang.Proofs.Grammar.ShutsRules
import RuleLang.Proofs.Parser.Recovery

/-!
# Declarations and their trivia

A declaration takes the rest of its line in the end. So the trivia before the next declaration is
divided at the first line break, unless some production took it all before it failed. Declarations
own the trivia around them, and all other nodes start and end at significant tokens. In a text with
syntax errors, a node may end with trivia that was taken before a production failed, and so may the
declaration around it.

## Main definitions

* `Declared` — a declaration with its trivia, cut off the tokens ahead.
* `DeclaredAll` — any number of them, one after the other.
* `TriviaDivided` — the trivia between declarations belongs to the first one up to its first line
  break.

## Main statements

* `Grammar.endsLine_declarationAt`, `Grammar.shutsLine_declarationAt` — how declarations end, whatever
  is wrong with them and without complaint.
* `ReadsAll.declared` — what is read one after the other is cut off one after the other.
* `parse_edges` — what stands at the edges of inner nodes.
* `triviaDivided_parse` — what stands at the edges of declarations.
-/

namespace RuleLang

open Grammar Production Element

namespace Ahead

/-- The trivia that is taken through the first line break. -/
theorem map_leaf_take_line (a : Ahead) :
    (a.take (Reading.lineTriviaLength a)).map Token.leaf =
      throughNewline ((a.map Token.leaf).takeWhile Leaf.isTrivia) := by
  induction a with
  | nil => rfl
  | cons t ts ih =>
    have hleaf : t.leaf.isTrivia = t.isTrivia := rfl
    rw [List.map_cons, List.takeWhile_cons, hleaf, Reading.lineTriviaLength]
    by_cases hn : t.kind == .newline
    · have ht : t.isTrivia = true := by rw [Token.isTrivia, beq_iff_eq.1 hn]; rfl
      simp [hn, ht, throughNewline, Token.leaf]
    · by_cases ht : t.isTrivia = true
      · simpa [hn, ht, throughNewline, Token.leaf] using ih
      · simp [hn, ht, throughNewline]

/-- The trivia that is left after the first line break. -/
theorem takeWhile_afterLine (a : Ahead) :
    (a.afterLine.map Token.leaf).takeWhile Leaf.isTrivia =
      afterNewline ((a.map Token.leaf).takeWhile Leaf.isTrivia) := by
  induction a with
  | nil => rfl
  | cons t ts ih =>
    have hleaf : t.leaf.isTrivia = t.isTrivia := rfl
    rw [List.map_cons, List.takeWhile_cons, hleaf, afterLine, Reading.lineTriviaLength]
    by_cases hn : t.kind == .newline
    · have ht : t.isTrivia = true := by rw [Token.isTrivia, beq_iff_eq.1 hn]; rfl
      simp [hn, ht, afterNewline, Token.leaf]
    · by_cases ht : t.isTrivia = true
      · simpa [hn, ht, afterNewline, Token.leaf, afterLine] using ih
      · simp [hn, ht, hleaf, afterNewline]

end Ahead

namespace Grammar

open Declarations

/-- The first token that is taken is significant. -/
inductive TakesFirst : Rule → Prop
  | bump {g : Rule} : TakesFirst (.bump >> g)
  | fail {c : Kind → Complaint} {g : Rule} (h : TakesFirst g) : TakesFirst (.fail c >> g)

variable {k kind : Kind} {g : Rule}

theorem takesFirst_declarationAt (h : body (declarationAt k) = .node kind g) : TakesFirst g := by
  unfold declarationAt at h
  split at h <;> cases h
  all_goals first | exact .bump | exact .fail .bump

theorem kind_declarationAt (h : body (declarationAt k) = .node kind g) :
    kind.isTopLevelDecl = true ∨ kind = .error := by
  unfold declarationAt at h
  split at h <;> cases h
  all_goals first | exact .inl rfl | exact .inr rfl

theorem endsLine_declarationAt (h : body (declarationAt k) = .node kind g) : EndsLine g := by
  unfold declarationAt at h
  split at h <;> cases h
  · exact .seq .bump (.seq (.call rfl rfl) (.seq .eat_skip .lineTrivia))
  · exact .seq .bump (.seq (.eat .skip .eat_skip) (.seq (.call rfl rfl)
      (.seq (.when (.take 2) .skip) (.seq .eat_skip .lineTrivia))))
  · exact .seq .bump (.seq (.call rfl rfl) (.seq .expectName (.seq .eat_skip .lineTrivia)))
  · exact .seq .bump (.seq (.call rfl rfl) (.seq .expectName
      (.seq (.when (.call rfl rfl) (.complain _))
        (.seq (.when (.inner .balanced) (.seq (.complain _) .recoverTo)) .lineTrivia))))
  · exact .seq .bump (.seq (.call rfl rfl) (.seq (.when (.call rfl rfl) .skip)
      (.seq (.call rfl rfl) (.seq (.call rfl rfl) .lineTrivia))))
  · exact .seq .bump (.seq .eat_skip (.seq (.call rfl rfl)
      (.seq (.eat (.seq (.call rfl rfl) (.call rfl rfl)) .skip)
        (.seq (.call rfl rfl) (.seq (.call rfl rfl) (.seq (.call rfl rfl) .lineTrivia))))))
  · exact .seq .bump (.seq (.call rfl rfl) (.seq (.when (.call rfl rfl) .skip)
      (.seq (.call rfl rfl) (.seq (.when (.call rfl rfl) .skip)
        (.seq (.when .skip (.seq .fail .recoverTo)) (.seq (.when (.call rfl rfl) .skip)
          (.seq (.when .skip (.seq .fail .recoverTo)) (.seq (.when (.call rfl rfl) .skip)
            (.seq (.call rfl rfl) .lineTrivia)))))))))
  · exact .seq .fail (.seq .bump (.seq .look_take .lineTrivia))

theorem shutsLine_declarationAt {a : Ahead} (h : body (declarationAt k) = .node kind g)
    (ha : a.current = k) : ShutsLine g a := by
  unfold declarationAt at h
  split at h <;> cases h
  · exact .seq (.bumpAt ha rfl) fun _ => .seq (.call rfl trivial) fun _ =>
      .seq (.eat_skip rfl) fun _ => .lineTrivia
  · exact .seq (.bumpAt ha rfl) fun _ => .seq (.eat rfl (fun _ => .skip) (.eat_skip rfl)) fun _ =>
      .seq (.call rfl trivial) fun _ =>
        .seq (.when (fun h => .twoAt (q := (· == .star)) h rfl) fun _ => .skip) fun _ =>
          .seq (.eat_skip rfl) fun _ => .lineTrivia
  · exact .seq (.bumpAt ha rfl) fun _ => .seq (.call rfl trivial) fun _ =>
      .seq .expectName fun _ => .seq (.eat_skip rfl) fun _ => .lineTrivia
  · exact .seq (.bumpAt ha rfl) fun _ => .seq (.call rfl trivial) fun _ =>
      .seq .expectName fun _ => .seq (.whenAt (fun _ => .call rfl trivial) .complain) fun _ =>
        .seq (.whenAt (fun h => .inner_balanced (by rw [h]; rfl)) (.complain_seq rfl)) fun _ =>
          .lineTrivia
  · exact .seq (.bumpAt ha rfl) fun _ => .seq (.call rfl trivial) fun _ =>
      .seq (.whenAt (fun _ => .call rfl trivial) .skip) fun _ => .seq (.call rfl trivial) fun _ =>
        .seq (.call rfl trivial) fun _ => .lineTrivia
  · exact .seq (.bumpAt ha rfl) fun _ => .seq (.eat_skip rfl) fun _ =>
      .seq (.call rfl trivial) fun _ =>
        .seq (.eat rfl (fun _ => .seq (.call rfl trivial) fun _ => .call rfl trivial) .skip)
          fun _ => .seq (.call rfl trivial) fun _ => .seq (.call rfl trivial) fun _ =>
            .seq (.call rfl trivial) fun _ => .lineTrivia
  · have hattributes (b : Ahead) : Shuts (when
        (fun a => a.current.isAttributeKeyword || a.isAt .ident) (.call .attributeList)) b := by
      refine .when (fun h => .call rfl ?_) fun _ => .skip
      rw [Bool.or_eq_true] at h
      exact h.imp_right beq_iff_eq.1
    have hwhen (b : Ahead) : Shuts (whenAt .whenKw (.call .whenClause)) b :=
      .whenAt (fun h => .call rfl (Ahead.current_ne_eof h rfl)) .skip
    exact .seq (.bumpAt ha rfl) fun _ => .seq (.call rfl trivial) fun _ =>
      .seq (.whenAt (fun _ => .call rfl trivial) .skip) fun _ => .seq (.call rfl trivial) fun _ =>
        .seq (hattributes _) fun _ => .seq (.whenAt (fun _ => .skip) (.fail_seq fun _ => rfl))
          fun _ => .seq (hwhen _) fun _ =>
            .seq (.whenAt (fun _ => .skip) (.fail_seq fun _ => rfl)) fun _ => shutsLine_ruleEnd
  · exact .fail_seq fun _ => rfl

/-- A significant token is taken, where one is left. -/
theorem TakesFirst.exists_mem {s t : Reading} {taken : List Token} (hg : TakesFirst g)
    (h : Reads body g s t) (hs : s.ahead.current ≠ .eof) (ht : s.ahead = taken ++ t.ahead) :
    ∃ x ∈ taken, x.isTrivia = false := by
  induction hg generalizing s with
  | bump =>
    cases h with
    | seq hbump hrest =>
      cases hbump
      obtain ⟨first, hlength, hfirst, -⟩ := s.takes_bumps 1
      obtain ⟨more, hmore, -⟩ := hrest.keeps
      have hfirst : s.ahead = first ++ (s.bumps 1).ahead := hfirst
      have hsplit : taken = first ++ more := by
        have heq : taken ++ t.ahead = (first ++ more) ++ t.ahead := by
          rw [← ht, List.append_assoc, ← hmore, ← hfirst]
        exact List.append_cancel_right heq
      obtain ⟨x, hx, hsignificant⟩ := Ahead.exists_significant Nat.one_pos hs
      rw [← hlength, hfirst, List.take_left] at hx
      exact ⟨x, hsplit ▸ List.mem_append_left more hx, hsignificant⟩
  | fail _ ih =>
    cases h with
    | seq hfail hrest =>
      cases hfail with
      | look hfail =>
        cases hfail
        exact ih hrest (by rwa [Reading.ahead_complain]) (by rwa [Reading.ahead_complain])

end Grammar

/-! ## The line that a declaration ends -/

namespace Point

variable {x y : Point}

/-- The rest of a line is trivia through the first line break. -/
theorem Takes.line (h : x.Takes (Reading.lineTriviaLength x.ahead) y) :
    y.ahead = x.ahead.afterLine ∧
      leavesOf y.group.reverse = leavesOf x.group.reverse ++
        throughNewline ((x.ahead.map Token.leaf).takeWhile Leaf.isTrivia) := by
  refine ⟨?_, ?_⟩
  · obtain ⟨ts, hlength, ha, -⟩ := h
    rw [Ahead.afterLine, ← hlength, ha, List.drop_left]
  · rw [h.leaves, Ahead.map_leaf_take_line]

/-- After a significant token, the trivia is divided at the first line break. -/
theorem Takes.divided (h : x.Takes (Reading.lineTriviaLength x.ahead) y)
    (hx : EndsSignificant (leavesOf x.group.reverse)) :
    Divided ((leavesOf y.group.reverse).rtakeWhile Leaf.isTrivia)
      ((y.ahead.map Token.leaf).takeWhile Leaf.isTrivia) := by
  obtain ⟨ha, hl⟩ := h.line
  have htrivia : ∀ l ∈ throughNewline ((x.ahead.map Token.leaf).takeWhile Leaf.isTrivia),
      l.isTrivia = true := by
    intro l hl
    refine List.mem_takeWhile_imp (l := x.ahead.map Token.leaf) ?_
    rw [← throughNewline_append_afterNewline ((x.ahead.map Token.leaf).takeWhile Leaf.isTrivia)]
    exact List.mem_append_left _ hl
  rw [hl, ha, EndsSignificant.rtakeWhile_append hx htrivia, Ahead.takeWhile_afterLine]
  exact RuleLang.divided _

/-- Before a significant token, no trivia is left. -/
theorem Takes.takeWhile_eq_nil (h : x.Takes (Reading.lineTriviaLength x.ahead) y)
    (hx : StartsSignificant (x.ahead.map Token.leaf)) :
    (y.ahead.map Token.leaf).takeWhile Leaf.isTrivia = [] := by
  have hnone : (x.ahead.map Token.leaf).takeWhile Leaf.isTrivia = [] := by
    cases ha : x.ahead.map Token.leaf with
    | nil => rfl
    | cons l ls =>
      have hl : l.isTrivia = false := hx l (by rw [ha]; rfl)
      rw [List.takeWhile_cons_of_neg (by simp [hl])]
  rw [h.line.1, Ahead.takeWhile_afterLine, hnone]
  rfl

end Point

/-! ## One declaration -/

/-- A declaration `e` and its trivia, cut off the tokens `ls` before the tokens `rest`. If nothing is
`clean`, the line of the declaration may end inside of it. -/
structure Declared (clean : Prop) (ls : List Leaf) (e : Element) (rest : List Leaf) : Prop where
  isNode : e.isNode = true
  kind : e.kind.isTopLevelDecl = true ∨ e.kind = .error
  leaves : ls = e.leaves ++ rest
  significant : e.significant ≠ []
  starts : AllNodes (fun n => StartsSignificant n.leaves) e.children
  ends : clean → AllNodes EndsInside e.children
  divided : Divided e.trailing (rest.takeWhile Leaf.isTrivia) ∨
    ¬clean ∧ rest.takeWhile Leaf.isTrivia = []

theorem Declared.mono {clean clean' : Prop} {ls rest : List Leaf} {e : Element}
    (h : Declared clean ls e rest) (hclean : clean' → clean) : Declared clean' ls e rest where
  __ := h
  ends := h.ends ∘ hclean
  divided := h.divided.imp_right fun hd => ⟨hd.1 ∘ hclean, hd.2⟩

/-- Without complaint, what a declaration ends with is divided at the first line break. -/
theorem Grammar.Reads.shutsLine {k kind : Kind} {g : Rule} {s t : Reading} (h : Reads body g s t)
    (hbody : body (declarationAt k) = .node kind g) (hk : s.ahead.current = k) (hs : InStep s)
    (hgroup : s.group = []) (ht : NoErrors t) :
    ∃ u : Point, u.Shut ∧ u.Takes (Reading.lineTriviaLength u.ahead) t.point := by
  obtain ⟨-, depth, haccepts⟩ := h.accepted hs ht
  refine shutsLine_declarationAt hbody hk depth s.point t.point rfl ?_ haccepts
  rw [Reading.point, hgroup]
  exact .nil _

/-- What is read inside of a declaration. -/
theorem Grammar.Reads.declared {kind : Kind} {g : Rule} {s t : Reading} (h : Reads body g s t)
    (hbody : body (declarationAt s.ahead.current) = .node kind g) (hne : s.ahead.current ≠ .eof)
    (hs : InStep s) (hgroup : s.group = []) :
    Declared (NoErrors t) (s.ahead.map Token.leaf) (.node kind t.group.reverse)
      (t.ahead.map Token.leaf) := by
  obtain ⟨taken, hahead, -, hleaves⟩ := h.keeps
  rw [hgroup, List.reverse_nil, leavesOf_nil, List.nil_append] at hleaves
  have hedges : AllNodes (fun n => StartsSignificant n.leaves) t.group ∧
      (Divided ((leavesOf t.group.reverse).rtakeWhile Leaf.isTrivia)
          ((t.ahead.map Token.leaf).takeWhile Leaf.isTrivia) ∨
        (t.ahead.map Token.leaf).takeWhile Leaf.isTrivia = []) := by
    obtain ⟨u, hu, rfl⟩ := (endsLine_declarationAt hbody).reads h (Reading.neat_nil hgroup)
    have hline := u.takes_takeLineTrivia
    exact ⟨hline.allNodes hu.nodes, hu.paused.imp hline.divided hline.takeWhile_eq_nil⟩
  have hclean : NoErrors t → AllNodes EndsInside t.group ∧
      Divided ((leavesOf t.group.reverse).rtakeWhile Leaf.isTrivia)
        ((t.ahead.map Token.leaf).takeWhile Leaf.isTrivia) := by
    intro ht
    obtain ⟨u, hu, hline⟩ := h.shutsLine hbody rfl hs hgroup ht
    exact ⟨hline.allNodes hu.nodes, hline.divided hu.last⟩
  exact {
    isNode := rfl
    kind := kind_declarationAt hbody
    leaves := by rw [leaves_node, hleaves, ← List.map_append, hahead]
    significant := by
      obtain ⟨x, hx, hsignificant⟩ :=
        (takesFirst_declarationAt hbody).exists_mem h hne hahead
      refine List.ne_nil_of_mem (a := x.leaf) (List.mem_filter.2 ⟨?_, ?_⟩)
      · rw [leaves_node, hleaves]
        exact List.mem_map_of_mem hx
      · rw [show x.leaf.isTrivia = x.isTrivia from rfl, hsignificant]
        rfl
    starts := allNodes_reverse.2 hedges.1
    ends := fun ht => allNodes_reverse.2 (hclean ht).1
    divided := by
      rw [trailing, leaves_node]
      by_cases ht : NoErrors t
      · exact .inl (hclean ht).2
      · exact hedges.2.imp_right fun hnone => ⟨ht, hnone⟩ }

/-- A declaration adds one element. -/
theorem Grammar.Reads.exists_declared {s t : Reading}
    (h : Reads body (.call (declarationAt s.ahead.current)) s t) (hne : s.ahead.current ≠ .eof)
    (hs : InStep s) : ∃ e, t.group = e :: s.group ∧
      Declared (NoErrors t) (s.ahead.map Token.leaf) e (t.ahead.map Token.leaf) := by
  obtain ⟨kind, g, hbody⟩ := exists_node_declarationAt s.ahead.current
  cases h with
  | call h =>
    rw [hbody] at h
    cases h with
    | group h => cases h with
      | enclose h => exact ⟨_, rfl, h.declared hbody hne ⟨hs.recovering, hs.limit⟩ rfl⟩

/-! ## Declarations, one after the other -/

/-- Declarations with their trivia, cut off the tokens one after the other. -/
inductive DeclaredAll (clean : Prop) : List Leaf → List Element → Prop
  | nil {ls : List Leaf} : DeclaredAll clean ls []
  | cons {ls rest : List Leaf} {e : Element} {es : List Element}
    (first : Declared clean ls e rest) (others : DeclaredAll clean rest es) :
    DeclaredAll clean ls (e :: es)

theorem ReadsAll.declared {s t : Reading} (h : ReadsAll s t) (hs : s.limit = none) :
    ∃ es, t.elements = s.elements ++ es ∧
      DeclaredAll (NoErrors t) (s.ahead.map Token.leaf) es := by
  induction h with
  | nil => exact ⟨[], by simp [Reading.elements], .nil⟩
  | @cons s u t hne hfirst hrest ih =>
    obtain ⟨e, hgroup, he⟩ := Reads.exists_declared
      (s := { s with entered := s.entered + 1, recovering := false }) hfirst hne ⟨rfl, hs⟩
    obtain ⟨es, helements, hes⟩ := ih (hfirst.limit_eq.trans hs)
    refine ⟨e :: es, ?_, .cons (he.mono ?_) hes⟩
    · rw [helements]
      simp [Reading.elements, hgroup]
    · exact noErrors_of_reads (reads_declarations_iff.2 hrest)

namespace DeclaredAll

variable {clean : Prop} {ls : List Leaf} {es before after : List Element} {c d : Element}

theorem exists_declared (h : DeclaredAll clean ls es) (hc : c ∈ es) :
    ∃ ls rest, Declared clean ls c rest := by
  induction h with
  | nil => cases hc
  | cons first _ ih =>
    rcases List.mem_cons.1 hc with rfl | hc
    · exact ⟨_, _, first⟩
    · exact ih hc

theorem exists_consecutive (h : DeclaredAll clean ls es) (hes : es = before ++ c :: d :: after) :
    ∃ ls rest rest', Declared clean ls c rest ∧ Declared clean rest d rest' := by
  induction h generalizing before with
  | nil => simp at hes
  | cons first others ih =>
    cases before with
    | nil =>
      obtain ⟨rfl, rfl⟩ := List.cons.inj hes
      cases others with
      | cons second _ => exact ⟨_, _, _, first, second⟩
    | cons x before => exact ih (List.cons.inj hes).2

end DeclaredAll

/-- A declaration starts with the trivia that is left before it. -/
theorem Declared.leading_eq {clean : Prop} {ls rest : List Leaf} {e : Element}
    (h : Declared clean ls e rest) : e.leading = ls.takeWhile Leaf.isTrivia := by
  rw [leading, h.leaves,
    takeWhile_append_of_significant (exists_of_significant_ne_nil h.significant)]

/-! ## The edges of inner nodes -/

/-- A text is cut into declarations and the trivia after the last of them. -/
theorem exists_declaredAll (source : List Char) : ∃ (es : List Element) (ts : List Token),
    (parse source).root = .node .compilationUnit (es ++ ts.map ofToken) ∧
      DeclaredAll (IsClean (parse source).syntaxErrors)
        ((lex source).tokens.map Token.leaf) es := by
  obtain ⟨t, ht⟩ := exists_readsAll (lex source).tokens
  obtain ⟨es, helements, hes⟩ := ht.declared rfl
  obtain ⟨ts, -, -, hgroup⟩ := t.takes_takeTrivia
  have hgroup : t.takeTrivia.group = (ts.map ofToken).reverse ++ t.group := hgroup
  have herrors : IsClean t.takeTrivia.recorded ↔ NoErrors t := by
    simp [IsClean, NoErrors, Reading.recorded, Reading.takeTrivia, errors_takeTokens]
  have helements : t.elements = es := helements
  rw [parse_eq, parseTokens_eq_of_reads ht]
  refine ⟨es, ts, ?_, ?_⟩
  · simp only [Reading.elements, hgroup, List.reverse_append, List.reverse_reverse]
    rw [← helements, Reading.elements]
  · rwa [herrors]

/-- Inner nodes of the tree of any text start with significant tokens. Those of a text without syntax
errors end with significant tokens as well, but for a `then` clause without action. -/
theorem parse_edges (source : List Char) (limit : Option Nat) :
    (∀ e ∈ (parse source limit).root.innerNodes, StartsSignificant e.leaves) ∧
      (IsClean (parse source).syntaxErrors →
        ∀ e ∈ (parse source limit).root.innerNodes, e.EndsInside) := by
  obtain ⟨es, ts, hroot, hes⟩ := exists_declaredAll source
  have hinner (e : Element) (he : e ∈ (parse source).root.innerNodes) :
      ∃ ls c rest, Declared (IsClean (parse source).syntaxErrors) ls c rest ∧
        e ∈ nodesOf c.children := by
    rw [hroot, innerNodes, List.mem_flatMap] at he
    obtain ⟨c, hc, he⟩ := he
    rw [children, List.mem_append] at hc
    rcases hc with hc | hc
    · obtain ⟨ls, rest, hdeclared⟩ := hes.exists_declared hc
      have hkind : (c.kind.isTopLevelDecl || c.kind == .error) = true := by
        rw [Bool.or_eq_true, beq_iff_eq]
        exact hdeclared.kind
      rw [if_pos hkind] at he
      exact ⟨ls, c, rest, hdeclared, he⟩
    · obtain ⟨t, -, rfl⟩ := List.mem_map.1 hc
      split at he <;> cases he
  rw [root_parse]
  refine ⟨fun e he => ?_, fun hclean e he => ?_⟩
  · obtain ⟨ls, c, rest, hdeclared, he⟩ := hinner e he
    exact hdeclared.starts e he
  · obtain ⟨ls, c, rest, hdeclared, he⟩ := hinner e he
    exact hdeclared.ends hclean e he

/-! ## The edges of declarations -/

/-- Any two nodes in a list with nothing but tokens between them: no token at all is between them, and
the trivia between their significant tokens is divided at the first line break. Unless all is `clean`,
it may also belong to the first one as a whole. -/
def TriviaDivided (clean : Prop) (es : List Element) : Prop :=
  ∀ before c between d after, es = before ++ c :: (between ++ d :: after) →
    c.isNode = true → d.isNode = true → (∀ x ∈ between, x.isNode = false) →
    between = [] ∧ c.significant ≠ [] ∧ d.significant ≠ [] ∧
      (Divided c.trailing d.leading ∨ ¬clean ∧ d.leading = [])

/-- Between nodes stand no tokens, if all tokens stand at the end. -/
theorem exists_adjacent {es before between after : List Element} {ts : List Token} {c d : Element}
    (hes : ∀ e ∈ es, e.isNode = true)
    (h : es ++ ts.map ofToken = before ++ c :: (between ++ d :: after)) (hd : d.isNode = true)
    (hbetween : ∀ x ∈ between, x.isNode = false) :
    between = [] ∧ ∃ others, es = before ++ c :: d :: others := by
  have hsplit : es ++ ts.map ofToken = (before ++ c :: between) ++ d :: after := by simp [h]
  have htokens : ∀ x ∈ ts.map ofToken, x.isNode = false := by
    intro x hx
    obtain ⟨t, -, rfl⟩ := List.mem_map.1 hx
    rfl
  rcases List.append_eq_append_iff.1 hsplit with ⟨rest, -, hrest⟩ | ⟨rest, rfl, hrest⟩
  · have := htokens d (by rw [hrest]; simp)
    rw [hd] at this
    cases this
  · cases rest with
    | nil =>
      have := htokens d (by rw [← List.nil_append (ts.map ofToken), ← hrest]; simp)
      rw [hd] at this
      cases this
    | cons x others =>
      obtain ⟨rfl, -⟩ := List.cons.inj hrest
      have hnone : between = [] := by
        refine List.eq_nil_iff_forall_not_mem.2 fun x hx => ?_
        have := hes x (by simp [hx])
        rw [hbetween x hx] at this
        cases this
      subst hnone
      exact ⟨rfl, others, by simp⟩

/-- Any two declarations of any text that come one after the other, stray tokens among them: the trivia
between them is divided at the first line break. In a text with syntax errors, all of it may belong to
the first one. -/
theorem triviaDivided_parse (source : List Char) (limit : Option Nat) :
    TriviaDivided (IsClean (parse source).syntaxErrors) (parse source limit).root.children := by
  obtain ⟨es, ts, hroot, hes⟩ := exists_declaredAll source
  rw [root_parse, hroot, children]
  intro before c between d after hsplit _ hd hbetween
  have hnodes (e : Element) (he : e ∈ es) : e.isNode = true := by
    obtain ⟨ls, rest, hdeclared⟩ := hes.exists_declared he
    exact hdeclared.isNode
  obtain ⟨hnone, others, hadjacent⟩ := exists_adjacent hnodes hsplit hd hbetween
  obtain ⟨ls, rest, rest', hc, hd⟩ := hes.exists_consecutive hadjacent
  refine ⟨hnone, hc.significant, hd.significant, ?_⟩
  rw [hd.leading_eq]
  exact hc.divided

/-- The line break and the comment before a condition that fails belong to the query. -/
example : (parse "query q eval(\n// c\nrule R when then end\n".toList).root.children.map
    (fun e => (e.leading.length, e.trailing.length)) = [(0, 3), (0, 1)] := by decide +kernel

end RuleLang
