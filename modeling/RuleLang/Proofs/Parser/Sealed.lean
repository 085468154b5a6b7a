import RuleLang.Proofs.Grammar.Agree
import RuleLang.Proofs.Lexer.Concat
import RuleLang.Proofs.Parser.Append

/-!
# The last token of a declaration

A declaration without syntax errors ends with a name, a bracket, `;`, `*` or `end`. So it never leaves
a consequence open, and what is declared after it is read as it is alone.

## Main definitions

* `Grammar.Settles` — reading by an instruction ends with a token that leaves no consequence open.

## Main statements

* `ReadsAll.settled` — the last token of any number of declarations.
* `parse_append` — the tree and the errors of two sources, one after the other.
-/

namespace RuleLang

open Grammar Production

/-! ## The last of the tokens that are taken -/

namespace Ahead

variable {a : Ahead}

theorem lastKind_cons_trivia {t : Token} (ht : t.isTrivia = true) (before : Option Kind)
    (ts : List Token) : lastKind before (t :: ts) = lastKind before ts := by
  rw [lastKind, List.foldl_cons, if_pos ht, lastKind]

theorem lastKind_cons {t : Token} (ht : t.isTrivia = false) (before : Option Kind)
    (ts : List Token) : lastKind before (t :: ts) = lastKind (some t.kind) ts := by
  rw [lastKind, List.foldl_cons, if_neg (by simp [ht]), lastKind]

theorem bumpLength_zero (a : Ahead) : bumpLength 0 a = 0 := by
  cases a <;> rfl

theorem bumpLength_succ_cons {t : Token} (ht : t.isTrivia = false) (he : t.kind ≠ .eof) (n : Nat)
    (ts : Ahead) : bumpLength (n + 1) (t :: ts) = bumpLength n ts + 1 := by
  simp [bumpLength, ht, he]

/-- The last of the tokens that are taken is the one that was counted last. -/
theorem lastKind_bump {n : Nat} (h : n < a.significant) (before : Option Kind) :
    lastKind before (a.take (a.bumpLength (n + 1))) = some (a.nth n) := by
  induction a generalizing n before with
  | nil => simp [significant, countUntil] at h
  | cons t ts ih =>
    by_cases ht : t.isTrivia = true
    · rw [significant_cons_trivia ht] at h
      have hnth : nth (t :: ts) n = nth ts n := by simp [nth, nthToken?, ht]
      rw [bumpLength_of_isTrivia ht, List.take_succ_cons, lastKind_cons_trivia ht, hnth, ih h]
    rw [Bool.not_eq_true] at ht
    have he : t.kind ≠ .eof := by
      intro he
      simp [significant, countUntil, ht, he] at h
    rw [bumpLength_succ_cons ht he, List.take_succ_cons, lastKind_cons ht]
    rw [significant_cons ht he] at h
    cases n with
    | zero =>
      rw [bumpLength_zero, List.take_zero]
      simp [nth, nthToken?, ht, lastKind]
    | succ n =>
      have hnth : nth (t :: ts) (n + 1) = nth ts n := by simp [nth, nthToken?, ht]
      rw [hnth, ih (Nat.lt_of_succ_lt_succ h)]

/-- A bracketed group ends with its closing bracket. -/
theorem lastKind_balanced {depth : Nat} (hd : depth ≠ 0 ∨ isOpening a.current = true)
    (h : (a.balanced depth).2 = true) (before : Option Kind) :
    ∃ k, isClosing k = true ∧
      lastKind before (a.take (a.bumpLength (a.balanced depth).1)) = some k := by
  induction a generalizing depth before with
  | nil => cases h
  | cons t ts ih =>
    by_cases ht : t.isTrivia = true
    · rw [current_cons_trivia ht] at hd
      simp only [balanced, ht, if_true] at h ⊢
      cases hn : (balanced depth ts).1 with
      | zero => exact absurd (balanced_fst_pos h) (by omega)
      | succ n =>
        have := ih hd h before
        rw [hn] at this
        rwa [bumpLength_of_isTrivia ht, List.take_succ_cons, lastKind_cons_trivia ht]
    rw [Bool.not_eq_true] at ht
    rw [current_eq_head ht] at hd
    by_cases he : t.kind = .eof
    · simp [balanced, ht, he] at h
    have he' : (t.kind == .eof) = false := by simpa using he
    simp only [balanced, ht, he', Bool.false_eq_true, if_false] at h ⊢
    by_cases hzero : (depthAfter depth t.kind == 0) = true
    · simp only [hzero, if_true]
      rw [bumpLength_succ_cons ht he, bumpLength_zero, List.take_succ_cons, lastKind_cons ht]
      refine ⟨t.kind, ?_, rfl⟩
      by_contra hclosing
      simp only [depthAfter, hclosing, if_false] at hzero
      split at hzero
      · simp at hzero
      · rename_i hopening
        rcases hd with hd | hd
        · exact hd (beq_iff_eq.1 hzero)
        · exact hopening hd
    · simp only [hzero, Bool.false_eq_true, if_false] at h ⊢
      rw [bumpLength_succ_cons ht he, List.take_succ_cons, lastKind_cons ht]
      exact ih (.inl (by simpa using hzero)) h (some t.kind)

end Ahead

theorem Kind.settled_of_isClosing {k : Kind} (h : Ahead.isClosing k = true) : Settled (some k) := by
  refine ⟨fun he => ?_, fun he => ?_⟩
  all_goals
    cases he
    cases h

theorem Kind.settled_of_isName {k : Kind} (h : k.isName = true) : Settled (some k) := by
  refine ⟨fun he => ?_, fun he => ?_⟩
  all_goals
    cases he
    cases h

theorem Point.Takes.taken_eq {x y : Point} {n : Nat} (h : x.Takes n y) {taken : List Token}
    (ha : x.ahead = taken ++ y.ahead) : taken = x.ahead.take n := by
  obtain ⟨ts, rfl, hts, -⟩ := h
  rw [hts, List.take_left]
  exact List.append_cancel_right (ha.symm.trans hts)

namespace Grammar

variable {f g otherwise : Rule} {a : Ahead} {before : Option Kind}

/-- Reading by an instruction without syntax errors ends with a token that leaves no consequence
open; `before` is the kind of the last token before. -/
def Settles (g : Rule) (a : Ahead) (before : Option Kind) : Prop :=
  ∀ s t taken, s.ahead = a → InStep s → Reads body g s t → NoErrors t → a = taken ++ t.ahead →
    Settled (lastKind before taken)

theorem taken_eq {s t : Reading} {n : Nat} (h : s.point.Takes n t.point) {taken : List Token}
    (ha : s.ahead = taken ++ t.ahead) : taken = s.ahead.take n :=
  h.taken_eq ha

namespace Settles

theorem skip (h : Settled before) : Settles .skip a before := by
  intro s t taken hs _ hr _ ha
  cases hr
  obtain rfl : taken = [] := by simpa [hs] using ha
  exact h

theorem lineTrivia (h : Settled before) : Settles .lineTrivia a before := by
  rintro s t taken rfl _ hr _ ha
  cases hr
  rw [taken_eq s.takes_takeLineTrivia ha,
    lastKind_of_trivia before fun _ => Reading.isTrivia_of_mem_lineTrivia]
  exact h

theorem take {n : Nat} (hn : n < a.significant) (hk : Settled (some (a.nth n))) :
    Settles (.take (n + 1)) a before := by
  rintro s t taken rfl _ hr _ ha
  cases hr
  rw [taken_eq (s.takes_bumps (n + 1)) ha, Ahead.lastKind_bump hn]
  exact hk

theorem of_fails (h : Fails g a) : Settles g a before :=
  fun s t _ hs hstep hr ht _ => absurd ht (h s t hs hstep hr)

theorem seq_of (h : ∀ s u first, s.ahead = a → InStep s → Reads body f s u → NoErrors u →
    a = first ++ u.ahead → Settles g u.ahead (lastKind before first)) :
    Settles (.seq f g) a before := by
  rintro s t taken rfl hstep hr ht ha
  cases hr with
  | @seq _ _ _ u _ hrf hrg =>
    have hu := noErrors_of_reads hrg ht
    obtain ⟨first, hfirst, -⟩ := hrf.keeps
    obtain ⟨second, hsecond, -⟩ := hrg.keeps
    obtain rfl : taken = first ++ second := by
      refine List.append_cancel_right (ha.symm.trans ?_)
      rw [hfirst, hsecond, List.append_assoc]
    rw [lastKind_append]
    exact h s u first rfl hstep hrf hu hfirst u t second rfl (inStep_of_reads hrf hstep hu) hrg ht
      hsecond

/-- What comes first decides if what comes after it may take nothing. -/
theorem seq (hf : Settles f a before) (hg : ∀ b before, Settled before → Settles g b before) :
    Settles (.seq f g) a before :=
  .seq_of fun s u first hs hstep hr hu ha => hg _ _ (hf s u first hs hstep hr hu ha)

/-- What comes last decides if it takes a token. -/
theorem last (hg : ∀ b before, Settles g b before) : Settles (.seq f g) a before :=
  .seq_of fun _ _ _ _ _ _ _ _ => hg _ _

theorem trivia_seq (hg : Settles g a.afterTrivia before) : Settles (.seq .trivia g) a before := by
  refine .seq_of ?_
  rintro s u first rfl _ hr _ ha
  cases hr
  have htrivia : ∀ t ∈ first, t.isTrivia = true := by
    rw [taken_eq s.takes_takeTrivia ha, Ahead.triviaLength,
      ← List.prefix_iff_eq_take.1 (List.takeWhile_prefix _)]
    exact fun _ => List.mem_takeWhile_imp
  rwa [lastKind_of_trivia before htrivia, Reading.ahead_takeTrivia]

theorem look {choose : Ahead → Rule} (h : Settles (choose a) a before) :
    Settles (.look choose) a before := by
  rintro s t taken rfl hstep hr ht ha
  cases hr with
  | look hr => exact h s t taken rfl hstep hr ht ha

theorem when {test : Ahead → Bool} (hg : test a = true → Settles g a before)
    (ho : test a = false → Settles otherwise a before) :
    Settles (.when test g otherwise) a before := by
  refine .look ?_
  cases hc : test a with
  | true => exact hg hc
  | false => exact ho hc

theorem call {p : Production} (h : Settles (body p) a before) : Settles (.call p) a before := by
  rintro s t taken rfl hstep hr ht ha
  cases hr with
  | call hr =>
    exact h { s with entered := s.entered + 1 } t taken rfl ⟨hstep.recovering, hstep.limit⟩ hr ht ha

theorem node {k : Kind} (h : Settles g a before) : Settles (.node k g) a before := by
  rintro s t taken rfl hstep hr ht ha
  cases hr with
  | group hr => cases hr with
    | @enclose _ _ _ u hr =>
      exact h { s with group := [] } u taken rfl ⟨hstep.recovering, hstep.limit⟩ hr ht ha

/-! ### Derived instructions -/

theorem inner {k : Kind} (hg : Settles g a.afterTrivia before) : Settles (.inner k g) a before :=
  .trivia_seq (.node hg)

theorem bump (h : a.current ≠ .eof) (hk : Settled (some a.current)) :
    Settles .bump a before :=
  .take (Ahead.one_le_significant h) hk

/-- A token of a kind of its own, or nothing. -/
theorem eat {k : Kind} (hk : k ≠ .eof) (hset : Settled (some k)) (ho : Settles otherwise a before) :
    Settles (.eat k .skip otherwise) a before := by
  refine .when (fun h => .seq ?_ fun _ _ h => .skip h) fun _ => ho
  have hcur : a.current = k := beq_iff_eq.1 h
  exact .bump (hcur ▸ hk) (hcur ▸ hset)

theorem two (h : a.current ≠ .eof) (hnext : a.nth 1 ≠ .eof) (hk : Settled (some (a.nth 1))) :
    Settles (.take 2) a before :=
  .take (Ahead.two_le_significant h hnext) hk

/-- A name. -/
theorem bumpName (h : a.atName = true) : Settles .bump a before :=
  .bump (ne_eof_of_atName h) (Kind.settled_of_isName h)

theorem expectName {role : Role} : Settles (.expectName role) a before :=
  .when (fun h => .bumpName h) fun _ => .of_fails (fails_fail rfl)

theorem balanced (h : Ahead.isOpening a.current = true) : Settles .balanced a before := by
  rintro s t taken rfl hstep hr ht ha
  cases hr with
  | look hr =>
    cases hr with
    | @seq _ _ _ u _ htake hclose =>
      cases hc : (s.ahead.balanced 0).2 with
      | false =>
        rw [hc] at hclose
        exact absurd ht (fails_complain rfl u t rfl
          (inStep_of_reads htake hstep (noErrors_of_reads hclose ht)) hclose)
      | true =>
        rw [hc] at hclose
        cases hclose
        cases htake
        obtain ⟨k, hk, hlast⟩ := Ahead.lastKind_balanced (.inr h) hc before
        rw [taken_eq (s.takes_bumps _) ha, hlast]
        exact Kind.settled_of_isClosing hk

/-! ### The last tokens of a declaration -/

theorem blockEnd {block : Block} : Settles (.call (.blockEnd block) >> .lineTrivia) a before := by
  have hend : Settled (some .endKw) := ⟨by simp, by simp⟩
  refine .seq (.call (.eat (by simp) hend (.of_fails (.look ?_)))) fun _ _ h => .lineTrivia h
  split
  · exact fails_complain rfl
  · exact fails_fail rfl

theorem semicolon (h : Settled before) : Settles (.seq (.eat .semicolon) .lineTrivia) a before :=
  .seq (.eat (by simp) ⟨by simp, by simp⟩ (.skip h)) fun _ _ h => .lineTrivia h

theorem nameParts (h : Settled before) : Settles (.call .nameParts) a before := by
  induction hn : a.length using Nat.strongRecOn generalizing a before with
  | ind n ih =>
    subst hn
    refine .call (.when (fun hdot => ?_) fun _ => .skip h)
    obtain ⟨hdot, hname⟩ := Bool.and_eq_true_iff.1 hdot
    have hcur : a.current ≠ .eof := ne_eof_of_isAt hdot rfl
    have hnext : a.nth 1 ≠ .eof := by
      intro he
      rw [he] at hname
      cases hname
    refine .seq_of ?_
    rintro s u first rfl hstep hr hu ha
    have hset : Settled (lastKind before first) :=
      two hcur hnext (Kind.settled_of_isName hname) s u first rfl hstep hr hu ha
    cases hr
    rw [Reading.ahead_bumps]
    exact ih _ (Ahead.length_after_lt Nat.two_pos hcur) hset rfl

theorem qualifiedName : Settles (.call .qualifiedName) a before := by
  refine .call (.when (fun h => .inner (.seq (.bumpName ?_) fun _ _ h => .nameParts h))
    fun _ => .of_fails (fails_fail rfl))
  rwa [Ahead.atName, Ahead.current_afterTrivia]

theorem importedName : Settles (.call .qualifiedName >>
    Grammar.when (fun a => a.isAt .dot && a.nth 1 == .star) (.take 2) >>
    Grammar.eat .semicolon >> .lineTrivia) a before := by
  refine .seq .qualifiedName fun _ _ h => .seq (.when (fun hdot => ?_) fun _ => .skip h)
    fun _ _ h => .semicolon h
  obtain ⟨hdot, hstar⟩ := Bool.and_eq_true_iff.1 hdot
  have hstar := beq_iff_eq.1 hstar
  exact .two (ne_eof_of_isAt hdot rfl) (by simp [hstar]) (by simp [hstar, Settled])

theorem functionBody : Settles (.seq (.whenAt .lBrace (.inner .functionBody .balanced)
    (.seq (.complain .expectedFunctionBody) (.recoverTo []))) .lineTrivia) a before := by
  refine .seq (.when (fun h => .inner (.balanced ?_)) fun _ => .of_fails (fails_complain rfl).seq)
    fun _ _ h => .lineTrivia h
  rw [Ahead.current_afterTrivia, beq_iff_eq.1 h]
  rfl

end Settles

/-- The last token of a declaration. -/
theorem settles_declaration (k : Kind) : Settles (.call (declarationAt k)) a before := by
  unfold declarationAt
  split
  · exact .call (.node (.last fun _ _ => .seq .qualifiedName fun _ _ h => .semicolon h))
  · exact .call (.node (.last fun _ _ => .last fun _ _ => .importedName))
  · exact .call (.node (.last fun _ _ => .last fun _ _ => .seq .expectName fun _ _ h => .semicolon h))
  · exact .call (.node (.last fun _ _ => .last fun _ _ => .last fun _ _ => .last fun _ _ =>
      .functionBody))
  · exact .call (.node (.last fun _ _ => .last fun _ _ => .last fun _ _ => .last fun _ _ =>
      .blockEnd))
  · exact .call (.node (.last fun _ _ => .last fun _ _ => .last fun _ _ => .last fun _ _ =>
      .last fun _ _ => .last fun _ _ => .blockEnd))
  · exact .call (.node (.last fun _ _ => .last fun _ _ => .last fun _ _ => .last fun _ _ =>
      .last fun _ _ => .last fun _ _ => .last fun _ _ => .last fun _ _ => .last fun _ _ =>
        .blockEnd))
  · exact .of_fails (.call (.node (fails_fail rfl).seq))

end Grammar

/-- Declarations without syntax errors end with a token that leaves no consequence open. -/
theorem ReadsAll.settled {s t : Reading} (h : ReadsAll s t) (hstep : InStep s) (ht : NoErrors t)
    {taken : List Token} (ha : s.ahead = taken ++ t.ahead) {before : Option Kind}
    (hbefore : Settled before) : Settled (lastKind before taken) := by
  induction h generalizing taken before with
  | @nil s he =>
    obtain rfl : taken = [] := by simpa using ha
    exact hbefore
  | @cons s u t he hfirst hrest ih =>
    have hreads := reads_declarations_iff.2 hrest
    have hu : NoErrors u := noErrors_of_reads hreads ht
    obtain ⟨first, hahead, -⟩ := hfirst.keeps
    obtain ⟨second, hsecond, -⟩ := hreads.keeps
    have hahead : s.ahead = first ++ u.ahead := hahead
    obtain rfl : taken = first ++ second := by
      refine List.append_cancel_right (ha.symm.trans ?_)
      rw [hahead, hsecond, List.append_assoc]
    have hstart : InStep { s with entered := s.entered + 1, recovering := false } :=
      ⟨rfl, hstep.limit⟩
    have hset : Settled (lastKind before first) :=
      settles_declaration s.ahead.current _ u first rfl hstart hfirst hu hahead
    rw [lastKind_append]
    exact ih (inStep_of_reads hfirst hstart hu) ht hsecond hset

/-! ## Declarations do not depend on what stands before them -/

open Grammar Text

theorem exists_root (tokens : List Token) :
    ∃ children, (parseTokens tokens none).1 = .node .compilationUnit children := by
  obtain ⟨t, ht⟩ := exists_readsAll tokens
  exact ⟨_, by rw [parseTokens_eq_of_reads ht]⟩

/-- A token list without syntax errors leaves no consequence open. -/
theorem Ended.settled {tokens init : List Token} {e : Token} (h : Ended tokens init e)
    (hclean : IsClean (parseTokens tokens none).2)
    (hnodes : ∀ x ∈ (parseTokens tokens none).1.children, x.isNode = true) :
    Settled (lastKind none init) := by
  obtain ⟨t, ht⟩ := exists_readsAll tokens
  rw [parseTokens_eq_of_reads ht] at hclean hnodes
  obtain ⟨htrivia, hahead⟩ := ahead_of_readsAll h ht hnodes
  rw [htrivia] at hclean
  have hnone : NoErrors t := fun x hx => hclean x (by simpa [Reading.recorded] using hx)
  refine ht.settled ⟨rfl, rfl⟩ hnone ?_ ⟨by simp, by simp⟩
  rw [hahead]
  exact h.eq

/-- A source that lexes and parses without errors but for warnings, ends with a line break and has
nothing but declarations for children, and another one that opens with the keyword of a declaration:
the declarations of both are read as they are alone, and the errors of the second source are moved by
the length of the first one. -/
theorem parse_append {source more : List Char} (hlex : (parse source).lexErrors = [])
    (hclean : IsClean (parse source).syntaxErrors)
    (hbreak : source.getLast?.any isLineBreak = true)
    (hnodes : ∀ x ∈ (parse source).root.children, x.isNode = true)
    (hstart : ((lex more).tokens.head?.any fun t => t.kind.isDeclarationStart) = true) :
    (parse (source ++ more)).root =
        .node .compilationUnit ((parse source).root.children ++ (parse more).root.children) ∧
      (parse (source ++ more)).lexErrors =
        (parse more).lexErrors.map (LexError.moved (byteLength source)) ∧
      (parse (source ++ more)).syntaxErrors =
        (parse source).syntaxErrors ++
          (parse more).syntaxErrors.map (SyntaxError.moved (byteLength source)) := by
  obtain ⟨e, hended, -⟩ := (covers_lex source).ended
  obtain ⟨e', hended', -⟩ := (covers_lex more).ended
  obtain ⟨children, hroot⟩ := exists_root (lex source).tokens
  obtain ⟨children', hroot'⟩ := exists_root (lex more).tokens
  obtain ⟨lines, htokens, herrors⟩ :=
    lex_append hbreak hstart hlex (hended.settled hclean hnodes)
  have hparse := parseTokens_append hended hended' hclean hroot hroot'
    (fun x hx => hnodes x (by rwa [parse_eq, hroot])) hstart (byteLength source) lines
  rw [← htokens] at hparse
  simp [parse_eq, hparse, hroot, hroot', herrors, Element.children]

/-- A rule with an unknown attribute, and a second rule that goes wrong. -/
theorem parse_append_rules :
    (parse ("rule a b 1 when then end\n".toList ++ "rule c when X( then\n".toList)).root =
        .node .compilationUnit ((parse "rule a b 1 when then end\n".toList).root.children ++
          (parse "rule c when X( then\n".toList).root.children) ∧
      (parse ("rule a b 1 when then end\n".toList ++ "rule c when X( then\n".toList)).lexErrors =
        (parse "rule c when X( then\n".toList).lexErrors.map (LexError.moved 25) ∧
      (parse ("rule a b 1 when then end\n".toList ++ "rule c when X( then\n".toList)).syntaxErrors =
        (parse "rule a b 1 when then end\n".toList).syntaxErrors ++
          (parse "rule c when X( then\n".toList).syntaxErrors.map (SyntaxError.moved 25) :=
  @parse_append "rule a b 1 when then end\n".toList "rule c when X( then\n".toList
    (by decide +kernel) (List.all_eq_true.1 (by decide +kernel)) (by decide +kernel)
    (List.all_eq_true.1 (by decide +kernel)) (by decide +kernel)

end RuleLang
