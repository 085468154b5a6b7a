import RuleLang.Proofs.Grammar.Shuts

/-!
# Productions that end with significant tokens

## Main definitions

* `Grammar.ShutsLine` — an instruction keeps a group shut up to the rest of its line.

## Main statements

* `Grammar.shuts_body` — what stands inside of declarations keeps a group shut.
* `Grammar.shutsLine_ruleEnd` — so does the end of a rule, whose `then` clause may end with trivia.
-/

namespace RuleLang

open Grammar Production Element

namespace Grammar

open Declarations Conditions Expressions

variable {a : Ahead}

/-! ## Declarations -/

theorem shuts_attributes : Shuts attributes a := by
  refine .look ?_
  split
  · rename_i h
    exact .seq (.bumpAt (beq_iff_eq.1 h) rfl) fun _ => .seq (.eat_skip rfl) fun _ =>
      .call rfl trivial
  split
  · rename_i h
    exact .seq (.bumpAt (beq_iff_eq.1 h) rfl) fun _ => .call rfl trivial
  split
  · rename_i h
    refine .seq (.call rfl ?_) fun _ => .call rfl trivial
    rintro he
    rw [Ahead.isAt, he] at h
    cases h
  · exact .skip

theorem takesOne_attributes (h : a.current.isAttributeKeyword = true ∨ a.current = .ident) :
    TakesOne (.call .attributes) a := by
  refine .call (.of_spends (.look ?_))
  have hne : a.current ≠ .eof := by
    rintro he
    rw [he] at h
    rcases h with h | h <;> cases h
  split
  · exact Spends.left (.bump hne)
  split
  · exact Spends.left (.bump hne)
  split
  · refine Spends.left (.call ?_)
    rw [least, if_neg (by simpa using hne)]
  · rename_i h'
    refine absurd ?_ h'
    rcases h with h | h <;> simp [h, Ahead.isAt]

theorem shuts_attributeValue : Shuts (.look fun a => match a.current with
    | .stringLit => inner .attributeValue (.bump >> .call .stringList)
    | .intLit | .floatLit | .trueKw | .falseKw => inner .attributeValue .bump
    | .minus =>
      if a.nth 1 == .intLit || a.nth 1 == .floatLit then inner .attributeValue (.take 2)
      else .skip
    | .lParen => inner .attributeValue .balanced
    | _ => .skip : Rule) a := by
  have hone {k : Kind} (h : a.current = k) (hk : (k == .eof) = false) : 0 + 1 ≤ a.significant :=
    Ahead.one_le_significant (Ahead.current_ne_eof h hk)
  refine .look ?_
  split
  · rename_i h
    exact .inner_bump (Ahead.current_ne_eof h rfl) fun _ => .call rfl trivial
  · rename_i h
    exact .inner_take (hone h rfl)
  · rename_i h
    exact .inner_take (hone h rfl)
  · rename_i h
    exact .inner_take (hone h rfl)
  · rename_i h
    exact .inner_take (hone h rfl)
  · rename_i h
    split
    · rename_i hnext
      refine .inner_take (Ahead.two_le_significant (Ahead.current_ne_eof h rfl) fun he => ?_)
      rw [he] at hnext
      cases hnext
    · exact .skip
  · rename_i h
    exact .inner_balanced (by rw [h]; rfl)
  · exact .skip

theorem shuts_attributeItem (h : a.current ≠ .eof) : Shuts attributeItem a := by
  have h' : a.afterTrivia.current ≠ .eof := by rwa [Ahead.current_afterTrivia]
  exact .inner
    (.of_spends (.idle_seq (fun _ _ _ hx hy => by rw [accepts_attributeKey.1 hy, hx])
      (Spends.bump h').left))
    (.idle_seq (fun _ _ _ hy => accepts_attributeKey.1 hy)
      (.seq (.bump h') fun _ => shuts_attributeValue))

/-! ## Expressions -/

theorem atHalfConstraint_afterTrivia (a : Ahead) :
    atHalfConstraint a.afterTrivia = atHalfConstraint a := by
  simp only [atHalfConstraint, Ahead.current_afterTrivia, Ahead.nth_afterTrivia]

theorem shuts_operand {level : Level} {half : Bool} : Shuts (operand level half) a := by
  cases level <;> exact .call rfl trivial

/-- What is entered as an operator starts with one. -/
theorem fits_operator (h : (atRelationalOperator a || atHalfConstraint a) = true) :
    Production.operator.fits a := by
  refine ⟨fun he => ?_, fun hnot he => ?_⟩
  · simp [atRelationalOperator, atHalfConstraint, he] at h
    exact absurd h (by decide)
  · simp [atRelationalOperator, atHalfConstraint, hnot, he] at h
    exact absurd h (by decide)

/-- The symbol or the name of an operator, and its parameters. -/
theorem shuts_operatorTail {c : Prop} [Decidable c] (h : a.current ≠ .eof) :
    Shuts (.seq (.eat .hashHash (.expect .ident) .bump)
      (if c then
        .whenAt .lBracket (.inner .operatorParams
          (.seq .bump (.seq (.untilClose .rBracket) (.expect .rBracket))))
      else .skip)) a := by
  refine .seq (.eat rfl (fun _ => .expect_skip rfl) (.bump h)) fun _ => ?_
  split
  · exact .whenAt (fun h => .inner_bump (Ahead.current_ne_eof h rfl) fun _ =>
      .seq .untilClose fun _ => .expect_skip rfl) .skip
  · exact .skip

/-- A negation takes a token, and the symbol after it another. -/
theorem takesOne_operatorBody {g : Rule} (h : a.current ≠ .eof) :
    TakesOne (eat .notKw >> eat .hashHash (expect .ident) .bump >> g) a := by
  refine .of_spends ?_
  by_cases hnot : a.current = .notKw
  · exact Spends.left (.whenAt (fun _ => Spends.left (.bump h)) fun hne => absurd hnot hne)
  · refine .idle_seq (fun enters x y hx hy => ?_) (Spends.left (spends_symbol h))
    rcases accepts_when hy with ⟨htest, -⟩ | ⟨-, hy⟩
    · exact absurd (hx ▸ beq_iff_eq.1 htest) hnot
    · rw [show y = x from hy, hx]

theorem shuts_operator (h : Production.operator.fits a) : Shuts operator a := by
  obtain ⟨hne, hnext⟩ := h
  have hne' : a.afterTrivia.current ≠ .eof := by rwa [Ahead.current_afterTrivia]
  refine .look (.inner (takesOne_operatorBody hne') (.seq_of (.eat_skip rfl)
    fun enters x z hx hz => shuts_operatorTail ?_))
  rcases accepts_when hz with ⟨htest, w, hw, rfl⟩ | ⟨-, rfl⟩
  · rw [hx, Ahead.isAt, Ahead.current_afterTrivia, beq_iff_eq] at htest
    rw [ahead_of_take hw, hx, Ahead.current_after_one hne', Ahead.nth_afterTrivia]
    exact hnext htest
  · rwa [hx]

theorem shuts_operation (h : Production.operator.fits a) : Shuts operation a :=
  .look (.seq (.call rfl h) fun _ => .call rfl trivial)

theorem shuts_suffixes : Shuts suffixes a := by
  have hname (h : a.current ≠ .eof) : Shuts (if (a.nth 1).isName then
      .take 2 >> .whenAt .lParen (.call .argList >> .enclose .methodCall .skip)
        (.enclose .fieldAccess .skip) >> .call .suffixes else .skip) a := by
    split
    · rename_i hnext
      exact .seq (.two h fun he => by rw [he] at hnext; cases hnext) fun _ =>
        .seq (.whenAt (fun _ => .seq (.call rfl trivial) fun _ => .enclose .skip) (.enclose .skip))
          fun _ => .call rfl trivial
    · exact .skip
  have hstep (h : a.current ≠ .eof) : Shuts (if a.adjacent then
      .bump >> .enclose .unaryExpr .skip >> .call .suffixes else .skip) a := by
    split
    · exact .seq (.bump h) fun _ => .seq (.enclose .skip) fun _ => .call rfl trivial
    · exact .skip
  refine .look ?_
  split
  · rename_i h
    exact hname (Ahead.current_ne_eof h rfl)
  · rename_i h
    exact hname (Ahead.current_ne_eof h rfl)
  · rename_i h
    split
    · exact .seq (.bumpAt h rfl) fun _ => .seq (.call rfl trivial) fun _ =>
        .seq (.enclose .skip) fun _ => .call rfl trivial
    · exact .skip
  · rename_i h
    exact .seq (.bumpAt h rfl) fun _ => .seq (.call rfl trivial) fun _ =>
      .seq (.expect_skip rfl) fun _ => .seq (.enclose .skip) fun _ => .call rfl trivial
  · rename_i h
    exact hstep (Ahead.current_ne_eof h rfl)
  · rename_i h
    exact hstep (Ahead.current_ne_eof h rfl)
  · exact .skip

/-! ## All productions -/

/-- Inside of declarations, nodes end with significant tokens. -/
theorem shuts_body : (p : Production) → p.isSealed = true → p.fits a → Shuts p.body a
  | .supertypes, _, _ =>
    .eat rfl (fun _ => .seq (.call rfl trivial) fun _ => .call rfl trivial) .skip
  | .annotations, _, _ =>
    .whenAt (fun _ => .seq (.call rfl trivial) fun _ => .call rfl trivial) .skip
  | .annotated, _, _ =>
    .of_takesOne (.of_spends spends_annotated) fun h => .inner_bump h fun _ =>
      .seq (.call rfl trivial) fun _ => .whenAt (fun _ => .balanced) .skip
  | .fields, _, _ => by
    refine .look ?_
    split
    · exact .skip
    split
    · rename_i h
      obtain ⟨hname, hcolon⟩ := Bool.and_eq_true_iff.1 h
      refine .seq (.call rfl (Ahead.two_le_significant (ne_eof_of_atName hname) fun he => ?_))
        fun _ => .call rfl trivial
      rw [he] at hcolon
      cases hcolon
    · exact .fail_seq fun _ => rfl
  | .field, _, h =>
    .inner (.of_spends (Spends.left ((Spends.take (h.trans_eq
        (Ahead.significant_afterTrivia a).symm)).le (by decide))))
      (.seq (.take (h.trans_eq (Ahead.significant_afterTrivia a).symm)) fun _ =>
        .seq (.call rfl trivial) fun _ => .seq (.eat rfl (fun _ => .call rfl trivial) .skip)
          fun _ => .call rfl trivial)
  | .declName _, _, _ =>
    .when (fun h => .inner_take (Ahead.one_le_significant (ne_eof_of_stringOrName h))) fun _ => .fail
  | .parent, _, _ =>
    .of_takesOne (.of_spends spends_parent) fun h => .inner_bump h fun _ =>
      .when (fun h => .bump (ne_eof_of_stringOrName h)) fun _ => .complain
  | .attributeList, _, h =>
    .inner (takesOne_attributes (by rwa [Ahead.current_afterTrivia])) (.call rfl trivial)
  | .attributes, _, _ => shuts_attributes
  | .attribute, _, h => shuts_attributeItem h
  | .stringList, _, _ =>
    .when (fun h => .seq (.twoAt (q := (· == .stringLit)) h rfl) fun _ => .call rfl trivial)
      fun _ => .skip
  | .whenClause, _, h =>
    .inner_bump h fun _ => .seq (.eat_skip rfl) fun _ => .call rfl trivial
  | .blockEnd _, _, _ => .eat rfl (fun _ => .skip) (.whenAt (fun _ => .complain) .fail)
  | .parameterList, _, _ =>
    .of_takesOne (.of_spends spends_parameterList) fun h => .inner_bump h fun _ =>
      .seq (.whenAt (fun _ => .skip) (.call rfl trivial)) fun _ => .expect_skip rfl
  | .parameters, _, _ =>
    .seq (.call rfl trivial) fun _ => .eat rfl (fun _ => .call rfl trivial) .skip
  | .parameter, _, _ =>
    .inner (.of_spends (Spends.left (.call le_rfl)))
      (.seq (.call rfl trivial) fun _ => .when .bumpName fun _ => .skip)
  | .qualifiedName, _, _ =>
    .when (fun h => .inner_bump (ne_eof_of_atName h) fun _ => .call rfl trivial) fun _ => .fail
  | .nameParts, _, _ =>
    .when (fun h => .seq (.twoAt (q := Kind.isName) h rfl) fun _ => .call rfl trivial)
      fun _ => .skip
  | .typeRef, _, _ =>
    .when (fun _ => .inner (.of_spends (Spends.left (.call le_rfl)))
      (.seq (.call rfl trivial) fun b =>
        .seq (.whenAt (fun _ => .look (.take b.typeArguments_le)) .skip) fun _ =>
          .call rfl trivial)) fun _ => .fail
  | .dimensions, _, _ =>
    .when (fun h => .seq (.twoAt (q := (· == .rBracket)) h rfl) fun _ => .call rfl trivial)
      fun _ => .skip
  | .conditions, _, _ => by
    refine .look ?_
    split
    · exact .skip
    · refine .seq ?_ fun _ => .seq (.ifRecovering .skip) fun _ => .call rfl trivial
      split
      · exact .seq (.call rfl trivial) fun _ => .eat_skip rfl
      · exact .fail
  | .lhsOr, _, _ =>
    .innerGroup (.of_spends (Spends.left (.call le_rfl))) (.seq (.call rfl trivial) fun _ =>
      .when (fun h => .enclose (.seq (.bump (ne_eof_of_isOr h)) fun _ =>
        .seq (.call rfl trivial) fun _ => .call rfl trivial)) fun _ => .skip)
  | .lhsOrRest, _, _ =>
    .when (fun h => .seq (.bump (ne_eof_of_isOr h)) fun _ => .seq (.call rfl trivial) fun _ =>
      .call rfl trivial) fun _ => .skip
  | .lhsAnd, _, _ =>
    .innerGroup (.of_spends (Spends.left (.call le_rfl))) (.seq (.call rfl trivial) fun _ =>
      .when (fun h => .enclose (.seq (.bump (ne_eof_of_isAnd h)) fun _ =>
        .seq (.call rfl trivial) fun _ => .call rfl trivial)) fun _ => .skip)
  | .lhsAndRest, _, _ =>
    .when (fun h => .seq (.bump (ne_eof_of_isAnd h)) fun _ => .seq (.call rfl trivial) fun _ =>
      .call rfl trivial) fun _ => .skip
  | .lhsUnary, _, _ => by
    refine .look ?_
    split
    · rename_i h
      exact .inner_bump (Ahead.current_ne_eof h rfl) fun _ => .call rfl trivial
    · rename_i h
      exact .inner_bump (Ahead.current_ne_eof h rfl) fun _ => .call rfl trivial
    · rename_i h
      exact .inner_bump (Ahead.current_ne_eof h rfl) fun _ => .expect rfl fun _ =>
        .seq (.call rfl trivial) fun _ => .expect_skip rfl
    · rename_i h
      exact .inner_bump (Ahead.current_ne_eof h rfl) fun _ => .expect rfl fun _ =>
        .seq (.call rfl trivial) fun _ => .expect_skip rfl
    · exact .call rfl trivial
    · exact .call rfl trivial
    · exact .call rfl trivial
    · exact .call rfl trivial
    · exact .complain
  | .forallItems, _, _ =>
    .when (fun _ => .seq (.call rfl trivial) fun _ => .ifRecovering (.call rfl trivial))
      fun _ => .skip
  | .prefixOperands, _, _ =>
    .when (fun _ => .seq (.call rfl trivial) fun _ => .ifRecovering (.call rfl trivial))
      fun _ => .skip
  | .lhsParen, _, _ => by
    refine .of_takesOne (.of_spends spends_lhsParen) fun h => .inner_bump h fun _ =>
      .seq (.look ?_) fun _ => .expect_skip rfl
    split
    · rename_i h
      exact .inner_bump (Ahead.current_ne_eof h rfl) fun _ => .call rfl trivial
    · rename_i h
      exact .inner_bump (Ahead.current_ne_eof h rfl) fun _ => .call rfl trivial
    · exact .call rfl trivial
  | .pattern, _, _ => by
    refine .inner (.of_spends (.right fun _ => .right fun _ => Spends.left (.call le_rfl)))
      (.seq (.when (fun h => .call rfl ?_) fun _ => .skip) fun _ => .seq (.eat_skip rfl) fun _ =>
        .seq (.call rfl trivial) fun _ => .seq (.expect rfl fun _ =>
          .seq (.whenAt (fun _ => .skip) (.call rfl trivial)) fun _ => .recoverInParens) fun _ =>
            .seq (.expect_skip rfl) fun _ => .seq (.whenAt (fun _ => .call rfl trivial) .skip)
              fun _ => .whenAt (fun _ => .call rfl trivial) .skip)
    obtain ⟨hident, hcolon⟩ := Bool.and_eq_true_iff.1 h
    refine Ahead.two_le_significant (ne_eof_of_isAt hident rfl) fun he => ?_
    rw [he] at hcolon
    cases hcolon
  | .constraints, _, _ =>
    .seq (.call rfl trivial) fun _ => .eat rfl (fun _ => .call rfl trivial) .skip
  | .binding, _, h => .inner_take h
  | .constraint, _, _ => by
    refine .inner (.of_spends (.right fun _ => .call le_rfl))
      (.seq (.when (fun h => .call rfl ?_) fun _ => .skip) fun _ => .call rfl trivial)
    obtain ⟨hname, hcolon⟩ := Bool.and_eq_true_iff.1 h
    refine Ahead.two_le_significant (ne_eof_of_atName hname) fun he => ?_
    rw [he] at hcolon
    cases hcolon
  | .window, _, _ =>
    .of_takesOne (.of_spends closes_window.1) fun h => .inner_bump h fun _ => .expect rfl fun _ =>
      .expect rfl fun _ => .seq .expectName fun _ =>
        .whenAt (fun h => .inner_balanced (by rw [h]; rfl)) .skip
  | .source, _, _ => by
    refine .of_takesOne (.of_spends closes_source.1) fun h => .inner_bump h fun _ => .look ?_
    split
    · exact .call rfl trivial
    · rename_i h
      exact .inner_bump (Ahead.current_ne_eof h rfl) fun _ => .expect rfl fun _ =>
        .seq (.call rfl trivial) fun _ => .expect_skip rfl
    · rename_i h
      exact .inner_bump (Ahead.current_ne_eof h rfl) fun _ =>
        .eat rfl (fun _ => .skip) (.call rfl trivial)
    · exact .call rfl trivial
  | .accumulate, _, _ =>
    .of_takesOne (.of_spends closes_accumulate.1) fun h => .inner_bump h fun _ =>
      .expect rfl fun _ => .seq (.call rfl trivial) fun _ =>
        .seq (.eat rfl (fun _ => .untilClose) (.eat rfl (fun _ => .untilClose) .skip)) fun _ =>
          .expect_skip rfl
  | .expr, _, _ => .call rfl trivial
  | .ternary, _, _ =>
    .innerGroup (.of_spends (Spends.left (.call le_rfl))) (.seq (.call rfl trivial) fun _ =>
      .whenAt (fun h => .enclose (.seq (.bumpAt h rfl) fun _ => .seq (.call rfl trivial) fun _ =>
        .seq (.expect_skip rfl) fun _ => .call rfl trivial)) .skip)
  | .binary _ _, _, _ =>
    .innerGroup (.of_spends (Spends.left closes_operand.1))
      (.seq shuts_operand fun _ => .call rfl trivial)
  | .binaryRest _, _, _ =>
    .when (fun h => .seq (.enclose (.seq (.bump (Carried.ne_eof_of_contains_operators h)) fun _ =>
      shuts_operand)) fun _ => .call rfl trivial) fun _ => .skip
  | .relational _, _, _ => by
    refine .when (fun h => .inner (.of_spends closes_operation.1) (shuts_operation ?_)) fun _ =>
      .innerGroup (.of_spends (Spends.left (.call le_rfl)))
        (.seq (.call rfl trivial) fun _ => .call rfl trivial)
    refine fits_operator ?_
    rw [Bool.or_eq_true, atHalfConstraint_afterTrivia]
    exact .inr (Bool.and_eq_true_iff.1 h).2
  | .relationalRest, _, _ =>
    .when (fun h => .seq (.enclose (shuts_operation (fits_operator (by rw [h]; rfl)))) fun _ =>
      .call rfl trivial) fun _ => .skip
  | .operator, _, h => shuts_operator h
  | .relationalRhs _, _, _ => by
    change Shuts (Expressions.relationalRhs _) a
    unfold Expressions.relationalRhs
    split
    · exact .call rfl trivial
    · exact .when (fun _ => .call rfl trivial) fun _ => .call rfl trivial
  | .unary, _, _ => by
    refine .look ?_
    split
    iterate 6
      rename_i h
      exact .inner_bump (Ahead.current_ne_eof h rfl) fun _ => .call rfl trivial
    split
    · rename_i h
      rw [atCast, Bool.and_eq_true, Bool.and_eq_true] at h
      exact .inner_bump (ne_eof_of_isAt h.1.1 rfl) fun _ => .seq (.call rfl trivial) fun _ =>
        .seq (.expect_skip rfl) fun _ => .call rfl trivial
    · exact .call rfl trivial
  | .postfixed, _, _ =>
    .innerGroup (.of_spends (Spends.left (.call le_rfl)))
      (.seq (.call rfl trivial) fun _ => .call rfl trivial)
  | .suffixes, _, _ => shuts_suffixes
  | .primary, _, _ => by
    refine .look ?_
    split
    · rename_i h
      exact .inner_take (Ahead.one_le_significant (Kind.closed_of_isLiteral h).1)
    split
    · rename_i h
      have h' : a.afterTrivia.atName = true := by rwa [Ahead.atName, Ahead.current_afterTrivia]
      exact .innerGroup (.of_spends (Spends.left (.node (.bump (ne_eof_of_atName h')))))
        (.seq (.group (.enclose (.bumpName h'))) fun _ => .when
          (fun _ => .seq (.call rfl trivial) fun _ => .enclose .skip) fun _ => .skip)
    split
    · exact .call rfl trivial
    · rename_i h
      exact .inner_bump (Ahead.current_ne_eof h rfl) fun _ => .seq (.call rfl trivial) fun _ =>
        .seq .recoverInParens fun _ => .expect_skip rfl
    · exact .call rfl trivial
    · exact .complain
  | .creation, _, _ => by
    refine .of_takesOne (.of_spends closes_creation.1) fun h => .inner_bump h fun _ =>
      .seq (.call rfl trivial) fun _ => .look ?_
    split
    · exact .call rfl trivial
    · exact .seq (.call rfl trivial) fun _ => .whenAt (fun _ => .balanced) .skip
    · exact .complain
  | .creationDims, _, _ => .whenAt (fun _ => .seq .balanced fun _ => .call rfl trivial) .skip
  | .arrayInit, _, _ =>
    .of_takesOne (.of_spends closes_arrayInit.1) fun h => .inner_bump h fun _ =>
      .seq (.whenAt (fun _ => .skip) (.call rfl trivial)) fun _ => .expect_skip rfl
  | .arrayItems, _, _ =>
    .seq (.call rfl trivial) fun _ => .seq (.eat rfl (fun _ => .call rfl trivial) .skip) fun _ =>
      .eat rfl (fun _ => .call rfl trivial) .skip
  | .argList, _, _ =>
    .of_takesOne (.of_spends closes_argList.1) fun h => .inner_bump h fun _ =>
      .seq (.whenAt (fun _ => .skip) (.call rfl trivial)) fun _ => .seq .recoverInParens fun _ =>
        .expect_skip rfl
  | .arguments, _, _ =>
    .seq (.call rfl trivial) fun _ => .eat rfl (fun _ => .call rfl trivial) .skip

theorem seals : (depth : Nat) → Seals depth
  | 0 => fun _ _ _ _ _ _ h => h.elim
  | depth + 1 => fun p x y hp hfits hx h => shuts_body p hp hfits depth (seals depth) x y rfl hx h

/-! ## The end of a declaration -/

/-- Reading by an instruction without complaint ends with a significant token and then with the rest
of its line. -/
def ShutsLine (g : Rule) (a : Ahead) : Prop :=
  ∀ depth x y, x.ahead = a → x.Shut → g.Accepts (Enters body depth) x y →
    ∃ u : Point, u.Shut ∧ u.Takes (Reading.lineTriviaLength u.ahead) y

namespace ShutsLine

variable {f g : Rule}

theorem lineTrivia : ShutsLine .lineTrivia a :=
  fun _ x _ _ hx hy => ⟨x, hx, hy⟩

theorem seq (hf : Shuts f a) (hg : ∀ b, ShutsLine g b) : ShutsLine (f >> g) a := by
  rintro depth x y ha hx ⟨z, hz, hy⟩
  exact hg z.ahead depth z y rfl (hf depth (seals depth) x z ha hx hz) hy

theorem fail_seq {c : Kind → Complaint} (hc : ∀ k, (c k).isWarning = false) :
    ShutsLine (.fail c >> g) a := by
  rintro depth x y - - ⟨z, hz, -⟩
  exact (not_accepts_fail hc hz).elim

end ShutsLine

/-- A `then` clause without action ends with the trivia after its `then`. -/
theorem allNodes_thenClause {depth : Nat} {x y : Point} (h : x.ahead.current ≠ .eof) (hx : x.Shut)
    (hy : thenClause.Accepts (Enters body depth) x y) : AllNodes EndsInside y.group := by
  obtain ⟨w, hw, -, ⟨v, ⟨u, hu, w', hw', -, ⟨z, hz, rfl⟩, rfl⟩, rfl⟩, rfl⟩ := hy
  have hone : 1 ≤ w.ahead.significant := by
    rw [(accepts_trivia hw).1, Ahead.significant_afterTrivia]
    exact Ahead.one_le_significant h
  have hshut : u.Shut := Point.Takes.shut_succ (x := ⟨w.ahead, []⟩) hu hone .nil
  have hnodes := Point.Takes.allNodes hw' hshut.nodes
  refine allNodes_append.2 ⟨?_, Point.Takes.allNodes hw hx.nodes⟩
  rw [allNodes_node, allNodes_reverse]
  rcases accepts_when hz with ⟨htest, z', hbump, rfl⟩ | ⟨-, rfl⟩
  · have hne : w'.ahead.current ≠ .eof := ne_eof_of_isAt htest rfl
    have hz : z.Shut := Point.Takes.shut_succ (x := ⟨w'.ahead, []⟩) hbump
      (Ahead.one_le_significant hne) .nil
    have hfilled : leavesOf z.group.reverse ≠ [] :=
      TakesOne.ne_nil (x := ⟨w'.ahead, []⟩) (.of_spends (Spends.bump hne)) ⟨depth, hbump⟩
    have hjoin := Point.Shut.join_after hnodes (hz.enclose .actionBlock) (by simpa using hfilled)
    exact ⟨(allNodes_node.1 (hjoin.enclose .thenClause).nodes).1, hjoin.nodes⟩
  · refine ⟨.inr ⟨rfl, by simp [children]⟩, allNodes_append.2 ⟨?_, hnodes⟩⟩
    exact allNodes_node.2 ⟨.inl .nil, .nil⟩

/-- The end of a rule: its `then` clause and its `end`. -/
theorem shutsLine_ruleEnd : ShutsLine (.seq (.whenAt .thenKw (.call .thenClause))
    (.seq (.call (.blockEnd .rule)) .lineTrivia)) a := by
  rintro depth x y rfl hx ⟨z, hz, u, hu, hy⟩
  refine ⟨u, ?_, hy⟩
  cases depth with
  | zero => exact hu.elim
  | succ depth =>
    have hnodes : AllNodes EndsInside z.group := by
      rcases accepts_when hz with ⟨htest, hthen⟩ | ⟨-, rfl⟩
      · exact allNodes_thenClause (ne_eof_of_isAt htest rfl) hx hthen
      · exact hx.nodes
    have hend : (Declarations.blockEnd .rule).Accepts (Enters body depth) z u := hu
    rcases accepts_when hend with ⟨htest, v, hbump, rfl⟩ | ⟨-, hu⟩
    · exact Point.Takes.shut_succ hbump (Ahead.one_le_significant (ne_eof_of_isAt htest rfl)) hnodes
    · rcases accepts_when hu with ⟨-, hwarning, -⟩ | ⟨-, hu⟩
      · cases hwarning
      · exact (not_accepts_fail (fun _ => rfl) hu).elim

end Grammar

end RuleLang
