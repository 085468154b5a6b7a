import RuleLang.Proofs.Grammar.Confined

/-!
# The productions see only what they take

What a production reads without complaint is read in the same way if the input ends right after it.

## Main statements

* `Production.confined` — the bodies of all productions.
* `Grammar.Accepted.cut` — what a production reads without complaint is read if the input ends
  right after it.
-/

namespace RuleLang

open Grammar Production

namespace Grammar

/-! ## Declarations -/

section

open Declarations

theorem confined_nameParts : Confined 0 nameParts :=
  .when_pair (p := (· == .dot)) (q := Kind.isName) rfl rfl (.seq .take .call) .skip
    fun h => Spends.left (.take h)

theorem confined_qualifiedName : Confined 0 qualifiedName :=
  .when_kind (q := Kind.isName) rfl (.inner (.seq .bump .call)) (.fail fun _ => rfl) .inner_bump

theorem confined_dimensions : Confined 0 dimensions :=
  .when_pair (p := (· == .lBracket)) (q := (· == .rBracket)) rfl rfl (.seq .take .call) .skip
    fun h => Spends.left (.take h)

theorem confined_typeRef : Confined 0 typeRef :=
  .when_kind (q := Kind.isName) rfl
    (.inner (.seq .call (.seq (.whenAt rfl .typeArguments .skip spends_typeArguments) .call)))
    (.fail fun _ => rfl) fun _ => .inner (Spends.left (.call le_rfl))

theorem confined_declarations : Confined 0 declarations := by
  refine .seq .recovered (.look_current (fun a => ?_) (fun hcur _ => by simp only [hcur])
    fun {a a'} hcur => ?_)
  · split
    · exact .skip
    all_goals exact .seq .call .call
  · simp only [hcur]
    split
    · exact .inl rfl
    all_goals exact .inr (Spends.left (.call le_rfl))

theorem confined_strayTokens : Confined 0 strayTokens :=
  .node (.fail_seq fun _ => rfl)

theorem confined_packageDecl : Confined 0 packageDecl :=
  .node (.seq .bump (.seq .call (.seq (.eat_skip rfl) .lineTrivia)))

theorem confined_importDecl : Confined 0 importDecl :=
  .node (.seq .bump (.seq (.eat rfl .skip (.eat_skip rfl)) (.seq .call (.seq
    (.when_pair (p := (· == .dot)) (q := (· == .star)) rfl rfl .take .skip .take)
    (.seq (.eat_skip rfl) .lineTrivia)))))

theorem confined_globalDecl : Confined 0 globalDecl :=
  .node (.seq .bump (.seq .call (.seq .expectName (.seq (.eat_skip rfl) .lineTrivia))))

theorem confined_functionDecl : Confined 0 functionDecl :=
  .node (.seq .bump (.seq .call (.seq .expectName
    (.seq (.whenAt rfl .call (.complain rfl) fun _ => .call le_rfl)
      (.seq (.whenAt rfl (.inner .balanced) (.complain_seq rfl) fun h =>
        .inner (Closes.balanced (by rw [Ahead.current_afterTrivia, h]; rfl)).1) .lineTrivia)))))

theorem confined_queryDecl : Confined 0 queryDecl :=
  .node (.seq .bump (.seq .call (.seq (.whenAt rfl .call .skip fun _ => .call le_rfl)
    (.seq .call (.seq .call .lineTrivia)))))

theorem confined_declareDecl : Confined 0 declareDecl :=
  .node (.seq .bump (.seq (.eat_skip rfl) (.seq .call (.seq (.eat rfl (.seq .call .call) .skip)
    (.seq .call (.seq .call (.seq .call .lineTrivia)))))))

theorem confined_annotated : Confined 0 annotated :=
  .inner (.seq .bump (.seq .call (.whenAt rfl .balanced .skip fun h =>
    (Closes.balanced (by rw [h]; rfl)).1)))

theorem confined_fields : Confined 0 fields := by
  have hfield {a : Ahead} (h : a.current ≠ .eof) (hnext : a.nth 1 ≠ .eof) :
      Spends 2 (.seq (.call .field) (.call .fields)) a :=
    Spends.left (.call (le_min le_rfl (Ahead.two_le_significant h hnext)))
  have hfails {k : Nat} {a : Ahead} :
      Spends k (.seq (.fail .expectedField) (.seq (.recoverTo []) (.call .fields))) a :=
    Spends.left (.fail fun _ => rfl)
  have hcolon {a : Ahead} (h : (a.atName && a.nth 1 == .colon) = true) :
      a.current ≠ .eof ∧ a.nth 1 ≠ .eof := by
    obtain ⟨hname, hnext⟩ := Bool.and_eq_true_iff.1 h
    exact ⟨ne_eof_of_atName hname, by rw [beq_iff_eq.1 hnext]; decide⟩
  refine .look_two (fun a => .ite .skip (.ite (.seq .call .call) (.fail_seq fun _ => rfl)))
    (fun {a a'} hcur _ hnext => ?_) (fun {a a'} hcur _ _ => ?_) fun {a a'} hcur => ?_
  · rw [hcur, hnext, Ahead.atName, hcur]
    rfl
  · by_cases hover : (a.current == .eof || a.current.isBoundaryKeyword) = true
    · exact .inl (by rw [hcur, if_pos hover, if_pos hover])
    · rw [if_neg hover]
      right
      split
      · rename_i h
        exact hfield (hcolon h).1 (hcolon h).2
      · exact hfails
  · by_cases hover : (a.current == .eof || a.current.isBoundaryKeyword) = true
    · exact .inl (by rw [hcur, if_pos hover]; rfl)
    · rw [if_neg hover]
      right
      split
      · rename_i h
        exact (hfield (hcolon h).1 (hcolon h).2).le (Nat.le_succ 1)
      · exact hfails

theorem confined_field : Confined 0 field :=
  .inner (.seq .take (.seq .call (.seq (.eat rfl .call .skip) .call)))

theorem confined_declName {role : Role} : Confined 0 (declName role) :=
  .when_kind (q := fun k => k == .stringLit || k.isName) rfl (.inner .bump) (.fail fun _ => rfl)
    fun h => .inner (.bump (by rwa [Ahead.current_afterTrivia]))

theorem confined_parent : Confined 0 parent :=
  .inner (.seq .bump (.when_kind (q := fun k => k == .stringLit || k.isName) rfl .bump
    (.complain rfl) .bump))

/-- The keyword `end` is left when the parts of a rule are read. -/
theorem confined_ruleDecl : Confined 0 ruleDecl := by
  have hend (a : Ahead) : Spends 1 (.call (.blockEnd .rule) >> .lineTrivia) a :=
    Spends.left (.call le_rfl)
  refine .node (.seq .bump (.seq .call (.before (.whenAt_left .call .skip) (.seq .call
    (.before (.when_left .call .skip fun hcur => by rw [Ahead.isAt, Ahead.isAt, hcur])
      (.before (.whenAt_left .skip (.fail_seq fun _ => rfl))
        (.before (.whenAt_left .call .skip)
          (.before (.whenAt_left .skip (.fail_seq fun _ => rfl))
            (.before (.whenAt_left .call .skip) (.seq .call .lineTrivia) hend)
          ?_) ?_) ?_) ?_)) ?_)))
  · exact fun _ => .right hend
  · exact fun _ => .right fun _ => .right hend
  · exact fun _ => .right fun _ => .right fun _ => .right hend
  · exact fun _ => .right fun _ => .right fun _ => .right fun _ => .right hend
  · exact fun _ => .right fun _ => .right fun _ => .right fun _ => .right fun _ => .right fun _ =>
      .right hend

theorem confined_attributeList : Confined 0 attributeList :=
  .inner .call

theorem confined_attributes : Confined 0 attributes := by
  refine .look_current (fun a => ?_) (fun {a a'} hcur _ => ?_) fun {a a'} hcur => ?_
  · exact .ite (.seq .bump (.seq (.eat_skip rfl) .call))
      (.ite (.seq .bump .call) (.ite (.seq .call .call) .skip))
  · rw [Ahead.isAt, Ahead.isAt, Ahead.isAt, hcur]
    rfl
  · rw [Ahead.isAt, Ahead.isAt, Ahead.isAt, hcur]
    by_cases he : a.current = .eof
    · exact .inl (by rw [Ahead.isAt, Ahead.isAt, Ahead.isAt, he])
    have hattribute : 1 ≤ Production.attribute.least a := by
      rw [least, if_neg (by simpa using he)]
    by_cases hover : a.isAt .attributesKw = true
    · rw [if_pos hover]
      exact .inr (Spends.bump he).left
    rw [if_neg hover]
    by_cases hcomma : a.isAt .comma = true
    · rw [if_pos hcomma]
      exact .inr (Spends.bump he).left
    rw [if_neg hcomma]
    by_cases hkey : (a.current.isAttributeKeyword || a.isAt .ident) = true
    · rw [if_pos hkey]
      exact .inr (Spends.left (.call hattribute))
    · rw [if_neg hkey]
      exact .inl rfl

/-- The warning about an unknown key is given without taking anything. -/
theorem confined_attributeKey : Confined 0 (.look fun a =>
    match a.currentToken? with
    | some t => if t.kind == .ident then .complain (.unknownAttribute t.text) else .skip
    | none => .skip) := by
  intro enters hE b a' x y hcut h hb hsig
  obtain rfl := accepts_attributeKey.1 h
  exact ⟨a', hcut, accepts_attributeKey.2 rfl⟩

theorem confined_attributeValue : Confined 0 (.look fun a =>
    match a.current with
    | .stringLit => inner .attributeValue (Grammar.bump >> .call .stringList)
    | .intLit | .floatLit | .trueKw | .falseKw => inner .attributeValue Grammar.bump
    | .minus =>
      if a.nth 1 == .intLit || a.nth 1 == .floatLit then inner .attributeValue (.take 2)
      else .skip
    | .lParen => inner .attributeValue Grammar.balanced
    | _ => .skip) := by
  have htwo {a : Ahead} (h : a.current = .minus)
      (hnext : (a.nth 1 == .intLit || a.nth 1 == .floatLit) = true) :
      Spends 2 (inner .attributeValue (.take 2)) a := by
    refine .inner (.take ?_)
    rw [Ahead.significant_afterTrivia]
    refine Ahead.two_le_significant (Ahead.current_ne_eof h rfl) fun he => ?_
    rw [he] at hnext
    cases hnext
  refine .look_two (fun a => ?_) (fun {a a'} hcur _ hnext => by rw [hcur, hnext])
    (fun {a a'} hcur _ hnext => ?_) fun {a a'} hcur => ?_
  · split
    · exact .inner (.seq .bump .call)
    iterate 4 exact .inner .bump
    · exact .ite (.inner .take) .skip
    · exact .inner .balanced
    · exact .skip
  · rw [hcur]
    split
    iterate 5 exact .inl rfl
    · rename_i h
      rw [hnext]
      exact Confined.skip_or_spends (htwo h)
    · exact .inl rfl
    · exact .inl rfl
  · simp only [hcur]
    split
    · rename_i h
      exact .inr (.inner_bump (Ahead.current_ne_eof h rfl))
    iterate 4
      rename_i h
      exact .inr (.inner (.bump (Ahead.current_ne_eof (a.current_afterTrivia.trans h) rfl)))
    · rename_i h
      exact Confined.skip_or_spends fun hlit => (htwo h hlit).le (Nat.le_succ 1)
    · rename_i h
      exact .inr (.inner (Closes.balanced (by rw [Ahead.current_afterTrivia, h]; rfl)).1)
    · exact .inl rfl

theorem confined_attributeItem : Confined 0 attributeItem :=
  .inner (.seq confined_attributeKey (.seq .bump confined_attributeValue))

theorem confined_stringList : Confined 0 stringList :=
  .when_pair (p := (· == .comma)) (q := (· == .stringLit)) rfl rfl (.seq .take .call) .skip
    fun h => Spends.left (.take h)

theorem confined_whenClause : Confined 0 whenClause :=
  .inner (.seq .bump (.seq (.eat_skip rfl) .call))

theorem confined_thenClause : Confined 0 thenClause :=
  .inner (.seq .bump (.inner (.eat_skip rfl)))

theorem confined_blockEnd {block : Block} : Confined 0 (blockEnd block) := by
  refine .eat rfl .skip (.of_never fun enters x y h => ?_)
  rcases accepts_when h with ⟨-, h⟩ | ⟨-, h⟩
  · cases h.1
  · exact not_accepts_fail (fun _ => rfl) h

theorem confined_parameterList : Confined 0 parameterList :=
  .inner (.seq .bump (.before (.whenAt_left .skip .call) (.expect_skip rfl) fun _ => .expect rfl))

theorem confined_parameters : Confined 0 parameters :=
  .seq .call (.eat rfl .call .skip)

theorem confined_parameter : Confined 0 parameter :=
  .inner (.seq .call (.when_kind (q := Kind.isName) rfl .bump .skip .bump))

end

/-! ## Conditions -/

section

open Conditions

theorem confined_conditions : Confined 0 conditions := by
  refine .look_current (fun a => ?_) (fun {a a'} hcur _ => ?_) fun {a a'} hcur => ?_
  · exact .ite .skip (.seq (.ite (.seq .call (.eat_skip rfl)) (.fail fun _ => rfl))
      (.seq (.ifRecovering .skip) .call))
  · rw [Ahead.isAt, Ahead.isAt, hcur]
    rfl
  · rw [Ahead.isAt, Ahead.isAt, hcur]
    by_cases hover : (a.isAt .thenKw || a.isAt .eof || a.current.isBoundaryKeyword) = true
    · exact .inl (by rw [if_pos hover]; rfl)
    · rw [if_neg hover]
      refine .inr (Spends.left ?_)
      split
      · exact Spends.left (.call le_rfl)
      · exact .fail fun _ => rfl

theorem confined_lhsOr : Confined 0 lhsOr :=
  .innerGroup (.seq .call (.when_kind (q := fun k => k == .orKw || k == .pipePipe) rfl
    (.enclose (.seq .bump (.seq .call .call))) .skip fun h => .enclose (Spends.bump h).left))

theorem confined_lhsOrRest : Confined 0 lhsOrRest :=
  .when_kind (q := fun k => k == .orKw || k == .pipePipe) rfl (.seq .bump (.seq .call .call)) .skip
    fun h => (Spends.bump h).left

theorem confined_lhsAnd : Confined 0 lhsAnd :=
  .innerGroup (.seq .call (.when_kind (q := fun k => k == .andKw || k == .ampAmp) rfl
    (.enclose (.seq .bump (.seq .call .call))) .skip fun h => .enclose (Spends.bump h).left))

theorem confined_lhsAndRest : Confined 0 lhsAndRest :=
  .when_kind (q := fun k => k == .andKw || k == .ampAmp) rfl (.seq .bump (.seq .call .call)) .skip
    fun h => (Spends.bump h).left

theorem confined_lhsUnary : Confined 0 lhsUnary := by
  refine .look_current (fun a => ?_) (fun hcur _ => by simp only [hcur])
    fun _ => .inr spends_lhsUnary.of_look
  split
  · exact .inner (.seq .bump .call)
  · exact .inner (.seq .bump .call)
  · exact .inner (.seq .bump (.expect rfl (.seq .call (.expect_skip rfl))))
  · exact .inner (.seq .bump (.expect rfl (.seq .call (.expect_skip rfl))))
  · exact .call
  · exact .call
  · exact .call
  · exact .call
  · exact .complain rfl

theorem confined_forallItems : Confined 0 forallItems :=
  .when_kind (q := isStart) rfl (.seq .call (.ifRecovering .call)) .skip
    fun _ => Spends.left (.call le_rfl)

theorem confined_prefixOperands : Confined 0 prefixOperands :=
  .when_kind (q := isStart) rfl (.seq .call (.ifRecovering .call)) .skip
    fun _ => Spends.left (.call le_rfl)

theorem confined_lhsParen : Confined 0 lhsParen := by
  refine .inner (.seq .bump (.seq (.look_current (fun a => ?_) (fun hcur _ => by simp only [hcur])
    fun {a a'} _ => .inr ?_) (.expect_skip rfl)))
  · split
    · exact .inner (.seq .bump .call)
    · exact .inner (.seq .bump .call)
    · exact .call
  · split
    · rename_i h
      exact .inner_bump (Ahead.current_ne_eof h rfl)
    · rename_i h
      exact .inner_bump (Ahead.current_ne_eof h rfl)
    · exact .call le_rfl

theorem spends_binding_call {a : Ahead} (h : 2 ≤ a.significant) : Spends 2 (.call .binding) a :=
  .call (le_min le_rfl h)

theorem confined_pattern : Confined 0 pattern :=
  .inner (.seq (.when_pair (p := (· == .ident)) (q := (· == .colon)) rfl rfl .call .skip
      spends_binding_call)
    (.seq (.eat_skip rfl) (.seq .call
      (.before (.expect rfl (.seq (.whenAt_left .skip .call) .recoverInParens))
        (.seq (.expect_skip rfl) (.seq (.whenAt rfl .call .skip fun _ => .call le_rfl)
          (.whenAt rfl .call .skip fun _ => .call le_rfl)))
        fun _ => Spends.left (.expect rfl)))))

theorem confined_constraints : Confined 0 constraints :=
  .seq .call (.eat rfl .call .skip)

theorem confined_binding : Confined 0 (inner .binding (.take 2)) :=
  .inner .take

theorem confined_constraint : Confined 0 constraint :=
  .inner (.seq (.when_pair (p := Kind.isName) (q := fun k => k == .colon || k == .colonEq) rfl rfl
    .call .skip spends_binding_call) .call)

theorem confined_window : Confined 0 window :=
  .inner (.seq .bump (.expect rfl (.expect rfl (.seq .expectName
    (.whenAt rfl (.inner .balanced) .skip fun h =>
      .inner (Closes.balanced (by rw [Ahead.current_afterTrivia, h]; rfl)).1)))))

theorem confined_source : Confined 0 source := by
  refine .inner (.seq .bump (.look_current (fun a => ?_) (fun hcur _ => by simp only [hcur])
    fun {a a'} _ => .inr ?_))
  · split
    · exact .call
    · exact .inner (.seq .bump (.expect rfl (.seq .call (.expect_skip rfl))))
    · exact .inner (.seq .bump (.eat rfl .skip .call))
    · exact .call
  · split
    · exact .call le_rfl
    · rename_i h
      exact .inner_bump (Ahead.current_ne_eof h rfl)
    · rename_i h
      exact .inner_bump (Ahead.current_ne_eof h rfl)
    · exact .call le_rfl

theorem confined_accumulate : Confined 0 accumulate :=
  .inner (.seq .bump (.expect rfl (.seq .call
    (.seq (.eat rfl .untilClose (.eat rfl .untilClose .skip)) (.expect_skip rfl)))))

end

/-! ## Expressions -/

section

open Expressions

theorem confined_operand {level : Level} {half : Bool} : Confined 0 (operand level half) := by
  cases level <;> exact .call

theorem confined_ternary : Confined 0 ternary :=
  .innerGroup (.seq .call (.whenAt rfl
    (.enclose (.seq .bump (.seq .call (.seq (.expect_skip rfl) .call)))) .skip
    fun h => .enclose (Spends.bump (Ahead.current_ne_eof h rfl)).left))

theorem confined_binary {level : Level} {half : Bool} :
    Confined 0 (Expressions.binary level half) :=
  .innerGroup (.seq confined_operand .call)

theorem confined_binaryRest {level : Level} : Confined 0 (Expressions.binaryRest level) :=
  .when_kind (q := level.operators.contains) (by cases level <;> rfl)
    (.seq (.enclose (.seq .bump confined_operand)) .call) .skip
    fun h => Spends.left (.enclose (Spends.bump h).left)

theorem spends_operation {a : Ahead} (h : a.current ≠ .eof) : Spends 2 operation a := by
  refine .look (Spends.seq (k := 1) (l := 1) (.call ?_) fun _ => .call le_rfl)
  rw [least, if_neg (by simpa using h)]

theorem operatorKind_eq {a a' : Ahead} (hcur : a'.current = a.current)
    (hnext : a.current = .notKw → a'.nth 1 = a.nth 1) : operatorKind a' = operatorKind a := by
  by_cases hnot : a.current = .notKw
  · rw [operatorKind, operatorKind, Ahead.isAt, Ahead.isAt, hcur, hnext hnot]
  · have hat : a.isAt .notKw = false := by simpa [Ahead.isAt] using hnot
    have hat' : a'.isAt .notKw = false := by rw [Ahead.isAt, hcur]; exact hat
    simp only [operatorKind, hat, hat', Bool.false_eq_true, if_false, hcur]

theorem confined_operation : Confined 0 operation := by
  refine .look_two (fun a => .seq .call .call) (fun hcur _ hnext => ?_)
    (fun {a a'} hcur _ hnext => ?_) fun {a a'} hcur => ?_
  · rw [operatorKind_eq hcur fun _ => hnext]
  · by_cases hnot : a.current = .notKw
    · exact .inr (spends_operation (Ahead.current_ne_eof hnot rfl)).of_look
    · exact .inl (by rw [operatorKind_eq hcur fun h => absurd h hnot])
  · by_cases he : a.current = .eof
    · exact .inl (by rw [operatorKind_eq (hcur.trans he.symm) fun h => by rw [h] at he; cases he])
    · exact .inr ((spends_operation he).of_look.le (Nat.le_succ 1))

theorem atHalfConstraint_of_eof {a a' : Ahead} (hcur : a'.current = a.current)
    (hnext : a'.nth 1 = .eof) (h : atHalfConstraint a' = true) : atHalfConstraint a = true := by
  rw [atHalfConstraint, hcur, hnext] at h
  rw [atHalfConstraint, Bool.or_eq_true]
  rcases Bool.or_eq_true_iff.1 h with h | h
  · exact .inl h
  · right
    split at h
    · rfl
    · rfl
    · cases h
    · cases h

theorem atRelationalOperator_of_eof {a a' : Ahead} (hcur : a'.current = a.current)
    (hnext : a'.nth 1 = .eof) (h : atRelationalOperator a' = true) :
    atRelationalOperator a = true := by
  rw [atRelationalOperator, hcur, hnext] at h
  rw [atRelationalOperator, Bool.or_eq_true]
  rcases Bool.or_eq_true_iff.1 h with h | h
  · exact .inl h
  · right
    split at h
    · rfl
    · rfl
    · rfl
    · cases h
    · cases h
    · cases h

theorem confined_relational {half : Bool} : Confined 0 (Expressions.relational half) := by
  have hnone {a : Ahead} (h : a.current = .eof) : (half && atHalfConstraint a) = false := by
    rw [atHalfConstraint, h]
    exact Bool.and_false half
  refine .when_two (.inner confined_operation) (.innerGroup (.seq .call .call))
    (fun hcur hnext => by rw [atHalfConstraint, hcur, hnext]; rfl) (fun hcur hnext h => ?_) hnone
    fun {a} h => .inner (spends_operation fun he => ?_)
  · obtain ⟨hhalf, h⟩ := Bool.and_eq_true_iff.1 h
    rw [hhalf, atHalfConstraint_of_eof hcur hnext h]
    rfl
  · rw [Ahead.current_afterTrivia] at he
    rw [hnone he] at h
    cases h

theorem confined_relationalRest : Confined 0 Expressions.relationalRest := by
  have hnone {a : Ahead} (h : a.current = .eof) : atRelationalOperator a = false := by
    rw [atRelationalOperator, h]
    rfl
  refine .when_two (.seq (.enclose confined_operation) .call) .skip
    (fun hcur hnext => by rw [atRelationalOperator, hcur, hnext]; rfl)
    atRelationalOperator_of_eof hnone
    fun {a} h => Spends.left (.enclose (spends_operation fun he => ?_))
  rw [hnone he] at h
  cases h

theorem confined_operator : Confined 0 Expressions.operator := by
  refine .look_two (fun a => .inner (.seq (.eat_skip rfl)
    (.seq (.eat rfl (.expect_skip rfl) .bump) (.ite (.whenAt rfl
      (.inner (.seq .bump (.seq .untilClose (.expect_skip rfl)))) .skip
      fun h => .inner_bump (Ahead.current_ne_eof h rfl)) .skip))))
    (fun hcur _ hnext => by rw [operatorKind_eq hcur fun _ => hnext])
    (fun {a a'} hcur _ hnext => ?_) fun {a a'} hcur => ?_
  · by_cases hnot : a.current = .notKw
    · by_cases he : a.nth 1 = .eof
      · exact .inl (by rw [operatorKind_eq hcur fun _ => hnext.trans he.symm])
      · exact .inr (spends_negated hnot he)
    · exact .inl (by rw [operatorKind_eq hcur fun h => absurd h hnot])
  · by_cases he : a.current = .eof
    · exact .inl (by rw [operatorKind_eq (hcur.trans he.symm) fun h => by rw [h] at he; cases he])
    · exact .inr (spends_operator he).of_look

theorem confined_relationalRhs {op : Kind} : Confined 0 (Expressions.relationalRhs op) :=
  .ite .call (.when_kind (q := fun k => op == .inKw && k == .lParen) (Bool.and_false _) .call .call
    fun _ => .call le_rfl)

/-! ### Casts -/

/-- The closing parenthesis of a cast and the operand after it are taken with the cast. -/
theorem kinds_of_cast {enters : Production → Point → Point → Prop} (hE : Obeys enters) {x y : Point}
    (hne : x.ahead.current ≠ .eof) (h : (inner .castExpr (.seq .bump (.seq (.call .typeRef)
      (.seq (.expect .rParen) (.call .unary))))).Accepts enters x y) :
    ∃ ks k js, significantKinds x.ahead = (ks ++ Kind.rParen :: k :: js) ++ significantKinds y.ahead ∧
      2 ≤ ks.length := by
  obtain ⟨z, ⟨z₁, hopen, z₂, htype, z₃, hclose, hunary⟩, hy, -⟩ := accepts_inner h
  obtain ⟨hparen, w, hbump, hw⟩ := accepts_expect hclose
  obtain rfl : z₃ = w := hw
  have hclosed : z₃.ahead = z₂.ahead.after 1 := ahead_of_take hbump
  have hopened : z₁.ahead = x.ahead.after 1 :=
    (ahead_of_take hopen).trans (by simp only [Ahead.after, Ahead.afterTrivia_afterTrivia])
  obtain ⟨ks, hks, hlength⟩ := (hE.passes htype).exists_kinds
  obtain ⟨js, hjs, hlength'⟩ := (hE.passes hunary).exists_kinds
  have hleast := hE.least htype
  have hleast' := hE.least hunary
  have hclosing := Ahead.significantKinds_after_one (Ahead.current_ne_eof hparen rfl)
  simp only [least] at hleast hleast'
  obtain ⟨k, js, rfl⟩ := List.exists_cons_of_length_pos (l := js) (by omega)
  refine ⟨x.ahead.current :: ks, k, js, ?_, by rw [List.length_cons]; omega⟩
  rw [Ahead.significantKinds_after_one hne, ← hopened, hks, hclosing, hparen, ← hclosed, hjs, hy]
  simp

theorem confined_unary : Confined 0 Expressions.unary := by
  refine .look_of_accepts (fun a => ?_) fun enters hE b a' x y hcut hy hb hsig => ?_
  · split
    iterate 6 exact .inner (.seq .bump .call)
    exact .ite (.inner (.seq .bump (.seq .call (.seq (.expect_skip rfl) .call)))) .call
  have hspends := closes_unary.1.of_look enters hE.obeys x y rfl hy
  have hcur := hcut.current_eq (by omega)
  have hcast : atCast a' = atCast x.ahead := by
    cases h : atCast x.ahead with
    | false =>
      rw [← Bool.not_eq_true]
      intro h'
      rw [hcut.atCast_of_cut h'] at h
      cases h
    | true =>
      have hparen : x.ahead.current = .lParen := by
        rw [Ahead.atCast_eq, Bool.and_eq_true, Bool.and_eq_true] at h
        exact beq_iff_eq.1 h.1.1
      simp only [hparen, h, if_true] at hy
      obtain ⟨ks, k, js, hkinds, hks⟩ :=
        kinds_of_cast hE.obeys (Ahead.current_ne_eof hparen rfl) hy
      have hpasses := hcut.passes.of_suffix
        (hE.obeys.accepts_passes (g := inner .castExpr _) hy) hb
      obtain ⟨rest, hrest, -⟩ := hpasses.exists_kinds
      rw [hrest, ← List.append_assoc, List.append_assoc ks] at hkinds
      exact (hcut.atCast_eq hkinds hks).trans h
  simp only [hcur, hcast]

theorem confined_postfixed : Confined 0 Expressions.postfixed :=
  .innerGroup (.seq .call .call)

theorem confined_suffixes : Confined 0 Expressions.suffixes := by
  have hname {a : Ahead} (h : a.current ≠ .eof) (hnext : (a.nth 1).isName = true) :
      Spends 2 (.seq (.take 2)
        (.seq (.whenAt .lParen (.seq (.call .argList) (.enclose .methodCall .skip))
          (.enclose .fieldAccess .skip)) (.call .suffixes))) a :=
    Spends.left (.take (Ahead.two_le_significant h fun he => by rw [he] at hnext; cases hnext))
  have hcast {a : Ahead} (h : a.current ≠ .eof) : Spends 2
      (.seq .bump (.seq (.call .qualifiedName) (.seq (.enclose .inlineCast .skip)
        (.call .suffixes)))) a :=
    Spends.seq (k := 1) (l := 1) (.bump h) fun _ => Spends.left (.call le_rfl)
  have hstep {a : Ahead} {k : Kind} (h : a.current = k) (hk : (k == .eof) = false) : Spends 1
      (.seq .bump (.seq (.enclose .unaryExpr .skip) (.call .suffixes))) a :=
    Spends.left (.bump (Ahead.current_ne_eof h hk))
  refine .look_two (fun a => ?_) (fun hcur hadj hnext => by simp only [hcur, hadj, hnext])
    (fun {a a'} hcur hadj hnext => ?_) fun {a a'} hcur => ?_
  · split
    iterate 2
      exact .ite (.seq .take (.seq (.whenAt rfl (.seq .call (.enclose .skip)) (.enclose .skip)
        fun _ => Spends.left (.call le_rfl)) .call)) .skip
    · exact .ite (.seq .bump (.seq .call (.seq (.enclose .skip) .call))) .skip
    · exact .seq .bump (.seq .call (.seq (.expect_skip rfl) (.seq (.enclose .skip) .call)))
    iterate 2 exact .ite (.seq .bump (.seq (.enclose .skip) .call)) .skip
    · exact .skip
  · rw [hcur]
    split
    iterate 2
      rename_i h
      rw [hnext]
      exact Confined.skip_or_spends (hname (Ahead.current_ne_eof h rfl))
    · rename_i h
      rw [hnext]
      exact Confined.skip_or_spends fun _ => hcast (Ahead.current_ne_eof h rfl)
    · exact .inl rfl
    iterate 2 exact .inl (by rw [hadj])
    · exact .inl rfl
  · simp only [hcur]
    split
    iterate 2
      rename_i h
      exact Confined.skip_or_spends fun hnext =>
        (hname (Ahead.current_ne_eof h rfl) hnext).le (Nat.le_succ 1)
    · rename_i h
      exact Confined.skip_or_spends fun _ => (hcast (Ahead.current_ne_eof h rfl)).le (Nat.le_succ 1)
    · rename_i h
      exact .inr (Spends.bump (Ahead.current_ne_eof h rfl)).left
    iterate 2
      rename_i h
      exact Confined.skip_or_spends fun _ => hstep h rfl
    · exact .inl rfl

theorem confined_primary : Confined 0 Expressions.primary := by
  refine .look_current (fun a => ?_) (fun hcur _ => by simp only [hcur])
    fun _ => .inr closes_primary.1.of_look
  refine .ite (.inner .bump) (.ite ?_ ?_)
  · exact .innerGroup (.seq (.node .bump) (.when (.seq .call (.enclose .skip)) .skip
      (fun hcur hadj => by rw [Ahead.isAt, Ahead.isAt, hcur, hadj])
      (fun hcur => by rw [Ahead.isAt, hcur]; rfl) fun _ => Spends.left (.call le_rfl)))
  · split
    · exact .call
    · exact .inner (.seq .bump (.seq .call (.seq .recoverInParens (.expect_skip rfl))))
    · exact .call
    · exact .complain rfl

theorem confined_creation : Confined 0 Expressions.creation := by
  refine .inner (.seq .bump (.seq .call (.look_current (fun a => ?_)
    (fun hcur _ => by simp only [hcur]) fun {a a'} _ => .inr ?_)))
  · split
    · exact .call
    · exact .seq .call (.whenAt rfl .balanced .skip fun h =>
        (Closes.balanced (by rw [h]; rfl)).1)
    · exact .complain rfl
  · split
    · exact .call le_rfl
    · rename_i h
      exact Spends.left (.call (by rw [least, if_pos (by simp [Ahead.isAt, h])]))
    · exact .complain rfl

theorem confined_creationDims : Confined 0 Expressions.creationDims :=
  .whenAt rfl (.seq .balanced .call) .skip fun h =>
    Spends.left (Closes.balanced (by rw [h]; rfl)).1

theorem confined_arrayInit : Confined 0 Expressions.arrayInit :=
  .inner (.seq .bump (.before (.whenAt_left .skip .call) (.expect_skip rfl) fun _ => .expect rfl))

theorem confined_arrayItems : Confined 0 Expressions.arrayItems :=
  .seq .call (.seq (.eat rfl .call .skip) (.eat rfl .call .skip))

theorem confined_argList : Confined 0 Expressions.argList :=
  .inner (.seq .bump (.before (.whenAt_left .skip .call) (.seq .recoverInParens (.expect_skip rfl))
    fun _ => .right fun _ => .expect rfl))

theorem confined_arguments : Confined 0 Expressions.arguments :=
  .seq .call (.eat rfl .call .skip)

end

end Grammar

/-- The bodies of all productions see only what they take. -/
theorem Production.confined (p : Production) : Confined 0 p.body := by
  cases p with
  | compilationUnit => exact .node (.seq .call .trivia)
  | declarations => exact confined_declarations
  | packageDecl => exact confined_packageDecl
  | importDecl => exact confined_importDecl
  | globalDecl => exact confined_globalDecl
  | functionDecl => exact confined_functionDecl
  | queryDecl => exact confined_queryDecl
  | declareDecl => exact confined_declareDecl
  | ruleDecl => exact confined_ruleDecl
  | strayTokens => exact confined_strayTokens
  | supertypes => exact .eat rfl (.seq .call .call) .skip
  | annotations => exact .whenAt rfl (.seq .call .call) .skip fun _ => Spends.left (.call le_rfl)
  | annotated => exact confined_annotated
  | fields => exact confined_fields
  | field => exact confined_field
  | declName => exact confined_declName
  | parent => exact confined_parent
  | attributeList => exact confined_attributeList
  | attributes => exact confined_attributes
  | «attribute» => exact confined_attributeItem
  | stringList => exact confined_stringList
  | whenClause => exact confined_whenClause
  | thenClause => exact confined_thenClause
  | blockEnd => exact confined_blockEnd
  | parameterList => exact confined_parameterList
  | parameters => exact confined_parameters
  | parameter => exact confined_parameter
  | qualifiedName => exact confined_qualifiedName
  | nameParts => exact confined_nameParts
  | typeRef => exact confined_typeRef
  | dimensions => exact confined_dimensions
  | conditions => exact confined_conditions
  | lhsOr => exact confined_lhsOr
  | lhsOrRest => exact confined_lhsOrRest
  | lhsAnd => exact confined_lhsAnd
  | lhsAndRest => exact confined_lhsAndRest
  | lhsUnary => exact confined_lhsUnary
  | forallItems => exact confined_forallItems
  | prefixOperands => exact confined_prefixOperands
  | lhsParen => exact confined_lhsParen
  | pattern => exact confined_pattern
  | constraints => exact confined_constraints
  | binding => exact confined_binding
  | constraint => exact confined_constraint
  | window => exact confined_window
  | source => exact confined_source
  | accumulate => exact confined_accumulate
  | expr => exact .call
  | ternary => exact confined_ternary
  | binary => exact confined_binary
  | binaryRest => exact confined_binaryRest
  | relational => exact confined_relational
  | relationalRest => exact confined_relationalRest
  | operator => exact confined_operator
  | relationalRhs => exact confined_relationalRhs
  | unary => exact confined_unary
  | postfixed => exact confined_postfixed
  | suffixes => exact confined_suffixes
  | primary => exact confined_primary
  | creation => exact confined_creation
  | creationDims => exact confined_creationDims
  | arrayInit => exact confined_arrayInit
  | arrayItems => exact confined_arrayItems
  | argList => exact confined_argList
  | arguments => exact confined_arguments

/-- Productions see only what they take. -/
theorem Production.local_enters : (depth : Nat) → Local (Enters body depth)
  | 0 => ⟨obeys 0, fun _ _ _ _ _ _ h => h.elim⟩
  | depth + 1 => ⟨obeys (depth + 1), fun p => p.confined _ (local_enters depth)⟩

/-- What a production reads without complaint is read in the same way if the input ends right after
it. -/
theorem Grammar.Accepted.cut {p : Production} {x y : Point} (h : Accepted body (.call p) x y)
    {a' : Ahead} (hcut : Ahead.Cut y.ahead x.ahead a') :
    ∃ e : Token, e.kind = .eof ∧ Accepted body (.call p) ⟨a', x.group⟩ ⟨[e], y.group⟩ := by
  obtain ⟨depth, h⟩ := h
  obtain ⟨c', hc, h'⟩ := (local_enters depth).cuts p hcut h (List.suffix_refl _) le_rfl
  obtain ⟨us, e, rfl, hus, he⟩ := hc.exists_eq (w := [])
  obtain rfl : us = [] := by simpa using hus.symm
  exact ⟨e, he, depth, h'⟩

end RuleLang
