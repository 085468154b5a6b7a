import RuleLang.Proofs.Grammar.Ranks

/-!
# The nesting of productions

The bodies of all productions obey their ranks, so every production ends for every token list, and
its nesting is bounded by the number of tokens.

## Main statements

* `Production.obeyed` — the bodies of all productions obey the ranking.
-/

namespace RuleLang

open Grammar Production

namespace Grammar

variable {m : Nat} {a : Ahead}

/-! ## Names and types -/

theorem ends_nameParts : Ends ranking (rank .nameParts) 0 Declarations.nameParts a :=
  .when (fun h => (Ends.take_seq Nat.two_pos (ne_eof_of_isAt (Bool.and_eq_true_iff.1 h).1 rfl)
    fun _ => ends_later rfl).weaken) fun _ => .skip

theorem ends_qualifiedName :
    Ends ranking (rank .qualifiedName) 0 Declarations.qualifiedName a :=
  .when (fun _ => .inner (.seq_zero .take fun _ => ends_call rfl rfl)) fun _ => .fail

theorem ends_qualifiedName_one (h : a.atName = true) :
    Ends ranking (rank .qualifiedName) 1 Declarations.qualifiedName a := by
  refine .when (fun _ => .inner ?_) fun hn => by simp [h] at hn
  exact .bump_seq (by simpa using ne_eof_of_atName h) fun _ => ends_later rfl

theorem ends_dimensions : Ends ranking (rank .dimensions) 0 Declarations.dimensions a :=
  .when (fun h => (Ends.take_seq Nat.two_pos (ne_eof_of_isAt (Bool.and_eq_true_iff.1 h).1 rfl)
    fun _ => ends_later rfl).weaken) fun _ => .skip

theorem ends_typeRef : Ends ranking (rank .typeRef) 0 Declarations.typeRef a := by
  refine .when (fun _ => .inner ?_) fun _ => .fail
  refine .seq_zero (ends_call rfl rfl) fun _ => .seq_zero ?_ fun _ => ends_call rfl rfl
  exact .whenAt (fun _ => .look .take) fun _ => .skip

/-! ## Expressions -/

theorem ends_expr : Ends ranking (rank .expr) 0 Expressions.expr a :=
  ends_call rfl rfl

theorem ends_ternary : Ends ranking (rank .ternary) 0 Expressions.ternary a := by
  refine .innerGroup (.seq_zero (ends_call rfl rfl) fun b => ?_)
  refine .whenAt (fun h => .enclose (Ends.bump_seq (Ahead.current_ne_eof h rfl) fun _ => ?_).weaken) fun _ => .skip
  exact .seq_zero (ends_later rfl) fun _ => .seq_zero (.expect_skip rfl) fun _ => ends_later rfl

theorem ends_operand (level : Level) (half : Bool) :
    Ends ranking (rank (.binary level half)) 0 (Expressions.operand level half) a := by
  cases level <;> exact ends_call rfl rfl

theorem ends_binary (level : Level) (half : Bool) :
    Ends ranking (rank (.binary level half)) 0 (Expressions.binary level half) a := by
  refine .innerGroup (.seq_zero (ends_operand level half) fun _ => ?_)
  cases level <;> exact ends_call rfl rfl

theorem ends_operand_later (level : Level) (half : Bool) :
    Ends ranking (m + 64) 0 (Expressions.operand level half) a := by
  cases level <;> exact ends_later rfl

theorem ends_binaryRest (level : Level) :
    Ends ranking (rank (.binaryRest level)) 0 (Expressions.binaryRest level) a := by
  refine .when (fun h => ?_) fun _ => .skip
  have hc : a.current ≠ .eof := by
    intro he
    rw [he] at h
    cases level <;> cases h
  exact (Ends.seq_one (.enclose (.bump_seq hc fun _ => ends_operand_later level _))
    fun _ => ends_later rfl).weaken

theorem ends_operation (h : a.current ≠ .eof) :
    Ends ranking (m + 1) 1 Expressions.operation a :=
  .look (.seq_one (ends_open rfl rfl h) fun _ => ends_later rfl)

theorem ends_relational (half : Bool) :
    Ends ranking (rank (.relational half)) 0 (Expressions.relational half) a := by
  refine .when (fun h => .inner ?_) fun _ => .innerGroup ?_
  · have hc : a.current ≠ .eof := by
      intro he
      simp [Expressions.atHalfConstraint, he, Kind.isComparison, Kind.isWordOperator,
        Kind.raw] at h
    exact (ends_operation (by simpa using hc)).weaken
  · exact .seq_zero (ends_call rfl rfl) fun _ => ends_call rfl rfl

theorem ends_relationalRest :
    Ends ranking (rank .relationalRest) 0 Expressions.relationalRest a := by
  refine .when (fun h => ?_) fun _ => .skip
  have hc : a.current ≠ .eof := by
    intro he
    simp [Expressions.atRelationalOperator, he, Kind.isComparison, Kind.isWordOperator,
      Kind.raw] at h
  exact (Ends.seq_one (.enclose (ends_operation hc))
    fun _ => ends_later rfl).weaken

/-- An operator takes its negation or its first token. -/
theorem ends_operator (h : a.current ≠ .eof) :
    Ends ranking (rank .operator) 1 Expressions.operator a := by
  refine .look (.inner ?_)
  generalize hp : (if Expressions.operatorKind a == .ident || Expressions.operatorKind a == .strKw
    then Grammar.whenAt .lBracket
      (.inner .operatorParams (.bump >> .untilClose .rBracket >> .expect .rBracket))
    else .skip) = parameters
  have hparams (b : Ahead) : Ends ranking (rank .operator + 64) 0 parameters b := by
    subst hp
    split
    · exact .whenAt (fun _ => .inner (.seq_zero .take fun _ => .seq_zero (.look .take)
        fun _ => .expect_skip rfl)) fun _ => .skip
    · exact .skip
  have hc : a.afterTrivia.current ≠ .eof := by simpa using h
  refine .when_seq (fun _ => .seq_assoc (.bump_seq hc fun b => ?_)) fun _ => .skip_seq ?_
  · refine .skip_seq (.seq_zero ?_ hparams)
    exact .eat rfl (fun _ => .expect_skip rfl) .take
  · refine .when_seq (fun _ => .seq_assoc (.bump_seq hc fun b => ?_)) fun _ => .bump_seq hc hparams
    exact .seq_zero (.expect_skip rfl) hparams

theorem ends_relationalRhs (op : Kind) :
    Ends ranking (rank (.relationalRhs op)) 0 (Expressions.relationalRhs op) a := by
  unfold Expressions.relationalRhs
  split
  · exact ends_call rfl rfl
  · refine .when (fun h => ?_) fun _ => ends_call rfl rfl
    have hc := ne_eof_of_isAt (Bool.and_eq_true_iff.1 h).2 rfl
    exact (ends_open rfl rfl hc).weaken

theorem ends_unary : Ends ranking (rank .unary) 0 Expressions.unary a := by
  refine .look ?_
  split
  case h_7 =>
    split
    · rename_i h
      have hc : a.current ≠ .eof :=
        ne_eof_of_isAt (Bool.and_eq_true_iff.1 (Bool.and_eq_true_iff.1 h).1).1 rfl
      refine .inner (Ends.bump_seq (by simpa using hc) fun _ => .seq_zero (ends_later rfl) fun _ => ?_).weaken
      exact .seq_zero (.expect_skip rfl) fun _ => ends_later rfl
    · exact ends_call rfl rfl
  all_goals
    rename_i h
    exact .inner (Ends.bump_seq (by simp [h]) fun _ => ends_later rfl).weaken

theorem ends_postfixed : Ends ranking (rank .postfixed) 0 Expressions.postfixed a :=
  .innerGroup (.seq_zero (ends_call rfl rfl) fun _ => ends_call rfl rfl)

theorem ends_suffixes : Ends ranking (rank .suffixes) 0 Expressions.suffixes a := by
  have hcall (b : Ahead) : Ends ranking (rank .suffixes + 64) 0
      (.whenAt .lParen (.call .argList >> .enclose .methodCall .skip)
        (.enclose .fieldAccess .skip) >> .call .suffixes) b := by
    refine .seq_zero ?_ fun _ => ends_later rfl
    refine .whenAt (fun h => ?_) fun _ => .enclose .skip
    exact .seq_zero (ends_open rfl rfl (Ahead.current_ne_eof h rfl)).weaken fun _ => .enclose .skip
  refine .look ?_
  split
  case h_7 => exact .skip
  case h_1 h | h_2 h =>
    split
    · exact (Ends.take_seq Nat.two_pos (Ahead.current_ne_eof h rfl) hcall).weaken
    · exact .skip
  case h_3 h =>
    split
    · refine (Ends.bump_seq (Ahead.current_ne_eof h rfl) fun _ => ?_).weaken
      exact .seq_zero (ends_later rfl) fun _ => .seq_zero (.enclose .skip) fun _ => ends_later rfl
    · exact .skip
  case h_4 h =>
    refine (Ends.bump_seq (Ahead.current_ne_eof h rfl) fun _ => .seq_zero (ends_later rfl) fun _ => ?_).weaken
    exact .seq_zero (.expect_skip rfl)
      fun _ => .seq_zero (.enclose .skip) fun _ => ends_later rfl
  case h_5 h | h_6 h =>
    split
    · refine (Ends.bump_seq (Ahead.current_ne_eof h rfl) fun _ => ?_).weaken
      exact .seq_zero (.enclose .skip) fun _ => ends_later rfl
    · exact .skip

theorem ends_primary : Ends ranking (rank .primary) 0 Expressions.primary a := by
  refine .look ?_
  split
  · exact .inner .take
  · split
    · refine .innerGroup (.seq_zero (.node .take) fun b => .when (fun h => ?_) fun _ => .skip)
      have hc := ne_eof_of_isAt (Bool.and_eq_true_iff.1 h).1 rfl
      exact .seq_zero (ends_open rfl rfl hc).weaken fun _ => .enclose .skip
    · split
      case h_1 h => exact (ends_open rfl rfl (Ahead.current_ne_eof h rfl)).weaken
      case h_2 h =>
        refine .inner (Ends.bump_seq (by simp [h]) fun _ => .seq_zero (ends_later rfl) fun _ => ?_).weaken
        exact .seq_zero .recoverInParens fun _ => .expect_skip rfl
      case h_3 h => exact (ends_open rfl rfl (Ahead.current_ne_eof h rfl)).weaken
      case h_4 => exact .complain

theorem ends_creation (h : a.current ≠ .eof) :
    Ends ranking (rank .creation) 1 Expressions.creation a := by
  refine .inner (.bump_seq (by simpa using h) fun _ => .seq_zero (ends_later rfl) fun b => .look ?_)
  split
  case h_1 h => exact (ends_open rfl rfl (Ahead.current_ne_eof h rfl)).weaken
  case h_2 => exact .seq_zero (ends_later rfl) fun _ => .whenAt (fun _ => .balanced) fun _ => .skip
  case h_3 => exact .complain

theorem ends_creationDims :
    Ends ranking (rank .creationDims) 0 Expressions.creationDims a := by
  refine .whenAt (fun h => ?_) fun _ => .skip
  exact (Ends.seq_one (.balanced_one (h ▸ rfl)) fun _ => ends_later rfl).weaken

theorem ends_arrayInit (h : a.current ≠ .eof) :
    Ends ranking (rank .arrayInit) 1 Expressions.arrayInit a := by
  refine .inner (.bump_seq (by simpa using h) fun _ => .seq_zero ?_ fun _ => ?_)
  · exact .whenAt (fun _ => .skip) fun _ => ends_later rfl
  · exact .expect_skip rfl

theorem ends_arrayItems : Ends ranking (rank .arrayItems) 0 Expressions.arrayItems a := by
  refine .seq_zero (ends_call rfl rfl) fun _ => .seq_zero ?_ fun _ => ?_
  · exact .eat rfl (fun _ => ends_later rfl) .skip
  · exact .eat rfl (fun _ => ends_later rfl) .skip

theorem ends_argList (h : a.current ≠ .eof) :
    Ends ranking (rank .argList) 1 Expressions.argList a := by
  refine .inner (.bump_seq (by simpa using h) fun _ => .seq_zero ?_ fun _ => ?_)
  · exact .whenAt (fun _ => .skip) fun _ => ends_later rfl
  · exact .seq_zero .recoverInParens fun _ => .expect_skip rfl

theorem ends_arguments : Ends ranking (rank .arguments) 0 Expressions.arguments a :=
  .seq_zero (ends_call rfl rfl) fun _ => .eat rfl (fun _ => ends_later rfl) .skip

/-! ## Conditions -/

theorem ends_lhsOrRest : Ends ranking (rank .lhsOrRest) 0 Conditions.lhsOrRest a := by
  refine .when (fun h => ?_) fun _ => .skip
  exact (Ends.bump_seq (ne_eof_of_isOr h) fun _ =>
    .seq_zero (ends_later rfl) fun _ => ends_later rfl).weaken

theorem ends_lhsAndRest : Ends ranking (rank .lhsAndRest) 0 Conditions.lhsAndRest a := by
  refine .when (fun h => ?_) fun _ => .skip
  exact (Ends.bump_seq (ne_eof_of_isAnd h) fun _ =>
    .seq_zero (ends_later rfl) fun _ => ends_later rfl).weaken

/-- What follows the first operand of `or`. -/
theorem ends_orOperands : Ends ranking (m + 1) 0
    (.when Conditions.isOr (.enclose .lhsOr (.bump >> .call .lhsAnd >> .call .lhsOrRest))) a := by
  refine .when (fun h => .enclose ?_) fun _ => .skip
  exact (Ends.bump_seq (ne_eof_of_isOr h) fun _ =>
    .seq_zero (ends_later rfl) fun _ => ends_later rfl).weaken

/-- What follows the first operand of `and`. -/
theorem ends_andOperands : Ends ranking (m + 1) 0
    (.when Conditions.isAnd (.enclose .lhsAnd (.bump >> .call .lhsUnary >> .call .lhsAndRest)))
    a := by
  refine .when (fun h => .enclose ?_) fun _ => .skip
  exact (Ends.bump_seq (ne_eof_of_isAnd h) fun _ =>
    .seq_zero (ends_later rfl) fun _ => ends_later rfl).weaken

theorem ends_lhsOr : Ends ranking (rank .lhsOr) 0 Conditions.lhsOr a :=
  .innerGroup (.seq_zero (ends_call rfl rfl) fun _ => ends_orOperands)

theorem ends_lhsOr_one (h : Conditions.isStart a.current = true) :
    Ends ranking (rank .lhsOr) 1 Conditions.lhsOr a :=
  .innerGroup (.seq_one (ends_start rfl ((starts_afterTrivia .lhsAnd a).trans h)) fun _ => ends_orOperands)

theorem ends_lhsAnd : Ends ranking (rank .lhsAnd) 0 Conditions.lhsAnd a :=
  .innerGroup (.seq_zero (ends_call rfl rfl) fun _ => ends_andOperands)

theorem ends_lhsAnd_one (h : Conditions.isStart a.current = true) :
    Ends ranking (rank .lhsAnd) 1 Conditions.lhsAnd a :=
  .innerGroup (.seq_one (ends_start rfl ((starts_afterTrivia .lhsUnary a).trans h)) fun _ => ends_andOperands)

theorem ends_lhsUnary_one (h : Conditions.isStart a.current = true) :
    Ends ranking (rank .lhsUnary) 1 Conditions.lhsUnary a := by
  have hc := ne_eof_of_isStart h
  have hc' : a.afterTrivia.current ≠ .eof := by simpa using hc
  refine .look ?_
  split
  case h_1 | h_2 => exact .inner (.bump_seq hc' fun _ => ends_later rfl)
  case h_3 =>
    exact .inner (.bump_seq hc' fun _ => .expect rfl fun _ =>
      .seq_zero (ends_later rfl) fun _ => .expect_skip rfl)
  case h_4 =>
    exact .inner (.bump_seq hc' fun _ => .expect rfl fun _ =>
      .seq_zero (ends_later rfl) fun _ => .expect_skip rfl)
  case h_5 | h_6 => exact ends_open rfl rfl hc
  case h_7 h | h_8 h => exact ends_start rfl (by simp [starts, Ahead.isAt, h])
  case h_9 h₁ h₂ h₃ h₄ h₅ h₆ h₇ h₈ =>
    unfold Conditions.isStart at h
    split at h <;> simp_all

theorem ends_lhsUnary : Ends ranking (rank .lhsUnary) 0 Conditions.lhsUnary a := by
  by_cases h : Conditions.isStart a.current = true
  · exact (ends_lhsUnary_one h).weaken
  · refine .look ?_
    split
    case h_9 => exact .complain
    all_goals simp_all [Conditions.isStart]

theorem ends_forallItems : Ends ranking (rank .forallItems) 0 Conditions.forallItems a := by
  refine .when (fun h => .weaken ?_) fun _ => .skip
  exact .seq_one (ends_start rfl h) fun _ => .ifRecovering .skip (ends_later rfl)

theorem ends_prefixOperands :
    Ends ranking (rank .prefixOperands) 0 Conditions.prefixOperands a := by
  refine .when (fun h => .weaken ?_) fun _ => .skip
  exact .seq_one (ends_start rfl h) fun _ => .ifRecovering .skip (ends_later rfl)

theorem ends_lhsParen (h : a.current ≠ .eof) :
    Ends ranking (rank .lhsParen) 1 Conditions.lhsParen a := by
  refine .inner (.bump_seq (by simpa using h) fun b => .seq_zero (.look ?_)
    fun _ => .expect_skip rfl)
  split
  · exact .inner (.seq_zero .take fun _ => ends_later rfl)
  · exact .inner (.seq_zero .take fun _ => ends_later rfl)
  · exact ends_later rfl

/-- A pattern takes its name, or what stands before it. -/
theorem ends_pattern (h : (a.isAt .ident || a.isAt .question) = true) :
    Ends ranking (rank .pattern) 1 Conditions.pattern a := by
  unfold Conditions.pattern
  generalize hr : Grammar.expect (P := Production) .lParen
      (.whenAt .rParen .skip (.call .constraints) >> .recoverInParens) >> .expect .rParen >>
      .whenAt .overKw (.call .window) >> .whenAt .fromKw (.call .source) = rest
  have hrest (b : Ahead) : Ends ranking (rank .pattern + 64) 0 rest b := by
    subst hr
    refine .seq_zero (.expect rfl fun _ => .seq_zero ?_ fun _ => .recoverInParens) fun _ => ?_
    · exact .whenAt (fun _ => .skip) fun _ => ends_later rfl
    · exact .seq_zero (.expect_skip rfl) fun _ =>
        .seq_zero (ends_whenAt_open rfl rfl rfl) fun _ => ends_whenAt_open rfl rfl rfl
  have hname (b : Ahead) : Ends ranking (rank .pattern + 64) 0 (.call .qualifiedName >> rest) b :=
    .seq_zero (ends_later rfl) hrest
  have hc : a.afterTrivia.current = .ident ∨ a.afterTrivia.current = .question := by
    simpa [Ahead.isAt] using h
  have hne : a.afterTrivia.current ≠ .eof := by
    rcases hc with hc | hc <;> exact Ahead.current_ne_eof hc rfl
  refine .inner (.when_seq (fun _ => .seq_one ?_ fun b => ?_) fun _ => .skip_seq ?_)
  · exact ends_open rfl rfl hne
  · exact .seq_zero (.eat rfl (fun _ => .skip) .skip) hname
  · refine .when_seq (fun _ => .seq_assoc (.bump_seq hne fun _ => .skip_seq (hname _))) fun hq => ?_
    refine .skip_seq (.seq_one (ends_start rfl ?_) hrest)
    rcases hc with hc | hc
    · simp [starts, Ahead.atName, hc, Kind.isName]
    · simp [Ahead.isAt, hc] at hq

theorem ends_constraints : Ends ranking (rank .constraints) 0 Conditions.constraints a :=
  .seq_zero (ends_call rfl rfl) fun _ => .eat rfl (fun _ => ends_later rfl) .skip

theorem ends_binding (h : a.current ≠ .eof) :
    Ends ranking (rank .binding) 1 Conditions.binding a :=
  .inner (.take_one Nat.two_pos (by simpa using h))

theorem ends_constraint : Ends ranking (rank .constraint) 0 Conditions.constraint a := by
  refine .inner (.seq_zero (.when (fun h => .weaken ?_) fun _ => .skip) fun _ => ends_call rfl rfl)
  exact ends_open rfl rfl (ne_eof_of_atName (Bool.and_eq_true_iff.1 h).1)

theorem ends_window (h : a.current ≠ .eof) :
    Ends ranking (rank .window) 1 Conditions.window a := by
  refine .inner (.bump_seq (by simpa using h) fun _ => .expect rfl fun _ => .expect rfl fun _ => ?_)
  refine .seq_zero .expectName fun _ => .whenAt (fun _ => ?_) fun _ => .skip
  exact .inner .balanced

theorem ends_source (h : a.current ≠ .eof) :
    Ends ranking (rank .source) 1 Conditions.source a := by
  refine .inner (.bump_seq (by simpa using h) fun b => .look ?_)
  split
  case h_1 h => exact (ends_open rfl rfl (Ahead.current_ne_eof h rfl)).weaken
  case h_2 =>
    refine .inner (.seq_zero .take fun _ => .expect rfl fun _ => ?_)
    exact .seq_zero (ends_later rfl) fun _ => .expect_skip rfl
  case h_3 =>
    refine .inner (.seq_zero .take fun _ => .whenAt (fun _ => ?_) fun _ => ends_later rfl)
    exact .seq_zero .take fun _ => .skip
  case h_4 => exact ends_later rfl

theorem ends_accumulate (h : a.current ≠ .eof) :
    Ends ranking (rank .accumulate) 1 Conditions.accumulate a := by
  refine .inner (.bump_seq (by simpa using h) fun _ => .expect rfl fun _ => ?_)
  refine .seq_zero (ends_later rfl) fun _ => .seq_zero ?_ fun _ => .expect_skip rfl
  exact .eat rfl (fun _ => .look .take) (.eat rfl (fun _ => .look .take) .skip)

/-- A token that starts no condition is an error, and then the tokens up to `then` are wrapped, of
which it is one. -/
theorem ends_conditions : Ends ranking (rank .conditions) 0 Conditions.conditions a := by
  refine .look ?_
  split
  · exact .skip
  · rename_i h
    simp only [Bool.or_eq_true, not_or, Bool.not_eq_true] at h
    obtain ⟨⟨hthen, heof⟩, hbound⟩ := h
    have hc : a.current ≠ .eof := by simpa [Ahead.isAt] using heof
    split
    · rename_i hs
      refine .weaken (.seq_one (.seq_one (ends_start rfl hs) fun _ => ?_) fun _ => ?_)
      · exact .eat rfl (fun _ => .skip) .skip
      · exact .seq_zero (.ifRecovering .recoverTo .skip) fun _ => ends_later rfl
    · refine .weaken (.recovering_seq rfl (.seq_one (.recoverTo_one hc ?_) fun _ => ends_later rfl))
      simpa [Ahead.isAt, hbound] using And.intro heof hthen

/-! ## Declarations -/

theorem ends_strayTokens (h : a.current ≠ .eof) :
    Ends ranking (rank .strayTokens) 1 Declarations.strayTokens a :=
  .node (.fail_seq (.bump_seq h fun _ => .seq_zero (.look .take) fun _ => .lineTrivia))

/-- A semicolon that may be left out, and the rest of the line. -/
theorem ends_lineEnd : Ends ranking m 0 (.eat .semicolon >> .lineTrivia) a :=
  .seq_zero (.eat rfl (fun _ => .skip) .skip) fun _ => .lineTrivia

theorem ends_packageDecl (h : a.current ≠ .eof) :
    Ends ranking (rank .packageDecl) 1 Declarations.packageDecl a :=
  .node (.bump_seq h fun _ => .seq_zero (ends_later rfl) fun _ => ends_lineEnd)

theorem ends_importDecl (h : a.current ≠ .eof) :
    Ends ranking (rank .importDecl) 1 Declarations.importDecl a := by
  refine .node (.bump_seq h fun _ => .seq_zero ?_ fun _ => .seq_zero (ends_later rfl) fun _ => ?_)
  · exact .eat rfl (fun _ => .skip) (.eat rfl (fun _ => .skip) .skip)
  · exact .seq_zero (.when (fun _ => .take) fun _ => .skip) fun _ => ends_lineEnd

theorem ends_globalDecl (h : a.current ≠ .eof) :
    Ends ranking (rank .globalDecl) 1 Declarations.globalDecl a :=
  .node (.bump_seq h fun _ => .seq_zero (ends_later rfl) fun _ =>
    .seq_zero .expectName fun _ => ends_lineEnd)

theorem ends_functionDecl (h : a.current ≠ .eof) :
    Ends ranking (rank .functionDecl) 1 Declarations.functionDecl a := by
  refine .node (.bump_seq h fun _ => .seq_zero (ends_later rfl) fun _ => .seq_zero .expectName
    fun _ => .seq_zero (.whenAt (fun hp => ?_) fun _ => .complain) fun _ => .seq_zero ?_
    fun _ => .lineTrivia)
  · exact (ends_open rfl rfl (Ahead.current_ne_eof hp rfl)).weaken
  · exact .whenAt (fun _ => .inner .balanced) fun _ => .complain_seq .recoverTo

theorem ends_queryDecl (h : a.current ≠ .eof) :
    Ends ranking (rank .queryDecl) 1 Declarations.queryDecl a := by
  refine .node (.bump_seq h fun _ => .seq_zero (ends_later rfl) fun _ => .seq_zero ?_ fun _ => ?_)
  · exact ends_whenAt_open rfl rfl rfl
  · exact .seq_zero (ends_later rfl) fun _ => .seq_zero (ends_later rfl) fun _ => .lineTrivia

theorem ends_declareDecl (h : a.current ≠ .eof) :
    Ends ranking (rank .declareDecl) 1 Declarations.declareDecl a := by
  refine .node (.bump_seq h fun _ => .seq_zero (.eat rfl (fun _ => .skip) .skip) fun _ =>
    .seq_zero (ends_later rfl) fun _ => .seq_zero ?_ fun _ => ?_)
  · exact .eat rfl (fun _ => .seq_zero (ends_later rfl) fun _ => ends_later rfl) .skip
  · exact .seq_zero (ends_later rfl) fun _ => .seq_zero (ends_later rfl) fun _ =>
      .seq_zero (ends_later rfl) fun _ => .lineTrivia

theorem ends_supertypes : Ends ranking (rank .supertypes) 0 Declarations.supertypes a :=
  .eat rfl (fun _ => .seq_zero (ends_later rfl) fun _ => ends_later rfl) .skip

theorem ends_annotations : Ends ranking (rank .annotations) 0 Declarations.annotations a := by
  refine .whenAt (fun h => .weaken ?_) fun _ => .skip
  exact .seq_one (ends_open rfl rfl (Ahead.current_ne_eof h rfl)) fun _ => ends_later rfl

theorem ends_annotated (h : a.current ≠ .eof) :
    Ends ranking (rank .annotated) 1 Declarations.annotated a :=
  .inner (.bump_seq (by simpa using h) fun _ => .seq_zero (ends_later rfl) fun _ =>
    .whenAt (fun _ => .balanced) fun _ => .skip)

/-- A token that starts no field is an error, and then the tokens up to a boundary are wrapped, of
which it is one. -/
theorem ends_fields : Ends ranking (rank .fields) 0 Declarations.fields a := by
  refine .look ?_
  split
  · exact .skip
  · rename_i h
    simp only [Bool.or_eq_true, not_or, Bool.not_eq_true] at h
    obtain ⟨heof, hbound⟩ := h
    have hc : a.current ≠ .eof := by simpa using heof
    split
    · exact .weaken (.seq_one (ends_open rfl rfl hc) fun _ => ends_later rfl)
    · refine .weaken (.fail_seq (.seq_one (.recoverTo_one hc ?_) fun _ => ends_later rfl))
      simp [heof, hbound]

theorem ends_field (h : a.current ≠ .eof) :
    Ends ranking (rank .field) 1 Declarations.field a := by
  refine .inner (.take_seq Nat.two_pos (by simpa using h) fun _ => .seq_zero (ends_later rfl)
    fun _ => .seq_zero ?_ fun _ => ends_later rfl)
  exact .eat rfl (fun _ => ends_later rfl) .skip

theorem ends_ruleDecl (h : a.current ≠ .eof) :
    Ends ranking (rank .ruleDecl) 1 Declarations.ruleDecl a := by
  refine .node (.bump_seq h fun _ => .seq_zero (ends_later rfl) fun _ =>
    .seq_zero (ends_whenAt_open rfl rfl rfl) fun _ => .seq_zero (ends_later rfl) fun _ =>
    .seq_zero (.when (fun _ => ends_later rfl) fun _ => .skip) fun _ => .seq_zero ?_ fun _ =>
    .seq_zero (ends_whenAt_open rfl rfl rfl) fun _ => .seq_zero ?_ fun _ =>
    .seq_zero (ends_whenAt_open rfl rfl rfl) fun _ => .seq_zero (ends_later rfl) fun _ =>
    .lineTrivia)
  · exact .whenAt (fun _ => .skip) fun _ => .fail_seq .recoverTo
  · exact .whenAt (fun _ => .skip) fun _ => .fail_seq .recoverTo

theorem ends_declName (role : Role) :
    Ends ranking (rank (.declName role)) 0 (Declarations.declName role) a :=
  .when (fun _ => .inner .take) fun _ => .fail

theorem ends_parent (h : a.current ≠ .eof) :
    Ends ranking (rank .parent) 1 Declarations.parent a :=
  .inner (.bump_seq (by simpa using h) fun _ => .when (fun _ => .take) fun _ => .complain)

theorem ends_attributeList :
    Ends ranking (rank .attributeList) 0 Declarations.attributeList a :=
  .inner (ends_call rfl rfl)

theorem ends_attributes : Ends ranking (rank .attributes) 0 Declarations.attributes a := by
  refine .look ?_
  split
  · rename_i h
    refine .weaken (.bump_seq (ne_eof_of_isAt h rfl) fun _ => .seq_zero ?_ fun _ => ends_later rfl)
    exact .eat rfl (fun _ => .skip) .skip
  · split
    · rename_i h
      exact .weaken (.bump_seq (ne_eof_of_isAt h rfl) fun _ => ends_later rfl)
    · split
      · rename_i h
        have hc : a.current ≠ .eof := by
          intro he
          simp [Ahead.isAt, he, Kind.isAttributeKeyword, Kind.raw] at h
        exact .weaken (.seq_one (ends_open rfl rfl hc) fun _ => ends_later rfl)
      · exact .skip

theorem ends_attribute (h : a.current ≠ .eof) :
    Ends ranking (rank .attribute) 1 Declarations.attributeItem a := by
  have hc : a.afterTrivia.current ≠ .eof := by simpa using h
  refine .inner (.look_seq ?_)
  generalize hv : (Grammar.bump >> Grammar.look _ : Rule) = value
  have hvalue : Ends ranking (rank .attribute) 1 value a.afterTrivia := by
    subst hv
    refine .bump_seq hc fun b => .look ?_
    split
    · exact .inner (.seq_zero .take fun _ => ends_later rfl)
    · exact .inner .take
    · exact .inner .take
    · exact .inner .take
    · exact .inner .take
    · split
      · exact .inner .take
      · exact .skip
    · exact .inner .balanced
    · exact .skip
  split
  · split
    · exact .complain_seq hvalue
    · exact .skip_seq hvalue
  · exact .skip_seq hvalue

theorem ends_stringList : Ends ranking (rank .stringList) 0 Declarations.stringList a := by
  refine .when (fun h => .weaken ?_) fun _ => .skip
  exact .take_seq Nat.two_pos (ne_eof_of_isAt (Bool.and_eq_true_iff.1 h).1 rfl)
    fun _ => ends_later rfl

theorem ends_whenClause (h : a.current ≠ .eof) :
    Ends ranking (rank .whenClause) 1 Declarations.whenClause a :=
  .inner (.bump_seq (by simpa using h) fun _ =>
    .seq_zero (.eat rfl (fun _ => .skip) .skip) fun _ => ends_later rfl)

theorem ends_thenClause (h : a.current ≠ .eof) :
    Ends ranking (rank .thenClause) 1 Declarations.thenClause a :=
  .inner (.bump_seq (by simpa using h) fun _ => .inner (.eat rfl (fun _ => .skip) .skip))

theorem ends_blockEnd (block : Block) :
    Ends ranking (rank (.blockEnd block)) 0 (Declarations.blockEnd block) a :=
  .eat rfl (fun _ => .skip) (.whenAt (fun _ => .complain) fun _ => .fail)

theorem ends_parameterList (h : a.current ≠ .eof) :
    Ends ranking (rank .parameterList) 1 Declarations.parameterList a :=
  .inner (.bump_seq (by simpa using h) fun _ =>
    .seq_zero (.whenAt (fun _ => .skip) fun _ => ends_later rfl) fun _ => .expect_skip rfl)

theorem ends_parameters : Ends ranking (rank .parameters) 0 Declarations.parameters a :=
  .seq_zero (ends_call rfl rfl) fun _ => .eat rfl (fun _ => ends_later rfl) .skip

theorem ends_parameter : Ends ranking (rank .parameter) 0 Declarations.parameter a :=
  .inner (.seq_zero (ends_call rfl rfl) fun _ => .when (fun _ => .take) fun _ => .skip)

theorem ends_compilationUnit :
    Ends ranking (rank .compilationUnit) 0 Declarations.compilationUnit a :=
  .node (.seq_zero (ends_call rfl rfl) fun _ => .trivia)

/-- A declaration takes a token, so that the declarations after it may be read in turn. -/
theorem wp_declaration {p : Production} {depth : Nat} {r : Bool}
    (hd : 64 * a.length + rank .declarations ≤ depth) (hr : p.rank.blt (rank .declarations) = true)
    (ho : (p.opens && p != .pattern) = true) (hc : a.current ≠ .eof) :
    (.call p >> .call .declarations : Rule).wp (ranking.spec depth)
      (fun b _ => After .declarations a b) a r := by
  have hs : p.starts a = true := starts_of_opens ho hc
  have hp : p.rank < rank .declarations := by simpa using hr
  refine ⟨?_, fun _ => hs, fun b _ hb => ⟨?_, nofun, fun c _ hc => ⟨?_,
    fun hs => absurd hs Bool.false_ne_true, hc.current⟩⟩⟩
  · change 64 * a.length + p.rank < depth
    omega
  · have := hb.length_lt hs
    change 64 * b.length + rank .declarations < depth
    omega
  · exact hc.length_le.trans hb.length_le

theorem wp_declarations {depth : Nat} {r : Bool}
    (hd : 64 * a.length + rank .declarations ≤ depth) :
    Declarations.declarations.wp (ranking.spec depth) (fun b _ => After .declarations a b) a r := by
  rw [Declarations.declarations, wp_recovered_look]
  split
  case h_1 h => exact ⟨Nat.le_refl _, fun hs => absurd hs Bool.false_ne_true, fun _ => h⟩
  case h_9 h _ _ _ _ _ _ _ => exact wp_declaration hd rfl rfl h
  all_goals
    rename_i h
    exact wp_declaration hd rfl rfl (Ahead.current_ne_eof h rfl)

end Grammar

namespace Production

variable {p : Production} {a : Ahead} {depth : Nat} {r : Bool}

theorem wp_of_ends (hd : 64 * a.length + p.rank ≤ depth) (hp : p ≠ .declarations)
    (h : Ends ranking p.rank 0 p.body a)
    (hs : p.starts a = true → Ends ranking p.rank 1 p.body a) :
    p.body.wp (ranking.spec depth) (fun b _ => After p a b) a r := by
  by_cases hst : p.starts a = true
  · refine wp_mono (ranking.spec_mono depth) (fun b _ hb => ?_)
      (hs hst depth a.length r (Nat.le_refl _) hd)
    exact ⟨by omega, fun _ => hb, fun h => absurd h hp⟩
  · refine wp_mono (ranking.spec_mono depth) (fun b _ hb => ?_)
      (h depth a.length r (Nat.le_refl _) hd)
    exact ⟨hb, fun h => absurd h hst, fun h => absurd h hp⟩

theorem obeyed : ranking.Obeyed Production.body := by
  intro p depth a r hready hd
  have never (hp : p ≠ .declarations) (hs : p.starts a = false)
      (h : Ends ranking p.rank 0 p.body a) :
      p.body.wp (ranking.spec depth) (fun b _ => After p a b) a r :=
    wp_of_ends hd hp h fun h => by simp [hs] at h
  have always (hp : p ≠ .declarations) (ho : p.opens = true)
      (h : p.starts a = true → Ends ranking p.rank 1 p.body a) :
      p.body.wp (ranking.spec depth) (fun b _ => After p a b) a r :=
    wp_of_ends hd hp (h (hready ho)).weaken h
  cases p with
  | compilationUnit => exact never nofun rfl ends_compilationUnit
  | declarations => exact wp_declarations hd
  | packageDecl => exact always nofun rfl fun h => ends_packageDecl (ne_eof_of_starts rfl h)
  | importDecl => exact always nofun rfl fun h => ends_importDecl (ne_eof_of_starts rfl h)
  | globalDecl => exact always nofun rfl fun h => ends_globalDecl (ne_eof_of_starts rfl h)
  | functionDecl => exact always nofun rfl fun h => ends_functionDecl (ne_eof_of_starts rfl h)
  | queryDecl => exact always nofun rfl fun h => ends_queryDecl (ne_eof_of_starts rfl h)
  | declareDecl => exact always nofun rfl fun h => ends_declareDecl (ne_eof_of_starts rfl h)
  | ruleDecl => exact always nofun rfl fun h => ends_ruleDecl (ne_eof_of_starts rfl h)
  | strayTokens => exact always nofun rfl fun h => ends_strayTokens (ne_eof_of_starts rfl h)
  | supertypes => exact never nofun rfl ends_supertypes
  | annotations => exact never nofun rfl ends_annotations
  | annotated => exact always nofun rfl fun h => ends_annotated (ne_eof_of_starts rfl h)
  | fields => exact never nofun rfl ends_fields
  | field => exact always nofun rfl fun h => ends_field (ne_eof_of_starts rfl h)
  | declName role => exact never nofun rfl (ends_declName role)
  | parent => exact always nofun rfl fun h => ends_parent (ne_eof_of_starts rfl h)
  | attributeList => exact never nofun rfl ends_attributeList
  | attributes => exact never nofun rfl ends_attributes
  | «attribute» => exact always nofun rfl fun h => ends_attribute (ne_eof_of_starts rfl h)
  | stringList => exact never nofun rfl ends_stringList
  | whenClause => exact always nofun rfl fun h => ends_whenClause (ne_eof_of_starts rfl h)
  | thenClause => exact always nofun rfl fun h => ends_thenClause (ne_eof_of_starts rfl h)
  | blockEnd block => exact never nofun rfl (ends_blockEnd block)
  | parameterList => exact always nofun rfl fun h => ends_parameterList (ne_eof_of_starts rfl h)
  | parameters => exact never nofun rfl ends_parameters
  | parameter => exact never nofun rfl ends_parameter
  | qualifiedName => exact wp_of_ends hd nofun ends_qualifiedName ends_qualifiedName_one
  | nameParts => exact never nofun rfl ends_nameParts
  | typeRef => exact never nofun rfl ends_typeRef
  | dimensions => exact never nofun rfl ends_dimensions
  | conditions => exact never nofun rfl ends_conditions
  | lhsOr => exact wp_of_ends hd nofun ends_lhsOr ends_lhsOr_one
  | lhsOrRest => exact never nofun rfl ends_lhsOrRest
  | lhsAnd => exact wp_of_ends hd nofun ends_lhsAnd ends_lhsAnd_one
  | lhsAndRest => exact never nofun rfl ends_lhsAndRest
  | lhsUnary => exact wp_of_ends hd nofun ends_lhsUnary ends_lhsUnary_one
  | forallItems => exact never nofun rfl ends_forallItems
  | prefixOperands => exact never nofun rfl ends_prefixOperands
  | lhsParen => exact always nofun rfl fun h => ends_lhsParen (ne_eof_of_starts rfl h)
  | pattern => exact always nofun rfl ends_pattern
  | constraints => exact never nofun rfl ends_constraints
  | binding => exact always nofun rfl fun h => ends_binding (ne_eof_of_starts rfl h)
  | constraint => exact never nofun rfl ends_constraint
  | window => exact always nofun rfl fun h => ends_window (ne_eof_of_starts rfl h)
  | source => exact always nofun rfl fun h => ends_source (ne_eof_of_starts rfl h)
  | accumulate => exact always nofun rfl fun h => ends_accumulate (ne_eof_of_starts rfl h)
  | expr => exact never nofun rfl ends_expr
  | ternary => exact never nofun rfl ends_ternary
  | binary level half => exact never nofun rfl (ends_binary level half)
  | binaryRest level => exact never nofun rfl (ends_binaryRest level)
  | relational half => exact never nofun rfl (ends_relational half)
  | relationalRest => exact never nofun rfl ends_relationalRest
  | operator => exact always nofun rfl fun h => ends_operator (ne_eof_of_starts rfl h)
  | relationalRhs op => exact never nofun rfl (ends_relationalRhs op)
  | unary => exact never nofun rfl ends_unary
  | postfixed => exact never nofun rfl ends_postfixed
  | suffixes => exact never nofun rfl ends_suffixes
  | primary => exact never nofun rfl ends_primary
  | creation => exact always nofun rfl fun h => ends_creation (ne_eof_of_starts rfl h)
  | creationDims => exact never nofun rfl ends_creationDims
  | arrayInit => exact always nofun rfl fun h => ends_arrayInit (ne_eof_of_starts rfl h)
  | arrayItems => exact never nofun rfl ends_arrayItems
  | argList => exact always nofun rfl fun h => ends_argList (ne_eof_of_starts rfl h)
  | arguments => exact never nofun rfl ends_arguments

end Production

end RuleLang
