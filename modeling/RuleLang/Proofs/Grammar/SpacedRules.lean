import RuleLang.Proofs.Grammar.Spacing
import RuleLang.Proofs.Parser.Lossless

/-!
# Trees of sources are spaced

Each production keeps a group spaced, so in the tree of a source every empty node stands right after
a token with text.

## Main statements

* `Spacing.enter` — all productions keep groups spaced, however deeply they are nested.
* `spaced_root` — the tree of a source is spaced.
-/

namespace RuleLang

open Grammar Production Element

namespace Grammar

variable {e : Edge} {a : Ahead}

/-! ## Names and types -/

theorem spaces_nameParts : Spaces e Declarations.nameParts a :=
  .when (fun _ => .seq .take fun _ => .call_any rfl rfl) fun _ => .skip

theorem spaces_qualifiedName : Spaces e Declarations.qualifiedName a :=
  .when (fun h => .inner_bump (m := 0) (ne_eof_of_atName h) (fun _ => .call_any rfl rfl)
    fun _ => ends_later rfl) fun _ => .fail

theorem spaces_dimensions : Spaces e Declarations.dimensions a :=
  .when (fun _ => .seq .take fun _ => .call_any rfl rfl) fun _ => .skip

theorem spaces_typeRef : Spaces e Declarations.typeRef a := by
  refine .when (fun h => .inner (m := 64) ?_ ?_) fun _ => .fail
  · exact .seq (.call_any rfl rfl) fun _ => .seq (.whenAt (fun _ => .look .take) .skip)
      fun _ => .call_any rfl rfl
  · have hs : starts .qualifiedName a.afterTrivia.afterTrivia = true := by
      rw [starts_afterTrivia, starts_afterTrivia]
      exact h
    refine Ends.inner (.seq_one (ends_start rfl hs) fun _ => ?_)
    exact .seq_zero (.whenAt (fun _ => .look .take) fun _ => .skip) fun _ => ends_later rfl

/-! ## Expressions -/

theorem spaces_ternary : Spaces e Expressions.ternary a := by
  refine .innerGroup (.seq (.call_any rfl rfl) fun b => .whenAt (fun h => ?_) .skip)
  have hc := Ahead.current_ne_eof h rfl
  refine .enclose_fill (m := 0) ?_ (.bump_seq hc fun _ => .seq_zero (ends_later rfl) fun _ =>
    .seq_zero (.expect_skip rfl) fun _ => ends_later rfl)
  exact .seq .take fun _ => .seq (.call_any rfl rfl) fun _ => .seq (.expect_skip rfl)
    fun _ => .call_any rfl rfl

theorem spaces_operand (level : Level) (half : Bool) :
    Spaces e (Expressions.operand level half) a := by
  cases level <;> exact .call_any rfl rfl

theorem spaces_binary (level : Level) (half : Bool) : Spaces e (Expressions.binary level half) a :=
  .innerGroup (.seq (spaces_operand level half) fun _ => .call_any rfl rfl)

theorem spaces_binaryRest (level : Level) : Spaces e (Expressions.binaryRest level) a := by
  refine .when (fun h => ?_) fun _ => .skip
  have hc : a.current ≠ .eof := by
    intro he
    rw [he] at h
    cases level <;> cases h
  refine .seq (.enclose_fill (m := 0) ?_ (.bump_seq hc fun _ => ends_operand_later level _))
    fun _ => .call_any rfl rfl
  exact .seq .take fun _ => spaces_operand level _

theorem spaces_operation (h : a.current ≠ .eof) : Spaces e Expressions.operation a :=
  .look (.seq (.call_open rfl rfl h) fun _ => .call_any rfl rfl)

theorem spaces_relational (half : Bool) : Spaces e (Expressions.relational half) a := by
  refine .when (fun h => ?_) fun _ => .innerGroup ?_
  · have hc : a.afterTrivia.current ≠ .eof := by
      intro he
      rw [Ahead.current_afterTrivia] at he
      simp [Expressions.atHalfConstraint, he, Kind.isComparison, Kind.isWordOperator,
        Kind.raw] at h
    exact .inner (spaces_operation hc) (.inner (ends_operation (m := 0) (by simpa using hc)))
  · exact .seq (.call_any rfl rfl) fun _ => .call_any rfl rfl

theorem spaces_relationalRest : Spaces e Expressions.relationalRest a := by
  refine .when (fun h => ?_) fun _ => .skip
  have hc : a.current ≠ .eof := by
    intro he
    simp [Expressions.atRelationalOperator, he, Kind.isComparison, Kind.isWordOperator,
      Kind.raw] at h
  exact .seq (.enclose_fill (spaces_operation hc) (ends_operation (m := 0) hc))
    fun _ => .call_any rfl rfl

theorem spaces_operator (h : a.current ≠ .eof) : Spaces e Expressions.operator a := by
  refine .look (.inner (m := rank .operator) ?_ ?_)
  · refine .seq (.eat_skip rfl) fun _ => .seq (.eat rfl (fun _ => .expect_skip rfl) .take)
      fun _ => ?_
    split
    · exact .whenAt (fun hb => .inner_bump (m := 0) (Ahead.current_ne_eof hb rfl)
        (fun _ => .seq .untilClose fun _ => .expect_skip rfl)
        fun _ => .seq_zero (.look .take) fun _ => .expect_skip rfl) .skip
    · exact .skip
  · have := ends_operator (a := a.afterTrivia) (by simpa using h)
    simpa [Expressions.operator, Ends, wp, Expressions.operatorKind, Ahead.isAt] using this

theorem spaces_relationalRhs (op : Kind) : Spaces e (Expressions.relationalRhs op) a := by
  unfold Expressions.relationalRhs
  split
  · exact .call_any rfl rfl
  · exact .when (fun h => .call_open rfl rfl (ne_eof_of_isAt (Bool.and_eq_true_iff.1 h).2 rfl))
      fun _ => .call_any rfl rfl

theorem spaces_unary : Spaces e Expressions.unary a := by
  refine .look ?_
  split
  case h_7 =>
    split
    · rename_i h
      have hc : a.current ≠ .eof :=
        ne_eof_of_isAt (Bool.and_eq_true_iff.1 (Bool.and_eq_true_iff.1 h).1).1 rfl
      refine .inner_bump (m := 0) hc (fun _ => ?_) fun _ => ?_
      · exact .seq (.call_any rfl rfl) fun _ => .seq (.expect_skip rfl) fun _ => .call_any rfl rfl
      · exact .seq_zero (ends_later rfl) fun _ => .seq_zero (.expect_skip rfl)
          fun _ => ends_later rfl
    · exact .call_any rfl rfl
  all_goals
    rename_i h
    exact .inner_bump (m := 0) (Ahead.current_ne_eof h rfl) (fun _ => .call_any rfl rfl)
      fun _ => ends_later rfl

theorem spaces_postfixed : Spaces e Expressions.postfixed a :=
  .innerGroup (.seq (.call_any rfl rfl) fun _ => .call_any rfl rfl)

/-- A suffix wraps what it follows, and it has taken a token before it does. -/
theorem spaces_suffixes : Spaces e Expressions.suffixes a := by
  have hwrap (kind : Kind) (b : Ahead) :
      Spaces .filled (.enclose kind .skip >> .call .suffixes) b :=
    .seq (.enclose .skip) fun _ => .call_any rfl rfl
  have hcall (b : Ahead) : Spaces .solid
      (.whenAt .lParen (.call .argList >> .enclose .methodCall .skip)
        (.enclose .fieldAccess .skip) >> .call .suffixes) b := by
    refine .of_filled (.seq (.whenAt (fun h => ?_) (.enclose .skip)) fun _ => .call_any rfl rfl)
    exact .seq_filled (.call_open rfl rfl (Ahead.current_ne_eof h rfl)) fun _ => .enclose .skip
  refine .look ?_
  split
  case h_7 => exact .skip
  case h_1 h | h_2 h =>
    split
    · exact .take_seq Nat.two_pos (Ahead.current_ne_eof h rfl) hcall
    · exact .skip
  case h_3 h =>
    split
    · exact .bump_seq (Ahead.current_ne_eof h rfl) fun _ => .of_filled
        (.seq_filled (.call_any rfl rfl) fun _ => hwrap .inlineCast _)
    · exact .skip
  case h_4 h =>
    exact .bump_seq (Ahead.current_ne_eof h rfl) fun _ => .of_filled
      (.seq_filled (.call_any rfl rfl) fun _ => .seq_filled (.expect_skip rfl)
        fun _ => hwrap .indexExpr _)
  case h_5 h | h_6 h =>
    split
    · exact .bump_seq (Ahead.current_ne_eof h rfl) fun _ => .of_filled (hwrap .unaryExpr _)
    · exact .skip

theorem spaces_primary : Spaces e Expressions.primary a := by
  refine .look ?_
  split
  · rename_i h
    refine .inner_take Nat.one_pos fun he => ?_
    simp [he, Kind.isLiteral] at h
  · split
    · rename_i h
      have hc : a.afterTrivia.current ≠ .eof := by
        simpa using ne_eof_of_atName h
      have hname : Ends ranking 0 1 (.node .nameRef .bump) a.afterTrivia := .node (.bump_one hc)
      refine .innerGroup (.fill_seq (.node .take (.bump_one (m := 0) hc)) hname fun b => ?_)
      refine .when (fun h => ?_) fun _ => .skip
      have hc := ne_eof_of_isAt (Bool.and_eq_true_iff.1 h).1 rfl
      exact .seq_filled (.call_open rfl rfl hc) fun _ => .enclose .skip
    · split
      case h_1 h | h_3 h => exact .call_open rfl rfl (Ahead.current_ne_eof h rfl)
      case h_2 h =>
        refine .inner_bump (m := 0) (Ahead.current_ne_eof h rfl) (fun _ => ?_) fun _ => ?_
        · exact .seq (.call_any rfl rfl) fun _ => .seq .recoverInParens fun _ => .expect_skip rfl
        · exact .seq_zero (ends_later rfl) fun _ => .seq_zero .recoverInParens
            fun _ => .expect_skip rfl
      case h_4 => exact .complain

theorem spaces_creation (h : a.current ≠ .eof) : Spaces e Expressions.creation a := by
  refine .inner (.seq .take fun _ => .seq (.call_any rfl rfl) fun b => .look ?_)
    (ends_creation (by simpa using h))
  split
  case h_1 h => exact .call_open rfl rfl (Ahead.current_ne_eof h rfl)
  case h_2 => exact .seq (.call_any rfl rfl) fun _ => .whenAt (fun _ => .balanced) .skip
  case h_3 => exact .complain

theorem spaces_creationDims : Spaces e Expressions.creationDims a :=
  .whenAt (fun _ => .seq .balanced fun _ => .call_any rfl rfl) .skip

theorem spaces_arrayInit (h : a.current ≠ .eof) : Spaces e Expressions.arrayInit a :=
  .inner (.seq .take fun _ => .seq (.whenAt (fun _ => .skip) (.call_any rfl rfl))
    fun _ => .expect_skip rfl) (ends_arrayInit (by simpa using h))

theorem spaces_arrayItems : Spaces e Expressions.arrayItems a :=
  .seq (.call_any rfl rfl) fun _ => .seq (.eat rfl (fun _ => .call_any rfl rfl) .skip)
    fun _ => .eat rfl (fun _ => .call_any rfl rfl) .skip

theorem spaces_argList (h : a.current ≠ .eof) : Spaces e Expressions.argList a :=
  .inner (.seq .take fun _ => .seq (.whenAt (fun _ => .skip) (.call_any rfl rfl)) fun _ =>
    .seq .recoverInParens fun _ => .expect_skip rfl) (ends_argList (by simpa using h))

theorem spaces_arguments : Spaces e Expressions.arguments a :=
  .seq (.call_any rfl rfl) fun _ => .eat rfl (fun _ => .call_any rfl rfl) .skip

/-! ## Conditions -/

theorem spaces_lhsOrRest : Spaces e Conditions.lhsOrRest a :=
  .when (fun _ => .seq .take fun _ => .seq (.call_any rfl rfl) fun _ => .call_any rfl rfl)
    fun _ => .skip

theorem spaces_lhsAndRest : Spaces e Conditions.lhsAndRest a :=
  .when (fun _ => .seq .take fun _ => .seq (.call_any rfl rfl) fun _ => .call_any rfl rfl)
    fun _ => .skip

theorem spaces_lhsOr : Spaces e Conditions.lhsOr a := by
  refine .innerGroup (.seq (.call_any rfl rfl) fun b => .when (fun h => ?_) fun _ => .skip)
  refine .enclose_fill (m := 0) ?_ (.bump_seq (ne_eof_of_isOr h) fun _ =>
    .seq_zero (ends_later rfl) fun _ => ends_later rfl)
  exact .seq .take fun _ => .seq (.call_any rfl rfl) fun _ => .call_any rfl rfl

theorem spaces_lhsAnd : Spaces e Conditions.lhsAnd a := by
  refine .innerGroup (.seq (.call_any rfl rfl) fun b => .when (fun h => ?_) fun _ => .skip)
  refine .enclose_fill (m := 0) ?_ (.bump_seq (ne_eof_of_isAnd h) fun _ =>
    .seq_zero (ends_later rfl) fun _ => ends_later rfl)
  exact .seq .take fun _ => .seq (.call_any rfl rfl) fun _ => .call_any rfl rfl

theorem spaces_lhsUnary : Spaces e Conditions.lhsUnary a := by
  refine .look ?_
  split
  case h_1 h | h_2 h =>
    exact .inner_bump (m := 0) (Ahead.current_ne_eof h rfl) (fun _ => .call_any rfl rfl)
      fun _ => ends_later rfl
  case h_3 h | h_4 h =>
    refine .inner_bump (m := 0) (Ahead.current_ne_eof h rfl) (fun _ => ?_) fun _ => ?_
    · exact .expect rfl fun _ => .seq (.call_any rfl rfl) fun _ => .expect_skip rfl
    · exact .expect rfl fun _ => .seq_zero (ends_later rfl) fun _ => .expect_skip rfl
  case h_5 h | h_6 h => exact .call_open rfl rfl (Ahead.current_ne_eof h rfl)
  case h_7 h | h_8 h => exact .mono (.call (fun _ => by simp [leads, starts, Ahead.isAt, h]) rfl)
  case h_9 => exact .complain

theorem spaces_forallItems : Spaces e Conditions.forallItems a :=
  .when (fun _ => .seq (.call_any rfl rfl) fun _ => .ifRecovering .skip (.call_any rfl rfl))
    fun _ => .skip

theorem spaces_prefixOperands : Spaces e Conditions.prefixOperands a :=
  .when (fun _ => .seq (.call_any rfl rfl) fun _ => .ifRecovering .skip (.call_any rfl rfl))
    fun _ => .skip

theorem spaces_lhsParen (h : a.current ≠ .eof) : Spaces e Conditions.lhsParen a := by
  refine .inner (.seq .take fun b => .seq (.look ?_) fun _ => .expect_skip rfl)
    (ends_lhsParen (by simpa using h))
  split
  case h_1 h | h_2 h =>
    exact .inner_bump (m := 0) (Ahead.current_ne_eof h rfl) (fun _ => .call_any rfl rfl)
      fun _ => ends_later rfl
  case h_3 => exact .call_any rfl rfl

theorem spaces_pattern (h : (a.isAt .ident || a.isAt .question) = true) :
    Spaces e Conditions.pattern a := by
  refine .inner ?_ (ends_pattern (by simpa [Ahead.isAt] using h))
  refine .seq (.when (fun h => ?_) fun _ => .skip) fun _ => .seq (.eat_skip rfl) fun _ =>
    .seq (.call_any rfl rfl) fun _ => .seq (.expect rfl fun _ => ?_) fun _ => ?_
  · exact .call_open rfl rfl (ne_eof_of_isAt (Bool.and_eq_true_iff.1 h).1 rfl)
  · exact .seq (.whenAt (fun _ => .skip) (.call_solid rfl rfl)) fun _ => .recoverInParens
  · exact .seq (.expect_skip rfl) fun _ => .seq (.whenAt_open rfl rfl rfl)
      fun _ => .whenAt_open rfl rfl rfl

/-- Each constraint is read right after a parenthesis or a comma. -/
theorem spaces_constraints : Spaces .solid Conditions.constraints a :=
  .seq (.call_solid rfl rfl) fun _ => .eat rfl (fun _ => .call_solid rfl rfl) .skip

theorem spaces_binding (h : a.current ≠ .eof) : Spaces e Conditions.binding a :=
  .inner_take Nat.two_pos h

theorem spaces_constraint : Spaces .solid Conditions.constraint a :=
  .inner_solid (.seq (.when (fun h => .call_open rfl rfl
    (ne_eof_of_atName (Bool.and_eq_true_iff.1 h).1)) fun _ => .skip) fun _ => .call_any rfl rfl)

theorem spaces_window (h : a.current ≠ .eof) : Spaces e Conditions.window a := by
  refine .inner (.seq .take fun _ => .expect rfl fun _ => .expect rfl fun _ =>
    .seq .expectName fun _ => .whenAt (fun hp => ?_) .skip) (ends_window (by simpa using h))
  have hp' : Ahead.isOpening _ = true := (congrArg Ahead.isOpening hp).trans rfl
  exact .inner .balanced (.inner (.balanced_one (m := 0) (by simpa using hp')))

theorem spaces_source (h : a.current ≠ .eof) : Spaces e Conditions.source a := by
  refine .inner (.seq .take fun b => .look ?_) (ends_source (by simpa using h))
  split
  case h_1 h => exact .call_open rfl rfl (Ahead.current_ne_eof h rfl)
  case h_2 h =>
    refine .inner_bump (m := 0) (Ahead.current_ne_eof h rfl) (fun _ => ?_) fun _ => ?_
    · exact .expect rfl fun _ => .seq (.call_any rfl rfl) fun _ => .expect_skip rfl
    · exact .expect rfl fun _ => .seq_zero (ends_later rfl) fun _ => .expect_skip rfl
  case h_3 h =>
    refine .inner_bump (m := 0) (Ahead.current_ne_eof h rfl) (fun _ => ?_) fun _ => ?_
    · exact .eat rfl (fun _ => .skip) (.call_any rfl rfl)
    · exact .eat rfl (fun _ => .skip) (ends_later rfl)
  case h_4 => exact .call_any rfl rfl

theorem spaces_accumulate (h : a.current ≠ .eof) : Spaces e Conditions.accumulate a :=
  .inner (.seq .take fun _ => .expect rfl fun _ => .seq (.call_any rfl rfl) fun _ =>
    .seq (.eat rfl (fun _ => .untilClose) (.eat rfl (fun _ => .untilClose) .skip))
      fun _ => .expect_skip rfl) (ends_accumulate (by simpa using h))

theorem spaces_conditions : Spaces e Conditions.conditions a := by
  refine .look ?_
  split
  · exact .skip
  · refine .seq ?_ fun _ => .seq (.ifRecovering .recoverTo .skip) fun _ => .call_any rfl rfl
    split
    · exact .seq (.call_any rfl rfl) fun _ => .eat_skip rfl
    · exact .fail

/-! ## Declarations -/

theorem spaces_lineEnd : Spaces e (.eat .semicolon >> .lineTrivia) a :=
  .seq (.eat_skip rfl) fun _ => .lineTrivia

theorem spaces_strayTokens (h : a.current ≠ .eof) : Spaces e Declarations.strayTokens a :=
  .node (.seq .fail fun _ => .seq .take fun _ => .seq (.look .take) fun _ => .lineTrivia)
    (ends_strayTokens h)

theorem spaces_packageDecl (h : a.current ≠ .eof) : Spaces e Declarations.packageDecl a :=
  .node (.seq .take fun _ => .seq (.call_any rfl rfl) fun _ => spaces_lineEnd)
    (ends_packageDecl h)

theorem spaces_importDecl (h : a.current ≠ .eof) : Spaces e Declarations.importDecl a :=
  .node (.seq .take fun _ => .seq (.eat rfl (fun _ => .skip) (.eat_skip rfl)) fun _ =>
    .seq (.call_any rfl rfl) fun _ => .seq (.when (fun _ => .take) fun _ => .skip)
      fun _ => spaces_lineEnd) (ends_importDecl h)

theorem spaces_globalDecl (h : a.current ≠ .eof) : Spaces e Declarations.globalDecl a :=
  .node (.seq .take fun _ => .seq (.call_any rfl rfl) fun _ => .seq .expectName
    fun _ => spaces_lineEnd) (ends_globalDecl h)

theorem spaces_functionDecl (h : a.current ≠ .eof) : Spaces e Declarations.functionDecl a := by
  refine .node (.seq .take fun _ => .seq (.call_any rfl rfl) fun _ => .seq .expectName fun _ =>
    .seq (.whenAt (fun hp => ?_) .complain) fun _ => .seq (.whenAt (fun hp => ?_)
      (.seq .complain fun _ => .recoverTo)) fun _ => .lineTrivia) (ends_functionDecl h)
  · exact .call_open rfl rfl (Ahead.current_ne_eof hp rfl)
  · have hp' : Ahead.isOpening _ = true := (congrArg Ahead.isOpening hp).trans rfl
    exact .inner .balanced (.inner (.balanced_one (m := 0) (by simpa using hp')))

theorem spaces_queryDecl (h : a.current ≠ .eof) : Spaces e Declarations.queryDecl a :=
  .node (.seq .take fun _ => .seq (.call_any rfl rfl) fun _ => .seq (.whenAt_open rfl rfl rfl)
    fun _ => .seq (.call_any rfl rfl) fun _ => .seq (.call_any rfl rfl) fun _ => .lineTrivia)
    (ends_queryDecl h)

theorem spaces_declareDecl (h : a.current ≠ .eof) : Spaces e Declarations.declareDecl a :=
  .node (.seq .take fun _ => .seq (.eat_skip rfl) fun _ => .seq (.call_any rfl rfl) fun _ =>
    .seq (.eat rfl (fun _ => .seq (.call_any rfl rfl) fun _ => .call_any rfl rfl) .skip) fun _ =>
    .seq (.call_any rfl rfl) fun _ => .seq (.call_any rfl rfl) fun _ =>
    .seq (.call_any rfl rfl) fun _ => .lineTrivia) (ends_declareDecl h)

theorem spaces_supertypes : Spaces e Declarations.supertypes a :=
  .eat rfl (fun _ => .seq (.call_any rfl rfl) fun _ => .call_any rfl rfl) .skip

theorem spaces_annotations : Spaces e Declarations.annotations a :=
  .whenAt (fun h => .seq (.call_open rfl rfl (Ahead.current_ne_eof h rfl))
    fun _ => .call_any rfl rfl) .skip

theorem spaces_annotated (h : a.current ≠ .eof) : Spaces e Declarations.annotated a :=
  .inner (.seq .take fun _ => .seq (.call_any rfl rfl) fun _ => .whenAt (fun _ => .balanced) .skip)
    (ends_annotated (by simpa using h))

theorem spaces_fields : Spaces e Declarations.fields a := by
  refine .look ?_
  split
  · exact .skip
  · rename_i h
    have hc : a.current ≠ .eof := fun he => by simp [he] at h
    split
    · exact .seq (.call_open rfl rfl hc) fun _ => .call_any rfl rfl
    · exact .seq .fail fun _ => .seq .recoverTo fun _ => .call_any rfl rfl

theorem spaces_field (h : a.current ≠ .eof) : Spaces e Declarations.field a :=
  .inner (.seq .take fun _ => .seq (.call_any rfl rfl) fun _ =>
    .seq (.eat rfl (fun _ => .call_any rfl rfl) .skip) fun _ => .call_any rfl rfl)
    (ends_field (by simpa using h))

theorem spaces_ruleDecl (h : a.current ≠ .eof) : Spaces e Declarations.ruleDecl a := by
  refine .node (.seq .take fun _ => .seq (.call_any rfl rfl) fun _ =>
    .seq (.whenAt_open rfl rfl rfl) fun _ => .seq (.call_any rfl rfl) fun _ =>
    .seq (.when (fun hk => ?_) fun _ => .skip) fun _ =>
    .seq (.whenAt (fun _ => .skip) (.seq .fail fun _ => .recoverTo)) fun _ =>
    .seq (.whenAt_open rfl rfl rfl) fun _ =>
    .seq (.whenAt (fun _ => .skip) (.seq .fail fun _ => .recoverTo)) fun _ =>
    .seq (.whenAt_open rfl rfl rfl) fun _ => .seq (.call_any rfl rfl) fun _ => .lineTrivia)
    (ends_ruleDecl h)
  exact .mono (.call (fun _ => hk) rfl)

theorem spaces_declName (role : Role) : Spaces e (Declarations.declName role) a := by
  refine .when (fun h => .inner_take Nat.one_pos fun he => ?_) fun _ => .fail
  rw [Ahead.isAt, Ahead.atName, he] at h
  cases h

theorem spaces_parent (h : a.current ≠ .eof) : Spaces e Declarations.parent a :=
  .inner (.seq .take fun _ => .when (fun _ => .take) fun _ => .complain)
    (ends_parent (by simpa using h))

/-- An attribute list is read where it has an attribute. -/
theorem spaces_attributeList (h : leads .attributeList a = true) :
    Spaces e Declarations.attributeList a := by
  have hl : (a.afterTrivia.current.isAttributeKeyword || a.afterTrivia.isAt .ident) = true := by
    simpa [leads, Ahead.isAt] using h
  have hc : a.afterTrivia.current ≠ .eof := by
    intro he
    rw [Ahead.isAt, he] at hl
    cases hl
  refine .trivia_seq (.group (.enclose_of_takes (.call_any rfl rfl) (.call ?_)))
  refine .of_ends (m := 64) (.look ?_)
  split
  · exact .bump_seq hc fun _ => .seq_zero (.eat rfl (fun _ => .skip) .skip) fun _ => ends_later rfl
  · split
    · exact .bump_seq hc fun _ => ends_later rfl
    · exact .seq_one (ends_open rfl rfl hc) fun _ => ends_later rfl

theorem spaces_attributes : Spaces e Declarations.attributes a := by
  refine .look ?_
  split
  · exact .seq .take fun _ => .seq (.eat_skip rfl) fun _ => .call_any rfl rfl
  · split
    · exact .seq .take fun _ => .call_any rfl rfl
    · split
      · rename_i h
        refine .seq (.call_open rfl rfl fun he => ?_) fun _ => .call_any rfl rfl
        rw [Ahead.isAt, he] at h
        cases h
      · exact .skip

theorem spaces_attribute (h : a.current ≠ .eof) : Spaces e Declarations.attributeItem a := by
  refine .inner (.seq (.look ?_) fun _ => .seq .take fun b => .look ?_)
    (ends_attribute (by simpa using h))
  · split
    · split
      · exact .complain
      · exact .skip
    · exact .skip
  · split
    case h_1 h =>
      exact .inner_bump (m := 0) (Ahead.current_ne_eof h rfl) (fun _ => .call_any rfl rfl)
        fun _ => ends_later rfl
    case h_2 h | h_3 h | h_4 h | h_5 h =>
      exact .inner_take Nat.one_pos (Ahead.current_ne_eof h rfl)
    case h_6 h =>
      split
      · exact .inner_take Nat.two_pos (Ahead.current_ne_eof h rfl)
      · exact .skip
    case h_7 h =>
      have hp : Ahead.isOpening b.current = true := (congrArg Ahead.isOpening h).trans rfl
      exact .inner .balanced (.inner (.balanced_one (m := 0) (by simpa using hp)))
    case h_8 => exact .skip

theorem spaces_stringList : Spaces e Declarations.stringList a :=
  .when (fun _ => .seq .take fun _ => .call_any rfl rfl) fun _ => .skip

theorem spaces_whenClause (h : a.current ≠ .eof) : Spaces e Declarations.whenClause a :=
  .inner (.seq .take fun _ => .seq (.eat_skip rfl) fun _ => .call_any rfl rfl)
    (ends_whenClause (by simpa using h))

/-- An action that is missing is an empty node right after `then`. -/
theorem spaces_thenClause (h : a.current ≠ .eof) : Spaces e Declarations.thenClause a :=
  .inner (.bump_seq (by simpa using h) fun _ => .inner_solid (.eat_skip rfl))
    (ends_thenClause (by simpa using h))

theorem spaces_blockEnd (block : Block) : Spaces e (Declarations.blockEnd block) a :=
  .eat rfl (fun _ => .skip) (.whenAt (fun _ => .complain) .fail)

/-- Each parameter is read right after a parenthesis or a comma. -/
theorem spaces_parameterList (h : a.current ≠ .eof) : Spaces e Declarations.parameterList a := by
  have hc : a.afterTrivia.current ≠ .eof := by simpa using h
  refine .inner ?_ (ends_parameterList hc)
  refine .bump_seq hc fun _ => .seq (.whenAt (fun _ => .skip) ?_) fun _ => .expect_skip rfl
  exact .call_solid rfl rfl

theorem spaces_parameters : Spaces .solid Declarations.parameters a :=
  .seq (.call_solid rfl rfl) fun _ => .eat rfl (fun _ => .call_solid rfl rfl) .skip

theorem spaces_parameter : Spaces .solid Declarations.parameter a :=
  .inner_solid (.seq (.call_any rfl rfl) fun _ => .when (fun _ => .take) fun _ => .skip)

/-! ## All productions -/

theorem ne_eof_of_leads {p : Production} (ho : (p.opens && p != .pattern) = true)
    (h : p.guarded = true → p.leads a = true) : a.current ≠ .eof := by
  have ho' : p.opens = true := (Bool.and_eq_true_iff.1 ho).1
  have hl := h (by simp [guarded, ho'])
  unfold leads at hl
  split at hl
  · cases ho
  · exact ne_eof_of_starts ho hl

theorem spaces_declarations : Spaces e Declarations.declarations a := by
  refine .seq .recovered fun b => .look ?_
  split
  case h_1 => exact .skip
  case h_9 h _ _ _ _ _ _ _ => exact .seq (.call_open rfl rfl h) fun _ => .call_any rfl rfl
  all_goals
    rename_i h
    exact .seq (.call_open rfl rfl (Ahead.current_ne_eof h rfl)) fun _ => .call_any rfl rfl

theorem spaces_compilationUnit : Spaces .solid Declarations.compilationUnit a :=
  .node_solid (.seq (.call_any rfl rfl) fun _ => .trivia)

theorem spaces_body {p : Production} (h : p.guarded = true → p.leads a = true) :
    Spaces p.edge p.body a := by
  cases p with
  | compilationUnit => exact spaces_compilationUnit
  | declarations => exact spaces_declarations
  | packageDecl => exact spaces_packageDecl (ne_eof_of_leads rfl h)
  | importDecl => exact spaces_importDecl (ne_eof_of_leads rfl h)
  | globalDecl => exact spaces_globalDecl (ne_eof_of_leads rfl h)
  | functionDecl => exact spaces_functionDecl (ne_eof_of_leads rfl h)
  | queryDecl => exact spaces_queryDecl (ne_eof_of_leads rfl h)
  | declareDecl => exact spaces_declareDecl (ne_eof_of_leads rfl h)
  | ruleDecl => exact spaces_ruleDecl (ne_eof_of_leads rfl h)
  | strayTokens => exact spaces_strayTokens (ne_eof_of_leads rfl h)
  | supertypes => exact spaces_supertypes
  | annotations => exact spaces_annotations
  | annotated => exact spaces_annotated (ne_eof_of_leads rfl h)
  | fields => exact spaces_fields
  | field => exact spaces_field (ne_eof_of_leads rfl h)
  | declName role => exact spaces_declName role
  | parent => exact spaces_parent (ne_eof_of_leads rfl h)
  | attributeList => exact spaces_attributeList (h rfl)
  | attributes => exact spaces_attributes
  | «attribute» => exact spaces_attribute (ne_eof_of_leads rfl h)
  | stringList => exact spaces_stringList
  | whenClause => exact spaces_whenClause (ne_eof_of_leads rfl h)
  | thenClause => exact spaces_thenClause (ne_eof_of_leads rfl h)
  | blockEnd block => exact spaces_blockEnd block
  | parameterList => exact spaces_parameterList (ne_eof_of_leads rfl h)
  | parameters => exact spaces_parameters
  | parameter => exact spaces_parameter
  | qualifiedName => exact spaces_qualifiedName
  | nameParts => exact spaces_nameParts
  | typeRef => exact spaces_typeRef
  | dimensions => exact spaces_dimensions
  | conditions => exact spaces_conditions
  | lhsOr => exact spaces_lhsOr
  | lhsOrRest => exact spaces_lhsOrRest
  | lhsAnd => exact spaces_lhsAnd
  | lhsAndRest => exact spaces_lhsAndRest
  | lhsUnary => exact spaces_lhsUnary
  | forallItems => exact spaces_forallItems
  | prefixOperands => exact spaces_prefixOperands
  | lhsParen => exact spaces_lhsParen (ne_eof_of_leads rfl h)
  | pattern => exact spaces_pattern (h rfl)
  | constraints => exact spaces_constraints
  | binding => exact spaces_binding (ne_eof_of_leads rfl h)
  | constraint => exact spaces_constraint
  | window => exact spaces_window (ne_eof_of_leads rfl h)
  | source => exact spaces_source (ne_eof_of_leads rfl h)
  | accumulate => exact spaces_accumulate (ne_eof_of_leads rfl h)
  | expr => exact .call_any rfl rfl
  | ternary => exact spaces_ternary
  | binary level half => exact spaces_binary level half
  | binaryRest level => exact spaces_binaryRest level
  | relational half => exact spaces_relational half
  | relationalRest => exact spaces_relationalRest
  | operator => exact spaces_operator (ne_eof_of_leads rfl h)
  | relationalRhs op => exact spaces_relationalRhs op
  | unary => exact spaces_unary
  | postfixed => exact spaces_postfixed
  | suffixes => exact spaces_suffixes
  | primary => exact spaces_primary
  | creation => exact spaces_creation (ne_eof_of_leads rfl h)
  | creationDims => exact spaces_creationDims
  | arrayInit => exact spaces_arrayInit (ne_eof_of_leads rfl h)
  | arrayItems => exact spaces_arrayItems
  | argList => exact spaces_argList (ne_eof_of_leads rfl h)
  | arguments => exact spaces_arguments

end Grammar

/-- However deeply they are nested, all productions keep groups spaced. -/
theorem Spacing.enter (depth : Nat) : Spacing (Grammar.enter body depth) := by
  induction depth with
  | zero => exact ⟨reads_of_enter, nofun⟩
  | succ depth ih =>
    refine ⟨reads_of_enter, fun {p s t} h hp he hs => ?_⟩
    have hs' : Reading.Spaced { s with entered := s.entered + 1 } := ⟨hs.text, hs.group⟩
    exact spaces_body hp _ ih { s with entered := s.entered + 1 } t rfl
      (by cases hedge : p.edge <;> rw [hedge] at he <;> exact he) hs' h

theorem Reading.Spaced.of_reads {p : Production} {s t : Reading} (hs : s.Spaced)
    (h : Reads body (.call p) s t) (hp : p.guarded = false) (he : p.edge = .any) : t.Spaced := by
  obtain ⟨depth, hd⟩ := exists_enter_of_reads h
  refine (Spacing.enter depth).spaced hd (fun hg => ?_) (by rw [he]; trivial) hs
  rw [hp] at hg
  cases hg

/-! ## The tree of a source -/

/-- The tree of a source has empty nodes only right after tokens with text. -/
theorem spaced_root (source : List Char) (limit : Option Nat) :
    (parse source limit).root.Spaced := by
  have hcovers := covers_lex source
  obtain ⟨e, hended, -⟩ := hcovers.ended
  obtain ⟨t, ht, -⟩ :=
    Production.exists_read? .compilationUnit limit (lex source).tokens nofun
  obtain ⟨u, hu, -, hgroup⟩ := reads_compilationUnit (reads_of_enter ht)
  have htext : Ahead.HasText (lex source).tokens := by
    intro x hx hk
    rw [hended.eq, List.mem_append, List.mem_singleton] at hx
    rcases hx with hx | rfl
    · exact (hcovers.dropLast_ne x hx).1
    · exact absurd hended.kind hk
  have hstart : Reading.Spaced ⟨(lex source).tokens, [], [], false, limit, 0 + 1⟩ :=
    ⟨htext, spacedAll_nil _⟩
  have hu' := (hstart.of_reads hu rfl rfl).takeTokens (u.ahead.takeWhile Token.isTrivia).length
  have hread : Production.compilationUnit.read limit (lex source).tokens = t := by
    rw [Production.read, ht, Option.getD_some]
  have hroot : (parse source limit).root = .node .compilationUnit u.takeTrivia.group.reverse := by
    simp [parse, parseTokens, hread, Reading.elements, hgroup, Reading.start]
  rw [hroot, spaced_node]
  exact hu'.group

end RuleLang
