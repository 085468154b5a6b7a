import RuleLang.Proofs.Grammar.Neutral

/-!
# Productions that do not tell two keywords apart

## Main statements

* `Production.neutral_body` — no decision of a production tells `agenda-group` and `ruleflow-group`
  apart.
* `Grammar.Reads.renamed` — tokens with the one renamed to the other are read as elements of the same
  outline.
-/

namespace RuleLang

open Grammar Production

namespace Grammar

/-! ## Declarations -/

section

open Declarations

theorem neutral_nameParts : Neutral nameParts :=
  .when (fun hs => by rw [hs.isAt .dot rfl, hs.nextName]) (.seq (.take 2) (.call _)) .skip

theorem neutral_qualifiedName : Neutral qualifiedName :=
  .when (fun hs => hs.atName) (.inner (.seq .bump (.call _))) (.fail fun _ => rfl)

theorem neutral_dimensions : Neutral dimensions :=
  .when (fun hs => hs.isAt_nextIs _ _ rfl rfl) (.seq (.take 2) (.call _)) .skip

theorem neutral_typeRef : Neutral typeRef :=
  .when (fun hs => hs.atName)
    (.inner (.seq (.call _) (.seq (.whenAt rfl .typeArguments .skip) (.call _))))
    (.fail fun _ => rfl)

theorem neutral_compilationUnit : Neutral compilationUnit :=
  .node (.seq (.call _) .trivia)

theorem neutral_declarations : Neutral declarations := by
  refine .seq .recovered (.decide (fun a => ?_) fun hs => ?_)
  · split
    · exact .skip
    all_goals exact .seq (.call _) (.call _)
  · rcases hs.current with h | ⟨ha, hb⟩
    · simp only [h]
    · simp only [ha, hb]

theorem neutral_strayTokens : Neutral strayTokens := by
  refine .node (.seq (.fail fun _ => rfl)
    (.seq .bump (.seq (.decide (fun _ => .take _) fun hs => ?_) .lineTrivia)))
  rw [hs.countUntil rfl]

theorem neutral_packageDecl : Neutral packageDecl :=
  .node (.seq .bump (.seq (.call _) (.seq (.eat_skip rfl) .lineTrivia)))

theorem neutral_importDecl : Neutral importDecl :=
  .node (.seq .bump (.seq (.eat rfl .skip (.eat_skip rfl)) (.seq (.call _)
    (.seq (.when (fun hs => hs.isAt_nextIs _ _ rfl rfl) (.take 2) .skip)
      (.seq (.eat_skip rfl) .lineTrivia)))))

theorem neutral_globalDecl : Neutral globalDecl :=
  .node (.seq .bump (.seq (.call _) (.seq .expectName (.seq (.eat_skip rfl) .lineTrivia))))

theorem neutral_functionDecl : Neutral functionDecl :=
  .node (.seq .bump (.seq (.call _) (.seq .expectName
    (.seq (.whenAt rfl (.call _) (.complain _))
      (.seq (.whenAt rfl (.inner .balanced) (.seq (.complain _) (.recoverTo rfl)))
        .lineTrivia)))))

theorem neutral_queryDecl : Neutral queryDecl :=
  .node (.seq .bump (.seq (.call _) (.seq (.whenAt rfl (.call _) .skip)
    (.seq (.call _) (.seq (.call _) .lineTrivia)))))

theorem neutral_supertypes : Neutral supertypes :=
  .eat rfl (.seq (.call _) (.call _)) .skip

theorem neutral_annotations : Neutral annotations :=
  .whenAt rfl (.seq (.call _) (.call _)) .skip

theorem neutral_annotated : Neutral annotated :=
  .inner (.seq .bump (.seq (.call _) (.whenAt rfl .balanced .skip)))

theorem neutral_declareDecl : Neutral declareDecl :=
  .node (.seq .bump (.seq (.eat_skip rfl)
    (.seq (.call _) (.seq (.eat rfl (.seq (.call _) (.call _)) .skip)
      (.seq (.call _) (.seq (.call _) (.seq (.call _) .lineTrivia)))))))

theorem neutral_fields : Neutral fields := by
  refine .decide (fun a => ?_) fun hs => ?_
  · exact .ite .skip (.ite (.seq (.call _) (.call _))
      (.seq (.fail fun _ => rfl) (.seq (.recoverTo rfl) (.call _))))
  · rw [hs.current.eq (f := (· == .eof)) rfl, hs.current.eq (f := Kind.isBoundaryKeyword) rfl,
      hs.atName, hs.nextIs .colon rfl]

theorem neutral_field : Neutral field :=
  .inner (.seq (.take 2) (.seq (.call _) (.seq (.eat rfl (.call _) .skip) (.call _))))

theorem neutral_declName {role : Role} : Neutral (declName role) :=
  .when (fun hs => by rw [hs.isAt .stringLit rfl, hs.atName]) (.inner .bump) (.fail fun _ => rfl)

theorem neutral_ruleDecl : Neutral ruleDecl := by
  have hattributes : ∀ {a b : Ahead}, a.Renamed b →
      (b.current.isAttributeKeyword || b.isAt .ident) =
        (a.current.isAttributeKeyword || a.isAt .ident) := fun hs => by
    rw [hs.current.eq (f := Kind.isAttributeKeyword) rfl, hs.isAt .ident rfl]
  exact .node (.seq .bump (.seq (.call _) (.seq (.whenAt rfl (.call _) .skip) (.seq (.call _)
    (.seq (.when hattributes (.call _) .skip)
      (.seq (.whenAt rfl .skip (.seq (.fail fun _ => rfl) (.recoverTo rfl)))
        (.seq (.whenAt rfl (.call _) .skip)
          (.seq (.whenAt rfl .skip (.seq (.fail fun _ => rfl) (.recoverTo rfl)))
            (.seq (.whenAt rfl (.call _) .skip) (.seq (.call _) .lineTrivia))))))))))

theorem neutral_parent : Neutral parent :=
  .inner (.seq .bump (.when (fun hs => by rw [hs.isAt .stringLit rfl, hs.atName]) .bump
    (.complain _)))

theorem neutral_attributeList : Neutral attributeList :=
  .inner (.call _)

theorem neutral_attributes : Neutral attributes := by
  refine .decide (fun a => ?_) fun hs => ?_
  · exact .ite (.seq .bump (.seq (.eat_skip rfl) (.call _)))
      (.ite (.seq .bump (.call _)) (.ite (.seq (.call _) (.call _)) .skip))
  · rw [hs.isAt .attributesKw rfl, hs.isAt .comma rfl, hs.isAt .ident rfl,
      hs.current.eq (f := Kind.isAttributeKeyword) rfl]

/-- The warning about an unknown key: neither of the keywords is one. -/
theorem neutral_attributeKey : Neutral (.look fun a =>
    match a.currentToken? with
    | some t => if t.kind == .ident then .complain (.unknownAttribute t.text) else .skip
    | none => .skip) := by
  refine .decide (fun a => ?_) fun {a b} hs => ?_
  · cases a.currentToken? with
    | none => exact .skip
    | some t => exact .ite (.complain _) .skip
  · have htoken := hs.nthToken? 0
    rw [Ahead.currentToken?, Ahead.currentToken?]
    generalize a.nthToken? 0 = x, b.nthToken? 0 = y at htoken
    cases htoken with
    | none => rfl
    | @some t u h =>
      rcases h with h | ⟨ht, hu⟩
      · simp only [show u.kind = t.kind from congrArg Leaf.kind h,
          show u.text = t.text from congrArg Leaf.text h]
      · simp only [show t.kind = .agendaGroupKw from congrArg Leaf.kind ht,
          show u.kind = .ruleflowGroupKw from congrArg Leaf.kind hu]
        rfl

theorem neutral_attributeValue : Neutral (.look fun a =>
    match a.current with
    | .stringLit => inner .attributeValue (Grammar.bump >> .call .stringList)
    | .intLit | .floatLit | .trueKw | .falseKw => inner .attributeValue Grammar.bump
    | .minus =>
      if a.nth 1 == .intLit || a.nth 1 == .floatLit then inner .attributeValue (.take 2)
      else .skip
    | .lParen => inner .attributeValue Grammar.balanced
    | _ => .skip) := by
  refine .decide (fun a => ?_) fun hs => ?_
  · split
    · exact .inner (.seq .bump (.call _))
    · exact .inner .bump
    · exact .inner .bump
    · exact .inner .bump
    · exact .inner .bump
    · exact .ite (.inner (.take 2)) .skip
    · exact .inner .balanced
    · exact .skip
  · rcases hs.current with h | ⟨ha, hb⟩
    · rw [h, hs.nextIs .intLit rfl, hs.nextIs .floatLit rfl]
    · simp only [ha, hb]

theorem neutral_attributeItem : Neutral attributeItem :=
  .inner (.seq neutral_attributeKey (.seq .bump neutral_attributeValue))

theorem neutral_stringList : Neutral stringList :=
  .when (fun hs => hs.isAt_nextIs _ _ rfl rfl) (.seq (.take 2) (.call _)) .skip

theorem neutral_whenClause : Neutral whenClause :=
  .inner (.seq .bump (.seq (.eat_skip rfl) (.call _)))

theorem neutral_thenClause : Neutral thenClause :=
  .inner (.seq .bump (.inner (.eat_skip rfl)))

theorem neutral_blockEnd {block : Block} : Neutral (blockEnd block) :=
  .eat rfl .skip (.whenAt rfl (.complain _) (.fail fun _ => rfl))

theorem neutral_parameterList : Neutral parameterList :=
  .inner (.seq .bump (.seq (.whenAt rfl .skip (.call _)) (.expect_skip rfl)))

theorem neutral_parameters : Neutral parameters :=
  .seq (.call _) (.eat rfl (.call _) .skip)

theorem neutral_parameter : Neutral parameter :=
  .inner (.seq (.call _) (.when (fun hs => hs.atName) .bump .skip))

end

/-! ## Conditions -/

section

open Conditions

theorem neutral_conditions : Neutral conditions := by
  refine .decide (fun a => ?_) fun hs => ?_
  · exact .ite .skip (.seq (.ite (.seq (.call _) (.eat_skip rfl)) (.fail fun _ => rfl))
      (.seq (.ifRecovering (.recoverTo rfl) .skip) (.call _)))
  · rw [hs.isAt .thenKw rfl, hs.isAt .eof rfl, hs.current.eq (f := Kind.isBoundaryKeyword) rfl,
      hs.current.eq (f := isStart) rfl]

theorem renamed_isOr {a b : Ahead} (h : a.Renamed b) : isOr b = isOr a := by
  rw [isOr, h.isAt .orKw rfl, h.isAt .pipePipe rfl, isOr]

theorem renamed_isAnd {a b : Ahead} (h : a.Renamed b) : isAnd b = isAnd a := by
  rw [isAnd, h.isAt .andKw rfl, h.isAt .ampAmp rfl, isAnd]

theorem neutral_lhsOr : Neutral lhsOr :=
  .innerGroup (.seq (.call _)
    (.when renamed_isOr (.enclose (.seq .bump (.seq (.call _) (.call _)))) .skip))

theorem neutral_lhsOrRest : Neutral lhsOrRest :=
  .when renamed_isOr (.seq .bump (.seq (.call _) (.call _))) .skip

theorem neutral_lhsAnd : Neutral lhsAnd :=
  .innerGroup (.seq (.call _)
    (.when renamed_isAnd (.enclose (.seq .bump (.seq (.call _) (.call _)))) .skip))

theorem neutral_lhsAndRest : Neutral lhsAndRest :=
  .when renamed_isAnd (.seq .bump (.seq (.call _) (.call _))) .skip

theorem neutral_lhsUnary : Neutral lhsUnary := by
  refine .look (fun a => ?_) fun hs => ?_
  · split
    · exact .inner (.seq .bump (.call _))
    · exact .inner (.seq .bump (.call _))
    · exact .inner (.seq .bump (.expect rfl (.seq (.call _) (.expect_skip rfl))))
    · exact .inner (.seq .bump (.expect rfl (.seq (.call _) (.expect_skip rfl))))
    · exact .call _
    · exact .call _
    · exact .call _
    · exact .call _
    · exact .complain _
  · rcases hs.current with h | ⟨ha, hb⟩
    · exact .of_eq (by rw [h])
    · simp only [ha, hb]
      exact .complain rfl

theorem neutral_forallItems : Neutral forallItems :=
  .when (fun hs => hs.current.eq (f := isStart) rfl)
    (.seq (.call _) (.ifRecovering .skip (.call _))) .skip

theorem neutral_prefixOperands : Neutral prefixOperands :=
  .when (fun hs => hs.current.eq (f := isStart) rfl)
    (.seq (.call _) (.ifRecovering .skip (.call _))) .skip

theorem neutral_lhsParen : Neutral lhsParen := by
  refine .inner (.seq .bump (.seq (.decide (fun a => ?_) fun hs => ?_) (.expect_skip rfl)))
  · split
    · exact .inner (.seq .bump (.call _))
    · exact .inner (.seq .bump (.call _))
    · exact .call _
  · rcases hs.current with h | ⟨ha, hb⟩
    · rw [h]
    · simp only [ha, hb]

theorem neutral_pattern : Neutral pattern :=
  .inner (.seq (.when (fun hs => hs.isAt_nextIs _ _ rfl rfl) (.call _) .skip)
    (.seq (.eat_skip rfl) (.seq (.call _)
      (.seq (.expect rfl (.seq (.whenAt rfl .skip (.call _)) .recoverInParens))
        (.seq (.expect_skip rfl)
          (.seq (.whenAt rfl (.call _) .skip) (.whenAt rfl (.call _) .skip)))))))

theorem neutral_constraints : Neutral constraints :=
  .seq (.call _) (.eat rfl (.call _) .skip)

theorem neutral_binding : Neutral binding :=
  .inner (.take 2)

theorem neutral_constraint : Neutral constraint :=
  .inner (.seq (.when (fun hs => by
    rw [hs.atName, hs.nextIs .colon rfl, hs.nextIs .colonEq rfl]) (.call _) .skip) (.call _))

theorem neutral_window : Neutral window :=
  .inner (.seq .bump (.expect rfl (.expect rfl
    (.seq .expectName (.whenAt rfl (.inner .balanced) .skip)))))

theorem neutral_source : Neutral source := by
  refine .inner (.seq .bump (.decide (fun a => ?_) fun hs => ?_))
  · split
    · exact .call _
    · exact .inner (.seq .bump (.expect rfl (.seq (.call _) (.expect_skip rfl))))
    · exact .inner (.seq .bump (.eat rfl .skip (.call _)))
    · exact .call _
  · rcases hs.current with h | ⟨ha, hb⟩
    · rw [h]
    · simp only [ha, hb]

theorem neutral_accumulate : Neutral accumulate :=
  .inner (.seq .bump (.expect rfl (.seq (.call _)
    (.seq (.eat rfl (.untilClose rfl) (.eat rfl (.untilClose rfl) .skip)) (.expect_skip rfl)))))

end

/-! ## Expressions -/

section

open Expressions

theorem neutral_operand {level : Level} {half : Bool} : Neutral (operand level half) := by
  cases level <;> exact .call _

theorem neutral_expr : Neutral expr :=
  .call _

theorem neutral_ternary : Neutral ternary :=
  .innerGroup (.seq (.call _) (.whenAt rfl
    (.enclose (.seq .bump (.seq (.call _) (.seq (.expect_skip rfl) (.call _))))) .skip))

theorem neutral_binary {level : Level} {half : Bool} : Neutral (binary level half) :=
  .innerGroup (.seq neutral_operand (.call _))

theorem neutral_binaryRest {level : Level} : Neutral (binaryRest level) :=
  .when (fun hs => hs.current.eq (f := fun k => level.operators.contains k) (by cases level <;> rfl))
    (.seq (.enclose (.seq .bump neutral_operand)) (.call _)) .skip

theorem neutral_operation : Neutral operation :=
  .look (fun _ => .seq (.call _) (.call _)) fun hs => .operation hs.operatorKind

theorem neutral_relational {half : Bool} : Neutral (relational half) :=
  .when (fun hs => by rw [hs.atHalfConstraint]) (.inner neutral_operation)
    (.innerGroup (.seq (.call _) (.call _)))

theorem neutral_relationalRest : Neutral relationalRest :=
  .when (fun hs => hs.atRelationalOperator)
    (.seq (.enclose neutral_operation) (.call _)) .skip

theorem neutral_operator : Neutral operator := by
  refine .decide (fun a => ?_) fun hs => ?_
  · exact .inner (.seq (.eat_skip rfl) (.seq (.eat rfl (.expect_skip rfl) .bump)
      (.ite (.whenAt rfl (.inner (.seq .bump (.seq (.untilClose rfl) (.expect_skip rfl)))) .skip)
        .skip)))
  · rw [hs.operatorKind.eq (f := (· == .ident)) rfl, hs.operatorKind.eq (f := (· == .strKw)) rfl]

theorem neutral_relationalRhs {op : Kind} : Neutral (relationalRhs op) :=
  .ite (.call _) (.when (fun hs => by rw [hs.isAt .lParen rfl]) (.call _) (.call _))

theorem neutral_unary : Neutral unary := by
  refine .decide (fun a => ?_) fun hs => ?_
  · split
    all_goals first
      | exact .inner (.seq .bump (.call _))
      | exact .ite (.inner (.seq .bump (.seq (.call _) (.seq (.expect_skip rfl) (.call _)))))
          (.call _)
  · rcases hs.current with h | ⟨ha, hb⟩
    · simp only [h, hs.atCast]
    · simp only [ha, hb, hs.atCast]

theorem neutral_postfixed : Neutral postfixed :=
  .innerGroup (.seq (.call _) (.call _))

theorem neutral_suffixes : Neutral suffixes := by
  have hname : Neutral (.seq (.take 2)
      (.seq (.whenAt .lParen (.seq (.call .argList) (.enclose .methodCall .skip))
        (.enclose .fieldAccess .skip)) (.call .suffixes))) :=
    .seq (.take 2) (.seq (.whenAt rfl (.seq (.call _) (.enclose .skip)) (.enclose .skip))
      (.call _))
  have hstep : Neutral (.seq .bump (.seq (.enclose .unaryExpr .skip) (.call .suffixes))) :=
    .seq .bump (.seq (.enclose .skip) (.call _))
  refine .decide (fun a => ?_) fun hs => ?_
  · split
    · exact .ite hname .skip
    · exact .ite hname .skip
    · exact .ite (.seq .bump (.seq (.call _) (.seq (.enclose .skip) (.call _)))) .skip
    · exact .seq .bump (.seq (.call _) (.seq (.expect_skip rfl) (.seq (.enclose .skip) (.call _))))
    · exact .ite hstep .skip
    · exact .ite hstep .skip
    · exact .skip
  · rcases hs.current with h | ⟨ha, hb⟩
    · simp only [h, hs.nextName, hs.adjacent]
    · simp only [ha, hb]

theorem neutral_primary : Neutral primary := by
  refine .decide (fun a => .ite (.inner .bump) (.ite ?_ ?_)) fun hs => ?_
  · exact .innerGroup (.seq (.node .bump) (.when (fun hs => by rw [hs.isAt .lParen rfl, hs.adjacent])
      (.seq (.call _) (.enclose .skip)) .skip))
  · split
    · exact .call _
    · exact .inner (.seq .bump (.seq (.call _) (.seq .recoverInParens (.expect_skip rfl))))
    · exact .call _
    · exact .complain _
  · rcases hs.current with h | ⟨ha, hb⟩
    · rw [h]
    -- Both keywords are names.
    · rw [ha, hb]
      rfl

theorem neutral_creation : Neutral creation := by
  refine .inner (.seq .bump (.seq (.call _) (.decide (fun a => ?_) fun hs => ?_)))
  · split
    · exact .call _
    · exact .seq (.call _) (.whenAt rfl .balanced .skip)
    · exact .complain _
  · rcases hs.current with h | ⟨ha, hb⟩
    · rw [h]
    · simp only [ha, hb]

theorem neutral_creationDims : Neutral creationDims :=
  .whenAt rfl (.seq .balanced (.call _)) .skip

theorem neutral_arrayInit : Neutral arrayInit :=
  .inner (.seq .bump (.seq (.whenAt rfl .skip (.call _)) (.expect_skip rfl)))

theorem neutral_arrayItems : Neutral arrayItems :=
  .seq (.call _) (.seq (.eat rfl (.call _) .skip) (.eat rfl (.call _) .skip))

theorem neutral_argList : Neutral argList :=
  .inner (.seq .bump (.seq (.whenAt rfl .skip (.call _)) (.seq .recoverInParens (.expect_skip rfl))))

theorem neutral_arguments : Neutral arguments :=
  .seq (.call _) (.eat rfl (.call _) .skip)

end

end Grammar

/-- No decision of a production tells the keywords apart. -/
theorem Production.neutral_body (p : Production) : Neutral p.body := by
  cases p with
  | compilationUnit => exact neutral_compilationUnit
  | declarations => exact neutral_declarations
  | packageDecl => exact neutral_packageDecl
  | importDecl => exact neutral_importDecl
  | globalDecl => exact neutral_globalDecl
  | functionDecl => exact neutral_functionDecl
  | queryDecl => exact neutral_queryDecl
  | declareDecl => exact neutral_declareDecl
  | ruleDecl => exact neutral_ruleDecl
  | strayTokens => exact neutral_strayTokens
  | supertypes => exact neutral_supertypes
  | annotations => exact neutral_annotations
  | annotated => exact neutral_annotated
  | fields => exact neutral_fields
  | field => exact neutral_field
  | declName => exact neutral_declName
  | parent => exact neutral_parent
  | attributeList => exact neutral_attributeList
  | attributes => exact neutral_attributes
  | «attribute» => exact neutral_attributeItem
  | stringList => exact neutral_stringList
  | whenClause => exact neutral_whenClause
  | thenClause => exact neutral_thenClause
  | blockEnd => exact neutral_blockEnd
  | parameterList => exact neutral_parameterList
  | parameters => exact neutral_parameters
  | parameter => exact neutral_parameter
  | qualifiedName => exact neutral_qualifiedName
  | nameParts => exact neutral_nameParts
  | typeRef => exact neutral_typeRef
  | dimensions => exact neutral_dimensions
  | conditions => exact neutral_conditions
  | lhsOr => exact neutral_lhsOr
  | lhsOrRest => exact neutral_lhsOrRest
  | lhsAnd => exact neutral_lhsAnd
  | lhsAndRest => exact neutral_lhsAndRest
  | lhsUnary => exact neutral_lhsUnary
  | forallItems => exact neutral_forallItems
  | prefixOperands => exact neutral_prefixOperands
  | lhsParen => exact neutral_lhsParen
  | pattern => exact neutral_pattern
  | constraints => exact neutral_constraints
  | binding => exact neutral_binding
  | constraint => exact neutral_constraint
  | window => exact neutral_window
  | source => exact neutral_source
  | accumulate => exact neutral_accumulate
  | expr => exact neutral_expr
  | ternary => exact neutral_ternary
  | binary => exact neutral_binary
  | binaryRest => exact neutral_binaryRest
  | relational => exact neutral_relational
  | relationalRest => exact neutral_relationalRest
  | operator => exact neutral_operator
  | relationalRhs => exact neutral_relationalRhs
  | unary => exact neutral_unary
  | postfixed => exact neutral_postfixed
  | suffixes => exact neutral_suffixes
  | primary => exact neutral_primary
  | creation => exact neutral_creation
  | creationDims => exact neutral_creationDims
  | arrayInit => exact neutral_arrayInit
  | arrayItems => exact neutral_arrayItems
  | argList => exact neutral_argList
  | arguments => exact neutral_arguments

/-! ## Renamed tokens are read alike -/

namespace Grammar

/-- Renamed tokens are read as elements of the same outline. -/
theorem Reads.renamed {g : Rule} {s t s' : Reading} (h : Reads body g s t) (hg : Neutral g)
    (hs : s.Renamed s') : ∃ t', Reads body g s' t' ∧ t.Renamed t' := by
  induction h generalizing s' with
  | skip => exact ⟨s', .skip s', hs⟩
  | trivia => exact ⟨_, .trivia s', hs.takeTrivia⟩
  | lineTrivia => exact ⟨_, .lineTrivia s', hs.takeLineTrivia⟩
  | take n => exact ⟨_, .take n s', hs.bumps n⟩
  | seq _ _ ihf ihg => cases hg with
    | seq hf hg =>
      obtain ⟨t', ht', ht⟩ := ihf hf hs
      obtain ⟨u', hu', hu⟩ := ihg hg ht
      exact ⟨u', .seq ht' hu', hu⟩
  | look _ ih => cases hg with
    | look hchoose same =>
      obtain ⟨t', ht', ht⟩ := ih (hchoose _) hs
      obtain ⟨u, hu, hahead, hgroup, hrecovering⟩ := same hs.ahead _ _ ht'
      exact ⟨u, .look hu, by rw [hahead]; exact ht.ahead, by rw [hgroup, ht.group],
        by rw [hrecovering, ht.recovering]⟩
  | @ifRecovering yes no s t _ ih => cases hg with
    | ifRecovering hyes hno =>
      obtain ⟨t', ht', ht⟩ := ih (.ite hyes hno) hs
      exact ⟨t', .ifRecovering (by rw [hs.recovering]; exact ht'), ht⟩
  | recovered => exact ⟨_, .recovered s', hs.ahead, hs.group, rfl⟩
  | complain c => exact ⟨_, .complain c s', hs.complain rfl⟩
  | @call p s _ _ ih =>
    have hentered : Reading.Renamed { s with entered := s.entered + 1 }
        { s' with entered := s'.entered + 1 } := ⟨hs.ahead, hs.group, hs.recovering⟩
    obtain ⟨t', ht', ht⟩ := ih (neutral_body p) hentered
    exact ⟨t', .call ht', ht⟩
  | @group _ s _ _ ih => cases hg with
    | group hg =>
      have hempty : Reading.Renamed { s with group := [] } { s' with group := [] } :=
        ⟨hs.ahead, rfl, hs.recovering⟩
      obtain ⟨t', ht', ht⟩ := ih hg hempty
      refine ⟨_, .group ht', ht.ahead, ?_, ht.recovering⟩
      rw [List.map_append, List.map_append, ht.group, hs.group]
  | enclose _ ih => cases hg with
    | enclose hg =>
      obtain ⟨t', ht', ht⟩ := ih hg hs
      refine ⟨_, .enclose ht', ht.ahead, ?_, ht.recovering⟩
      simp only [List.map_cons, List.map_nil, Element.outline_node, List.map_reverse, ht.group]

end Grammar

end RuleLang
