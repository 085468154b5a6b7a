import RuleLang.Proofs.Grammar.Mends

/-!
# The productions keep reading mended

Every production makes its error nodes by one of the two ways of recovering, and only where reading
is out of step. The exception are tokens that start no declaration: they are complained about and made
an error node at once.

## Main statements

* `Production.mends_body` — the bodies of the productions keep a state of reading mended.
* `Grammar.Reads.mended` — so does a production below a file.
-/

namespace RuleLang

open Grammar Production Element

namespace Grammar

variable {sure : Bool}

/-! ## Declarations -/

section

open Declarations

theorem mends_nameParts : Mends sure nameParts :=
  .when (.seq (.take 2) (.call rfl)) .skip

theorem mends_qualifiedName : Mends sure qualifiedName :=
  .when (.inner rfl (.seq .bump (.call rfl))) .fail

theorem mends_dimensions : Mends sure dimensions :=
  .when (.seq (.take 2) (.call rfl)) .skip

theorem mends_typeRef : Mends sure typeRef :=
  .when (.inner rfl (.seq (.call rfl)
    (.seq (.whenAt (.look fun _ => .take _) .skip) (.call rfl)))) .fail

theorem mends_packageDecl : Mends sure packageDecl :=
  .node rfl (.seq .bump (.seq (.call rfl) (.seq .eat_skip .lineTrivia)))

theorem mends_importDecl : Mends sure importDecl :=
  .node rfl (.seq .bump (.seq (.eat .skip .eat_skip) (.seq (.call rfl)
    (.seq (.when (.take 2) .skip) (.seq .eat_skip .lineTrivia)))))

theorem mends_globalDecl : Mends sure globalDecl :=
  .node rfl (.seq .bump (.seq (.call rfl) (.seq .expectName (.seq .eat_skip .lineTrivia))))

theorem mends_functionDecl : Mends sure functionDecl :=
  .node rfl (.seq .bump (.seq (.call rfl) (.seq .expectName
    (.seq (.whenAt (.call rfl) (.complain _)) (.seq (.whenAt (.inner rfl .balanced) (.complain_seq rfl .recoverTo)) .lineTrivia)))))

theorem mends_queryDecl : Mends sure queryDecl :=
  .node rfl (.seq .bump (.seq (.call rfl) (.seq (.whenAt (.call rfl) .skip)
    (.seq (.call rfl) (.seq (.call rfl) .lineTrivia)))))

theorem mends_declareDecl : Mends sure declareDecl :=
  .node rfl (.seq .bump (.seq .eat_skip (.seq (.call rfl)
    (.seq (.eat (.seq (.call rfl) (.call rfl)) .skip) (.seq (.call rfl) (.seq (.call rfl) (.seq (.call rfl) .lineTrivia)))))))

theorem mends_supertypes : Mends sure supertypes :=
  .eat (.seq (.call rfl) (.call rfl)) .skip

theorem mends_annotations : Mends sure annotations :=
  .whenAt (.seq (.call rfl) (.call rfl)) .skip

theorem mends_annotated : Mends sure annotated :=
  .inner rfl (.seq .bump (.seq (.call rfl) (.whenAt .balanced .skip)))

theorem mends_fields : Mends sure fields :=
  .look fun _ => .ite .skip (.ite (.seq (.call rfl) (.call rfl))
    (.fail_seq (fun _ => rfl) (.seq .recoverTo (.call rfl))))

theorem mends_field : Mends sure field :=
  .inner rfl (.seq (.take 2) (.seq (.call rfl) (.seq (.eat (.call rfl) .skip) (.call rfl))))

theorem mends_ruleDecl : Mends sure ruleDecl :=
  .node rfl (.seq .bump (.seq (.call rfl) (.seq (.whenAt (.call rfl) .skip) (.seq (.call rfl)
    (.seq (.when (.call rfl) .skip)
      (.seq (.whenAt .skip (.fail_seq (fun _ => rfl) .recoverTo))
        (.seq (.whenAt (.call rfl) .skip)
          (.seq (.whenAt .skip (.fail_seq (fun _ => rfl) .recoverTo))
            (.seq (.whenAt (.call rfl) .skip) (.seq (.call rfl) .lineTrivia))))))))))

theorem mends_declName {role : Role} : Mends sure (declName role) :=
  .when (.inner rfl .bump) .fail

theorem mends_parent : Mends sure parent :=
  .inner rfl (.seq .bump (.when .bump (.complain _)))

theorem mends_attributeList : Mends sure attributeList :=
  .inner rfl (.call rfl)

theorem mends_attributes : Mends sure attributes :=
  .look fun _ => .ite (.seq .bump (.seq .eat_skip (.call rfl)))
    (.ite (.seq .bump (.call rfl)) (.ite (.seq (.call rfl) (.call rfl)) .skip))

theorem mends_attributeItem : Mends sure attributeItem := by
  refine .inner rfl (.seq (.look fun a => ?_) (.seq .bump (.look fun a => ?_)))
  · cases a.currentToken? with
    | none => exact .skip
    | some t => exact .ite (.complain _) .skip
  · split
    · exact .inner rfl (.seq .bump (.call rfl))
    · exact .inner rfl .bump
    · exact .inner rfl .bump
    · exact .inner rfl .bump
    · exact .inner rfl .bump
    · exact .ite (.inner rfl (.take 2)) .skip
    · exact .inner rfl .balanced
    · exact .skip

theorem mends_stringList : Mends sure stringList :=
  .when (.seq (.take 2) (.call rfl)) .skip

theorem mends_whenClause : Mends sure whenClause :=
  .inner rfl (.seq .bump (.seq .eat_skip (.call rfl)))

theorem mends_thenClause : Mends sure thenClause :=
  .inner rfl (.seq .bump (.inner rfl .eat_skip))

theorem mends_blockEnd {block : Block} : Mends sure (blockEnd block) :=
  .eat .skip (.whenAt (.complain _) .fail)

theorem mends_parameterList : Mends sure parameterList :=
  .inner rfl (.seq .bump (.seq (.whenAt .skip (.call rfl)) .expect_skip))

theorem mends_parameters : Mends sure parameters :=
  .seq (.call rfl) (.eat (.call rfl) .skip)

theorem mends_parameter : Mends sure parameter :=
  .inner rfl (.seq (.call rfl) (.when .bump .skip))

end

/-! ## Conditions -/

section

open Conditions

theorem mends_conditions : Mends sure conditions :=
  .look fun _ => .ite .skip (.seq (.ite (.seq (.call rfl) .eat_skip) .fail)
    (.seq (.ifRecovering .recoverTo .skip) (.call rfl)))

theorem mends_lhsOr : Mends sure lhsOr :=
  .innerGroup (.seq (.call rfl)
    (.when (.enclose rfl (.seq .bump (.seq (.call rfl) (.call rfl)))) .skip))

theorem mends_lhsOrRest : Mends sure lhsOrRest :=
  .when (.seq .bump (.seq (.call rfl) (.call rfl))) .skip

theorem mends_lhsAnd : Mends sure lhsAnd :=
  .innerGroup (.seq (.call rfl)
    (.when (.enclose rfl (.seq .bump (.seq (.call rfl) (.call rfl)))) .skip))

theorem mends_lhsAndRest : Mends sure lhsAndRest :=
  .when (.seq .bump (.seq (.call rfl) (.call rfl))) .skip

theorem mends_lhsUnary : Mends sure lhsUnary := by
  refine .look fun a => ?_
  split
  · exact .inner rfl (.seq .bump (.call rfl))
  · exact .inner rfl (.seq .bump (.call rfl))
  · exact .inner rfl (.seq .bump (.expect (.seq (.call rfl) .expect_skip)))
  · exact .inner rfl (.seq .bump (.expect (.seq (.call rfl) .expect_skip)))
  · exact (.call rfl)
  · exact (.call rfl)
  · exact (.call rfl)
  · exact (.call rfl)
  · exact .complain _

theorem mends_forallItems : Mends sure forallItems :=
  .when (.seq (.call rfl) (.ifRecovering .skip (.call rfl))) .skip

theorem mends_prefixOperands : Mends sure prefixOperands :=
  .when (.seq (.call rfl) (.ifRecovering .skip (.call rfl))) .skip

theorem mends_lhsParen : Mends sure lhsParen := by
  refine .inner rfl (.seq .bump (.seq (.look fun a => ?_) .expect_skip))
  split
  · exact .inner rfl (.seq .bump (.call rfl))
  · exact .inner rfl (.seq .bump (.call rfl))
  · exact (.call rfl)

theorem mends_pattern : Mends sure pattern :=
  .inner rfl (.seq (.when (.call rfl) .skip) (.seq .eat_skip (.seq (.call rfl)
    (.seq (.expect (.seq (.whenAt .skip (.call rfl)) .recoverInParens))
      (.seq .expect_skip (.seq (.whenAt (.call rfl) .skip) (.whenAt (.call rfl) .skip)))))))

theorem mends_constraints : Mends sure constraints :=
  .seq (.call rfl) (.eat (.call rfl) .skip)

theorem mends_binding : Mends sure binding :=
  .inner rfl (.take 2)

theorem mends_constraint : Mends sure constraint :=
  .inner rfl (.seq (.when (.call rfl) .skip) (.call rfl))

theorem mends_window : Mends sure window :=
  .inner rfl (.seq .bump (.expect (.expect (.seq .expectName
    (.whenAt (.inner rfl .balanced) .skip)))))

theorem mends_source : Mends sure source := by
  refine .inner rfl (.seq .bump (.look fun a => ?_))
  split
  · exact (.call rfl)
  · exact .inner rfl (.seq .bump (.expect (.seq (.call rfl) .expect_skip)))
  · exact .inner rfl (.seq .bump (.eat .skip (.call rfl)))
  · exact (.call rfl)

theorem mends_accumulate : Mends sure accumulate :=
  .inner rfl (.seq .bump (.expect (.seq (.call rfl)
    (.seq (.eat .untilClose (.eat .untilClose .skip)) .expect_skip))))

end

/-! ## Expressions -/

section

open Expressions

theorem mends_operand {level : Level} {half : Bool} : Mends sure (operand level half) := by
  cases level <;> exact (.call rfl)

theorem mends_expr : Mends sure expr :=
  (.call rfl)

theorem mends_ternary : Mends sure ternary :=
  .innerGroup (.seq (.call rfl) (.whenAt
    (.enclose rfl (.seq .bump (.seq (.call rfl) (.seq .expect_skip (.call rfl))))) .skip))

theorem mends_binary {level : Level} {half : Bool} : Mends sure (binary level half) :=
  .innerGroup (.seq mends_operand (.call rfl))

theorem mends_binaryRest {level : Level} : Mends sure (binaryRest level) :=
  .when (.seq (.enclose rfl (.seq .bump mends_operand)) (.call rfl)) .skip

theorem mends_operation : Mends sure operation :=
  .look fun _ => .seq (.call rfl) (.call rfl)

theorem mends_relational {half : Bool} : Mends sure (relational half) :=
  .when (.inner rfl mends_operation) (.innerGroup (.seq (.call rfl) (.call rfl)))

theorem mends_relationalRest : Mends sure relationalRest :=
  .when (.seq (.enclose rfl mends_operation) (.call rfl)) .skip

theorem mends_operator : Mends sure operator :=
  .look fun _ => .inner rfl (.seq .eat_skip (.seq (.eat .expect_skip .bump)
    (.ite (.whenAt (.inner rfl (.seq .bump (.seq .untilClose .expect_skip))) .skip) .skip)))

theorem mends_relationalRhs {op : Kind} : Mends sure (relationalRhs op) :=
  .ite (.call rfl) (.when (.call rfl) (.call rfl))

theorem mends_unary : Mends sure unary := by
  refine .look fun a => ?_
  split
  all_goals first
    | exact .inner rfl (.seq .bump (.call rfl))
    | exact .ite (.inner rfl (.seq .bump (.seq (.call rfl) (.seq .expect_skip (.call rfl)))))
        (.call rfl)

theorem mends_postfixed : Mends sure postfixed :=
  .innerGroup (.seq (.call rfl) (.call rfl))

theorem mends_suffixes : Mends sure suffixes := by
  have hname : Mends sure (.seq (.take 2)
      (.seq (.whenAt .lParen (.seq (.call .argList) (.enclose .methodCall .skip))
        (.enclose .fieldAccess .skip)) (.call .suffixes))) :=
    .seq (.take 2) (.seq (.whenAt (.seq (.call rfl) (.enclose rfl .skip)) (.enclose rfl .skip))
      (.call rfl))
  have hstep : Mends sure (.seq .bump (.seq (.enclose .unaryExpr .skip) (.call .suffixes))) :=
    .seq .bump (.seq (.enclose rfl .skip) (.call rfl))
  refine .look fun a => ?_
  split
  · exact .ite hname .skip
  · exact .ite hname .skip
  · exact .ite (.seq .bump (.seq (.call rfl) (.seq (.enclose rfl .skip) (.call rfl)))) .skip
  · exact .seq .bump (.seq (.call rfl) (.seq .expect_skip (.seq (.enclose rfl .skip) (.call rfl))))
  · exact .ite hstep .skip
  · exact .ite hstep .skip
  · exact .skip

theorem mends_primary : Mends sure primary := by
  refine .look fun a => .ite (.inner rfl .bump) (.ite ?_ ?_)
  · exact .innerGroup (.seq (.node rfl .bump) (.when (.seq (.call rfl) (.enclose rfl .skip)) .skip))
  · split
    · exact (.call rfl)
    · exact .inner rfl (.seq .bump (.seq (.call rfl) (.seq .recoverInParens .expect_skip)))
    · exact (.call rfl)
    · exact .complain _

theorem mends_creation : Mends sure creation := by
  refine .inner rfl (.seq .bump (.seq (.call rfl) (.look fun a => ?_)))
  split
  · exact (.call rfl)
  · exact .seq (.call rfl) (.whenAt .balanced .skip)
  · exact .complain _

theorem mends_creationDims : Mends sure creationDims :=
  .whenAt (.seq .balanced (.call rfl)) .skip

theorem mends_arrayInit : Mends sure arrayInit :=
  .inner rfl (.seq .bump (.seq (.whenAt .skip (.call rfl)) .expect_skip))

theorem mends_arrayItems : Mends sure arrayItems :=
  .seq (.call rfl) (.seq (.eat (.call rfl) .skip) (.eat (.call rfl) .skip))

theorem mends_argList : Mends sure argList :=
  .inner rfl (.seq .bump (.seq (.whenAt .skip (.call rfl)) (.seq .recoverInParens .expect_skip)))

theorem mends_arguments : Mends sure arguments :=
  .seq (.call rfl) (.eat (.call rfl) .skip)

end

end Grammar

/-- The bodies of the productions below a file keep a state of reading mended. -/
theorem Production.mends_body {p : Production} (hp : p.isInside = true) : Mends false p.body := by
  cases p with
  | compilationUnit | declarations | strayTokens => cases hp
  | packageDecl => exact mends_packageDecl
  | importDecl => exact mends_importDecl
  | globalDecl => exact mends_globalDecl
  | functionDecl => exact mends_functionDecl
  | queryDecl => exact mends_queryDecl
  | declareDecl => exact mends_declareDecl
  | ruleDecl => exact mends_ruleDecl
  | supertypes => exact mends_supertypes
  | annotations => exact mends_annotations
  | annotated => exact mends_annotated
  | fields => exact mends_fields
  | field => exact mends_field
  | declName => exact mends_declName
  | parent => exact mends_parent
  | attributeList => exact mends_attributeList
  | attributes => exact mends_attributes
  | «attribute» => exact mends_attributeItem
  | stringList => exact mends_stringList
  | whenClause => exact mends_whenClause
  | thenClause => exact mends_thenClause
  | blockEnd => exact mends_blockEnd
  | parameterList => exact mends_parameterList
  | parameters => exact mends_parameters
  | parameter => exact mends_parameter
  | qualifiedName => exact mends_qualifiedName
  | nameParts => exact mends_nameParts
  | typeRef => exact mends_typeRef
  | dimensions => exact mends_dimensions
  | conditions => exact mends_conditions
  | lhsOr => exact mends_lhsOr
  | lhsOrRest => exact mends_lhsOrRest
  | lhsAnd => exact mends_lhsAnd
  | lhsAndRest => exact mends_lhsAndRest
  | lhsUnary => exact mends_lhsUnary
  | forallItems => exact mends_forallItems
  | prefixOperands => exact mends_prefixOperands
  | lhsParen => exact mends_lhsParen
  | pattern => exact mends_pattern
  | constraints => exact mends_constraints
  | binding => exact mends_binding
  | constraint => exact mends_constraint
  | window => exact mends_window
  | source => exact mends_source
  | accumulate => exact mends_accumulate
  | expr => exact mends_expr
  | ternary => exact mends_ternary
  | binary => exact mends_binary
  | binaryRest => exact mends_binaryRest
  | relational => exact mends_relational
  | relationalRest => exact mends_relationalRest
  | operator => exact mends_operator
  | relationalRhs => exact mends_relationalRhs
  | unary => exact mends_unary
  | postfixed => exact mends_postfixed
  | suffixes => exact mends_suffixes
  | primary => exact mends_primary
  | creation => exact mends_creation
  | creationDims => exact mends_creationDims
  | arrayInit => exact mends_arrayInit
  | arrayItems => exact mends_arrayItems
  | argList => exact mends_argList
  | arguments => exact mends_arguments

namespace Grammar

theorem mending_enter (depth : Nat) : Mending (enter body depth) := by
  induction depth with
  | zero => exact ⟨reads_of_enter, fun _ h => by cases h⟩
  | succ depth ih =>
    refine ⟨reads_of_enter, fun {p first start s t} hp h hs => ?_⟩
    exact mends_body hp _ ih (s := { s with entered := s.entered + 1 }) (by simp)
      ⟨hs.limit, hs.ordered, hs.covers, hs.reported, hs.group⟩ h

variable {first start : Nat} {s t : Reading}

/-- What a production below a file reads is mended. -/
theorem Reads.mended {p : Production} (h : Reads body (.call p) s t) (hp : p.isInside = true)
    (hs : s.Mended first start) : t.Mended first start := by
  obtain ⟨depth, hd⟩ := exists_enter_of_reads h
  exact (mending_enter depth).mended hp hd hs

end Grammar

end RuleLang
