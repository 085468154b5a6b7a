import RuleLang.Proofs.Grammar.Nesting
import RuleLang.Proofs.Grammar.Reads
import RuleLang.Proofs.Grammar.Sight

/-!
# Steady instructions

The decisions of an instruction are the same where the same is seen. The exception are raw stretches
that run up to the end of the input: no token is left after them, so they end no declaration.

## Main definitions

* `Grammar.RunsOut` — reading by an instruction leaves no significant token.
* `Grammar.Steady` — the decisions of an instruction are the same where the same is seen.

## Main statements

* `Production.steady_body` — the bodies of all productions are steady.
-/

namespace RuleLang

open Grammar Production

/-! ## Running out of tokens -/

namespace Ahead

theorem current_append_eof {taken : List Token} {a : Ahead} (hk : ∀ t ∈ taken, t.kind ≠ .eof)
    (h : current (taken ++ a) = .eof) : a.current = .eof := by
  induction taken with
  | nil => exact h
  | cons t ts ih =>
    by_cases ht : t.isTrivia = true
    · rw [List.cons_append, current_cons_trivia ht] at h
      exact ih (fun u hu => hk u (List.mem_cons_of_mem t hu)) h
    · rw [List.cons_append, current_eq_head (by simpa using ht)] at h
      exact absurd h (hk t List.mem_cons_self)

theorem current_after_one {a : Ahead} (h : a.current ≠ .eof) : (a.after 1).current = a.nth 1 := by
  obtain ⟨t, ts, ha, hk, ht⟩ := afterTrivia_eq_cons h
  have he : (t.kind == .eof) = false := by simpa [hk] using h
  simp only [after, ha, afterToken, he, Bool.false_eq_true, if_false]
  rw [current, nth, nth, nth_succ_of_afterTrivia ha ht]

end Ahead

namespace Grammar

/-- At the end of the input nothing is taken any more. -/
theorem Reads.current_eof {g : Rule} {s t : Reading} (h : Reads body g s t)
    (hs : s.ahead.current = .eof) : t.ahead.current = .eof := by
  obtain ⟨taken, ha, hk, -⟩ := h.keeps
  exact Ahead.current_append_eof hk (ha ▸ hs)

/-- Reading by an instruction leaves no significant token. -/
def RunsOut (g : Rule) (a : Ahead) : Prop :=
  ∀ s t, s.ahead = a → Reads body g s t → t.ahead.current = .eof

theorem runsOut_take {n : Nat} {a : Ahead} (h : (a.after n).current = .eof) :
    RunsOut (.take n) a := by
  intro s t ha hr
  cases hr
  rw [Reading.ahead_bumps, ha, h]

theorem RunsOut.seq {f g : Rule} {a : Ahead} (h : RunsOut f a) : RunsOut (.seq f g) a := by
  intro s t ha hr
  cases hr with
  | seq hf hg => exact hg.current_eof (h _ _ ha hf)

theorem RunsOut.inner {k : Kind} {g : Rule} {a : Ahead} (h : RunsOut g a.afterTrivia) :
    RunsOut (.inner k g) a := by
  intro s t ha hr
  cases hr with
  | seq htrivia hgroup =>
    cases htrivia
    cases hgroup with
    | group henclose => cases henclose with
      | @enclose _ _ _ u hg =>
        exact h { s.takeTrivia with group := [] } u (by rw [← ha]; exact s.ahead_takeTrivia) hg

theorem RunsOut.look {choose : Ahead → Rule} {a : Ahead} (h : RunsOut (choose a) a) :
    RunsOut (.look choose) a := by
  intro s t ha hr
  cases hr with
  | look hr => exact h s t ha (ha ▸ hr)

theorem RunsOut.call {p : Production} {a : Ahead} (h : RunsOut (body p) a) :
    RunsOut (.call p) a := by
  intro s t ha hr
  cases hr with
  | call hr => exact h { s with entered := s.entered + 1 } t ha hr

/-- After a lone `not` there is no operator. -/
theorem runsOut_operation {op : Kind} {a : Ahead} (hnot : a.isAt .notKw = true)
    (hnext : a.nth 1 = .eof) :
    RunsOut (.seq (.call .operator) (.call (.relationalRhs op))) a := by
  have hcur : a.current ≠ .eof := ne_eof_of_isAt hnot rfl
  have htake : (a.afterTrivia.after 1).current = .eof := by
    rw [Ahead.current_after_one (by simpa using hcur), Ahead.nth_afterTrivia, hnext]
  have heat : RunsOut (Grammar.eat .notKw) a.afterTrivia := by
    refine .look ?_
    have : a.afterTrivia.isAt .notKw = true := by simpa [Ahead.isAt] using hnot
    simp only [this, if_true]
    exact (runsOut_take htake).seq
  exact RunsOut.seq (.call (.look (.inner (.seq heat))))

/-! ## Steady instructions -/

/-- The decisions of an instruction are the same where the same is seen. -/
inductive Steady (exact : Prop) : Rule → Prop
  | skip : Steady exact .skip
  | trivia : Steady exact .trivia
  | lineTrivia : Steady exact .lineTrivia
  | take (n : Nat) : Steady exact (.take n)
  | recovered : Steady exact .recovered
  | complain (c : Complaint) : Steady exact (.complain c)
  | call (p : Production) : Steady exact (.call p)
  | seq {f g : Rule} (hf : Steady exact f) (hg : Steady exact g) : Steady exact (.seq f g)
  | ifRecovering {f g : Rule} (hf : Steady exact f) (hg : Steady exact g) :
    Steady exact (.ifRecovering f g)
  | group {g : Rule} (h : Steady exact g) : Steady exact (.group g)
  | enclose {k : Kind} {g : Rule} (h : Steady exact g) : Steady exact (.enclose k g)
  | look {choose : Ahead → Rule} (h : ∀ a, Steady exact (choose a))
    (same : ∀ {a b}, Ahead.Sees exact a b → choose b = choose a ∨ ¬exact ∧ RunsOut (choose a) a) :
    Steady exact (.look choose)

namespace Steady

variable {exact : Prop} {f g otherwise : Rule}

theorem decide {choose : Ahead → Rule} (h : ∀ a, Steady exact (choose a))
    (same : ∀ {a b}, Ahead.Sees exact a b → choose b = choose a) :
    Steady exact (.look choose) :=
  .look h fun hs => .inl (same hs)

theorem node {k : Kind} (h : Steady exact g) : Steady exact (.node k g) :=
  .group (.enclose h)

theorem inner {k : Kind} (h : Steady exact g) : Steady exact (.inner k g) :=
  .seq .trivia (.node h)

theorem innerGroup (h : Steady exact g) : Steady exact (.innerGroup g) :=
  .seq .trivia (.group h)

theorem bump : Steady exact .bump := .take 1

theorem ite {c : Prop} [Decidable c] (hf : Steady exact f) (hg : Steady exact g) :
    Steady exact (if c then f else g) := by
  split
  · exact hf
  · exact hg

theorem when {test : Ahead → Bool}
    (same : ∀ {a b}, Ahead.Sees exact a b → test b = test a)
    (hg : Steady exact g) (ho : Steady exact otherwise) : Steady exact (.when test g otherwise) :=
  .decide (fun _ => .ite hg ho) fun hs => by rw [same hs]

theorem whenAt {k : Kind} (hg : Steady exact g) (ho : Steady exact otherwise) :
    Steady exact (.whenAt k g otherwise) :=
  .when (fun hs => hs.isAt k) hg ho

theorem eat {k : Kind} (hg : Steady exact g) (ho : Steady exact otherwise) :
    Steady exact (.eat k g otherwise) :=
  .whenAt (.seq .bump hg) ho

theorem eat_skip {k : Kind} : Steady exact (.eat k) :=
  .eat .skip .skip

theorem fail {c : Kind → Complaint} : Steady exact (.fail c) :=
  .decide (fun _ => .complain _) fun hs => by rw [hs.current]

theorem expect {k : Kind} (hg : Steady exact g) : Steady exact (.expect k g) :=
  .eat hg .fail

theorem expect_skip {k : Kind} : Steady exact (.expect k) :=
  .expect .skip

theorem expectName {role : Role} : Steady exact (.expectName role) :=
  .when (fun hs => hs.atName) .bump .fail

theorem balanced : Steady exact .balanced := by
  refine .look (fun a => .seq (.take _) (.ite .skip (.complain _))) fun hs => ?_
  rcases hs.balanced with h | ⟨hexact, h⟩
  · exact .inl (by rw [h])
  · exact .inr ⟨hexact, (runsOut_take h).seq⟩

theorem untilClose {close : Kind} : Steady exact (.untilClose close) := by
  refine .look (fun a => .take _) fun hs => ?_
  rcases hs.untilClose close with h | ⟨hexact, h⟩
  · exact .inl (by rw [h])
  · exact .inr ⟨hexact, runsOut_take h⟩

theorem typeArguments : Steady exact (.look fun a => .take (a.typeArguments 0)) := by
  refine .look (fun a => .take _) fun hs => ?_
  rcases hs.typeArguments with h | ⟨hexact, h⟩
  · exact .inl (by rw [h])
  · exact .inr ⟨hexact, runsOut_take h⟩

theorem wrapError {n : Nat} : Steady exact (.wrapError n) :=
  .ite .skip (.inner (.take n))

theorem recoverTo {stops : List Kind} : Steady exact (.recoverTo stops) := by
  have hstops : ∀ k ∈ Kind.eof :: Kind.declarationStarts,
      (k == .eof || stops.contains k || k.isBoundaryKeyword) = true := by
    have hall : ∀ k ∈ Kind.eof :: Kind.declarationStarts,
        k = .eof ∨ k.isBoundaryKeyword = true := by decide
    intro k hk
    rcases hall k hk with rfl | h
    · rfl
    · rw [h, Bool.or_true]
  refine .seq (.decide (fun _ => .wrapError) fun hs => by rw [hs.countUntil hstops])
    (.when (fun hs => by rw [hs.current]) .recovered .skip)

theorem recoverInParens : Steady exact .recoverInParens := by
  refine .ifRecovering (.decide (fun a => ?_) fun hs => by rw [hs.beforeCloseParen]) .skip
  cases a.beforeCloseParen 0 with
  | none => exact .skip
  | some n => exact .seq .wrapError .recovered

end Steady

end Grammar

/-! ## The productions are steady -/

open Grammar

namespace Ahead.Sees

variable {exact : Prop} {a b : Ahead}

theorem nextName (h : Sees exact a b) : (b.nth 1).isName = (a.nth 1).isName :=
  h.next_eq (f := Kind.isName) (by decide)

theorem nextIs (h : Sees exact a b) (k : Kind)
    (hk : k ∉ Kind.eof :: Kind.declarationStarts) : (b.nth 1 == k) = (a.nth 1 == k) := by
  refine h.next_eq (f := (· == k)) fun j hj => ?_
  have hjk : j ≠ k := fun he => hk (he ▸ List.mem_cons_of_mem _ hj)
  have heof : Kind.eof ≠ k := fun he => hk (he ▸ List.mem_cons_self)
  rw [beq_eq_false_iff_ne.2 hjk, beq_eq_false_iff_ne.2 heof]

/-- A token and the one after it. -/
theorem isAt_nextIs (h : Sees exact a b) (j k : Kind)
    (hk : k ∉ Kind.eof :: Kind.declarationStarts) :
    (b.isAt j && b.nth 1 == k) = (a.isAt j && a.nth 1 == k) := by
  rw [h.isAt, h.nextIs k hk]

end Ahead.Sees

namespace Grammar

variable {exact : Prop}

/-! ## Declarations -/

section

open Declarations

theorem steady_nameParts : Steady exact nameParts :=
  .when (fun hs => by rw [hs.isAt, hs.nextName]) (.seq (.take 2) (.call _)) .skip

theorem steady_qualifiedName : Steady exact qualifiedName :=
  .when (fun hs => hs.atName) (.inner (.seq .bump (.call _))) .fail

theorem steady_dimensions : Steady exact dimensions :=
  .when (fun hs => hs.isAt_nextIs _ _ (by decide)) (.seq (.take 2) (.call _)) .skip

theorem steady_typeRef : Steady exact typeRef :=
  .when (fun hs => hs.atName)
    (.inner (.seq (.call _) (.seq (.whenAt .typeArguments .skip) (.call _)))) .fail

theorem steady_compilationUnit : Steady exact compilationUnit :=
  .node (.seq (.call _) .trivia)

theorem steady_declarations : Steady exact declarations := by
  refine .seq .recovered (.decide (fun a => ?_) fun hs => by simp only [hs.current])
  split
  · exact .skip
  all_goals exact .seq (.call _) (.call _)

theorem steady_strayTokens : Steady exact strayTokens := by
  refine .node (.seq .fail (.seq .bump (.seq (.decide (fun _ => .take _) fun hs => ?_) .lineTrivia)))
  rw [hs.countUntil (by decide)]

theorem steady_packageDecl : Steady exact packageDecl :=
  .node (.seq .bump (.seq (.call _) (.seq .eat_skip .lineTrivia)))

theorem steady_importDecl : Steady exact importDecl :=
  .node (.seq .bump (.seq (.eat .skip .eat_skip) (.seq (.call _)
    (.seq (.when (fun hs => hs.isAt_nextIs _ _ (by decide)) (.take 2) .skip)
      (.seq .eat_skip .lineTrivia)))))

theorem steady_globalDecl : Steady exact globalDecl :=
  .node (.seq .bump (.seq (.call _) (.seq .expectName (.seq .eat_skip .lineTrivia))))

theorem steady_functionDecl : Steady exact functionDecl :=
  .node (.seq .bump (.seq (.call _) (.seq .expectName (.seq (.whenAt (.call _) (.complain _))
    (.seq (.whenAt (.inner .balanced) (.seq (.complain _) .recoverTo)) .lineTrivia)))))

theorem steady_queryDecl : Steady exact queryDecl :=
  .node (.seq .bump (.seq (.call _) (.seq (.whenAt (.call _) .skip)
    (.seq (.call _) (.seq (.call _) .lineTrivia)))))

theorem steady_supertypes : Steady exact supertypes :=
  .eat (.seq (.call _) (.call _)) .skip

theorem steady_annotations : Steady exact annotations :=
  .whenAt (.seq (.call _) (.call _)) .skip

theorem steady_annotated : Steady exact annotated :=
  .inner (.seq .bump (.seq (.call _) (.whenAt .balanced .skip)))

theorem steady_declareDecl : Steady exact declareDecl :=
  .node (.seq .bump (.seq .eat_skip (.seq (.call _) (.seq (.eat (.seq (.call _) (.call _)) .skip)
    (.seq (.call _) (.seq (.call _) (.seq (.call _) .lineTrivia)))))))

theorem steady_fields : Steady exact fields := by
  refine .decide (fun a => ?_) fun hs => ?_
  · exact .ite .skip (.ite (.seq (.call _) (.call _)) (.seq .fail (.seq .recoverTo (.call _))))
  · rw [hs.current, hs.atName, hs.nextIs _ (by decide)]

theorem steady_field : Steady exact field :=
  .inner (.seq (.take 2) (.seq (.call _) (.seq (.eat (.call _) .skip) (.call _))))

theorem steady_declName {role : Role} : Steady exact (declName role) :=
  .when (fun hs => by rw [hs.isAt, hs.atName]) (.inner .bump) .fail

theorem steady_ruleDecl : Steady exact ruleDecl :=
  .node (.seq .bump (.seq (.call _) (.seq (.whenAt (.call _) .skip) (.seq (.call _)
    (.seq (.when (fun hs => by rw [hs.current, hs.isAt]) (.call _) .skip)
      (.seq (.whenAt .skip (.seq .fail .recoverTo)) (.seq (.whenAt (.call _) .skip)
        (.seq (.whenAt .skip (.seq .fail .recoverTo)) (.seq (.whenAt (.call _) .skip)
          (.seq (.call _) .lineTrivia))))))))))

theorem steady_parent : Steady exact parent :=
  .inner (.seq .bump (.when (fun hs => by rw [hs.isAt, hs.atName]) .bump (.complain _)))

theorem steady_attributeList : Steady exact attributeList :=
  .inner (.call _)

theorem steady_attributes : Steady exact attributes := by
  refine .decide (fun a => ?_) fun hs => by simp only [hs.current, hs.isAt]
  exact .ite (.seq .bump (.seq .eat_skip (.call _)))
    (.ite (.seq .bump (.call _)) (.ite (.seq (.call _) (.call _)) .skip))

/-- The warning about an unknown key. -/
theorem steady_attributeKey : Steady exact (.look fun a =>
    match a.currentToken? with
    | some t => if t.kind == .ident then .complain (.unknownAttribute t.text) else .skip
    | none => .skip) := by
  refine .decide (fun a => ?_) fun {a b} hs => ?_
  · cases a.currentToken? with
    | none => exact .skip
    | some t => exact .ite (.complain _) .skip
  · have hleaf := hs.leaf
    cases ha : a.currentToken? with
    | none =>
      rw [ha, Option.map_none, Option.map_eq_none_iff] at hleaf
      simp only [hleaf]
    | some t =>
      rw [ha, Option.map_some, Option.map_eq_some_iff] at hleaf
      obtain ⟨u, hu, hut⟩ := hleaf
      simp only [hu, Ahead.kind_eq_of_leaf_eq hut, Ahead.text_eq_of_leaf_eq hut]

theorem steady_attributeValue : Steady exact (.look fun a =>
    match a.current with
    | .stringLit => inner .attributeValue (Grammar.bump >> .call .stringList)
    | .intLit | .floatLit | .trueKw | .falseKw => inner .attributeValue Grammar.bump
    | .minus =>
      if a.nth 1 == .intLit || a.nth 1 == .floatLit then inner .attributeValue (.take 2)
      else .skip
    | .lParen => inner .attributeValue Grammar.balanced
    | _ => .skip) := by
  refine .decide (fun a => ?_) fun hs => ?_
  · split
    · exact .inner (.seq .bump (.call _))
    · exact .inner .bump
    · exact .inner .bump
    · exact .inner .bump
    · exact .inner .bump
    · exact .ite (.inner (.take 2)) .skip
    · exact .inner .balanced
    · exact .skip
  · rw [hs.current, hs.nextIs _ (by decide), hs.nextIs _ (by decide)]

theorem steady_attributeItem : Steady exact attributeItem :=
  .inner (.seq steady_attributeKey (.seq .bump steady_attributeValue))

theorem steady_stringList : Steady exact stringList :=
  .when (fun hs => hs.isAt_nextIs _ _ (by decide)) (.seq (.take 2) (.call _)) .skip

theorem steady_whenClause : Steady exact whenClause :=
  .inner (.seq .bump (.seq .eat_skip (.call _)))

theorem steady_thenClause : Steady exact thenClause :=
  .inner (.seq .bump (.inner .eat_skip))

theorem steady_blockEnd {block : Block} : Steady exact (blockEnd block) :=
  .eat .skip (.whenAt (.complain _) .fail)

theorem steady_parameterList : Steady exact parameterList :=
  .inner (.seq .bump (.seq (.whenAt .skip (.call _)) .expect_skip))

theorem steady_parameters : Steady exact parameters :=
  .seq (.call _) (.eat (.call _) .skip)

theorem steady_parameter : Steady exact parameter :=
  .inner (.seq (.call _) (.when (fun hs => hs.atName) .bump .skip))

end

/-! ## Conditions -/

section

open Conditions

theorem steady_conditions : Steady exact conditions := by
  refine .decide (fun a => ?_) fun hs => by simp only [hs.current, hs.isAt]
  exact .ite .skip (.seq (.ite (.seq (.call _) .eat_skip) .fail)
    (.seq (.ifRecovering .recoverTo .skip) (.call _)))

theorem sees_isOr {a b : Ahead} (h : Ahead.Sees exact a b) : isOr b = isOr a := by
  rw [isOr, h.isAt, h.isAt, isOr]

theorem sees_isAnd {a b : Ahead} (h : Ahead.Sees exact a b) : isAnd b = isAnd a := by
  rw [isAnd, h.isAt, h.isAt, isAnd]

theorem steady_lhsOr : Steady exact lhsOr :=
  .innerGroup (.seq (.call _)
    (.when sees_isOr (.enclose (.seq .bump (.seq (.call _) (.call _)))) .skip))

theorem steady_lhsOrRest : Steady exact lhsOrRest :=
  .when sees_isOr (.seq .bump (.seq (.call _) (.call _))) .skip

theorem steady_lhsAnd : Steady exact lhsAnd :=
  .innerGroup (.seq (.call _)
    (.when sees_isAnd (.enclose (.seq .bump (.seq (.call _) (.call _)))) .skip))

theorem steady_lhsAndRest : Steady exact lhsAndRest :=
  .when sees_isAnd (.seq .bump (.seq (.call _) (.call _))) .skip

theorem steady_lhsUnary : Steady exact lhsUnary := by
  refine .decide (fun a => ?_) fun hs => by simp only [hs.current]
  split
  · exact .inner (.seq .bump (.call _))
  · exact .inner (.seq .bump (.call _))
  · exact .inner (.seq .bump (.expect (.seq (.call _) .expect_skip)))
  · exact .inner (.seq .bump (.expect (.seq (.call _) .expect_skip)))
  · exact .call _
  · exact .call _
  · exact .call _
  · exact .call _
  · exact .complain _

theorem steady_forallItems : Steady exact forallItems :=
  .when (fun hs => by rw [hs.current]) (.seq (.call _) (.ifRecovering .skip (.call _))) .skip

theorem steady_prefixOperands : Steady exact prefixOperands :=
  .when (fun hs => by rw [hs.current]) (.seq (.call _) (.ifRecovering .skip (.call _))) .skip

theorem steady_lhsParen : Steady exact lhsParen := by
  refine .inner (.seq .bump (.seq (.decide (fun a => ?_) fun hs => by simp only [hs.current])
    .expect_skip))
  split
  · exact .inner (.seq .bump (.call _))
  · exact .inner (.seq .bump (.call _))
  · exact .call _

theorem steady_pattern : Steady exact pattern :=
  .inner (.seq (.when (fun hs => hs.isAt_nextIs _ _ (by decide)) (.call _) .skip)
    (.seq .eat_skip (.seq (.call _)
      (.seq (.expect (.seq (.whenAt .skip (.call _)) .recoverInParens))
        (.seq .expect_skip (.seq (.whenAt (.call _) .skip) (.whenAt (.call _) .skip)))))))

theorem steady_constraints : Steady exact constraints :=
  .seq (.call _) (.eat (.call _) .skip)

theorem steady_binding : Steady exact binding :=
  .inner (.take 2)

theorem steady_constraint : Steady exact constraint :=
  .inner (.seq (.when (fun hs => by
    rw [hs.atName, hs.nextIs _ (by decide), hs.nextIs _ (by decide)]) (.call _) .skip) (.call _))

theorem steady_window : Steady exact window :=
  .inner (.seq .bump (.expect (.expect (.seq .expectName (.whenAt (.inner .balanced) .skip)))))

theorem steady_source : Steady exact source := by
  refine .inner (.seq .bump (.decide (fun a => ?_) fun hs => by simp only [hs.current]))
  split
  · exact .call _
  · exact .inner (.seq .bump (.expect (.seq (.call _) .expect_skip)))
  · exact .inner (.seq .bump (.eat .skip (.call _)))
  · exact .call _

theorem steady_accumulate : Steady exact accumulate :=
  .inner (.seq .bump (.expect (.seq (.call _)
    (.seq (.eat .untilClose (.eat .untilClose .skip)) .expect_skip))))

end

/-! ## Expressions -/

section

open Expressions

theorem sees_atRelationalOperator {a b : Ahead} (h : Ahead.Sees exact a b) :
    atRelationalOperator b = atRelationalOperator a := by
  have hstart : isOperandStart (b.nth 1) = isOperandStart (a.nth 1) := h.next_eq (by decide)
  have hword : (b.nth 1).isWordOperator = (a.nth 1).isWordOperator :=
    h.next_eq (f := Kind.isWordOperator) (by decide)
  simp only [atRelationalOperator, h.current, hstart, hword, h.nextIs .inKw (by decide),
    h.nextIs .ident (by decide), h.nextIs .hashHash (by decide)]

theorem sees_atHalfConstraint {a b : Ahead} (h : Ahead.Sees exact a b) :
    atHalfConstraint b = atHalfConstraint a := by
  have hword : (b.nth 1).isWordOperator = (a.nth 1).isWordOperator :=
    h.next_eq (f := Kind.isWordOperator) (by decide)
  simp only [atHalfConstraint, h.current, hword, h.nextIs .inKw (by decide),
    h.nextIs .hashHash (by decide)]

/-- The kind of the operator is seen, or nothing but `not` is left. -/
theorem sees_operatorKind {a b : Ahead} (h : Ahead.Sees exact a b) :
    operatorKind b = operatorKind a ∨
      ¬exact ∧ a.isAt .notKw = true ∧ a.nth 1 = .eof ∧ (b.nth 1).isDeclarationStart = true := by
  rcases h.next with hnext | ⟨hexact, hnext, hstart⟩
  · left
    rw [operatorKind, operatorKind, h.isAt, h.current, hnext]
  · cases hnot : a.isAt .notKw with
    | true => exact .inr ⟨hexact, rfl, hnext, hstart⟩
    | false =>
      left
      simp only [operatorKind, h.isAt, h.current, hnot]
      rfl

theorem steady_operand {level : Level} {half : Bool} : Steady exact (operand level half) := by
  cases level <;> exact .call _

theorem steady_expr : Steady exact expr :=
  .call _

theorem steady_ternary : Steady exact ternary :=
  .innerGroup (.seq (.call _)
    (.whenAt (.enclose (.seq .bump (.seq (.call _) (.seq .expect_skip (.call _))))) .skip))

theorem steady_binary {level : Level} {half : Bool} : Steady exact (binary level half) :=
  .innerGroup (.seq steady_operand (.call _))

theorem steady_binaryRest {level : Level} : Steady exact (binaryRest level) :=
  .when (fun hs => by rw [hs.current])
    (.seq (.enclose (.seq .bump steady_operand)) (.call _)) .skip

theorem steady_operation : Steady exact operation := by
  refine .look (fun _ => .seq (.call _) (.call _)) fun hs => ?_
  rcases sees_operatorKind hs with h | ⟨hexact, hnot, hnext, -⟩
  · exact .inl (by rw [h])
  · exact .inr ⟨hexact, runsOut_operation hnot hnext⟩

theorem steady_relational {half : Bool} : Steady exact (relational half) :=
  .when (fun hs => by rw [sees_atHalfConstraint hs]) (.inner steady_operation)
    (.innerGroup (.seq (.call _) (.call _)))

theorem steady_relationalRest : Steady exact relationalRest :=
  .when sees_atRelationalOperator (.seq (.enclose steady_operation) (.call _)) .skip

theorem steady_operator : Steady exact operator := by
  refine .decide (fun a => ?_) fun {a b} hs => ?_
  · exact .inner (.seq .eat_skip (.seq (.eat .expect_skip .bump)
      (.ite (.whenAt (.inner (.seq .bump (.seq .untilClose .expect_skip))) .skip) .skip)))
  · have hname : (operatorKind b == .ident || operatorKind b == .strKw) =
        (operatorKind a == .ident || operatorKind a == .strKw) := by
      have hall : ∀ k ∈ Kind.declarationStarts, ((if k == .hashHash then Kind.ident else k) == .ident ||
          (if k == .hashHash then Kind.ident else k) == .strKw) = false := by decide
      rcases sees_operatorKind hs with h | ⟨-, hnot, hnext, hstart⟩
      · rw [h]
      · simp only [operatorKind, hs.isAt, hnot, hnext, if_true,
          hall _ (Kind.mem_declarationStarts hstart)]
        rfl
    rw [hname]

theorem steady_relationalRhs {op : Kind} : Steady exact (relationalRhs op) :=
  .ite (.call _) (.when (fun hs => by rw [hs.isAt]) (.call _) (.call _))

theorem steady_unary : Steady exact unary := by
  refine .decide (fun a => ?_) fun hs => by simp only [hs.current, hs.atCast]
  split
  all_goals first
    | exact .inner (.seq .bump (.call _))
    | exact .ite (.inner (.seq .bump (.seq (.call _) (.seq .expect_skip (.call _))))) (.call _)

theorem steady_postfixed : Steady exact postfixed :=
  .innerGroup (.seq (.call _) (.call _))

theorem steady_suffixes : Steady exact suffixes := by
  have hname : Steady exact (.seq (.take 2)
      (.seq (.whenAt .lParen (.seq (.call .argList) (.enclose .methodCall .skip))
        (.enclose .fieldAccess .skip)) (.call .suffixes))) :=
    .seq (.take 2) (.seq (.whenAt (.seq (.call _) (.enclose .skip)) (.enclose .skip)) (.call _))
  have hstep : Steady exact (.seq .bump (.seq (.enclose .unaryExpr .skip) (.call .suffixes))) :=
    .seq .bump (.seq (.enclose .skip) (.call _))
  refine .decide (fun a => ?_) fun hs => by
    simp only [hs.current, hs.nextName, hs.adjacent]
  split
  · exact .ite hname .skip
  · exact .ite hname .skip
  · exact .ite (.seq .bump (.seq (.call _) (.seq (.enclose .skip) (.call _)))) .skip
  · exact .seq .bump (.seq (.call _) (.seq .expect_skip (.seq (.enclose .skip) (.call _))))
  · exact .ite hstep .skip
  · exact .ite hstep .skip
  · exact .skip

theorem steady_primary : Steady exact primary := by
  refine .decide (fun a => ?_) fun hs => by simp only [hs.current]
  refine .ite (.inner .bump) (.ite ?_ ?_)
  · exact .innerGroup (.seq (.node .bump) (.when (fun hs => by rw [hs.isAt, hs.adjacent])
      (.seq (.call _) (.enclose .skip)) .skip))
  · split
    · exact .call _
    · exact .inner (.seq .bump (.seq (.call _) (.seq .recoverInParens .expect_skip)))
    · exact .call _
    · exact .complain _

theorem steady_creation : Steady exact creation := by
  refine .inner (.seq .bump (.seq (.call _)
    (.decide (fun a => ?_) fun hs => by simp only [hs.current])))
  split
  · exact .call _
  · exact .seq (.call _) (.whenAt .balanced .skip)
  · exact .complain _

theorem steady_creationDims : Steady exact creationDims :=
  .whenAt (.seq .balanced (.call _)) .skip

theorem steady_arrayInit : Steady exact arrayInit :=
  .inner (.seq .bump (.seq (.whenAt .skip (.call _)) .expect_skip))

theorem steady_arrayItems : Steady exact arrayItems :=
  .seq (.call _) (.seq (.eat (.call _) .skip) (.eat (.call _) .skip))

theorem steady_argList : Steady exact argList :=
  .inner (.seq .bump (.seq (.whenAt .skip (.call _)) (.seq .recoverInParens .expect_skip)))

theorem steady_arguments : Steady exact arguments :=
  .seq (.call _) (.eat (.call _) .skip)

end

end Grammar

/-- The bodies of all productions are steady. -/
theorem Production.steady_body (exact : Prop) (p : Production) : Steady exact p.body := by
  cases p with
  | compilationUnit => exact steady_compilationUnit
  | declarations => exact steady_declarations
  | packageDecl => exact steady_packageDecl
  | importDecl => exact steady_importDecl
  | globalDecl => exact steady_globalDecl
  | functionDecl => exact steady_functionDecl
  | queryDecl => exact steady_queryDecl
  | declareDecl => exact steady_declareDecl
  | ruleDecl => exact steady_ruleDecl
  | strayTokens => exact steady_strayTokens
  | supertypes => exact steady_supertypes
  | annotations => exact steady_annotations
  | annotated => exact steady_annotated
  | fields => exact steady_fields
  | field => exact steady_field
  | declName => exact steady_declName
  | parent => exact steady_parent
  | attributeList => exact steady_attributeList
  | attributes => exact steady_attributes
  | «attribute» => exact steady_attributeItem
  | stringList => exact steady_stringList
  | whenClause => exact steady_whenClause
  | thenClause => exact steady_thenClause
  | blockEnd => exact steady_blockEnd
  | parameterList => exact steady_parameterList
  | parameters => exact steady_parameters
  | parameter => exact steady_parameter
  | qualifiedName => exact steady_qualifiedName
  | nameParts => exact steady_nameParts
  | typeRef => exact steady_typeRef
  | dimensions => exact steady_dimensions
  | conditions => exact steady_conditions
  | lhsOr => exact steady_lhsOr
  | lhsOrRest => exact steady_lhsOrRest
  | lhsAnd => exact steady_lhsAnd
  | lhsAndRest => exact steady_lhsAndRest
  | lhsUnary => exact steady_lhsUnary
  | forallItems => exact steady_forallItems
  | prefixOperands => exact steady_prefixOperands
  | lhsParen => exact steady_lhsParen
  | pattern => exact steady_pattern
  | constraints => exact steady_constraints
  | binding => exact steady_binding
  | constraint => exact steady_constraint
  | window => exact steady_window
  | source => exact steady_source
  | accumulate => exact steady_accumulate
  | expr => exact steady_expr
  | ternary => exact steady_ternary
  | binary => exact steady_binary
  | binaryRest => exact steady_binaryRest
  | relational => exact steady_relational
  | relationalRest => exact steady_relationalRest
  | operator => exact steady_operator
  | relationalRhs => exact steady_relationalRhs
  | unary => exact steady_unary
  | postfixed => exact steady_postfixed
  | suffixes => exact steady_suffixes
  | primary => exact steady_primary
  | creation => exact steady_creation
  | creationDims => exact steady_creationDims
  | arrayInit => exact steady_arrayInit
  | arrayItems => exact steady_arrayItems
  | argList => exact steady_argList
  | arguments => exact steady_arguments

end RuleLang
