import RuleLang.Grammar.Rules
import RuleLang.Proofs.Grammar.Admits

/-!
# The productions admit marks

Marks are put before operators, and an operator stands between operands. So it has to be told where
productions start and end: an operator may come after names, types, and operands up to sums, and the
productions that go on with such a thing start where an operator might. Elsewhere no mark can come.

A production is shown to admit marks under the assumption that the productions that it enters do.
Those for operators themselves are left out here.

## Main definitions

* `Production.entry`, `Production.exit` — what is known of the tokens before a production starts and
  before it ends.
* `Grammar.AllAdmitted` — all productions admit marks.

## Main statements

* `Grammar.Admitted.body` — the productions that are not concerned with operators.
-/

namespace RuleLang

open Grammar Ahead

/-- Sums and products: operands of comparisons. -/
def Level.isTight : Level → Bool
  | .additive | .multiplicative => true
  | _ => false

namespace Production

/-- What is known of the token before the end of a production. -/
def exit : Production → Before
  | .qualifiedName | .nameParts | .typeRef | .dimensions | .relationalRhs _ | .unary | .postfixed
  | .suffixes | .primary | .creation | .creationDims | .arrayInit | .argList => .operand
  | .binary level _ | .binaryRest level => if level.isTight then .operand else .other
  | _ => .other

/-- What is known of the token before a production. -/
def entry : Production → Before
  | .nameParts | .dimensions | .suffixes | .creationDims | .relationalRest => .operand
  | .binaryRest level => if level.isTight then .operand else .other
  | _ => .other

/-- There are no operators in what the production reads. -/
def isStill : Production → Bool
  | .qualifiedName | .nameParts | .typeRef | .dimensions | .parameterList | .parameters
  | .parameter => true
  | _ => false

/-- A production that decides on operators. -/
def meetsOperators : Production → Bool
  | .operator | .relational _ | .relationalRest | .unary => true
  | _ => false

end Production

namespace Grammar

/-- An instruction reads the marked tokens as the elements with marks. -/
abbrev Admitted (custom : List Char → Bool) (enters : Production → Point → Point → Prop)
    (still : Prop) (q p : Before) (a : Ahead) (g : Rule) : Prop :=
  Admits Production.body enters (Element.prefixed custom) still q p a g

/-- All productions do so, up to the one for operators. -/
def AllAdmitted (custom : List Char → Bool) (enters : Production → Point → Point → Prop) : Prop :=
  ∀ c a, c ≠ .operator →
    Admitted custom enters (c.isStill = true) c.exit c.entry a (.call c)

namespace Admitted

variable {custom : List Char → Bool} {enters : Production → Point → Point → Prop} {still : Prop}
  {q p : Before} {a : Ahead} {g : Rule}

theorem keepsTokens : Carries.KeepsTokens (Element.prefixed custom) :=
  Element.prefixed_token

theorem keepsTrivia : Carries.KeepsTrivia (Element.prefixed custom) :=
  fun k t _ => Element.prefixed_token k t

/-- Nodes that are no operators and may hold some. -/
theorem prefixed_plain {k : Kind} (h : (k == .operator || k.hidesOperators) = false)
    (cs : List Element) : Element.prefixed custom (.node k cs) =
      .node k (cs.map (Element.prefixed custom)) := by
  obtain ⟨hk, h⟩ := Bool.or_eq_false_iff.1 h
  exact Element.prefixed_node (beq_eq_false_iff_ne.1 hk) h cs

theorem node {k : Kind} (hk : (k == .operator || k.hidesOperators) = false)
    (h : Admitted custom enters still q p a g) :
    Admitted custom enters still q p a (node k g) :=
  Admits.node (prefixed_plain hk) h

theorem enclose {k : Kind} (hk : (k == .operator || k.hidesOperators) = false)
    (h : Admitted custom enters still q p a g) :
    Admitted custom enters still q p a (.enclose k g) :=
  Admits.enclose (prefixed_plain hk) h

theorem inner {k : Kind} (hk : (k == .operator || k.hidesOperators) = false)
    (h : Admitted custom enters still q p a.afterTrivia g) :
    Admitted custom enters still q p a (inner k g) :=
  Admits.inner keepsTrivia (prefixed_plain hk) h

theorem innerGroup (h : Admitted custom enters still q p a.afterTrivia g) :
    Admitted custom enters still q p a (innerGroup g) :=
  Admits.innerGroup keepsTrivia h

theorem bump : Admitted custom enters still .other p a Grammar.bump :=
  Admits.bump keepsTokens

theorem bump_end (h : a.current.endsOperand = true) :
    Admitted custom enters still .operand p a Grammar.bump :=
  Admits.bump_end keepsTokens h

theorem eat {k : Kind} (hk : (Kind.hashHash == k) = (Kind.ident == k)) {otherwise : Rule}
    (h : ∀ b, Admitted custom enters still q .other b g)
    (ho : Admitted custom enters still q p a otherwise) :
    Admitted custom enters still q p a (eat k g otherwise) :=
  Admits.eat keepsTokens hk h ho

theorem eat_skip {k : Kind} (hk : (Kind.hashHash == k) = (Kind.ident == k)) :
    Admitted custom enters still .other .other a (Grammar.eat k) :=
  eat hk (fun _ => .skip) .skip

theorem expect {k : Kind} (hk : (Kind.hashHash == k) = (Kind.ident == k))
    (h : ∀ b, Admitted custom enters still q .other b g) :
    Admitted custom enters still q p a (expect k g) :=
  Admits.expect keepsTokens hk h

theorem expect_end {k : Kind} (hk : (Kind.hashHash == k) = (Kind.ident == k))
    (hend : k.endsOperand = true) :
    Admitted custom enters still .operand p a (Grammar.expect k) :=
  Admits.expect_end keepsTokens hk hend

/-! ## Calls -/

variable (ih : AllAdmitted custom enters)

include ih

theorem call (c : Production) (hc : (c == .operator) = false) :
    Admitted custom enters False c.exit c.entry a (.call c) :=
  (ih c a (beq_eq_false_iff_ne.1 hc)).weaken (.inl rfl) (.inl rfl) False.elim

/-- A production that reads no operators. -/
theorem call_still (c : Production) (hc : c.isStill = true) :
    Admitted custom enters still c.exit c.entry a (.call c) := by
  refine (ih c a ?_).weaken (.inl rfl) (.inl rfl) fun _ => hc
  rintro rfl
  cases hc

/-! ## Names and types -/

theorem nameParts : Admitted custom enters still .operand .operand a Declarations.nameParts := by
  refine .when ?_ (fun h => ?_) fun _ => .skip
  · exact .next_two (f := (· == .dot)) (.inr ⟨rfl, rfl⟩)
      (.inl fun k hk => by rw [beq_iff_eq.1 hk]; exact ⟨nofun, rfl⟩)
  · obtain ⟨hdot, hname⟩ := Bool.and_eq_true_iff.1 h
    refine .seq (.take_two_end keepsTokens ?_ ?_) fun _ => call_still ih .nameParts rfl
    · rw [show a.current = .dot from beq_iff_eq.1 hdot]
      decide
    · simp [Kind.endsOperand, hname]

theorem qualifiedName :
    Admitted custom enters still .operand .other a Declarations.qualifiedName := by
  refine .when (.here Kind.isName) (fun h => inner rfl ?_) fun _ => .fail fun _ => rfl
  refine .seq (bump_end ?_) fun _ => call_still ih .nameParts rfl
  rw [current_afterTrivia]
  simp [Kind.endsOperand, show a.current.isName = true from h]

theorem dimensions : Admitted custom enters still .operand .operand a Declarations.dimensions := by
  refine .when ?_ (fun h => ?_) fun _ => .skip
  · exact .next_two (f := (· == .lBracket)) (g := (· == .rBracket)) (.inr ⟨rfl, rfl⟩) (.inr rfl)
  · obtain ⟨hopen, hclose⟩ := Bool.and_eq_true_iff.1 h
    refine .seq (.take_two_end keepsTokens ?_ ?_) fun _ => call_still ih .dimensions rfl
    · rw [show a.current = .lBracket from beq_iff_eq.1 hopen]
      decide
    · rw [show a.nth 1 = .rBracket from beq_iff_eq.1 hclose]
      rfl

theorem typeRef : Admitted custom enters still .operand .other a Declarations.typeRef := by
  refine .when (.here Kind.isName) (fun _ => inner rfl ?_) fun _ => .fail fun _ => rfl
  refine .seq (call_still ih .qualifiedName rfl) fun b => ?_
  refine .seq (.whenAt rfl (fun h => .typeArguments keepsTokens h) .skip) fun _ => ?_
  exact call_still ih .dimensions rfl

/-! ## Expressions -/

theorem ternary : Admitted custom enters False .other .other a Expressions.ternary := by
  refine innerGroup (.seq (call ih (.binary .logicalOr false) rfl) fun _ => ?_)
  refine .whenAt rfl (fun _ => enclose rfl (.seq bump fun _ => ?_)) .skip
  exact .seq (call ih .expr rfl) fun _ => .seq (expect rfl fun _ => .skip) fun _ =>
    call ih .expr rfl

theorem operand (level : Level) (half : Bool) :
    Admitted custom enters False (Production.binary level half).exit .other a
      (Expressions.operand level half) := by
  cases level <;> exact call ih _ rfl

theorem binary (level : Level) (half : Bool) :
    Admitted custom enters False (Production.binary level half).exit .other a
      (Expressions.binary level half) :=
  innerGroup (.seq (operand ih level half) fun _ => call ih (.binaryRest level) rfl)

theorem binaryRest (level : Level) :
    Admitted custom enters False (Production.binaryRest level).exit
      (Production.binaryRest level).entry a (Expressions.binaryRest level) := by
  refine .when (.current (f := fun k => level.operators.contains k) (by cases level <;> rfl))
    (fun _ => ?_) fun _ => .skip
  refine .seq (enclose rfl (.seq bump fun _ => operand ih level level.admitsHalf)) fun _ => ?_
  exact call ih (.binaryRest level) rfl

theorem relationalRhs (op : Kind) :
    Admitted custom enters False .operand .other a (Expressions.relationalRhs op) := by
  unfold Expressions.relationalRhs
  split
  · exact call ih .typeRef rfl
  · refine .when (.map₂ (.const (op == .inKw)) (.isAt rfl) and) (fun _ => ?_) fun _ => ?_
    · exact call ih .argList rfl
    · exact call ih (.binary .additive false) rfl

theorem postfixed : Admitted custom enters False .operand .other a Expressions.postfixed :=
  innerGroup (.seq (call ih .primary rfl) fun _ => call ih .suffixes rfl)

theorem suffixes : Admitted custom enters False .operand .operand a Expressions.suffixes := by
  have hfield (hne : a.current ≠ .eof) (hname : (a.nth 1).isName = true) :
      Admitted custom enters False .operand .operand a
        (.seq (.take 2) (.seq (.whenAt .lParen (.seq (.call .argList) (.enclose .methodCall .skip))
          (.enclose .fieldAccess .skip)) (.call .suffixes))) := by
    refine .seq (.take_two_end keepsTokens hne (by simp [Kind.endsOperand, hname])) fun _ => ?_
    refine .seq (.whenAt rfl (fun _ => ?_) (enclose rfl .skip)) fun _ => call ih .suffixes rfl
    exact (Admits.seq (call ih .argList rfl) fun _ => enclose rfl .skip).from_other
  have hcast : Admitted custom enters False .operand .operand a
      (.seq .bump (.seq (.call .qualifiedName) (.seq (.enclose .inlineCast .skip)
        (.call .suffixes)))) :=
    .seq bump fun _ => .seq (call ih .qualifiedName rfl) fun _ =>
      .seq (enclose rfl .skip) fun _ => call ih .suffixes rfl
  have hindex : Admitted custom enters False .operand .operand a
      (.seq .bump (.seq (.call .expr) (.seq (.expect .rBracket) (.seq (.enclose .indexExpr .skip)
        (.call .suffixes))))) :=
    .seq bump fun _ => .seq (call ih .expr rfl) fun _ => .seq (expect_end rfl rfl) fun _ =>
      .seq (enclose rfl .skip) fun _ => call ih .suffixes rfl
  have hstep (hend : a.current.endsOperand = true) : Admitted custom enters False .operand .operand a
      (.seq .bump (.seq (.enclose .unaryExpr .skip) (.call .suffixes))) :=
    .seq (bump_end hend) fun _ => .seq (enclose rfl .skip) fun _ => call ih .suffixes rfl
  refine .look_blind (fun a b h => ?_) ?_
  · rcases h.current with hcur | ⟨ha, hb, -⟩
    · by_cases hk : a.current = .dot ∨ a.current = .bangDot ∨ a.current = .hash
      · rw [h.next_eq hcur (by rcases hk with hk | hk | hk <;> rw [hk] <;> decide)
          (by rcases hk with hk | hk | hk <;> rw [hk] <;> rfl), hcur, h.adjacent]
      · rw [not_or, not_or] at hk
        obtain ⟨hdot, hbang, hhash⟩ := hk
        simp only [hcur, h.adjacent]
        split <;> simp_all
    · simp only [ha, hb]
  · split
    · rename_i hk
      split
      · exact hfield (current_ne_eof hk rfl) ‹_›
      · exact .skip
    · rename_i hk
      split
      · exact hfield (current_ne_eof hk rfl) ‹_›
      · exact .skip
    · split
      · exact hcast
      · exact .skip
    · exact hindex
    · rename_i hk
      split
      · exact hstep (by rw [hk]; rfl)
      · exact .skip
    · rename_i hk
      split
      · exact hstep (by rw [hk]; rfl)
      · exact .skip
    · exact .skip

theorem primary : Admitted custom enters False .operand .other a Expressions.primary := by
  refine .look_here (fun b hb => by simp only [hb]) ?_
  split
  · rename_i hk
    exact inner rfl (bump_end (by rw [current_afterTrivia]; simp [Kind.endsOperand, hk]))
  split
  · rename_i hk
    refine innerGroup (.seq (node rfl (bump_end ?_)) fun _ => .when ?_ (fun _ => ?_) fun _ => .skip)
    · rw [current_afterTrivia]
      simp [Kind.endsOperand, hk]
    · exact .map₂ (.isAt rfl) .adjacent and
    · exact (Admits.seq (call ih .argList rfl) fun _ => enclose rfl .skip).from_other
  split
  · exact call ih .creation rfl
  · refine inner rfl (.seq bump fun _ => .seq (call ih .expr rfl) fun _ => ?_)
    exact .seq .recoverInParens fun _ => expect_end rfl rfl
  · exact call ih .arrayInit rfl
  · exact .of_rejects (rejects_complain rfl)

theorem creationDims :
    Admitted custom enters False .operand .operand a Expressions.creationDims := by
  refine .whenAt rfl (fun h => ?_) .skip
  refine .seq (.balanced keepsTokens ?_) fun _ => call ih .creationDims rfl
  rw [h]
  rfl

theorem creation : Admitted custom enters False .operand .other a Expressions.creation := by
  refine inner rfl (.seq bump fun _ => .seq (call ih .typeRef rfl) fun b => ?_)
  refine .look_blind (fun a b h => ?_) ?_
  · rcases h.current with hcur | ⟨ha, hb, -⟩
    · simp only [hcur]
    · simp only [ha, hb]
  split
  · exact (call ih .argList rfl).from_other
  · refine .seq (call ih .creationDims rfl) fun _ => ?_
    refine .whenAt rfl (fun h => .balanced keepsTokens ?_) .skip
    rw [h]
    rfl
  · exact .complain _

theorem arrayInit : Admitted custom enters False .operand .other a Expressions.arrayInit := by
  refine inner rfl (.seq bump fun _ => .seq (.whenAt rfl (fun _ => .skip) ?_) fun _ => ?_)
  · exact call ih .arrayItems rfl
  · exact expect_end rfl rfl

theorem arrayItems : Admitted custom enters False .other .other a Expressions.arrayItems :=
  .seq (call ih .expr rfl) fun _ =>
    .seq (eat rfl (fun _ => call ih .expr rfl) .skip) fun _ =>
      eat rfl (fun _ => call ih .arrayItems rfl) .skip

theorem argList : Admitted custom enters False .operand .other a Expressions.argList := by
  refine inner rfl (.seq bump fun _ => .seq (.whenAt rfl (fun _ => .skip) ?_) fun _ => ?_)
  · exact call ih .arguments rfl
  · exact .seq .recoverInParens fun _ => expect_end rfl rfl

theorem arguments : Admitted custom enters False .other .other a Expressions.arguments :=
  .seq (call ih .expr rfl) fun _ => eat rfl (fun _ => call ih .arguments rfl) .skip

/-! ## Conditions -/

theorem constraints : Admitted custom enters False .other .other a Conditions.constraints :=
  .seq (call ih .constraint rfl) fun _ => eat rfl (fun _ => call ih .constraints rfl) .skip

omit ih in
theorem binding : Admitted custom enters False .other .other a Conditions.binding :=
  inner rfl (.take keepsTokens 2)

theorem constraint : Admitted custom enters False .other .other a Conditions.constraint := by
  refine inner rfl (.seq (.when ?_ (fun _ => call ih .binding rfl) fun _ => .skip) fun _ =>
    call ih .expr rfl)
  exact .next_two (f := Kind.isName) (g := fun k => k == .colon || k == .colonEq) (.inl rfl)
    (.inr rfl)

omit ih in
theorem window : Admitted custom enters False .other .other a Conditions.window := by
  refine inner rfl (.seq bump fun _ => expect rfl fun _ => expect rfl fun _ => ?_)
  refine .seq (.expectName keepsTokens _) fun b => .whenAt rfl (fun h => inner rfl ?_) .skip
  refine (Admits.balanced keepsTokens ?_).to_other
  rw [current_afterTrivia, h]
  rfl

theorem source : Admitted custom enters False .other .other a Conditions.source := by
  refine inner rfl (.seq bump fun _ => .look_here (fun b hb => by simp only [hb]) ?_)
  split
  · exact call ih .accumulate rfl
  · refine inner rfl (.seq bump fun _ => expect rfl fun _ => ?_)
    exact .seq (call ih .lhsOr rfl) fun _ => expect rfl fun _ => .skip
  · refine inner rfl (.seq bump fun _ => eat rfl (fun _ => .skip) ?_)
    exact (call ih .qualifiedName rfl).to_other
  · exact (call ih .postfixed rfl).to_other

theorem pattern : Admitted custom enters False .other .other a Conditions.pattern := by
  refine inner rfl (.seq (.when ?_ (fun _ => call ih .binding rfl) fun _ => .skip) fun _ => ?_)
  · exact .next_two (f := (· == .ident)) (g := (· == .colon)) (.inl rfl) (.inr rfl)
  refine .seq (eat_skip rfl) fun _ => .seq (call ih .qualifiedName rfl).to_other fun _ => ?_
  refine .seq (expect rfl fun _ => .seq (.whenAt rfl (fun _ => .skip) ?_) fun _ =>
    .recoverInParens) fun _ => ?_
  · exact call ih .constraints rfl
  refine .seq (expect rfl fun _ => .skip) fun _ => ?_
  refine .seq (.whenAt rfl (fun _ => call ih .window rfl) .skip) fun _ => ?_
  exact .whenAt rfl (fun _ => call ih .source rfl) .skip

theorem accumulate : Admitted custom enters False .other .other a Conditions.accumulate := by
  refine inner rfl (.seq bump fun _ => expect rfl fun _ => ?_)
  refine .seq (call ih .lhsOr rfl) fun _ => .seq (r := .other) (eat rfl (fun _ => ?_) ?_)
    fun _ => expect rfl fun _ => .skip
  · exact .untilClose keepsTokens (by decide)
  · exact eat rfl (fun _ => .untilClose keepsTokens (by decide)) .skip

theorem lhsUnary : Admitted custom enters False .other .other a Conditions.lhsUnary := by
  refine .look_here (fun b hb => by simp only [hb]) ?_
  split
  · exact inner rfl (.seq bump fun _ => call ih .lhsUnary rfl)
  · exact inner rfl (.seq bump fun _ => call ih .lhsUnary rfl)
  · refine inner rfl (.seq bump fun _ => expect rfl fun _ => ?_)
    exact .seq (call ih .expr rfl) fun _ => expect rfl fun _ => .skip
  · refine inner rfl (.seq bump fun _ => expect rfl fun _ => ?_)
    exact .seq (call ih .forallItems rfl) fun _ => expect rfl fun _ => .skip
  · exact call ih .accumulate rfl
  · exact call ih .lhsParen rfl
  · exact call ih .pattern rfl
  · exact call ih .pattern rfl
  · exact .complain _

theorem forallItems : Admitted custom enters False .other .other a Conditions.forallItems :=
  .when (.here Conditions.isStart) (fun _ => .seq (call ih .lhsOr rfl) fun _ =>
    .ifRecovering _ (call ih .forallItems rfl)) fun _ => .skip

theorem prefixOperands : Admitted custom enters False .other .other a Conditions.prefixOperands :=
  .when (.here Conditions.isStart) (fun _ => .seq (call ih .lhsUnary rfl) fun _ =>
    .ifRecovering _ (call ih .prefixOperands rfl)) fun _ => .skip

omit ih in
theorem blind_isOr : Blind .other Conditions.isOr :=
  .here fun k => k == .orKw || k == .pipePipe

omit ih in
theorem blind_isAnd : Blind .other Conditions.isAnd :=
  .here fun k => k == .andKw || k == .ampAmp

theorem lhsOrRest : Admitted custom enters False .other .other a Conditions.lhsOrRest :=
  .when blind_isOr (fun _ => .seq bump fun _ => .seq (call ih .lhsAnd rfl) fun _ =>
    call ih .lhsOrRest rfl) fun _ => .skip

theorem lhsAndRest : Admitted custom enters False .other .other a Conditions.lhsAndRest :=
  .when blind_isAnd (fun _ => .seq bump fun _ => .seq (call ih .lhsUnary rfl) fun _ =>
    call ih .lhsAndRest rfl) fun _ => .skip

theorem lhsOr : Admitted custom enters False .other .other a Conditions.lhsOr :=
  innerGroup (.seq (call ih .lhsAnd rfl) fun _ => .when blind_isOr (fun _ => enclose rfl
    (.seq bump fun _ => .seq (call ih .lhsAnd rfl) fun _ => call ih .lhsOrRest rfl)) fun _ => .skip)

theorem lhsAnd : Admitted custom enters False .other .other a Conditions.lhsAnd :=
  innerGroup (.seq (call ih .lhsUnary rfl) fun _ => .when blind_isAnd (fun _ => enclose rfl
    (.seq bump fun _ => .seq (call ih .lhsUnary rfl) fun _ => call ih .lhsAndRest rfl)) fun _ =>
      .skip)

theorem lhsParen : Admitted custom enters False .other .other a Conditions.lhsParen := by
  refine inner rfl (.seq bump fun _ => .seq (r := .other)
    (.look_here (fun b hb => by simp only [hb]) ?_) fun _ => expect rfl fun _ => .skip)
  split
  · exact inner rfl (.seq bump fun _ => call ih .prefixOperands rfl)
  · exact inner rfl (.seq bump fun _ => call ih .prefixOperands rfl)
  · exact call ih .lhsOr rfl

theorem conditions : Admitted custom enters False .other .other a Conditions.conditions := by
  refine .look_here (fun b hb => ?_) ?_
  · have hat (k : Kind) : b.isAt k = a.isAt k := congrArg (· == k) hb
    simp only [hat, hb]
  split
  · exact .skip
  refine .seq ?_ fun _ => .seq (.ifRecovering _ .skip) fun _ => call ih .conditions rfl
  split
  · exact .seq (call ih .lhsOr rfl) fun _ => eat_skip rfl
  · exact .fail fun _ => rfl

/-! ## Declarations -/

omit ih in
theorem strayTokens : Admitted custom enters False .other .other a Declarations.strayTokens := by
  refine .of_rejects ?_
  rintro x y - ⟨z, ⟨w, ⟨v, hv, -⟩, -⟩, -⟩
  exact rejects_fail (fun _ => rfl) _ _ rfl hv

omit ih in
theorem lineTrivia : Admitted custom enters still .other .other a (.lineTrivia : Rule) :=
  Admits.lineTrivia keepsTrivia

theorem packageDecl : Admitted custom enters False .other .other a Declarations.packageDecl :=
  node rfl (.seq bump fun _ => .seq (call ih .qualifiedName rfl).to_other fun _ =>
    .seq (eat_skip rfl) fun _ => lineTrivia)

theorem importDecl : Admitted custom enters False .other .other a Declarations.importDecl := by
  refine node rfl (.seq bump fun _ => .seq (eat rfl (fun _ => .skip) (eat_skip rfl)) fun _ => ?_)
  refine .seq (call ih .qualifiedName rfl).to_other fun _ => .seq (.when ?_ (fun _ => ?_) fun _ =>
    .skip) fun _ => .seq (eat_skip rfl) fun _ => lineTrivia
  · exact .next_two (f := (· == .dot)) (g := (· == .star)) (.inl rfl) (.inr rfl)
  · exact .take keepsTokens 2

theorem globalDecl : Admitted custom enters False .other .other a Declarations.globalDecl :=
  node rfl (.seq bump fun _ => .seq (call ih .typeRef rfl).to_other fun _ =>
    .seq (.expectName keepsTokens _) fun _ => .seq (eat_skip rfl) fun _ => lineTrivia)

theorem parameter : Admitted custom enters still .other .other a Declarations.parameter :=
  inner rfl (.seq (call_still ih .typeRef rfl).to_other fun _ =>
    .when (.here Kind.isName) (fun _ => bump) fun _ => .skip)

theorem parameters : Admitted custom enters still .other .other a Declarations.parameters :=
  .seq (call_still ih .parameter rfl) fun _ =>
    eat rfl (fun _ => call_still ih .parameters rfl) .skip

theorem parameterList : Admitted custom enters still .other .other a Declarations.parameterList :=
  inner rfl (.seq bump fun _ =>
    .seq (.whenAt rfl (fun _ => .skip) (call_still ih .parameters rfl)) fun _ =>
      expect rfl fun _ => .skip)

/-- A function, which is left as it is. -/
theorem functionDecl : Admitted custom enters False .other .other a Declarations.functionDecl := by
  refine .node_kept (fun _ _ => Element.prefixed_of_hides rfl _)
    (show Admitted custom enters True .other .other a _ from ?_)
  refine .seq bump fun _ => .seq (call_still ih .typeRef rfl).to_other fun _ => ?_
  refine .seq (.expectName keepsTokens _) fun _ => .seq (r := .other)
    (.whenAt rfl (fun _ => ?_) ?_) fun _ => .seq (.whenAt rfl (fun h => inner rfl ?_) ?_)
      fun _ => lineTrivia
  · exact call_still ih .parameterList rfl
  · exact .complain _
  · refine (Admits.balanced keepsTokens ?_).to_other
    rw [current_afterTrivia, h]
    rfl
  · exact .of_rejects (rejects_complain rfl).seq

theorem queryDecl : Admitted custom enters False .other .other a Declarations.queryDecl :=
  node rfl (.seq bump fun _ => .seq (call ih (.declName .queryName) rfl) fun _ =>
    .seq (.whenAt rfl (fun _ => call ih .parameterList rfl) .skip) fun _ =>
      .seq (call ih .conditions rfl) fun _ => .seq (call ih (.blockEnd .query) rfl) fun _ =>
        lineTrivia)

theorem declareDecl : Admitted custom enters False .other .other a Declarations.declareDecl := by
  refine node rfl (.seq bump fun _ => .seq (eat_skip rfl) fun _ =>
    .seq (call ih .qualifiedName rfl).to_other fun _ => .seq (eat rfl (fun _ => ?_) .skip)
      fun _ => ?_)
  · exact .seq (call ih .qualifiedName rfl).to_other fun _ => call ih .supertypes rfl
  · exact .seq (call ih .annotations rfl) fun _ => .seq (call ih .fields rfl) fun _ =>
      .seq (call ih (.blockEnd .declare) rfl) fun _ => lineTrivia

theorem supertypes : Admitted custom enters False .other .other a Declarations.supertypes :=
  eat rfl (fun _ => .seq (call ih .qualifiedName rfl).to_other fun _ => call ih .supertypes rfl)
    .skip

theorem annotations : Admitted custom enters False .other .other a Declarations.annotations :=
  .whenAt rfl (fun _ => .seq (call ih .annotated rfl) fun _ => call ih .annotations rfl) .skip

theorem annotated : Admitted custom enters False .other .other a Declarations.annotated := by
  refine inner rfl (.seq bump fun _ => .seq (call ih .qualifiedName rfl).to_other fun _ =>
    .whenAt rfl (fun h => ?_) .skip)
  refine (Admits.balanced keepsTokens ?_).to_other
  rw [h]
  rfl

theorem fields : Admitted custom enters False .other .other a Declarations.fields := by
  have hname : Blind .other fun a => a.atName && a.nth 1 == .colon :=
    .next_two (f := Kind.isName) (g := (· == .colon)) (.inl rfl) (.inr rfl)
  refine .look_blind (fun a b h => ?_) ?_
  · simp only [h.current_eq, hname h]
  split
  · exact .skip
  split
  · exact .seq (call ih .field rfl) fun _ => call ih .fields rfl
  · exact .of_rejects (rejects_fail fun _ => rfl).seq

theorem field : Admitted custom enters False .other .other a Declarations.field :=
  inner rfl (.seq (.take keepsTokens 2) fun _ => .seq (call ih .typeRef rfl).to_other fun _ =>
    .seq (eat rfl (fun _ => call ih .expr rfl) .skip) fun _ => call ih .annotations rfl)

theorem ruleDecl : Admitted custom enters False .other .other a Declarations.ruleDecl := by
  have hmissing {a : Ahead} (c : Kind → Complaint) (hc : ∀ k, (c k).isWarning = false)
      (stops : List Kind) :
      Admitted custom enters False .other .other a (Grammar.fail c >> recoverTo stops) :=
    .of_rejects (rejects_fail hc).seq
  refine node rfl (.seq bump fun _ => .seq (call ih (.declName .ruleName) rfl) fun _ => ?_)
  refine .seq (.whenAt rfl (fun _ => call ih .parent rfl) .skip) fun _ => ?_
  refine .seq (call ih .annotations rfl) fun _ => .seq (.when ?_ (fun _ => ?_) fun _ => .skip)
    fun _ => ?_
  · exact .here fun k => k.isAttributeKeyword || k == .ident
  · exact call ih .attributeList rfl
  refine .seq (.whenAt rfl (fun _ => .skip) (hmissing _ (fun _ => rfl) _)) fun _ => ?_
  refine .seq (.whenAt rfl (fun _ => call ih .whenClause rfl) .skip) fun _ => ?_
  refine .seq (.whenAt rfl (fun _ => .skip) (hmissing _ (fun _ => rfl) _)) fun _ => ?_
  refine .seq (.whenAt rfl (fun _ => call ih .thenClause rfl) .skip) fun _ => ?_
  exact .seq (call ih (.blockEnd .rule) rfl) fun _ => lineTrivia

omit ih in
theorem blind_atRuleName : Blind .other fun a => a.isAt .stringLit || a.atName :=
  .here fun k => k == .stringLit || k.isName

omit ih in
theorem declName (role : Role) :
    Admitted custom enters False .other .other a (Declarations.declName role) :=
  .when blind_atRuleName (fun _ => inner rfl bump) fun _ => .fail fun _ => rfl

omit ih in
theorem parent : Admitted custom enters False .other .other a Declarations.parent :=
  inner rfl (.seq bump fun _ => .when blind_atRuleName (fun _ => bump) fun _ => .complain _)

theorem attributeList : Admitted custom enters False .other .other a Declarations.attributeList :=
  inner rfl (call ih .attributes rfl)

theorem attributes : Admitted custom enters False .other .other a Declarations.attributes := by
  refine .look_here (fun b hb => ?_) ?_
  · have hat (k : Kind) : b.isAt k = a.isAt k := congrArg (· == k) hb
    simp only [hat, hb]
  split
  · exact .seq bump fun _ => .seq (eat_skip rfl) fun _ => call ih .attributes rfl
  split
  · exact .seq bump fun _ => call ih .attributes rfl
  split
  · exact .seq (call ih .attribute rfl) fun _ => call ih .attributes rfl
  · exact .skip

theorem attributeItem : Admitted custom enters False .other .other a Declarations.attributeItem := by
  refine inner rfl (.seq (r := .other) (.look_blind (fun a b h => ?_) ?_) fun _ =>
    .seq bump fun b => .look_blind (fun a b h => ?_) ?_)
  · rcases h.current_cases with ⟨ha, hb⟩ | ⟨t, t', c, d, ha, hb, ht, hl, -⟩ |
      ⟨_, _, _, _, _, -, -, -, -, -, hp | ⟨hp, -⟩, -⟩
    · simp only [ha, hb]
    · simp only [currentToken?_of_afterTrivia ha ht,
        currentToken?_of_afterTrivia hb (isTrivia_eq_of_leaf_eq hl ▸ ht), kind_eq_of_leaf_eq hl,
        text_eq_of_leaf_eq hl]
    · cases hp
    · cases hp
  · split
    · split
      · exact .complain _
      · exact .skip
    · exact .skip
  · have hint := h.next_apply h.current_eq (f := (· == .intLit)) rfl
    have hfloat := h.next_apply h.current_eq (f := (· == .floatLit)) rfl
    simp only [h.current_eq, hint, hfloat]
  · split
    · exact inner rfl (.seq bump fun _ => call ih .stringList rfl)
    any_goals exact inner rfl bump
    · split
      · exact inner rfl (.take keepsTokens 2)
      · exact .skip
    · rename_i hk
      refine inner rfl (Admits.balanced keepsTokens ?_).to_other
      rw [current_afterTrivia, hk]
      rfl
    · exact .skip

theorem stringList : Admitted custom enters False .other .other a Declarations.stringList :=
  .when (.next_two (f := (· == .comma)) (g := (· == .stringLit)) (.inl rfl) (.inr rfl))
    (fun _ => .seq (.take keepsTokens 2) fun _ => call ih .stringList rfl) fun _ => .skip

theorem whenClause : Admitted custom enters False .other .other a Declarations.whenClause :=
  inner rfl (.seq bump fun _ => .seq (eat_skip rfl) fun _ => call ih .conditions rfl)

omit ih in
/-- A consequence, which is left as it is. -/
theorem thenClause : Admitted custom enters False .other .other a Declarations.thenClause :=
  .trivia_seq keepsTrivia (.node_kept (fun _ _ => Element.prefixed_of_hides rfl _)
    (show Admitted custom enters True .other .other _ _ from
      .seq bump fun _ => inner rfl (eat_skip rfl)))

omit ih in
theorem blockEnd (block : Block) :
    Admitted custom enters False .other .other a (Declarations.blockEnd block) :=
  eat rfl (fun _ => .skip) (.whenAt rfl (fun _ => .complain _) (.fail fun _ => rfl))

theorem declarations : Admitted custom enters False .other .other a Declarations.declarations := by
  refine .seq .recovered fun _ => .look_here (fun b hb => by simp only [hb]) ?_
  split
  · exact .skip
  all_goals exact .seq (call ih _ rfl) fun _ => call ih _ rfl

theorem compilationUnit :
    Admitted custom enters False .other .other a Declarations.compilationUnit :=
  node rfl (.seq (call ih .declarations rfl) fun _ => .trivia keepsTrivia)

/-- The productions that do not decide on operators. -/
theorem body {c : Production} (hc : c.meetsOperators = false) :
    Admitted custom enters (c.isStill = true) c.exit c.entry a c.body := by
  have hfew {q p : Before} {g : Rule} (h : Admitted custom enters False q p a g) :
      Admitted custom enters (false = true) q p a g :=
    h.weaken (.inl rfl) (.inl rfl) Bool.false_ne_true
  cases c
  case operator | relational | relationalRest | unary => cases hc
  case parameterList => exact parameterList ih
  case parameters => exact parameters ih
  case parameter => exact parameter ih
  case qualifiedName => exact qualifiedName ih
  case nameParts => exact nameParts ih
  case typeRef => exact typeRef ih
  case dimensions => exact dimensions ih
  all_goals refine hfew ?_
  case compilationUnit => exact compilationUnit ih
  case declarations => exact declarations ih
  case packageDecl => exact packageDecl ih
  case importDecl => exact importDecl ih
  case globalDecl => exact globalDecl ih
  case functionDecl => exact functionDecl ih
  case queryDecl => exact queryDecl ih
  case declareDecl => exact declareDecl ih
  case ruleDecl => exact ruleDecl ih
  case strayTokens => exact strayTokens
  case supertypes => exact supertypes ih
  case annotations => exact annotations ih
  case annotated => exact annotated ih
  case fields => exact fields ih
  case field => exact field ih
  case declName => exact declName _
  case parent => exact parent
  case attributeList => exact attributeList ih
  case attributes => exact attributes ih
  case «attribute» => exact attributeItem ih
  case stringList => exact stringList ih
  case whenClause => exact whenClause ih
  case thenClause => exact thenClause
  case blockEnd => exact blockEnd _
  case conditions => exact conditions ih
  case lhsOr => exact lhsOr ih
  case lhsOrRest => exact lhsOrRest ih
  case lhsAnd => exact lhsAnd ih
  case lhsAndRest => exact lhsAndRest ih
  case lhsUnary => exact lhsUnary ih
  case forallItems => exact forallItems ih
  case prefixOperands => exact prefixOperands ih
  case lhsParen => exact lhsParen ih
  case pattern => exact pattern ih
  case constraints => exact constraints ih
  case binding => exact binding
  case constraint => exact constraint ih
  case window => exact window
  case source => exact source ih
  case accumulate => exact accumulate ih
  case expr => exact call ih .ternary rfl
  case ternary => exact ternary ih
  case binary => exact binary ih _ _
  case binaryRest => exact binaryRest ih _
  case relationalRhs => exact relationalRhs ih _
  case postfixed => exact postfixed ih
  case suffixes => exact suffixes ih
  case primary => exact primary ih
  case creation => exact creation ih
  case creationDims => exact creationDims ih
  case arrayInit => exact arrayInit ih
  case arrayItems => exact arrayItems ih
  case argList => exact argList ih
  case arguments => exact arguments ih

end Admitted

end Grammar

end RuleLang
