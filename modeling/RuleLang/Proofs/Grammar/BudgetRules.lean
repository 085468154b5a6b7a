import RuleLang.Proofs.Grammar.Budget
import RuleLang.Proofs.Grammar.Nesting

/-!
# The prices of the productions

An outer production costs more than the inner ones that it enters before a token is taken, and those
that take a token give back half of what it earns, so that a list can be read on.

## Main definitions

* `Production.price`, `Production.prices` — the prices.

## Main statements

* `Production.prices_obeyed` — the bodies of all productions keep to the prices.
-/

namespace RuleLang

open Grammar

namespace Production

def price : Production → Nat
  | .annotations | .fields | .attributes | .typeRef | .primary | .relationalRest => 2
  | .parameter | .attributeList | .pattern => 3
  | .parameters | .postfixed | .lhsUnary => 4
  | .unary | .lhsAnd | .prefixOperands => 5
  | .lhsOr => 6
  | .binary .multiplicative _ | .forallItems | .conditions => 7
  | .ruleDecl => 8
  | .binary .additive _ | .declarations => 9
  | .relationalRhs _ | .compilationUnit => 10
  | .relational _ => 12
  | .binary .bitAnd _ => 14
  | .binary .bitXor _ => 16
  | .binary .bitOr _ => 18
  | .binary .logicalAnd _ => 20
  | .binary .logicalOr _ => 22
  | .ternary => 23
  | .expr => 24
  | .arguments | .arrayItems | .constraint => 25
  | .constraints => 26
  | _ => 1

theorem price_bounds (p : Production) : 0 < p.price ∧ p.price < 64 := by
  unfold price
  split <;> decide

/-- Productions that are entered only where they take a token. The others may start a reading. -/
def awaits : Production → Bool
  | .pattern | .attribute | .ruleDecl => false
  | p => p.opens

def prices : Prices Production where
  price := price
  price_pos p := p.price_bounds.1
  ready p a := p.awaits = true → p.starts a = true
  refund p a := if p.starts a then 32 else 0

end Production

namespace Grammar

open Production

variable {m k : Nat} {g : Rule} {a : Ahead}

/-! ## Entering productions -/

theorem pays_call {p : Production} (ho : p.awaits = false) (hm : (p.price + k).ble m = true) :
    Pays prices m k (.call p) a := by
  have hm := Nat.le_of_ble_eq_true hm
  have hprice : prices.price p = p.price := rfl
  refine (Pays.call (fun h => by simp [ho] at h) ?_).mono (Nat.le_refl m) ?_ <;> omega

theorem pays_call_seq {p : Production} (ho : p.awaits = false) (hm : p.price.ble m = true)
    (hg : ∀ b, Pays prices (m - p.price) k g b) : Pays prices m k (.call p >> g) a := by
  refine .seq (pays_call ho (Nat.ble_eq_true_of_le ?_)) hg
  have := Nat.le_of_ble_eq_true hm
  omega

/-- A production gives back half of what its first token earns. -/
theorem pays_start {p : Production} (hm : p.price.ble m = true) (hs : p.starts a = true) :
    Pays prices m (m - p.price + 32) (.call p) a := by
  have := Pays.call (β := prices) (fun _ => hs) (Nat.le_of_ble_eq_true hm)
  rwa [show prices.refund p a = 32 from if_pos hs] at this

theorem pays_open {p : Production} (hm : p.price.ble m = true)
    (ho : (p.opens && p != .pattern) = true) (h : a.current ≠ .eof) :
    Pays prices m (m - p.price + 32) (.call p) a :=
  pays_start hm (starts_of_opens ho h)

theorem pays_whenAt_open {p : Production} {c : Kind} (hm : p.price.ble m = true)
    (hp : p.price.ble 32 = true) (ho : (p.opens && p != .pattern) = true) (hc : (c == .eof) = false) :
    Pays prices m m (.whenAt c (.call p)) a := by
  refine .whenAt (fun h => (pays_open hm ho (Ahead.current_ne_eof h hc)).mono (Nat.le_refl m) ?_)
    fun _ => .skip
  have := Nat.le_of_ble_eq_true hm
  have := Nat.le_of_ble_eq_true hp
  omega

/-! ## Names and types -/

theorem pays_nameParts : Pays prices 0 0 Declarations.nameParts a :=
  .when (fun h => .take_seq Nat.two_pos (ne_eof_of_isAt (Bool.and_eq_true_iff.1 h).1 rfl)
    fun _ => pays_call rfl rfl) fun _ => .skip

theorem pays_qualifiedName_one (h : a.atName = true) : Pays prices 0 32 Declarations.qualifiedName a :=
  .when (fun _ => .inner (.bump_seq (by simpa using ne_eof_of_atName h) fun _ => pays_call rfl rfl))
    fun hn => by simp [h] at hn

theorem pays_qualifiedName (h : a.atName = false) : Pays prices 0 0 Declarations.qualifiedName a :=
  .when (fun hn => by simp [h] at hn) fun _ => .fail

theorem pays_dimensions : Pays prices 0 0 Declarations.dimensions a :=
  .when (fun h => .take_seq Nat.two_pos (ne_eof_of_isAt (Bool.and_eq_true_iff.1 h).1 rfl)
    fun _ => pays_call rfl rfl) fun _ => .skip

theorem pays_typeRef : Pays prices 1 0 Declarations.typeRef a := by
  refine .when (fun h => .inner ?_) fun _ => .enough .fail rfl
  refine .seq (pays_start (p := .qualifiedName) rfl ((starts_afterTrivia _ a).trans h)) fun _ => ?_
  exact .seq (.whenAt (fun _ => .look .take) fun _ => .skip) fun _ => pays_call rfl rfl

/-! ## Expressions -/

theorem pays_expr : Pays prices 23 0 Expressions.expr a :=
  pays_call rfl rfl

theorem pays_ternary : Pays prices 22 0 Expressions.ternary a := by
  refine .innerGroup (pays_call_seq rfl rfl fun b => ?_)
  refine .whenAt (fun h => .enclose (.bump_seq (Ahead.current_ne_eof h rfl) fun _ => ?_)) fun _ => .skip
  exact pays_call_seq rfl rfl fun _ => .seq (.expect_skip rfl) fun _ => pays_call rfl rfl

/-- An operand costs at least two less than the level around it. -/
theorem pays_operand (level : Level) (half : Bool) :
    Pays prices ((Production.binary level half).price - 1) 1 (Expressions.operand level half) a := by
  cases level <;> exact pays_call rfl rfl

theorem pays_binary (level : Level) (half : Bool) :
    Pays prices ((Production.binary level half).price - 1) 0 (Expressions.binary level half) a :=
  .innerGroup (.seq (pays_operand level half) fun _ => pays_call rfl rfl)

theorem pays_binaryRest (level : Level) : Pays prices 0 0 (Expressions.binaryRest level) a := by
  refine .when (fun h => ?_) fun _ => .skip
  have hc : a.current ≠ .eof := by
    intro he
    rw [he] at h
    cases level <;> cases h
  have hoperand (b : Ahead) :
      Pays prices (0 + 64) 1 (Expressions.operand level level.admitsHalf) b := by
    refine (pays_operand level level.admitsHalf).mono ?_ (Nat.le_refl 1)
    have := (Production.binary level level.admitsHalf).price_bounds.2
    omega
  exact .seq (.enclose (.bump_seq hc hoperand)) fun _ => pays_call rfl rfl

theorem pays_operation (h : a.current ≠ .eof) : Pays prices 1 22 Expressions.operation a :=
  .look (.seq (pays_open rfl rfl h) fun _ => pays_call rfl rfl)

theorem pays_relational (half : Bool) : Pays prices 11 0 (Expressions.relational half) a := by
  refine .when (fun h => .inner ?_) fun _ => .innerGroup ?_
  · have hc : a.current ≠ .eof := by
      intro he
      simp [Expressions.atHalfConstraint, he, Kind.isComparison, Kind.isWordOperator,
        Kind.raw] at h
    exact (pays_operation (by simpa using hc)).mono (by decide) (by decide)
  · exact pays_call_seq rfl rfl fun _ => pays_call rfl rfl

theorem pays_relationalRest : Pays prices 1 0 Expressions.relationalRest a := by
  refine .when (fun h => ?_) fun _ => .enough .skip rfl
  have hc : a.current ≠ .eof := by
    intro he
    simp [Expressions.atRelationalOperator, he, Kind.isComparison, Kind.isWordOperator,
      Kind.raw] at h
  exact .seq (.enclose (pays_operation hc)) fun _ => pays_call rfl rfl

/-- An operator takes its negation or its first token. -/
theorem pays_operator (h : a.current ≠ .eof) : Pays prices 0 32 Expressions.operator a := by
  refine .look (.inner ?_)
  generalize hp : (if Expressions.operatorKind a == .ident || Expressions.operatorKind a == .strKw
    then Grammar.whenAt .lBracket
      (.inner .operatorParams (.bump >> .untilClose .rBracket >> .expect .rBracket))
    else .skip) = parameters
  have hparams (b : Ahead) : Pays prices 64 32 parameters b := by
    refine .enough ?_ (Nat.ble_eq_true_of_le (show 32 ≤ 64 by decide))
    subst hp
    split
    · exact .whenAt (fun _ => .inner (.seq .take fun _ => .seq (.look .take)
        fun _ => .expect_skip rfl)) fun _ => .skip
    · exact .skip
  have hc : a.afterTrivia.current ≠ .eof := by simpa using h
  refine .when_seq (fun _ => .bump_seq_seq hc (fun _ => .skip) fun b => ?_) fun _ => .skip_seq ?_
  · refine .seq ?_ hparams
    exact .eat rfl (fun _ => .enough (.expect_skip rfl) rfl) .take
  · refine .when_seq (fun _ => .bump_seq_seq hc (fun _ => .expect_skip rfl) hparams)
      fun _ => .bump_seq hc hparams

theorem pays_relationalRhs (op : Kind) : Pays prices 9 0 (Expressions.relationalRhs op) a := by
  unfold Expressions.relationalRhs
  split
  · exact pays_call rfl rfl
  · refine .when (fun h => ?_) fun _ => pays_call rfl rfl
    exact .enough (pays_open rfl rfl (ne_eof_of_isAt (Bool.and_eq_true_iff.1 h).2 rfl)) rfl

theorem pays_unary : Pays prices 4 0 Expressions.unary a := by
  refine .look ?_
  split
  case h_7 =>
    split
    · rename_i h
      have hc : a.current ≠ .eof :=
        ne_eof_of_isAt (Bool.and_eq_true_iff.1 (Bool.and_eq_true_iff.1 h).1).1 rfl
      refine .inner (.bump_seq (by simpa using hc) fun _ => pays_call_seq rfl rfl fun _ => ?_)
      exact .seq (.expect_skip rfl) fun _ => pays_call rfl rfl
    · exact pays_call rfl rfl
  all_goals
    rename_i h
    exact .inner (.bump_seq (by simp [h]) fun _ => pays_call rfl rfl)

theorem pays_postfixed : Pays prices 3 0 Expressions.postfixed a :=
  .innerGroup (pays_call_seq rfl rfl fun _ => pays_call rfl rfl)

theorem pays_suffixes : Pays prices 0 0 Expressions.suffixes a := by
  have hcall (b : Ahead) : Pays prices (0 + 64) 0
      (.whenAt .lParen (.call .argList >> .enclose .methodCall .skip)
        (.enclose .fieldAccess .skip) >> .call .suffixes) b := by
    refine .seq (l := 64) (.whenAt (fun h => ?_) fun _ => .enclose .skip) fun _ => pays_call rfl rfl
    refine .seq (pays_open rfl rfl (Ahead.current_ne_eof h rfl)) fun _ => .enclose ?_
    exact .enough .skip rfl
  refine .look ?_
  split
  case h_7 => exact .skip
  case h_1 h | h_2 h =>
    split
    · exact .take_seq Nat.two_pos (Ahead.current_ne_eof h rfl) hcall
    · exact .skip
  case h_3 h =>
    split
    · refine .bump_seq (Ahead.current_ne_eof h rfl) fun _ => pays_call_seq rfl rfl fun _ => ?_
      exact .seq (.enclose .skip) fun _ => pays_call rfl rfl
    · exact .skip
  case h_4 h =>
    refine .bump_seq (Ahead.current_ne_eof h rfl) fun _ => pays_call_seq rfl rfl fun _ => ?_
    exact .seq (.expect_skip rfl) fun _ => .seq (.enclose .skip) fun _ => pays_call rfl rfl
  case h_5 h | h_6 h =>
    split
    · refine .bump_seq (Ahead.current_ne_eof h rfl) fun _ => ?_
      exact .seq (.enclose .skip) fun _ => pays_call rfl rfl
    · exact .skip

theorem pays_primary : Pays prices 1 0 Expressions.primary a := by
  refine .look ?_
  split
  · exact .inner (.enough .take rfl)
  · split
    · refine .innerGroup (.seq (.node .take) fun b => .when (fun h => ?_) fun _ => .enough .skip rfl)
      have hc := ne_eof_of_isAt (Bool.and_eq_true_iff.1 h).1 rfl
      exact .seq (pays_open rfl rfl hc) fun _ => .enclose (.enough .skip rfl)
    · split
      case h_1 h => exact .enough (pays_open rfl rfl (Ahead.current_ne_eof h rfl)) rfl
      case h_2 h =>
        refine .inner (.bump_seq (by simp [h]) fun _ => pays_call_seq rfl rfl fun _ => ?_)
        exact .seq .recoverInParens fun _ => .enough (.expect_skip rfl) rfl
      case h_3 h => exact .enough (pays_open rfl rfl (Ahead.current_ne_eof h rfl)) rfl
      case h_4 => exact .enough .complain rfl

theorem pays_creation (h : a.current ≠ .eof) : Pays prices 0 32 Expressions.creation a := by
  refine .inner (.bump_seq (by simpa using h) fun _ => pays_call_seq rfl rfl fun b => .look ?_)
  split
  case h_1 h => exact .enough (pays_open rfl rfl (Ahead.current_ne_eof h rfl)) rfl
  case h_2 =>
    exact pays_call_seq rfl rfl fun _ =>
      .enough (.whenAt (fun _ => .balanced) fun _ => .skip) rfl
  case h_3 => exact .enough .complain rfl

theorem pays_creationDims : Pays prices 0 0 Expressions.creationDims a :=
  .whenAt (fun h => .seq (.balanced_one (h ▸ rfl)) fun _ => pays_call rfl rfl) fun _ => .skip

theorem pays_arrayInit (h : a.current ≠ .eof) : Pays prices 0 32 Expressions.arrayInit a := by
  refine .inner (.bump_seq (by simpa using h) fun _ => .seq (l := 39) ?_ fun _ => ?_)
  · exact .whenAt (fun _ => .enough .skip rfl) fun _ => pays_call rfl rfl
  · exact .enough (.expect_skip rfl) rfl

theorem pays_arrayItems : Pays prices 24 0 Expressions.arrayItems a := by
  refine pays_call_seq rfl rfl fun _ => .seq (l := 0) ?_ fun _ => ?_
  · exact .eat rfl (fun _ => pays_call rfl rfl) .skip
  · exact .eat rfl (fun _ => pays_call rfl rfl) .skip

theorem pays_argList (h : a.current ≠ .eof) : Pays prices 0 32 Expressions.argList a := by
  refine .inner (.bump_seq (by simpa using h) fun _ => .seq (l := 39) ?_ fun _ => ?_)
  · exact .whenAt (fun _ => .enough .skip rfl) fun _ => pays_call rfl rfl
  · exact .seq .recoverInParens fun _ => .enough (.expect_skip rfl) rfl

theorem pays_arguments : Pays prices 24 0 Expressions.arguments a :=
  pays_call_seq rfl rfl fun _ => .eat rfl (fun _ => pays_call rfl rfl) .skip

/-! ## Conditions -/

theorem pays_lhsOrRest : Pays prices 0 0 Conditions.lhsOrRest a :=
  .when (fun h => .bump_seq (ne_eof_of_isOr h) fun _ => pays_call_seq rfl rfl fun _ => pays_call rfl rfl)
    fun _ => .skip

theorem pays_lhsAndRest : Pays prices 0 0 Conditions.lhsAndRest a :=
  .when (fun h => .bump_seq (ne_eof_of_isAnd h) fun _ => pays_call_seq rfl rfl fun _ => pays_call rfl rfl)
    fun _ => .skip

/-- What follows the first operand of `or` pays for itself. -/
theorem pays_orOperands : Pays prices m m
    (.when Conditions.isOr (.enclose .lhsOr (.bump >> .call .lhsAnd >> .call .lhsOrRest))) a := by
  refine .when (fun h => .enclose (.bump_seq (ne_eof_of_isOr h) fun _ => ?_)) fun _ => .skip
  have hrest (b : Ahead) : Pays prices (m + 59) m (.call .lhsOrRest) b :=
    pays_call rfl (Nat.ble_eq_true_of_le (by change 1 + m ≤ m + 59; omega))
  exact .seq (pays_call rfl (Nat.ble_eq_true_of_le (by change 5 + (m + 59) ≤ m + 64; omega))) hrest

/-- What follows the first operand of `and` pays for itself. -/
theorem pays_andOperands : Pays prices m m
    (.when Conditions.isAnd (.enclose .lhsAnd (.bump >> .call .lhsUnary >> .call .lhsAndRest)))
    a := by
  refine .when (fun h => .enclose (.bump_seq (ne_eof_of_isAnd h) fun _ => ?_)) fun _ => .skip
  have hrest (b : Ahead) : Pays prices (m + 60) m (.call .lhsAndRest) b :=
    pays_call rfl (Nat.ble_eq_true_of_le (by change 1 + m ≤ m + 60; omega))
  exact .seq (pays_call rfl (Nat.ble_eq_true_of_le (by change 4 + (m + 60) ≤ m + 64; omega))) hrest

theorem pays_lhsOr : Pays prices 5 0 Conditions.lhsOr a :=
  .innerGroup (pays_call_seq rfl rfl fun _ => pays_orOperands)

theorem pays_lhsOr_one (h : Conditions.isStart a.current = true) :
    Pays prices 5 32 Conditions.lhsOr a :=
  .innerGroup (.seq (pays_start rfl ((starts_afterTrivia .lhsAnd a).trans h)) fun _ => pays_orOperands)

theorem pays_lhsAnd : Pays prices 4 0 Conditions.lhsAnd a :=
  .innerGroup (pays_call_seq rfl rfl fun _ => pays_andOperands)

theorem pays_lhsAnd_one (h : Conditions.isStart a.current = true) :
    Pays prices 4 32 Conditions.lhsAnd a :=
  .innerGroup (.seq (pays_start rfl ((starts_afterTrivia .lhsUnary a).trans h))
    fun _ => pays_andOperands)

theorem pays_lhsUnary_one (h : Conditions.isStart a.current = true) :
    Pays prices 3 32 Conditions.lhsUnary a := by
  have hc := ne_eof_of_isStart h
  have hc' : a.afterTrivia.current ≠ .eof := by simpa using hc
  refine .look ?_
  split
  case h_1 | h_2 => exact .inner (.bump_seq hc' fun _ => pays_call rfl rfl)
  case h_3 | h_4 =>
    refine .inner (.bump_seq hc' fun _ => .enough (.expect rfl fun _ => ?_) rfl)
    exact pays_call_seq rfl rfl fun _ => .enough (.expect_skip rfl) rfl
  case h_5 | h_6 => exact .enough (pays_open rfl rfl hc) rfl
  case h_7 h | h_8 h => exact .enough (pays_start rfl (by simp [starts, Ahead.isAt, h])) rfl
  case h_9 h₁ h₂ h₃ h₄ h₅ h₆ h₇ h₈ =>
    unfold Conditions.isStart at h
    split at h <;> simp_all

theorem pays_lhsUnary (h : Conditions.isStart a.current = false) :
    Pays prices 3 0 Conditions.lhsUnary a := by
  refine .look ?_
  split
  case h_9 => exact .enough .complain rfl
  all_goals simp_all [Conditions.isStart]

theorem pays_forallItems : Pays prices 6 0 Conditions.forallItems a := by
  refine .when (fun h => ?_) fun _ => .enough .skip rfl
  exact .seq (pays_start rfl h) fun _ => .ifRecovering (.enough .skip rfl) (pays_call rfl rfl)

theorem pays_prefixOperands : Pays prices 4 0 Conditions.prefixOperands a := by
  refine .when (fun h => ?_) fun _ => .enough .skip rfl
  exact .seq (pays_start rfl h) fun _ => .ifRecovering (.enough .skip rfl) (pays_call rfl rfl)

theorem pays_lhsParen (h : a.current ≠ .eof) : Pays prices 0 32 Conditions.lhsParen a := by
  refine .inner (.bump_seq (by simpa using h) fun b => .seq (l := 32) (.look ?_)
    fun _ => .expect_skip rfl)
  split
  · exact .inner (.seq .take fun _ => pays_call rfl rfl)
  · exact .inner (.seq .take fun _ => pays_call rfl rfl)
  · exact pays_call rfl rfl

/-- What follows the name of a pattern pays for itself. -/
theorem pays_patternRest (hm : 1 ≤ m) : Pays prices m m
    (.seq (.expect .lParen (.seq (.whenAt .rParen .skip (.call .constraints)) .recoverInParens))
      (.seq (.expect .rParen)
        (.seq (.whenAt .overKw (.call .window)) (.whenAt .fromKw (.call .source))))) a := by
  have hone : (1).ble m = true := Nat.ble_eq_true_of_le hm
  refine .seq (.expect rfl fun _ => .seq (l := m) ?_ fun _ => .recoverInParens) fun _ => ?_
  · refine .whenAt (fun _ => .mono .skip (Nat.le_refl _) (Nat.le_add_right m 64)) fun _ => ?_
    exact pays_call rfl (Nat.ble_eq_true_of_le (by change 26 + m ≤ m + 64; omega))
  · exact .seq (.expect_skip rfl) fun _ =>
      .seq (pays_whenAt_open hone rfl rfl rfl) fun _ => pays_whenAt_open hone rfl rfl rfl

theorem pays_pattern : Pays prices 2 0 Conditions.pattern a := by
  refine .inner (.seq (l := 2) (.when (fun h => ?_) fun _ => .skip) fun _ => .seq (.eat_skip rfl)
    fun _ => pays_call_seq rfl rfl fun _ => .enough (pays_patternRest (Nat.le_refl 1)) rfl)
  exact .enough (pays_open rfl rfl (ne_eof_of_isAt (Bool.and_eq_true_iff.1 h).1 rfl)) rfl

/-- A pattern takes its name, or what stands before it. -/
theorem pays_pattern_one (h : (a.isAt .ident || a.isAt .question) = true) :
    Pays prices 2 32 Conditions.pattern a := by
  have hc : a.afterTrivia.current = .ident ∨ a.afterTrivia.current = .question := by
    simpa [Ahead.isAt] using h
  have hne : a.afterTrivia.current ≠ .eof := by
    rcases hc with hc | hc <;> exact Ahead.current_ne_eof hc rfl
  refine .inner (.when_seq (fun _ => .seq (pays_open rfl rfl hne) fun _ => ?_) fun _ => .skip_seq ?_)
  · exact .seq (.eat_skip rfl) fun _ => pays_call_seq rfl rfl fun _ =>
      .enough (pays_patternRest (by decide)) rfl
  refine .when_seq (fun _ => .bump_seq_seq hne (fun _ => .skip) fun _ => ?_) fun hq => .skip_seq ?_
  · exact pays_call_seq rfl rfl fun _ => .enough (pays_patternRest (by decide)) rfl
  · refine .seq (pays_start rfl ?_) fun _ => .enough (pays_patternRest (by decide)) rfl
    rcases hc with hc | hc
    · simp [starts, Ahead.atName, hc, Kind.isName]
    · simp [Ahead.isAt, hc] at hq

theorem pays_constraints : Pays prices 25 0 Conditions.constraints a :=
  pays_call_seq rfl rfl fun _ => .eat rfl (fun _ => pays_call rfl rfl) .skip

theorem pays_binding (h : a.current ≠ .eof) : Pays prices 0 32 Conditions.binding a :=
  .inner (.enough (.take_one Nat.two_pos (by simpa using h)) rfl)

theorem pays_constraint : Pays prices 24 0 Conditions.constraint a := by
  refine .inner (.seq (l := 24) (.when (fun h => ?_) fun _ => .skip) fun _ => pays_call rfl rfl)
  exact .enough (pays_open rfl rfl (ne_eof_of_atName (Bool.and_eq_true_iff.1 h).1)) rfl

theorem pays_window (h : a.current ≠ .eof) : Pays prices 0 32 Conditions.window a := by
  refine .inner (.bump_seq (by simpa using h) fun _ => .enough (.expect rfl fun _ => ?_) rfl)
  refine .enough (.expect rfl fun _ => .seq .expectName fun _ => ?_) rfl
  exact .whenAt (fun _ => .inner (.enough .balanced rfl)) fun _ => .enough .skip rfl

theorem pays_source (h : a.current ≠ .eof) : Pays prices 0 32 Conditions.source a := by
  refine .inner (.bump_seq (by simpa using h) fun b => .look ?_)
  split
  case h_1 h => exact .enough (pays_open rfl rfl (Ahead.current_ne_eof h rfl)) rfl
  case h_2 =>
    refine .inner (.seq .take fun _ => .enough (.expect rfl fun _ => ?_) rfl)
    exact pays_call_seq rfl rfl fun _ => .enough (.expect_skip rfl) rfl
  case h_3 =>
    refine .inner (.seq .take fun _ => .whenAt (fun _ => ?_) fun _ => pays_call rfl rfl)
    exact .seq .take fun _ => .enough .skip rfl
  case h_4 => exact pays_call rfl rfl

theorem pays_accumulate (h : a.current ≠ .eof) : Pays prices 0 32 Conditions.accumulate a := by
  refine .inner (.bump_seq (by simpa using h) fun _ => .enough (.expect rfl fun _ => ?_) rfl)
  refine pays_call_seq rfl rfl fun _ => .seq (l := 64) ?_ fun _ => .expect_skip rfl
  exact .eat rfl (fun _ => .look (.enough .take rfl))
    (.eat rfl (fun _ => .look (.enough .take rfl)) (.enough .skip rfl))

/-- A token that starts no condition is an error, and then the tokens up to `then` are wrapped, of
which it is one. -/
theorem pays_conditions : Pays prices 6 0 Conditions.conditions a := by
  refine .look ?_
  split
  · exact .enough .skip rfl
  · rename_i h
    simp only [Bool.or_eq_true, not_or, Bool.not_eq_true] at h
    obtain ⟨⟨hthen, heof⟩, hbound⟩ := h
    have hc : a.current ≠ .eof := by simpa [Ahead.isAt] using heof
    split
    · rename_i hs
      refine .seq (.seq (pays_start rfl hs) fun _ => .eat_skip rfl) fun _ => ?_
      exact .seq (.ifRecovering .recoverTo .skip) fun _ => pays_call rfl rfl
    · refine .recovering_seq rfl (.seq (.recoverTo_one hc ?_) fun _ => pays_call rfl rfl)
      simpa [Ahead.isAt, hbound] using And.intro heof hthen

/-! ## Declarations -/

theorem pays_strayTokens (h : a.current ≠ .eof) : Pays prices 0 32 Declarations.strayTokens a :=
  .node (.fail_seq (.bump_seq h fun _ => .seq (.look .take) fun _ => .enough .lineTrivia rfl))

/-- A semicolon that may be left out, and the rest of the line. -/
theorem pays_lineEnd : Pays prices m m (.eat .semicolon >> .lineTrivia) a :=
  .seq (.eat_skip rfl) fun _ => .lineTrivia

theorem pays_packageDecl (h : a.current ≠ .eof) : Pays prices 0 32 Declarations.packageDecl a :=
  .node (.bump_seq h fun _ => pays_call_seq rfl rfl fun _ => .enough pays_lineEnd rfl)

theorem pays_importDecl (h : a.current ≠ .eof) : Pays prices 0 32 Declarations.importDecl a := by
  refine .node (.bump_seq h fun _ => .seq (l := 64) ?_ fun _ => pays_call_seq rfl rfl fun _ => ?_)
  · exact .eat rfl (fun _ => .enough .skip rfl) (.eat_skip rfl)
  · exact .seq (.when (fun _ => .take) fun _ => .skip) fun _ => .enough pays_lineEnd rfl

theorem pays_globalDecl (h : a.current ≠ .eof) : Pays prices 0 32 Declarations.globalDecl a :=
  .node (.bump_seq h fun _ => pays_call_seq rfl rfl fun _ =>
    .seq .expectName fun _ => .enough pays_lineEnd rfl)

theorem pays_functionDecl (h : a.current ≠ .eof) : Pays prices 0 32 Declarations.functionDecl a := by
  refine .node (.bump_seq h fun _ => pays_call_seq rfl rfl fun _ => .seq .expectName
    fun _ => .seq (l := 62) (.whenAt (fun hp => ?_) fun _ => .complain) fun _ => .seq (l := 62) ?_
    fun _ => .enough .lineTrivia rfl)
  · exact .enough (pays_open rfl rfl (Ahead.current_ne_eof hp rfl)) rfl
  · exact .whenAt (fun _ => .inner .balanced) fun _ => .complain_seq .recoverTo

theorem pays_queryDecl (h : a.current ≠ .eof) : Pays prices 0 32 Declarations.queryDecl a := by
  refine .node (.bump_seq h fun _ => pays_call_seq rfl rfl fun _ => .seq (l := 63) ?_ fun _ => ?_)
  · exact pays_whenAt_open rfl rfl rfl rfl
  · exact pays_call_seq rfl rfl fun _ => pays_call_seq rfl rfl fun _ => .enough .lineTrivia rfl

theorem pays_declareDecl (h : a.current ≠ .eof) : Pays prices 0 32 Declarations.declareDecl a := by
  refine .node (.bump_seq h fun _ => .seq (.eat_skip rfl) fun _ =>
    pays_call_seq rfl rfl fun _ => .seq (l := 63) ?_ fun _ => ?_)
  · exact .eat rfl (fun _ => pays_call_seq rfl rfl fun _ => pays_call rfl rfl) .skip
  · exact pays_call_seq rfl rfl fun _ => pays_call_seq rfl rfl fun _ =>
      pays_call_seq rfl rfl fun _ => .enough .lineTrivia rfl

theorem pays_supertypes : Pays prices 0 0 Declarations.supertypes a :=
  .eat rfl (fun _ => pays_call_seq rfl rfl fun _ => pays_call rfl rfl) .skip

theorem pays_annotations : Pays prices 1 0 Declarations.annotations a := by
  refine .whenAt (fun h => ?_) fun _ => .enough .skip rfl
  exact .seq (pays_open rfl rfl (Ahead.current_ne_eof h rfl)) fun _ => pays_call rfl rfl

theorem pays_annotated (h : a.current ≠ .eof) : Pays prices 0 32 Declarations.annotated a :=
  .inner (.bump_seq (by simpa using h) fun _ => pays_call_seq rfl rfl fun _ =>
    .enough (.whenAt (fun _ => .balanced) fun _ => .skip) rfl)

/-- A token that starts no field is an error, and then the tokens up to a boundary are wrapped, of
which it is one. -/
theorem pays_fields : Pays prices 1 0 Declarations.fields a := by
  refine .look ?_
  split
  · exact .enough .skip rfl
  · rename_i h
    simp only [Bool.or_eq_true, not_or, Bool.not_eq_true] at h
    obtain ⟨heof, hbound⟩ := h
    have hc : a.current ≠ .eof := by simpa using heof
    split
    · exact .seq (pays_open rfl rfl hc) fun _ => pays_call rfl rfl
    · refine .fail_seq (.seq (.recoverTo_one hc ?_) fun _ => pays_call rfl rfl)
      simp [heof, hbound]

theorem pays_field (h : a.current ≠ .eof) : Pays prices 0 32 Declarations.field a := by
  refine .inner (.take_seq Nat.two_pos (by simpa using h) fun _ => pays_call_seq rfl rfl
    fun _ => .seq (l := 62) ?_ fun _ => pays_call rfl rfl)
  exact .eat rfl (fun _ => pays_call rfl rfl) .skip

/-- What follows the first token of a rule. -/
theorem pays_ruleRest (n : Nat) : Pays prices (n + 7) n
    (.call (.declName .ruleName) >> .whenAt .extendsKw (.call .parent) >> .call .annotations >>
      .when (fun a => a.current.isAttributeKeyword || a.isAt .ident) (.call .attributeList) >>
      .whenAt .whenKw .skip (.fail (.expectedToken .whenKw) >> .recoverTo [.whenKw, .thenKw]) >>
      .whenAt .whenKw (.call .whenClause) >>
      .whenAt .thenKw .skip (.fail (.expectedToken .thenKw) >> .recoverTo [.thenKw]) >>
      .whenAt .thenKw (.call .thenClause) >> .call (.blockEnd .rule) >> .lineTrivia) a := by
  refine pays_call_seq rfl rfl fun _ => .seq (pays_whenAt_open rfl rfl rfl rfl) fun _ =>
    pays_call_seq rfl rfl fun _ => .seq (l := n + 1) (.when (fun _ => ?_) fun _ => ?_) fun _ =>
    .seq (.whenAt (fun _ => .skip) fun _ => .fail_seq .recoverTo) fun _ =>
    .seq (pays_whenAt_open rfl rfl rfl rfl) fun _ =>
    .seq (.whenAt (fun _ => .skip) fun _ => .fail_seq .recoverTo) fun _ =>
    .seq (pays_whenAt_open rfl rfl rfl rfl) fun _ => pays_call_seq rfl rfl fun _ => .lineTrivia
  · exact pays_call rfl (Nat.ble_eq_true_of_le (by change 3 + (n + 1) ≤ n + 4; omega))
  · exact .mono .skip (Nat.le_refl _) (Nat.add_le_add_left (by decide) n)

theorem pays_ruleDecl : Pays prices 7 0 Declarations.ruleDecl a :=
  .node (.seq .take fun _ => pays_ruleRest 0)

theorem pays_ruleDecl_one (h : a.current ≠ .eof) : Pays prices 7 32 Declarations.ruleDecl a :=
  .node (.bump_seq h fun _ => .enough (pays_ruleRest 64) rfl)

theorem pays_declName (role : Role) : Pays prices 0 0 (Declarations.declName role) a :=
  .when (fun _ => .inner .take) fun _ => .fail

theorem pays_parent (h : a.current ≠ .eof) : Pays prices 0 32 Declarations.parent a :=
  .inner (.bump_seq (by simpa using h) fun _ =>
    .enough (.when (fun _ => .take) fun _ => .complain) rfl)

theorem pays_attributeList : Pays prices 2 0 Declarations.attributeList a :=
  .inner (pays_call rfl rfl)

theorem pays_attributes : Pays prices 1 0 Declarations.attributes a := by
  refine .look ?_
  split
  · rename_i h
    exact .bump_seq (ne_eof_of_isAt h rfl) fun _ => .seq (.eat_skip rfl) fun _ => pays_call rfl rfl
  · split
    · rename_i h
      exact .bump_seq (ne_eof_of_isAt h rfl) fun _ => pays_call rfl rfl
    · split
      · rename_i h
        have hc : a.current ≠ .eof := by
          intro he
          simp [Ahead.isAt, he, Kind.isAttributeKeyword, Kind.raw] at h
        exact .seq (pays_open rfl rfl hc) fun _ => pays_call rfl rfl
      · exact .enough .skip rfl

/-- The value of an attribute pays for itself, so the first token decides what is left. -/
theorem pays_attributeItem (h : ∀ b, b.current = a.current → Pays prices m k .bump b) :
    Pays prices m k Declarations.attributeItem a := by
  refine .inner (.look_seq ?_)
  generalize hv : (Grammar.bump >> Grammar.look _ : Rule) = value
  have hvalue : Pays prices m k value a.afterTrivia := by
    subst hv
    refine .seq (h _ (by simp)) fun b => .look ?_
    split
    case h_1 hc =>
      refine .inner (.bump_seq (by simp [hc]) fun _ => pays_call rfl (Nat.ble_eq_true_of_le ?_))
      change 1 + k ≤ k + 64
      omega
    case h_6 =>
      split
      · exact .inner .take
      · exact .skip
    case h_7 => exact .inner .balanced
    case h_8 => exact .skip
    all_goals exact .inner .take
  split
  · split
    · exact .complain_seq hvalue
    · exact .skip_seq hvalue
  · exact .skip_seq hvalue

theorem pays_attribute : Pays prices 0 0 Declarations.attributeItem a :=
  pays_attributeItem fun _ _ => .take

theorem pays_attribute_one (h : a.current ≠ .eof) : Pays prices 0 32 Declarations.attributeItem a :=
  .enough (pays_attributeItem fun _ hb => .take_one Nat.one_pos (hb ▸ h)) rfl

theorem pays_stringList : Pays prices 0 0 Declarations.stringList a := by
  refine .when (fun h => ?_) fun _ => .skip
  exact .take_seq Nat.two_pos (ne_eof_of_isAt (Bool.and_eq_true_iff.1 h).1 rfl)
    fun _ => pays_call rfl rfl

theorem pays_whenClause (h : a.current ≠ .eof) : Pays prices 0 32 Declarations.whenClause a :=
  .inner (.bump_seq (by simpa using h) fun _ => .seq (.eat_skip rfl) fun _ => pays_call rfl rfl)

theorem pays_thenClause (h : a.current ≠ .eof) : Pays prices 0 32 Declarations.thenClause a :=
  .inner (.bump_seq (by simpa using h) fun _ => .inner (.enough (.eat_skip rfl) rfl))

theorem pays_blockEnd (block : Block) : Pays prices 0 0 (Declarations.blockEnd block) a :=
  .eat rfl (fun _ => .enough .skip rfl) (.whenAt (fun _ => .complain) fun _ => .fail)

theorem pays_parameterList (h : a.current ≠ .eof) : Pays prices 0 32 Declarations.parameterList a :=
  .inner (.bump_seq (by simpa using h) fun _ =>
    .seq (l := 32) (.whenAt (fun _ => .enough .skip rfl) fun _ => pays_call rfl rfl)
      fun _ => .expect_skip rfl)

theorem pays_parameters : Pays prices 3 0 Declarations.parameters a :=
  pays_call_seq rfl rfl fun _ => .eat rfl (fun _ => pays_call rfl rfl) .skip

theorem pays_parameter : Pays prices 2 0 Declarations.parameter a :=
  .inner (pays_call_seq rfl rfl fun _ => .when (fun _ => .take) fun _ => .skip)

theorem pays_compilationUnit : Pays prices 9 0 Declarations.compilationUnit a :=
  .node (pays_call_seq rfl rfl fun _ => .trivia)

/-- A declaration gives back what the declarations after it cost. -/
theorem pays_declarations : Pays prices 8 0 Declarations.declarations a := by
  have hdeclaration {p : Production} {b : Ahead} (hm : p.price.ble 8 = true)
      (ho : (p.opens && p != .pattern) = true) (h : b.current ≠ .eof) :
      Pays prices 8 0 (.call p >> .call .declarations) b :=
    .seq (pays_open hm ho h) fun _ => pays_call rfl (Nat.ble_eq_true_of_le
      (by change 9 ≤ 8 - p.price + 32; omega))
  refine .seq .recovered fun b => .look ?_
  split
  case h_1 => exact .enough .skip rfl
  case h_9 h _ _ _ _ _ _ _ => exact hdeclaration rfl rfl h
  all_goals
    rename_i h
    exact hdeclaration rfl rfl (Ahead.current_ne_eof h rfl)

end Grammar

namespace Production

/-- The bodies of all productions keep to the prices. -/
theorem prices_obeyed : prices.Obeyed Production.body := by
  intro p a hready
  have either (h : p.starts a = false → Pays prices (p.price - 1) 0 p.body a)
      (hone : p.starts a = true → Pays prices (p.price - 1) 32 p.body a) :
      Pays prices (p.price - 1) (prices.refund p a) p.body a := by
    change Pays prices (p.price - 1) (if p.starts a then 32 else 0) p.body a
    split
    · exact hone ‹_›
    · exact h (Bool.eq_false_iff.2 ‹_›)
  have never (hs : p.starts a = false) (h : Pays prices (p.price - 1) 0 p.body a) :
      Pays prices (p.price - 1) (prices.refund p a) p.body a :=
    either (fun _ => h) fun hone => by simp [hs] at hone
  have always (ho : p.awaits = true)
      (h : p.starts a = true → Pays prices (p.price - 1) 32 p.body a) :
      Pays prices (p.price - 1) (prices.refund p a) p.body a :=
    either (fun hs => by simp [hready ho] at hs) h
  cases p with
  | compilationUnit => exact never rfl pays_compilationUnit
  | declarations => exact never rfl pays_declarations
  | packageDecl => exact always rfl fun h => pays_packageDecl (ne_eof_of_starts rfl h)
  | importDecl => exact always rfl fun h => pays_importDecl (ne_eof_of_starts rfl h)
  | globalDecl => exact always rfl fun h => pays_globalDecl (ne_eof_of_starts rfl h)
  | functionDecl => exact always rfl fun h => pays_functionDecl (ne_eof_of_starts rfl h)
  | queryDecl => exact always rfl fun h => pays_queryDecl (ne_eof_of_starts rfl h)
  | declareDecl => exact always rfl fun h => pays_declareDecl (ne_eof_of_starts rfl h)
  | ruleDecl =>
    exact either (fun _ => pays_ruleDecl) fun h => pays_ruleDecl_one (ne_eof_of_starts rfl h)
  | strayTokens => exact always rfl fun h => pays_strayTokens (ne_eof_of_starts rfl h)
  | supertypes => exact never rfl pays_supertypes
  | annotations => exact never rfl pays_annotations
  | annotated => exact always rfl fun h => pays_annotated (ne_eof_of_starts rfl h)
  | fields => exact never rfl pays_fields
  | field => exact always rfl fun h => pays_field (ne_eof_of_starts rfl h)
  | declName role => exact never rfl (pays_declName role)
  | parent => exact always rfl fun h => pays_parent (ne_eof_of_starts rfl h)
  | attributeList => exact never rfl pays_attributeList
  | attributes => exact never rfl pays_attributes
  | «attribute» =>
    exact either (fun _ => pays_attribute) fun h => pays_attribute_one (ne_eof_of_starts rfl h)
  | stringList => exact never rfl pays_stringList
  | whenClause => exact always rfl fun h => pays_whenClause (ne_eof_of_starts rfl h)
  | thenClause => exact always rfl fun h => pays_thenClause (ne_eof_of_starts rfl h)
  | blockEnd block => exact never rfl (pays_blockEnd block)
  | parameterList => exact always rfl fun h => pays_parameterList (ne_eof_of_starts rfl h)
  | parameters => exact never rfl pays_parameters
  | parameter => exact never rfl pays_parameter
  | qualifiedName => exact either pays_qualifiedName pays_qualifiedName_one
  | nameParts => exact never rfl pays_nameParts
  | typeRef => exact never rfl pays_typeRef
  | dimensions => exact never rfl pays_dimensions
  | conditions => exact never rfl pays_conditions
  | lhsOr => exact either (fun _ => pays_lhsOr) pays_lhsOr_one
  | lhsOrRest => exact never rfl pays_lhsOrRest
  | lhsAnd => exact either (fun _ => pays_lhsAnd) pays_lhsAnd_one
  | lhsAndRest => exact never rfl pays_lhsAndRest
  | lhsUnary => exact either pays_lhsUnary pays_lhsUnary_one
  | forallItems => exact never rfl pays_forallItems
  | prefixOperands => exact never rfl pays_prefixOperands
  | lhsParen => exact always rfl fun h => pays_lhsParen (ne_eof_of_starts rfl h)
  | pattern => exact either (fun _ => pays_pattern) pays_pattern_one
  | constraints => exact never rfl pays_constraints
  | binding => exact always rfl fun h => pays_binding (ne_eof_of_starts rfl h)
  | constraint => exact never rfl pays_constraint
  | window => exact always rfl fun h => pays_window (ne_eof_of_starts rfl h)
  | source => exact always rfl fun h => pays_source (ne_eof_of_starts rfl h)
  | accumulate => exact always rfl fun h => pays_accumulate (ne_eof_of_starts rfl h)
  | expr => exact never rfl pays_expr
  | ternary => exact never rfl pays_ternary
  | binary level half => exact never rfl (pays_binary level half)
  | binaryRest level => exact never rfl (pays_binaryRest level)
  | relational half => exact never rfl (pays_relational half)
  | relationalRest => exact never rfl pays_relationalRest
  | operator => exact always rfl fun h => pays_operator (ne_eof_of_starts rfl h)
  | relationalRhs op => exact never rfl (pays_relationalRhs op)
  | unary => exact never rfl pays_unary
  | postfixed => exact never rfl pays_postfixed
  | suffixes => exact never rfl pays_suffixes
  | primary => exact never rfl pays_primary
  | creation => exact always rfl fun h => pays_creation (ne_eof_of_starts rfl h)
  | creationDims => exact never rfl pays_creationDims
  | arrayInit => exact always rfl fun h => pays_arrayInit (ne_eof_of_starts rfl h)
  | arrayItems => exact never rfl pays_arrayItems
  | argList => exact always rfl fun h => pays_argList (ne_eof_of_starts rfl h)
  | arguments => exact never rfl pays_arguments

end Production

end RuleLang
