import RuleLang.Proofs.Grammar.Spends

/-!
# How many tokens the productions take

Each production takes the tokens that its callers count on, and ends as they count on.

## Main statements

* `Production.spends_body`, `Production.closes_body` — what the bodies of productions take.
* `Production.obeys` — reading without complaint takes what the callers count on.
-/

namespace RuleLang

open Grammar Production

/-! ## Type arguments -/

namespace Ahead

theorem typeArguments_pos {depth : Nat} {a : Ahead} (h : a.current ≠ .eof) :
    0 < a.typeArguments depth := by
  induction a with
  | nil => exact absurd rfl h
  | cons t ts ih =>
    rw [typeArguments_cons]
    cases ht : t.isTrivia with
    | true =>
      rw [current_cons_trivia ht] at h
      exact ih h
    | false =>
      rw [current_eq_head ht] at h
      rw [if_neg (by decide), if_neg (by simpa using h)]
      split <;> simp

/-- Type arguments end with a closing bracket or run up to the end of the input. -/
theorem lastKind_typeArguments {depth : Nat} {a : Ahead} (hd : depth ≠ 0 ∨ a.current = .lt)
    (before : Option Kind) :
    (a.after (a.typeArguments depth)).current = .eof ∨
      lastKind before (a.take (a.bumpLength (a.typeArguments depth))) = some .gt := by
  induction a generalizing depth before with
  | nil => exact .inl rfl
  | cons t ts ih =>
    rw [typeArguments_cons]
    by_cases ht : t.isTrivia = true
    · rw [if_pos ht, current_after_trivia ht]
      rw [current_cons_trivia ht] at hd
      refine (ih hd before).imp_right fun hlast => ?_
      cases hn : typeArguments depth ts with
      | zero =>
        rw [hn, bumpLength_zero] at hlast
        rwa [bumpLength_zero]
      | succ n =>
        rw [hn] at hlast
        rwa [bumpLength_of_isTrivia ht, List.take_succ_cons, lastKind_cons_trivia ht]
    rw [if_neg ht]
    rw [Bool.not_eq_true] at ht
    rw [current_eq_head ht] at hd
    by_cases he : t.kind = .eof
    · rw [if_pos (by simp [he])]
      exact .inl ((current_eq_head ht ts).trans he)
    rw [if_neg (by simpa using he)]
    by_cases hzero : angleDepthAfter depth t.kind = 0
    · rw [if_pos (by simp [hzero]), bumpLength_succ_cons ht he, bumpLength_zero,
        List.take_succ_cons, lastKind_cons ht]
      refine .inr (congrArg some ?_)
      -- only a closing bracket makes the depth zero
      unfold angleDepthAfter at hzero
      split at hzero
      · omega
      · rename_i hlt
        split at hzero
        · rename_i hgt
          exact beq_iff_eq.1 hgt
        · rcases hd with hd | hd
          · exact absurd hzero hd
          · exact absurd (by simp [hd]) hlt
    · rw [if_neg (by simpa using hzero), after_succ_cons ht he, bumpLength_succ_cons ht he,
        List.take_succ_cons, lastKind_cons ht]
      exact ih (.inl hzero) (some t.kind)

end Ahead

namespace Grammar

variable {a : Ahead}

theorem ne_eof_of_stringOrName (h : (a.isAt .stringLit || a.atName) = true) :
    a.current ≠ .eof := by
  rcases Bool.or_eq_true_iff.1 h with h | h
  · exact ne_eof_of_isAt h rfl
  · exact ne_eof_of_atName h

/-! ## Declarations -/

section

open Declarations

theorem closes_nameParts : Closes 0 nameParts a := by
  refine .when (fun h => ?_) fun _ => .skip
  obtain ⟨hdot, hname⟩ := Bool.and_eq_true_iff.1 h
  have hnext : a.nth 1 ≠ .eof := fun he => by rw [he] at hname; cases hname
  exact (Closes.two (ne_eof_of_isAt hdot rfl) hnext (Kind.isOpen_of_isName hname)).weaken.seq
    fun _ => .call (Nat.zero_le _) rfl

theorem closes_qualifiedName : Closes 1 qualifiedName a := by
  refine .when (fun h => .inner (.seq (.bumpName ?_) fun _ => .call (Nat.zero_le _) rfl))
    fun _ => .fail fun _ => rfl
  rwa [Ahead.atName, Ahead.current_afterTrivia]

theorem closes_dimensions : Closes 0 dimensions a := by
  refine .when (fun h => ?_) fun _ => .skip
  obtain ⟨hopen, hclose⟩ := Bool.and_eq_true_iff.1 h
  have hclose := beq_iff_eq.1 hclose
  exact (Closes.two (ne_eof_of_isAt hopen rfl) (by simp [hclose]) (by rw [hclose]; rfl)).weaken.seq
    fun _ => .call (Nat.zero_le _) rfl

theorem closes_typeArguments (h : a.current = .lt) :
    Closes 0 (.look fun a => .take (a.typeArguments 0)) a := by
  refine ⟨.zero, ?_⟩
  rintro enters hE x y rfl hy
  have htake : (Grammar.take (x.ahead.typeArguments 0) : Rule).Accepts enters x y := hy
  rcases Ahead.lastKind_typeArguments (.inr h) none with heof | hlast
  · exact .inl (by rw [ahead_of_take htake, heof])
  · refine .inr fun taken htaken => ?_
    rw [Point.Takes.taken_eq htake htaken, hlast]
    intro k hk
    cases hk
    rfl

theorem spends_typeArguments (h : a.current = .lt) :
    Spends 1 (.look fun a => .take (a.typeArguments 0)) a := by
  have hne : a.current ≠ .eof := Ahead.current_ne_eof h rfl
  exact .look ((Spends.take_min rfl).le
    (le_min (Ahead.typeArguments_pos hne) (Ahead.one_le_significant hne)))

theorem closes_typeRef : Closes 1 typeRef a := by
  refine .when (fun _ => .inner (.seq (.call le_rfl rfl) fun _ =>
    .seq (.whenAt closes_typeArguments fun _ => .skip) fun _ => .call (Nat.zero_le _) rfl))
    fun _ => .fail fun _ => rfl

theorem closes_blockEnd {block : Block} : Closes 1 (blockEnd block) a :=
  .eat rfl (fun _ => .skip)
    (.whenAt (fun _ => .complain rfl) fun _ => .fail fun _ => rfl)

theorem closes_ruleDecl : Closes 1 ruleDecl a :=
  .node (.last fun _ => .last fun _ => .last fun _ => .last fun _ => .last fun _ => .last fun _ =>
    .last fun _ => .last fun _ => .last fun _ => .seq (.call le_rfl rfl) fun _ => .lineTrivia)

theorem closes_stringList : Closes 0 stringList a := by
  refine .when (fun h => ?_) fun _ => .skip
  obtain ⟨hcomma, hstring⟩ := Bool.and_eq_true_iff.1 h
  have hstring := beq_iff_eq.1 hstring
  exact (Closes.two (ne_eof_of_isAt hcomma rfl) (by simp [hstring])
    (by rw [hstring]; rfl)).weaken.seq fun _ => .call (Nat.zero_le _) rfl

theorem closes_attributeValue : Closes 0 (.look fun a =>
    match a.current with
    | .stringLit => inner .attributeValue (Grammar.bump >> .call .stringList)
    | .intLit | .floatLit | .trueKw | .falseKw => inner .attributeValue Grammar.bump
    | .minus =>
      if a.nth 1 == .intLit || a.nth 1 == .floatLit then inner .attributeValue (.take 2)
      else .skip
    | .lParen => inner .attributeValue Grammar.balanced
    | _ => .skip) a := by
  have hcurrent := a.current_afterTrivia
  refine .look ?_
  split
  · rename_i h
    exact (Closes.inner ((Closes.bumpAt (hcurrent.trans h) rfl).seq
      fun _ => .call (Nat.zero_le _) rfl)).weaken
  iterate 4
    rename_i h
    exact (Closes.inner (.bumpAt (hcurrent.trans h) rfl)).weaken
  · rename_i h
    split
    · rename_i hnext
      have hnext : a.afterTrivia.nth 1 = .intLit ∨ a.afterTrivia.nth 1 = .floatLit := by
        simpa using hnext
      refine (Closes.inner (.two (Ahead.current_ne_eof (hcurrent.trans h) rfl) ?_ ?_)).weaken <;>
        rcases hnext with hnext | hnext <;> rw [hnext] <;> decide
    · exact .skip
  · rename_i h
    exact (Closes.inner (.balanced (by rw [hcurrent, h]; rfl))).weaken
  · exact .skip

/-- The warning about an unknown key takes nothing. -/
theorem accepts_attributeKey {enters : Production → Point → Point → Prop} {x y : Point} :
    (Grammar.look fun a =>
      match a.currentToken? with
      | some t => if t.kind == .ident then .complain (.unknownAttribute t.text) else .skip
      | none => .skip).Accepts enters x y ↔ y = x := by
  simp only [Accepts]
  split
  · split
    · exact and_iff_right rfl
    · exact Iff.rfl
  · exact Iff.rfl

theorem closes_attributeItem (h : a.current ≠ .eof) (hk : a.current.isOpen = false) :
    Closes 1 attributeItem a :=
  .inner (.idle_seq (fun _ _ _ hx hy => by rw [accepts_attributeKey.1 hy, hx]) (.seq
    (.bump (by rwa [Ahead.current_afterTrivia]) (by rwa [Ahead.current_afterTrivia]))
    fun _ => closes_attributeValue))

theorem spends_attributeItem (h : a.current ≠ .eof) : Spends 1 attributeItem a :=
  .inner (.idle_seq (fun _ _ _ hx hy => by rw [accepts_attributeKey.1 hy, hx])
    (Spends.bump (by rwa [Ahead.current_afterTrivia])).left)

theorem spends_packageDecl : Spends 1 packageDecl a :=
  .node (.right fun _ => Spends.left (.call le_rfl))

theorem spends_importDecl : Spends 1 importDecl a :=
  .node (.right fun _ => .right fun _ => Spends.left (.call le_rfl))

theorem spends_globalDecl : Spends 1 globalDecl a :=
  .node (.right fun _ => Spends.left (.call le_rfl))

theorem spends_functionDecl : Spends 1 functionDecl a :=
  .node (.right fun _ => Spends.left (.call le_rfl))

theorem spends_queryDecl : Spends 1 queryDecl a :=
  .node (.right fun _ => Spends.left (.call le_rfl))

theorem spends_declareDecl : Spends 1 declareDecl a :=
  .node (.right fun _ => .right fun _ => Spends.left (.call le_rfl))

theorem spends_strayTokens : Spends 1 strayTokens a :=
  .node (Spends.left (.fail fun _ => rfl))

theorem spends_annotated : Spends 1 annotated a :=
  .inner (.right fun _ => Spends.left (.call le_rfl))

theorem spends_binding : Spends (min 2 a.significant) (inner .binding (.take 2)) a :=
  .inner (Spends.take_min (Ahead.significant_afterTrivia a))

theorem spends_field : Spends (min 2 a.significant) field a :=
  .inner (Spends.left (.take_min (Ahead.significant_afterTrivia a)))

theorem spends_declName {role : Role} : Spends 1 (declName role) a := by
  refine .when (fun h => .inner (.bump ?_)) fun _ => .fail fun _ => rfl
  rw [Ahead.current_afterTrivia]
  exact ne_eof_of_stringOrName h

theorem spends_parent : Spends 1 parent a :=
  .inner (.right fun _ => .when (fun h => .bump (ne_eof_of_stringOrName h)) fun _ => .complain rfl)

theorem spends_parameter : Spends 1 parameter a :=
  .inner (Spends.left (.call le_rfl))

theorem spends_parameterList : Spends 1 parameterList a :=
  .inner (.right fun _ => .right fun _ => .expect rfl)

end

/-! ## Conditions -/

section

open Conditions

theorem spends_lhsUnary : Spends 1 lhsUnary a := by
  refine .look ?_
  split
  · rename_i h
    exact .inner_bump (Ahead.current_ne_eof h rfl)
  · rename_i h
    exact .inner_bump (Ahead.current_ne_eof h rfl)
  · rename_i h
    exact .inner_bump (Ahead.current_ne_eof h rfl)
  · rename_i h
    exact .inner_bump (Ahead.current_ne_eof h rfl)
  · exact .call le_rfl
  · exact .call le_rfl
  · exact .call le_rfl
  · exact .call le_rfl
  · exact .complain rfl

theorem spends_lhsParen : Spends 1 lhsParen a :=
  .inner (.right fun _ => .right fun _ => .expect rfl)

theorem closes_window : Closes 1 window a := by
  refine .inner (.last fun _ => .expect rfl fun _ => .weaken (.expect rfl fun _ => .weaken
    (.seq (.when .bumpName fun _ => .fail fun _ => rfl) fun b => ?_)))
  exact .whenAt (fun h => .weaken (.inner (.balanced (by rw [Ahead.current_afterTrivia, h]; rfl))))
    fun _ => .skip

theorem closes_source : Closes 1 source a := by
  refine .inner (.last fun _ => .look ?_)
  split
  · exact .call le_rfl rfl
  · exact .inner (.last fun _ => .expect rfl fun _ => .weaken (.last fun _ => .expect_skip rfl))
  · exact .inner (.last fun _ => .eat rfl (fun _ => .skip) (.call le_rfl rfl))
  · exact .call le_rfl rfl

theorem closes_accumulate : Closes 1 accumulate a :=
  .inner (.last fun _ => .expect rfl fun _ => .weaken (.last fun _ => .last fun _ =>
    .expect_skip rfl))

theorem closes_pattern : Closes 1 pattern a :=
  .inner (.last fun _ => .last fun _ => .last fun _ => .last fun _ =>
    .seq (.expect_skip rfl) fun _ =>
      .seq (.whenAt (fun _ => .call (Nat.zero_le _) rfl) fun _ => .skip) fun _ =>
        .whenAt (fun _ => .call (Nat.zero_le _) rfl) fun _ => .skip)

theorem closes_constraint : Closes 1 constraint a :=
  .inner (.last fun _ => .call le_rfl rfl)

end

/-! ## Expressions -/

section

open Expressions

theorem closes_operand {level : Level} {half : Bool} : Closes 1 (operand level half) a := by
  cases level <;> exact .call le_rfl rfl

theorem closes_ternary : Closes 1 ternary a :=
  .innerGroup (.seq (.call le_rfl rfl) fun _ => .whenAt
    (fun _ => .enclose (.weaken (.last fun _ => .last fun _ => .last fun _ => .call le_rfl rfl)))
    fun _ => .skip)

theorem closes_binary {level : Level} {half : Bool} : Closes 1 (binary level half) a :=
  .innerGroup (.seq closes_operand fun _ => .call (Nat.zero_le _) rfl)

theorem closes_binaryRest {level : Level} : Closes 0 (binaryRest level) a :=
  .when (fun _ => .seq (.weaken (.enclose (.last fun _ => closes_operand))) fun _ =>
    .call (Nat.zero_le _) rfl) fun _ => .skip

theorem closes_operation : Closes 1 operation a :=
  .look (.last fun _ => .call le_rfl rfl)

theorem closes_relational {half : Bool} : Closes 1 (relational half) a :=
  .when (fun _ => .inner closes_operation) fun _ =>
    .innerGroup (.seq (.call le_rfl rfl) fun _ => .call (Nat.zero_le _) rfl)

theorem closes_relationalRest : Closes 0 relationalRest a :=
  .when (fun _ => .seq (.weaken (.enclose closes_operation)) fun _ => .call (Nat.zero_le _) rfl)
    fun _ => .skip

/-- The symbol or the name of an operator. -/
theorem spends_symbol (h : a.current ≠ .eof) :
    Spends 1 (Grammar.eat .hashHash (Grammar.expect .ident) Grammar.bump) a :=
  .eat rfl (.bump h)

theorem spends_operator (h : a.current ≠ .eof) : Spends 1 operator a := by
  have h' : a.afterTrivia.current ≠ .eof := by rwa [Ahead.current_afterTrivia]
  refine .look (.inner ?_)
  by_cases hnot : a.afterTrivia.current = .notKw
  · exact Spends.left (.whenAt (fun _ => Spends.left (.bump h')) fun hne => absurd hnot hne)
  · refine .idle_seq (fun enters x y hx hy => ?_) (Spends.left (spends_symbol h'))
    rcases accepts_when hy with ⟨htest, -⟩ | ⟨-, hy⟩
    · exact absurd (hx ▸ beq_iff_eq.1 htest) hnot
    · rw [show y = x from hy, hx]

/-- A negated operator. -/
theorem spends_negated {g : Rule} (h : a.current = .notKw) (hnext : a.nth 1 ≠ .eof) :
    Spends 2 (.inner .operator (Grammar.eat .notKw >>
      Grammar.eat .hashHash (Grammar.expect .ident) Grammar.bump >> g)) a := by
  have h' : a.afterTrivia.current = .notKw := by rwa [Ahead.current_afterTrivia]
  have hne := Ahead.current_ne_eof h' rfl
  refine .inner (.after_bump hne (fun enters x y hx hy => ?_) (Spends.left (spends_symbol ?_)))
  · rcases accepts_when hy with ⟨-, z, hz, hy⟩ | ⟨htest, -⟩
    · rwa [show y = z from hy]
    · rw [hx, Ahead.isAt, h'] at htest
      cases htest
  · rwa [Ahead.current_after_one hne, Ahead.nth_afterTrivia]

theorem closes_relationalRhs {op : Kind} : Closes 1 (relationalRhs op) a := by
  unfold Expressions.relationalRhs
  split
  · exact .call le_rfl rfl
  · exact .when (fun _ => .call le_rfl rfl) fun _ => .call le_rfl rfl

theorem closes_unary : Closes 1 unary a := by
  refine .look ?_
  split
  all_goals first
    | exact .inner (.last fun _ => .call le_rfl rfl)
    | split
      · exact .inner (.last fun _ => .last fun _ => .last fun _ => .call le_rfl rfl)
      · exact .call le_rfl rfl

theorem closes_postfixed : Closes 1 postfixed a :=
  .innerGroup (.seq (.call le_rfl rfl) fun _ => .call (Nat.zero_le _) rfl)

theorem closes_suffixes : Closes 0 suffixes a := by
  have hmore (b : Ahead) : Closes 0 (.call .suffixes) b := .call (Nat.zero_le _) rfl
  have hname (h : a.current ≠ .eof) : Closes 0 (if (a.nth 1).isName then
      .seq (.take 2) (.seq (.whenAt .lParen (.seq (.call .argList) (.enclose .methodCall .skip))
        (.enclose .fieldAccess .skip)) (.call .suffixes))
      else .skip) a := by
    split
    · rename_i hnext
      have hne : a.nth 1 ≠ .eof := fun he => by rw [he] at hnext; cases hnext
      exact .seq (.weaken (.two h hne (Kind.isOpen_of_isName hnext))) fun _ =>
        .seq (.whenAt (fun _ => .seq (.call (Nat.zero_le _) rfl) fun _ => .enclose .skip)
          fun _ => .enclose .skip) hmore
    · exact .skip
  have hstep {k : Kind} (h : a.current = k) (hk : (k == .eof || k.isOpen) = false) :
      Closes 0 (if a.adjacent then
        .seq .bump (.seq (.enclose .unaryExpr .skip) (.call .suffixes)) else .skip) a := by
    split
    · exact .seq (.weaken (.bumpAt h hk)) fun _ => .seq (.enclose .skip) hmore
    · exact .skip
  refine .look ?_
  split
  · rename_i h
    exact hname (Ahead.current_ne_eof h rfl)
  · rename_i h
    exact hname (Ahead.current_ne_eof h rfl)
  · rename_i h
    split
    · exact .seq (.weaken (.bumpAt h rfl)) fun _ => .seq (.call (Nat.zero_le _) rfl) fun _ =>
        .seq (.enclose .skip) hmore
    · exact .skip
  · rename_i h
    exact .seq (.weaken (.bumpAt h rfl)) fun _ => .seq (.call (Nat.zero_le _) rfl) fun _ =>
      .seq (.weaken (.expect_skip rfl)) fun _ => .seq (.enclose .skip) hmore
  · rename_i h
    exact hstep h rfl
  · rename_i h
    exact hstep h rfl
  · exact .skip

theorem closes_primary : Closes 1 primary a := by
  have hcurrent := a.current_afterTrivia
  refine .look ?_
  split
  · rename_i h
    obtain ⟨heof, hopen⟩ := Kind.closed_of_isLiteral h
    exact .inner (.bump (by rwa [hcurrent]) (by rwa [hcurrent]))
  split
  · rename_i h
    exact .innerGroup (.seq (.node (.bumpName (by rwa [Ahead.atName, hcurrent])))
      fun _ => .when (fun _ => .seq (.call (Nat.zero_le _) rfl) fun _ => .enclose .skip)
        fun _ => .skip)
  split
  · exact .call le_rfl rfl
  · exact .inner (.last fun _ => .last fun _ => .last fun _ => .expect_skip rfl)
  · exact .call le_rfl rfl
  · exact .complain rfl

theorem closes_creation : Closes 1 creation a := by
  refine .inner (.last fun _ => .last fun b => .look ?_)
  split
  · exact .call le_rfl rfl
  · rename_i h
    refine .seq (.call ?_ rfl) fun c => .whenAt (fun h => .weaken (.balanced ?_)) fun _ => .skip
    · rw [least, if_pos (by simp [Ahead.isAt, h])]
    · rw [h]
      rfl
  · exact .complain rfl

theorem closes_creationDims : Closes (creationDims.least a) Expressions.creationDims a := by
  cases h : a.isAt .lBracket with
  | true =>
    rw [least, if_pos h]
    refine .when (fun _ => .seq (.balanced ?_) fun _ => .call (Nat.zero_le _) rfl)
      fun hne => by rw [h] at hne; cases hne
    rw [beq_iff_eq.1 h]
    rfl
  | false =>
    rw [least, if_neg (by simp [h])]
    exact .when (fun hat => by rw [h] at hat; cases hat) fun _ => .skip

theorem closes_arrayInit : Closes 1 arrayInit a :=
  .inner (.last fun _ => .last fun _ => .expect_skip rfl)

theorem closes_argList : Closes 1 argList a :=
  .inner (.last fun _ => .last fun _ => .last fun _ => .expect_skip rfl)

end

end Grammar

/-! ## All productions -/

namespace Production

variable {a : Ahead}

/-- What ends with a token that needs nothing after it. -/
theorem closes_body (p : Production) (h : p.closes a = true) : Closes (p.least a) p.body a := by
  cases p with
  | ruleDecl => exact closes_ruleDecl
  | «attribute» =>
    have hopen : a.current.isOpen = false := by simpa [closes] using h
    by_cases he : a.current = .eof
    · rw [least, if_pos (by simp [he])]
      exact .inner (.of_current_eof (by rwa [Ahead.current_afterTrivia]))
    · rw [least, if_neg (by simp [he])]
      exact closes_attributeItem he hopen
  | stringList => exact closes_stringList
  | blockEnd => exact closes_blockEnd
  | qualifiedName => exact closes_qualifiedName
  | nameParts => exact closes_nameParts
  | typeRef => exact closes_typeRef
  | dimensions => exact closes_dimensions
  | pattern => exact closes_pattern
  | constraint => exact closes_constraint
  | window => exact closes_window
  | source => exact closes_source
  | accumulate => exact closes_accumulate
  | expr => exact .call le_rfl rfl
  | ternary => exact closes_ternary
  | binary => exact closes_binary
  | binaryRest => exact closes_binaryRest
  | relational => exact closes_relational
  | relationalRest => exact closes_relationalRest
  | relationalRhs => exact closes_relationalRhs
  | unary => exact closes_unary
  | postfixed => exact closes_postfixed
  | suffixes => exact closes_suffixes
  | primary => exact closes_primary
  | creation => exact closes_creation
  | creationDims => exact closes_creationDims
  | arrayInit => exact closes_arrayInit
  | argList => exact closes_argList
  | _ => cases h

/-- What takes a token wherever there is one. -/
theorem spends_of_current {g : Rule} (h : a.current ≠ .eof → Spends 1 g a) :
    Spends (if a.current == .eof then 0 else 1) g a := by
  split
  · exact .zero
  · rename_i he
    exact h (by simpa using he)

/-- Reading takes as many tokens as the callers count on. -/
theorem spends_body (p : Production) : Spends (p.least a) p.body a := by
  cases hcloses : p.closes a with
  | true => exact (p.closes_body hcloses).1
  | false =>
    cases p with
    | packageDecl => exact spends_packageDecl
    | importDecl => exact spends_importDecl
    | globalDecl => exact spends_globalDecl
    | functionDecl => exact spends_functionDecl
    | queryDecl => exact spends_queryDecl
    | declareDecl => exact spends_declareDecl
    | strayTokens => exact spends_strayTokens
    | annotated => exact spends_annotated
    | field => exact spends_field
    | declName => exact spends_declName
    | parent => exact spends_parent
    | «attribute» => exact spends_of_current spends_attributeItem
    | whenClause => exact spends_of_current .inner_bump
    | thenClause => exact spends_of_current .inner_bump
    | parameterList => exact spends_parameterList
    | parameters => exact Spends.left (.call le_rfl)
    | parameter => exact spends_parameter
    | lhsOr => exact .innerGroup (Spends.left (.call le_rfl))
    | lhsAnd => exact .innerGroup (Spends.left (.call le_rfl))
    | lhsUnary => exact spends_lhsUnary
    | lhsParen => exact spends_lhsParen
    | constraints => exact Spends.left (.call le_rfl)
    | binding => exact spends_binding
    | operator => exact spends_of_current spends_operator
    | arrayItems => exact Spends.left (.call le_rfl)
    | arguments => exact Spends.left (.call le_rfl)
    | compilationUnit | declarations | supertypes | annotations | fields | attributeList
    | attributes | conditions | lhsOrRest | lhsAndRest | forallItems | prefixOperands => exact .zero
    | _ => cases hcloses

theorem spends_operand_open {level : Level} {half : Bool} {k : Nat}
    (h : a.current.isOpen = true) : Spends k (Expressions.operand level half) a := by
  cases level <;> exact .call_operand rfl h

/-- No operand starts with a token that needs something after it. -/
theorem spends_open {p : Production} {k : Nat} (hp : p.startsOperand = true)
    (h : a.current.isOpen = true) : Spends k p.body a := by
  have h' : a.afterTrivia.current.isOpen = true := by rwa [Ahead.current_afterTrivia]
  have hcases := Kind.isOpen_cases h
  cases p with
  | constraint =>
    refine .inner (.idle_seq (fun enters x y hx hy => ?_) (.call_operand rfl h'))
    rcases accepts_when hy with ⟨htest, -⟩ | ⟨-, hy⟩
    · rw [hx, Bool.and_eq_true, Ahead.atName, Ahead.current_afterTrivia] at htest
      rcases hcases with hcur | hcur <;> rw [hcur] at htest <;> cases htest.1
    · rw [show y = x from hy, hx]
  | expr => exact .call_operand rfl h
  | ternary => exact .innerGroup (Spends.left (.call_operand rfl h'))
  | binary => exact .innerGroup (Spends.left (spends_operand_open h'))
  | relational half =>
    refine .when (fun htest => ?_) fun _ => .innerGroup (Spends.left (.call_operand rfl h'))
    have htest := (Bool.and_eq_true_iff.1 htest).2
    rcases hcases with hcur | hcur <;> rw [Expressions.atHalfConstraint, hcur] at htest <;>
      cases htest
  | unary =>
    have hcast : Expressions.atCast a = false := by
      rw [Expressions.atCast, Ahead.isAt]
      rcases hcases with hcur | hcur <;> rw [hcur] <;> rfl
    refine .look ?_
    rcases hcases with hcur | hcur <;> simp only [hcur, hcast] <;> exact .call_operand rfl h
  | postfixed => exact .innerGroup (Spends.left (.call_operand rfl h'))
  | primary =>
    refine .look ?_
    rcases hcases with hcur | hcur <;> rw [hcur] <;> exact .complain rfl
  | _ => cases hp

/-- Reading without complaint takes what the callers count on. -/
theorem obeys : (depth : Nat) → Obeys (Enters body depth)
  | 0 => ⟨False.elim, False.elim, False.elim, False.elim⟩
  | depth + 1 => {
      passes := fun h => (obeys depth).accepts_passes h
      least := fun h => spends_body _ _ (obeys depth) _ _ rfl h
      operand := fun {_ x _} h hp => by
        by_contra hopen
        have := spends_open (k := x.ahead.significant + 1) hp (by simpa using hopen) _
          (obeys depth) _ _ rfl h
        omega
      rests := fun h hcloses => (closes_body _ hcloses).2 _ (obeys depth) _ _ rfl h }

end Production

end RuleLang
