import RuleLang.Grammar.Rules
import RuleLang.Proofs.Grammar.Carries

/-!
# The productions read changed tokens

All productions read the changed tokens as the changed elements, apart from those that build the
nodes of a special kind. A production is shown to do so under the assumption that the productions
that it enters do, which is what the induction on the nesting provides.

## Main definitions

* `Production.standsAlone` — productions that give trivia and a single node, whatever the group.
* `Correspondence.Suits` — the groups that a production may be entered in.

## Main statements

* `Grammar.Carried.body` — the productions that are not concerned by special nodes.
-/

namespace RuleLang

open Grammar Ahead

/-- A condition: it gives trivia and nodes, whatever the group. -/
def Production.standsAlone : Production → Bool
  | .lhsOr | .lhsAnd | .lhsUnary | .prefixOperands | .lhsParen | .pattern | .accumulate => true
  | _ => false

/-- A production that builds nodes which a change may treat in a way of its own. -/
def Production.isSensitive : Production → Bool
  | .lhsOr | .lhsAnd | .lhsUnary | .lhsParen | .pattern | .thenClause | .functionDecl
  | .binary _ _ | .binaryRest _ | .relational _ => true
  | _ => false

/-- A group with elements changed by `φ` that a production may be entered in. -/
structure Correspondence.Suits (C : Correspondence) (p : Production) (φ : Element → Element) :
    Prop where
  fits : C.Fits φ
  eq : p.standsAlone = false → φ = C.image

theorem Correspondence.suits_image (C : Correspondence) (p : Production) : C.Suits p C.image where
  fits := C.fits_image
  eq _ := rfl

namespace Grammar

/-- A production reads the changed tokens as the changed elements. -/
abbrev Carried (C : Correspondence) (enters : Production → Point → Point → Prop)
    (φ : Element → Element) (g : Rule) : Prop :=
  Carries Production.body C enters φ g

/-- All productions do so. -/
def AllCarried (C : Correspondence) (enters : Production → Point → Point → Prop) : Prop :=
  ∀ p φ, C.Suits p φ → Carried C enters φ (.call p)

namespace Carried

variable {C : Correspondence} {enters : Production → Point → Point → Prop}
  {φ : Element → Element}

/-! ## Decisions -/

theorem beq_join {j : Kind} (hj : j.isJoin = false) :
    ∀ k : Kind, k.isJoin = true → (k == j) = false :=
  fun _ hk => beq_eq_false_of_isJoin hk hj

theorem stable_isOr : Stable Conditions.isOr := by
  intro a b h
  exact h.current_rec (motive := fun j k => (k == .orKw || k == .pipePipe) =
    (j == .orKw || j == .pipePipe)) (fun _ => rfl) rfl rfl

theorem stable_isAnd : Stable Conditions.isAnd := by
  intro a b h
  exact h.current_rec (motive := fun j k => (k == .andKw || k == .ampAmp) =
    (j == .andKw || j == .ampAmp)) (fun _ => rfl) rfl rfl

theorem stable_atHalfConstraint : Stable Expressions.atHalfConstraint := by
  intro a b h
  cases hj : a.current.isJoin with
  | false =>
    have hword := (h.nth_one hj).apply (f := Kind.isWordOperator) rfl rfl
    have hin := (h.nth_one hj).apply (f := (· == .inKw)) rfl rfl
    have hhash := (h.nth_one hj).apply (f := (· == .hashHash)) rfl rfl
    simp only [Expressions.atHalfConstraint, h.current.eq_of_not_isJoin hj, hword, hin, hhash]
  | true =>
    have hj' := h.current.isJoin.trans hj
    rcases Kind.isJoin_cases hj with hk | hk | hk | hk <;>
      rcases Kind.isJoin_cases hj' with hk' | hk' | hk' | hk' <;>
        simp only [Expressions.atHalfConstraint, hk, hk'] <;> rfl

theorem stable_atRelationalOperator : Stable Expressions.atRelationalOperator := by
  intro a b h
  cases hj : a.current.isJoin with
  | false =>
    have hstart := (h.nth_one hj).apply (f := Expressions.isOperandStart) rfl rfl
    have hword := (h.nth_one hj).apply (f := Kind.isWordOperator) rfl rfl
    have hin := (h.nth_one hj).apply (f := (· == .inKw)) rfl rfl
    have hident := (h.nth_one hj).apply (f := (· == .ident)) rfl rfl
    have hhash := (h.nth_one hj).apply (f := (· == .hashHash)) rfl rfl
    simp only [Expressions.atRelationalOperator, h.current.eq_of_not_isJoin hj, hstart, hword, hin,
      hident, hhash]
  | true =>
    have hj' := h.current.isJoin.trans hj
    rcases Kind.isJoin_cases hj with hk | hk | hk | hk <;>
      rcases Kind.isJoin_cases hj' with hk' | hk' | hk' | hk' <;>
        simp only [Expressions.atRelationalOperator, hk, hk'] <;> rfl

theorem same_operatorKind {a b : Ahead} (h : Agree a b) :
    Kind.Same (Expressions.operatorKind a) (Expressions.operatorKind b) := by
  have hnot : b.isAt .notKw = a.isAt .notKw := Stable.isAt rfl h
  have hk : Kind.Same (if a.isAt .notKw then a.nth 1 else a.current)
      (if b.isAt .notKw then b.nth 1 else b.current) := by
    rw [hnot]
    split
    · rename_i hn
      refine h.nth_one ?_
      rw [show a.current = .notKw by simpa [isAt] using hn]
      rfl
    · exact h.current
  unfold Expressions.operatorKind
  rcases hk with hk | ⟨hj, hk⟩
  · rw [hk]
    exact .refl _
  · rw [hk]
    rcases Kind.isJoin_cases hj with hj | hj | hj | hj <;> rw [hj] <;>
      first | exact .inl rfl | exact .inr ⟨rfl, rfl⟩

/-- The right side that an operator asks for depends on the operator only if that does not join. -/
theorem relationalRhs_eq_of_same {k k' : Kind} (h : Kind.Same k k') :
    Expressions.relationalRhs k' = Expressions.relationalRhs k :=
  h.apply rfl rfl

/-! ## Names and types -/

variable (ih : AllCarried C enters)

include ih

/-- A production that is entered in a group whose elements become their images. -/
theorem call (p : Production) : Carried C enters C.image (.call p) :=
  ih p C.image (C.suits_image p)

theorem nameParts : Carried C enters C.image Declarations.nameParts :=
  .when (.next_two (p := (· == .dot)) (q := Kind.isName) (beq_join rfl) rfl rfl)
    (.seq (.take C.image_token 2) (call ih _)) .skip

theorem qualifiedName : Carried C enters C.image Declarations.qualifiedName :=
  .when (.current rfl rfl)
    (.inner C.fits_image (C.not_special rfl) (.seq (.bump C.image_token) (call ih _)))
    (.fail fun _ => rfl)

theorem dimensions : Carried C enters C.image Declarations.dimensions :=
  .when (.next_two (p := (· == .lBracket)) (q := (· == .rBracket)) (beq_join rfl) rfl rfl)
    (.seq (.take C.image_token 2) (call ih _)) .skip

theorem typeRef : Carried C enters C.image Declarations.typeRef := by
  refine .when (.current rfl rfl) (.inner C.fits_image (C.not_special rfl) ?_) (.fail fun _ => rfl)
  refine .seq (call ih _) (.seq (.whenAt rfl ?_ .skip) (call ih _))
  exact .look_take C.image_token (stableCount_typeArguments 0)

/-! ## Expressions -/

theorem ternary : Carried C enters C.image Expressions.ternary := by
  refine .innerGroup C.fits_image.trivia (.seq (call ih _) (.whenAt rfl ?_ .skip))
  refine .enclose (C.not_special rfl) (.seq (.bump C.image_token) (.seq (call ih _) ?_))
  exact .seq (.expect C.image_token rfl .skip) (call ih _)

theorem operand (level : Level) (half : Bool) :
    Carried C enters C.image (Expressions.operand level half) := by
  cases level <;> exact call ih _

theorem binary (level : Level) (half : Bool) :
    Carried C enters C.image (Expressions.binary level half) :=
  .innerGroup C.fits_image.trivia (.seq (operand ih level half) (call ih _))

omit ih in
theorem contains_operators_of_same {level : Level} {k k' : Kind} (h : Kind.Same k k')
    (hk : level.operators.contains k = false) : level.operators.contains k' = false := by
  rcases h with rfl | ⟨hj, rfl⟩
  · exact hk
  · rcases Kind.isJoin_cases hj with rfl | rfl | rfl | rfl <;> cases level <;> rfl

omit ih in
theorem ne_eof_of_contains_operators {level : Level} {k : Kind}
    (h : level.operators.contains k = true) : k ≠ .eof := by
  rintro rfl
  cases level <;> cases h

theorem binaryRest (hbinary : C.special .binaryExpr = false) (level : Level) :
    Carried C enters C.image (Expressions.binaryRest level) := by
  intro x y hxy
  cases hop : level.operators.contains x.ahead.current with
  | false =>
    simp only [Expressions.binaryRest, Grammar.when, Accepts, hop, Bool.false_eq_true,
      if_false] at hxy
    subst hxy
    refine ⟨[], fun us b hu hb => ?_⟩
    obtain rfl : us = [] := by simpa using hu
    have := contains_operators_of_same (C.agree hb).current hop
    refine ⟨hb, 0, ?_⟩
    simp only [Expressions.binaryRest, Grammar.when, Accepts, List.nil_append, this,
      Bool.false_eq_true, if_false]
  | true =>
    simp only [Expressions.binaryRest, Grammar.when, Accepts, hop, if_true] at hxy
    obtain ⟨z, hxz, hzy⟩ := hxy
    obtain ⟨ms, hrest⟩ := call ih (.binaryRest level) z y hzy
    obtain ⟨ls, henclose⟩ := Carries.enclose_bump C.image_token
      (fun cs => C.image_node _ cs hbinary) (operand ih level level.admitsHalf) hxz
      (ne_eof_of_contains_operators hop)
    refine ⟨ls ++ ms, fun us b hu hb => ?_⟩
    obtain ⟨us, us', rfl, hus, hus'⟩ := List.map_eq_append_iff.1 hu
    obtain ⟨hrz, hacc'⟩ := hrest us' b hus' hb
    obtain ⟨hrx, hcur, hacc⟩ := henclose us (us' ++ b) (us' ++ b) hus hrz
    rw [List.append_assoc]
    refine ⟨hrx, ?_⟩
    obtain ⟨d, hd⟩ := hacc.seq hacc'
    refine ⟨d, ?_⟩
    simp only [Expressions.binaryRest, Grammar.when, Accepts, hcur, hop, if_true]
    exact hd

theorem relationalRhs (op : Kind) : Carried C enters C.image (Expressions.relationalRhs op) := by
  unfold Expressions.relationalRhs
  split
  · exact call ih _
  · refine .when ?_ (call ih _) (call ih _)
    exact .map₂ (.const _) (.isAt rfl) _

omit ih in
theorem operator : Carried C enters C.image Expressions.operator := by
  have htest : Stable fun a =>
      Expressions.operatorKind a == .ident || Expressions.operatorKind a == .strKw :=
    fun a b h => (same_operatorKind h).apply (f := fun k => k == .ident || k == .strKw) rfl rfl
  refine .look_stable (fun a b h => ?_) fun a => ?_
  · have := htest h
    simp only [this]
  · refine .inner C.fits_image (C.not_special rfl) (.seq (.eat C.image_token rfl .skip .skip) ?_)
    refine .seq (.eat C.image_token rfl (.expect C.image_token rfl .skip) (.bump C.image_token)) ?_
    split
    · refine .whenAt rfl (.inner C.fits_image (C.not_special rfl) ?_) .skip
      exact .seq (.bump C.image_token) (.seq (.untilClose C.image_token rfl)
        (.expect C.image_token rfl .skip))
    · exact .skip

theorem operation : Carried C enters C.image Expressions.operation := by
  rintro x y hxy
  obtain ⟨ls, h⟩ := ((call ih .operator).seq
    (call ih (.relationalRhs (Expressions.operatorKind x.ahead)))) x y hxy
  refine ⟨ls, fun us b hu hb => ?_⟩
  obtain ⟨hx, d, z, hz, hacc⟩ := h us b hu hb
  have hsame := same_operatorKind (C.agree hx)
  refine ⟨hx, d, z, hz, ?_⟩
  cases d with
  | zero => exact hacc.elim
  | succ d =>
    change Accepts _ (Expressions.relationalRhs _) _ _ at hacc ⊢
    rwa [relationalRhs_eq_of_same hsame]

theorem relational (hhalf : C.special .halfConstraint = false) (half : Bool) :
    Carried C enters C.image (Expressions.relational half) := by
  refine .when (.map₂ (.const half) stable_atHalfConstraint _) ?_ ?_
  · exact .inner C.fits_image hhalf (operation ih)
  · exact .innerGroup C.fits_image.trivia (.seq (call ih _) (call ih _))

theorem relationalRest : Carried C enters C.image Expressions.relationalRest :=
  .when stable_atRelationalOperator
    (.seq (.enclose (C.not_special rfl) (operation ih)) (call ih _)) .skip

theorem unary : Carried C enters C.image Expressions.unary := by
  have hsign : Carried C enters C.image
      (Grammar.inner .unaryExpr (.seq .bump (.call .unary)) : Rule) :=
    .inner C.fits_image (C.not_special rfl) (.seq (.bump C.image_token) (call ih _))
  have hcast : Carried C enters C.image
      (Grammar.inner .castExpr (.seq .bump (.seq (.call .typeRef) (.seq (.expect .rParen)
        (.call .unary)))) : Rule) :=
    .inner C.fits_image (C.not_special rfl) (.seq (.bump C.image_token) (.seq (call ih _)
      (.seq (.expect C.image_token rfl .skip) (call ih _))))
  refine .look_stable (fun a b h => ?_) fun a => ?_
  · have := stable_atCast h
    simp only [this]
    exact h.current_rec (fun _ => rfl) rfl rfl
  · split
    any_goals exact hsign
    split
    · exact hcast
    · exact call ih _

theorem postfixed : Carried C enters C.image Expressions.postfixed :=
  .innerGroup C.fits_image.trivia (.seq (call ih _) (call ih _))

theorem suffixes : Carried C enters C.image Expressions.suffixes := by
  have hi := C.image_token
  have hm {kind : Kind} (hk : kind.isSensitive = false) :
      Carried C enters C.image (.enclose kind .skip : Rule) :=
    .enclose (C.not_special hk) .skip
  have hfield : Carried C enters C.image
      (.seq (.take 2) (.seq (.whenAt .lParen (.seq (.call .argList) (.enclose .methodCall .skip))
        (.enclose .fieldAccess .skip)) (.call .suffixes)) : Rule) :=
    .seq (.take hi 2) (.seq (.whenAt rfl (.seq (call ih _) (hm rfl)) (hm rfl)) (call ih _))
  have hcast : Carried C enters C.image
      (.seq .bump (.seq (.call .qualifiedName) (.seq (.enclose .inlineCast .skip)
        (.call .suffixes))) : Rule) :=
    .seq (.bump hi) (.seq (call ih _) (.seq (hm rfl) (call ih _)))
  have hindex : Carried C enters C.image
      (.seq .bump (.seq (.call .expr) (.seq (.expect .rBracket) (.seq (.enclose .indexExpr .skip)
        (.call .suffixes)))) : Rule) :=
    .seq (.bump hi) (.seq (call ih _) (.seq (.expect hi rfl .skip) (.seq (hm rfl) (call ih _))))
  have hstep : Carried C enters C.image
      (.seq .bump (.seq (.enclose .unaryExpr .skip) (.call .suffixes)) : Rule) :=
    .seq (.bump hi) (.seq (hm rfl) (call ih _))
  refine .look_stable (fun a b h => ?_) fun a => ?_
  · cases hj : a.current.isJoin with
    | false =>
      have hname := (h.nth_one hj).apply (f := Kind.isName) rfl rfl
      simp only [h.current.eq_of_not_isJoin hj, hname, h.adjacent]
    | true =>
      have hj' := h.current.isJoin.trans hj
      rcases Kind.isJoin_cases hj with hk | hk | hk | hk <;>
        rcases Kind.isJoin_cases hj' with hk' | hk' | hk' | hk' <;>
          simp only [hk, hk']
  · split
    · split
      · exact hfield
      · exact .skip
    · split
      · exact hfield
      · exact .skip
    · split
      · exact hcast
      · exact .skip
    · exact hindex
    · split
      · exact hstep
      · exact .skip
    · split
      · exact hstep
      · exact .skip
    · exact .skip

theorem argList : Carried C enters C.image Expressions.argList := by
  have hi := C.image_token
  refine .inner C.fits_image (C.not_special rfl) (.seq (.bump hi) ?_)
  exact .seq (.whenAt rfl .skip (call ih _)) (.seq .recoverInParens (.expect hi rfl .skip))

theorem arguments : Carried C enters C.image Expressions.arguments :=
  .seq (call ih _) (.eat C.image_token rfl (call ih _) .skip)

theorem arrayItems : Carried C enters C.image Expressions.arrayItems :=
  .seq (call ih _) (.seq (.eat C.image_token rfl (call ih _) .skip)
    (.eat C.image_token rfl (call ih _) .skip))

theorem arrayInit : Carried C enters C.image Expressions.arrayInit := by
  have hi := C.image_token
  refine .inner C.fits_image (C.not_special rfl) (.seq (.bump hi) ?_)
  exact .seq (.whenAt rfl .skip (call ih _)) (.expect hi rfl .skip)

theorem creationDims : Carried C enters C.image Expressions.creationDims :=
  .whenAt rfl (.seq (.balanced C.image_token) (call ih _)) .skip

theorem creation : Carried C enters C.image Expressions.creation := by
  have hi := C.image_token
  refine .inner C.fits_image (C.not_special rfl) (.seq (.bump hi) (.seq (call ih _) ?_))
  refine .look_stable (fun a b h => h.current_rec (fun _ => rfl) rfl rfl) fun a => ?_
  split
  · exact call ih _
  · exact .seq (call ih _) (.whenAt rfl (.balanced hi) .skip)
  · exact .complain _

theorem primary : Carried C enters C.image Expressions.primary := by
  have hi := C.image_token
  refine .look (fun a b h => h.current_rec (fun _ => .inl rfl) (.inr (rejects_complain rfl))
    (.inr (rejects_complain rfl))) fun a => ?_
  split
  · exact .inner C.fits_image (C.not_special rfl) (.bump hi)
  split
  · refine .innerGroup C.fits_image.trivia (.seq ?_ (.when ?_ ?_ .skip))
    · exact .node C.fits_image (C.not_special rfl) (.bump hi)
    · exact .map₂ (.isAt rfl) .adjacent _
    · exact .seq (call ih _) (.enclose (C.not_special rfl) .skip)
  split
  · exact call ih _
  · refine .inner C.fits_image (C.not_special rfl) (.seq (.bump hi) (.seq (call ih _) ?_))
    exact .seq .recoverInParens (.expect hi rfl .skip)
  · exact call ih _
  · exact .complain _

/-! ## Conditions -/

theorem constraints : Carried C enters C.image Conditions.constraints :=
  .seq (call ih _) (.eat C.image_token rfl (call ih _) .skip)

omit ih in
theorem binding : Carried C enters C.image Conditions.binding :=
  .inner C.fits_image (C.not_special rfl) (.take C.image_token 2)

theorem constraint : Carried C enters C.image Conditions.constraint := by
  refine .inner C.fits_image (C.not_special rfl) (.seq (.when ?_ (call ih _) .skip) (call ih _))
  exact .next_two (p := Kind.isName) (q := fun k => k == .colon || k == .colonEq)
    (fun k hk => by rcases Kind.isJoin_cases hk with rfl | rfl | rfl | rfl <;> rfl) rfl rfl

omit ih in
theorem window : Carried C enters C.image Conditions.window := by
  have hi := C.image_token
  refine .inner C.fits_image (C.not_special rfl) (.seq (.bump hi) ?_)
  refine .expect hi rfl (.expect hi rfl (.seq (.expectName hi _) (.whenAt rfl ?_ .skip)))
  exact .inner C.fits_image (C.not_special rfl) (.balanced hi)

theorem source : Carried C enters C.image Conditions.source := by
  have hi := C.image_token
  refine .inner C.fits_image (C.not_special rfl) (.seq (.bump hi) ?_)
  refine .look_stable (fun a b h => h.current_rec (fun _ => rfl) rfl rfl) fun a => ?_
  split
  · exact call ih _
  · refine .inner C.fits_image (C.not_special rfl) (.seq (.bump hi) (.expect hi rfl ?_))
    exact .seq (call ih _) (.expect hi rfl .skip)
  · refine .inner C.fits_image (C.not_special rfl) (.seq (.bump hi) ?_)
    exact .eat hi rfl .skip (call ih _)
  · exact call ih _

/-- A pattern, in a group of its own with elements changed by `φ`. -/
theorem pattern (hφ : Carries.KeepsTrivia φ)
    (hnode : ∀ cs, φ (.node .pattern cs) = .node .pattern (cs.map C.image)) :
    Carried C enters φ Conditions.pattern := by
  have hi := C.image_token
  refine .inner_of hφ hnode (.seq (.when ?_ (call ih _) .skip) ?_)
  · exact .next_two (p := (· == .ident)) (q := (· == .colon)) (beq_join rfl) rfl rfl
  refine .seq (.eat hi rfl .skip .skip) (.seq (call ih _) (.seq (.expect hi rfl ?_) ?_))
  · exact .seq (.whenAt rfl .skip (call ih _)) .recoverInParens
  · refine .seq (.expect hi rfl .skip) (.seq ?_ ?_)
    · exact .whenAt rfl (call ih _) .skip
    · exact .whenAt rfl (call ih _) .skip

theorem accumulate (hφ : C.Fits φ) : Carried C enters φ Conditions.accumulate := by
  have hi := C.image_token
  refine .inner hφ (C.not_special rfl) (.seq (.bump hi) (.expect hi rfl (.seq (call ih _) ?_)))
  refine .seq (.eat hi rfl (.untilClose hi rfl) (.eat hi rfl (.untilClose hi rfl) .skip)) ?_
  exact .expect hi rfl .skip

theorem evaluation (hφ : Carries.KeepsTrivia φ)
    (hnode : ∀ cs, φ (.node .lhsEval cs) = .node .lhsEval (cs.map C.image)) :
    Carried C enters φ (Grammar.inner .lhsEval
      (Grammar.bump >> Grammar.expect .lParen (.seq (.call .expr) (.expect .rParen))) : Rule) :=
  .inner_of hφ hnode (.seq (.bump C.image_token) (.expect C.image_token rfl
    (.seq (call ih _) (.expect C.image_token rfl .skip))))

/-- A condition in a group with elements changed by `φ`, if `eval` is read. -/
theorem lhsUnary (hφ : C.Fits φ)
    (heval : Carried C enters φ (Grammar.inner .lhsEval
      (Grammar.bump >> Grammar.expect .lParen (.seq (.call .expr) (.expect .rParen))) : Rule)) :
    Carried C enters φ Conditions.lhsUnary := by
  have hi := C.image_token
  have halone {p : Production} (hp : p.standsAlone = true) : Carried C enters φ (.call p) :=
    ih p φ ⟨hφ, fun h => by simp [hp] at h⟩
  refine .look (fun a b h => h.current_rec (fun _ => .inl rfl) (.inr (rejects_complain rfl))
    (.inr (rejects_complain rfl))) fun a => ?_
  split
  · exact .inner hφ (C.not_special rfl) (.seq (.bump hi) (call ih _))
  · exact .inner hφ (C.not_special rfl) (.seq (.bump hi) (call ih _))
  · exact heval
  · refine .inner hφ (C.not_special rfl) (.seq (.bump hi) (.expect hi rfl ?_))
    exact .seq (call ih _) (.expect hi rfl .skip)
  · exact halone rfl
  · exact halone rfl
  · exact halone rfl
  · exact halone rfl
  · exact .complain _

omit ih in
theorem stable_isStart : Stable fun a => Conditions.isStart a.current :=
  .current rfl rfl

theorem forallItems : Carried C enters C.image Conditions.forallItems :=
  .when stable_isStart (.seq (call ih _) (.ifRecovering _ (call ih _))) .skip

theorem prefixOperands (hφ : C.Fits φ) : Carried C enters φ Conditions.prefixOperands := by
  have halone {p : Production} (hp : p.standsAlone = true) : Carried C enters φ (.call p) :=
    ih p φ ⟨hφ, fun h => by simp [hp] at h⟩
  exact .when stable_isStart (.seq (halone rfl) (.ifRecovering _ (halone rfl))) .skip

theorem lhsOrRest : Carried C enters C.image Conditions.lhsOrRest :=
  .when stable_isOr (.seq (.bump C.image_token) (.seq (call ih _) (call ih _))) .skip

theorem lhsAndRest : Carried C enters C.image Conditions.lhsAndRest :=
  .when stable_isAnd (.seq (.bump C.image_token) (.seq (call ih _) (call ih _))) .skip

/-- Conditions that are joined, if the children of their node are changed by `ψ`. -/
theorem lhsOr {ψ : Element → Element} (hφ : C.Fits φ) (hψ : C.Fits ψ)
    (hnode : ∀ cs, φ (.node .lhsOr cs) = .node .lhsOr (cs.map ψ))
    (hrest : Carried C enters ψ (.seq .bump (.seq (.call .lhsAnd) (.call .lhsOrRest)) : Rule)) :
    Carried C enters φ Conditions.lhsOr := by
  have halone {χ : Element → Element} (h : C.Fits χ) : Carried C enters χ (.call .lhsAnd) :=
    ih .lhsAnd χ ⟨h, fun h => by cases h⟩
  exact .seq (.trivia hφ.trivia) (.joined stable_isOr hnode (halone hφ) (halone hψ) hrest)

theorem lhsAnd {ψ : Element → Element} (hφ : C.Fits φ) (hψ : C.Fits ψ)
    (hnode : ∀ cs, φ (.node .lhsAnd cs) = .node .lhsAnd (cs.map ψ))
    (hrest : Carried C enters ψ (.seq .bump (.seq (.call .lhsUnary) (.call .lhsAndRest)) : Rule)) :
    Carried C enters φ Conditions.lhsAnd := by
  have halone {χ : Element → Element} (h : C.Fits χ) : Carried C enters χ (.call .lhsUnary) :=
    ih .lhsUnary χ ⟨h, fun h => by cases h⟩
  exact .seq (.trivia hφ.trivia) (.joined stable_isAnd hnode (halone hφ) (halone hψ) hrest)

/-- A parenthesis, if the two prefix forms in it are read and a condition never starts with a symbol
that joins. -/
theorem lhsParen (hφ : C.Fits φ)
    (hstart : ∀ x y, enters .lhsOr x y → Conditions.isStart x.ahead.current = true)
    (hand : Carried C enters C.image
      (Grammar.inner .lhsAnd (Grammar.bump >> .call .prefixOperands) : Rule))
    (hor : Carried C enters C.image
      (Grammar.inner .lhsOr (Grammar.bump >> .call .prefixOperands) : Rule)) :
    Carried C enters φ Conditions.lhsParen := by
  have hi := C.image_token
  refine .inner hφ (C.not_special rfl) (.seq (.bump hi) (.seq ?_ (.expect hi rfl .skip)))
  have hrej {a : Ahead} (ha : Conditions.isStart a.current = false) :
      RejectsAt enters a (.call .lhsOr : Rule) := by
    rintro x y rfl hxy
    simp [hstart x y hxy] at ha
  refine .look (fun a b h => ?_) fun a => ?_
  · rcases h.current with hs | ⟨hj, hs⟩
    · exact .inl (by simp only [hs])
    · rw [hs]
      rcases Kind.isJoin_cases hj with hk | hk | hk | hk <;> simp only [hk]
      · exact .inr (hrej (by rw [hk]; rfl))
      · exact .inr (hrej (by rw [hk]; rfl))
      · exact .inl rfl
      · exact .inl rfl
  · split
    · exact hand
    · exact hor
    · exact call ih _

theorem conditions : Carried C enters C.image Conditions.conditions := by
  have hbound : Stable fun a => a.isAt .thenKw || a.isAt .eof || a.current.isBoundaryKeyword :=
    .current (f := fun k => k == .thenKw || k == .eof || k.isBoundaryKeyword) rfl rfl
  refine .look_stable (fun a b h => ?_) fun a => ?_
  · simp only [hbound h, stable_isStart h]
  · split
    · exact .skip
    · refine .seq ?_ (.seq (.ifRecovering _ .skip) (call ih _))
      split
      · exact .seq (call ih _) (.eat C.image_token rfl .skip .skip)
      · exact .fail fun _ => rfl

/-! ## Declarations -/

omit ih in
theorem strayTokens : Carried C enters C.image Declarations.strayTokens := by
  rintro x y ⟨z, ⟨w, ⟨v, hv, -⟩, -⟩, -⟩
  exact absurd hv (rejects_fail (fun _ => rfl) _ _ rfl)

omit ih in
/-- A semicolon that may be left out, and the rest of the line. -/
theorem lineEnd : Carried C enters C.image (Grammar.eat .semicolon >> .lineTrivia : Rule) :=
  .seq (.eat C.image_token rfl .skip .skip) (.lineTrivia C.fits_image.trivia)

theorem packageDecl : Carried C enters C.image Declarations.packageDecl :=
  .node C.fits_image (C.not_special rfl)
    (.seq (.bump C.image_token) (.seq (call ih _) lineEnd))

theorem importDecl : Carried C enters C.image Declarations.importDecl := by
  have hi := C.image_token
  refine .node C.fits_image (C.not_special rfl) (.seq (.bump hi) (.seq ?_ (.seq (call ih _) ?_)))
  · exact .eat hi rfl .skip (.eat hi rfl .skip .skip)
  · refine .seq (.when ?_ (.take hi 2) .skip) lineEnd
    exact .next_two (p := (· == .dot)) (q := (· == .star)) (beq_join rfl) rfl rfl

theorem globalDecl : Carried C enters C.image Declarations.globalDecl :=
  .node C.fits_image (C.not_special rfl) (.seq (.bump C.image_token) (.seq (call ih _)
    (.seq (.expectName C.image_token _) lineEnd)))

theorem functionDecl (hfunction : C.special .functionDecl = false) :
    Carried C enters C.image Declarations.functionDecl := by
  have hi := C.image_token
  refine .node C.fits_image hfunction (.seq (.bump hi) (.seq (call ih _) ?_))
  refine .seq (.expectName hi _) (.seq (.whenAt rfl (call ih _) (.complain _)) (.seq ?_ ?_))
  · refine .whenAt rfl (.inner C.fits_image (C.not_special rfl) (.balanced hi)) ?_
    exact carries_of_rejects fun _ => (rejects_complain rfl).seq
  · exact .lineTrivia C.fits_image.trivia

theorem queryDecl : Carried C enters C.image Declarations.queryDecl := by
  refine .node C.fits_image (C.not_special rfl) (.seq (.bump C.image_token) (.seq (call ih _) ?_))
  refine .seq (.whenAt rfl (call ih _) .skip) (.seq (call ih _) (.seq (call ih _) ?_))
  exact .lineTrivia C.fits_image.trivia

theorem supertypes : Carried C enters C.image Declarations.supertypes :=
  .eat C.image_token rfl (.seq (call ih _) (call ih _)) .skip

theorem annotations : Carried C enters C.image Declarations.annotations :=
  .whenAt rfl (.seq (call ih _) (call ih _)) .skip

theorem annotated : Carried C enters C.image Declarations.annotated :=
  .inner C.fits_image (C.not_special rfl) (.seq (.bump C.image_token) (.seq (call ih _)
    (.whenAt rfl (.balanced C.image_token) .skip)))

theorem declareDecl : Carried C enters C.image Declarations.declareDecl := by
  have hi := C.image_token
  refine .node C.fits_image (C.not_special rfl) (.seq (.bump hi) ?_)
  refine .seq (.eat hi rfl .skip .skip) (.seq (call ih _) (.seq ?_ ?_))
  · exact .eat hi rfl (.seq (call ih _) (call ih _)) .skip
  · refine .seq (call ih _) (.seq (call ih _) (.seq (call ih _) ?_))
    exact .lineTrivia C.fits_image.trivia

theorem fields : Carried C enters C.image Declarations.fields := by
  have hname : Stable fun a => a.atName && a.nth 1 == .colon :=
    .next_two (p := Kind.isName) (q := (· == .colon))
      (fun k hk => by rcases Kind.isJoin_cases hk with rfl | rfl | rfl | rfl <;> rfl) rfl rfl
  have hend : Stable fun a => a.current == .eof || a.current.isBoundaryKeyword :=
    .current (f := fun k => k == .eof || k.isBoundaryKeyword) rfl rfl
  refine .look_stable (fun a b h => ?_) fun a => ?_
  · simp only [hname h, hend h]
  · split
    · exact .skip
    split
    · exact .seq (call ih _) (call ih _)
    · exact carries_of_rejects fun _ => (rejects_fail fun _ => rfl).seq

theorem field : Carried C enters C.image Declarations.field :=
  .inner C.fits_image (C.not_special rfl) (.seq (.take C.image_token 2) (.seq (call ih _)
    (.seq (.eat C.image_token rfl (call ih _) .skip) (call ih _))))

theorem ruleDecl : Carried C enters C.image Declarations.ruleDecl := by
  have hi := C.image_token
  have hattribute : Stable fun a => a.current.isAttributeKeyword || a.isAt .ident :=
    .current (f := fun k => k.isAttributeKeyword || k == .ident) rfl rfl
  have hmissing (c : Kind → Complaint) (hc : ∀ k, (c k).isWarning = false) (stops : List Kind) :
      Carried C enters C.image (Grammar.fail c >> recoverTo stops : Rule) :=
    carries_of_rejects fun _ => (rejects_fail hc).seq
  refine .node C.fits_image (C.not_special rfl) (.seq (.bump hi) (.seq (call ih _) ?_))
  refine .seq (.whenAt rfl (call ih _) .skip) (.seq (call ih _) ?_)
  refine .seq (.when hattribute (call ih _) .skip) ?_
  refine .seq (.whenAt rfl .skip (hmissing _ (fun _ => rfl) _)) ?_
  refine .seq (.whenAt rfl (call ih _) .skip) ?_
  refine .seq (.whenAt rfl .skip (hmissing _ (fun _ => rfl) _)) ?_
  refine .seq (.whenAt rfl (call ih _) .skip) (.seq (call ih _) ?_)
  exact .lineTrivia C.fits_image.trivia

omit ih in
theorem stable_atRuleName : Stable fun a => a.isAt .stringLit || a.atName :=
  .current (f := fun k => k == .stringLit || k.isName) rfl rfl

omit ih in
theorem declName (role : Role) : Carried C enters C.image (Declarations.declName role) :=
  .when stable_atRuleName (.inner C.fits_image (C.not_special rfl) (.bump C.image_token))
    (.fail fun _ => rfl)

omit ih in
theorem parent : Carried C enters C.image Declarations.parent :=
  .inner C.fits_image (C.not_special rfl) (.seq (.bump C.image_token)
    (.when stable_atRuleName (.bump C.image_token) (.complain _)))

theorem attributeList : Carried C enters C.image Declarations.attributeList :=
  .inner C.fits_image (C.not_special rfl) (call ih _)

theorem attributes : Carried C enters C.image Declarations.attributes := by
  have hi := C.image_token
  have hkey : Stable fun a => a.current.isAttributeKeyword || a.isAt .ident :=
    .current (f := fun k => k.isAttributeKeyword || k == .ident) rfl rfl
  have hword : Stable fun a => a.isAt .attributesKw := .isAt rfl
  have hcomma : Stable fun a => a.isAt .comma := .isAt rfl
  refine .look_stable (fun a b h => ?_) fun a => ?_
  · simp only [hkey h, hword h, hcomma h]
  · split
    · exact .seq (.bump hi) (.seq (.eat hi rfl .skip .skip) (call ih _))
    split
    · exact .seq (.bump hi) (call ih _)
    split
    · exact .seq (call ih _) (call ih _)
    · exact .skip

theorem attributeItem : Carried C enters C.image Declarations.attributeItem := by
  have hi := C.image_token
  have hvalue {body : Rule} (h : Carried C enters C.image body) :
      Carried C enters C.image (Grammar.inner .attributeValue body) :=
    .inner C.fits_image (C.not_special rfl) h
  refine .inner C.fits_image (C.not_special rfl) (.seq ?_ (.seq (.bump hi) ?_))
  · refine .look_stable (fun a b h => ?_) fun a => ?_
    · rcases h.current_cases with ⟨ha, hb⟩ | ⟨t, t', ha, hb, ht, hs⟩ |
        ⟨t, t', c, d, ha, hb, ht, hl, -⟩
      · simp only [ha, hb]
      · have hne {u : Token} (hu : u.kind.isJoin = true) : (u.kind == .ident) = false :=
          beq_eq_false_of_isJoin hu rfl
        simp only [ha, hb, hne ht, hne (hs.isJoin.trans ht), Bool.false_eq_true, if_false]
      · simp only [currentToken?_of_afterTrivia ha ht,
          currentToken?_of_afterTrivia hb (isTrivia_eq_of_leaf_eq hl ▸ ht),
          kind_eq_of_leaf_eq hl, text_eq_of_leaf_eq hl]
    · split
      · split
        · exact .complain _
        · exact .skip
      · exact .skip
  · refine .look_stable (fun a b h => ?_) fun a => ?_
    · cases hj : a.current.isJoin with
      | false =>
        have hint := (h.nth_one hj).apply (f := (· == .intLit)) rfl rfl
        have hfloat := (h.nth_one hj).apply (f := (· == .floatLit)) rfl rfl
        simp only [h.current.eq_of_not_isJoin hj, hint, hfloat]
      | true =>
        have hj' := h.current.isJoin.trans hj
        rcases Kind.isJoin_cases hj with hk | hk | hk | hk <;>
          rcases Kind.isJoin_cases hj' with hk' | hk' | hk' | hk' <;>
            simp only [hk, hk']
    · split
      · exact hvalue (.seq (.bump hi) (call ih _))
      any_goals exact hvalue (.bump hi)
      · split
        · exact hvalue (.take hi 2)
        · exact .skip
      · exact hvalue (.balanced hi)
      · exact .skip

theorem stringList : Carried C enters C.image Declarations.stringList :=
  .when (.next_two (p := (· == .comma)) (q := (· == .stringLit)) (beq_join rfl) rfl rfl)
    (.seq (.take C.image_token 2) (call ih _)) .skip

theorem whenClause : Carried C enters C.image Declarations.whenClause :=
  .inner C.fits_image (C.not_special rfl) (.seq (.bump C.image_token)
    (.seq (.eat C.image_token rfl .skip .skip) (call ih _)))

omit ih in
theorem thenClause (hφ : Carries.KeepsTrivia φ)
    (hnode : ∀ cs, φ (.node .thenClause cs) = .node .thenClause (cs.map C.image)) :
    Carried C enters φ Declarations.thenClause :=
  .inner_of hφ hnode (.seq (.bump C.image_token)
    (.inner C.fits_image (C.not_special rfl) (.eat C.image_token rfl .skip .skip)))

omit ih in
theorem blockEnd (block : Block) : Carried C enters C.image (Declarations.blockEnd block) :=
  .eat C.image_token rfl .skip (.whenAt rfl (.complain _) (.fail fun _ => rfl))

theorem parameterList : Carried C enters C.image Declarations.parameterList :=
  .inner C.fits_image (C.not_special rfl) (.seq (.bump C.image_token)
    (.seq (.whenAt rfl .skip (call ih _)) (.expect C.image_token rfl .skip)))

theorem parameters : Carried C enters C.image Declarations.parameters :=
  .seq (call ih _) (.eat C.image_token rfl (call ih _) .skip)

theorem parameter : Carried C enters C.image Declarations.parameter :=
  .inner C.fits_image (C.not_special rfl) (.seq (call ih _)
    (.when (.current rfl rfl) (.bump C.image_token) .skip))

theorem declarations : Carried C enters C.image Declarations.declarations := by
  refine .seq .recovered (.look_stable (fun a b h => h.current_rec (fun _ => rfl) rfl rfl)
    fun a => ?_)
  split
  · exact .skip
  all_goals exact .seq (call ih _) (call ih _)

theorem compilationUnit : Carried C enters C.image Declarations.compilationUnit :=
  .node C.fits_image (C.not_special rfl) (.seq (call ih _) (.trivia C.fits_image.trivia))

/-- The productions that build no node of a special kind. -/
theorem body {p : Production} (hp : p.isSensitive = false) (hφ : C.Suits p φ) :
    Carried C enters φ p.body := by
  cases p
  case prefixOperands => exact prefixOperands ih hφ.fits
  case accumulate => exact accumulate ih hφ.fits
  case lhsOr | lhsAnd | lhsUnary | lhsParen | pattern | thenClause | functionDecl | binary |
      binaryRest | relational => cases hp
  all_goals obtain rfl := hφ.eq rfl
  case compilationUnit => exact compilationUnit ih
  case declarations => exact declarations ih
  case packageDecl => exact packageDecl ih
  case importDecl => exact importDecl ih
  case globalDecl => exact globalDecl ih
  case queryDecl => exact queryDecl ih
  case declareDecl => exact declareDecl ih
  case ruleDecl => exact ruleDecl ih
  case strayTokens => exact strayTokens
  case supertypes => exact supertypes ih
  case annotations => exact annotations ih
  case annotated => exact annotated ih
  case fields => exact fields ih
  case field => exact field ih
  case declName => exact declName _
  case parent => exact parent
  case attributeList => exact attributeList ih
  case attributes => exact attributes ih
  case «attribute» => exact attributeItem ih
  case stringList => exact stringList ih
  case whenClause => exact whenClause ih
  case blockEnd => exact blockEnd _
  case parameterList => exact parameterList ih
  case parameters => exact parameters ih
  case parameter => exact parameter ih
  case qualifiedName => exact qualifiedName ih
  case nameParts => exact nameParts ih
  case typeRef => exact typeRef ih
  case dimensions => exact dimensions ih
  case conditions => exact conditions ih
  case lhsOrRest => exact lhsOrRest ih
  case lhsAndRest => exact lhsAndRest ih
  case forallItems => exact forallItems ih
  case constraints => exact constraints ih
  case binding => exact binding
  case constraint => exact constraint ih
  case window => exact window
  case source => exact source ih
  case expr => exact call ih _
  case ternary => exact ternary ih
  case relationalRest => exact relationalRest ih
  case operator => exact operator
  case relationalRhs => exact relationalRhs ih _
  case unary => exact unary ih
  case postfixed => exact postfixed ih
  case suffixes => exact suffixes ih
  case primary => exact primary ih
  case creation => exact creation ih
  case creationDims => exact creationDims ih
  case arrayInit => exact arrayInit ih
  case arrayItems => exact arrayItems ih
  case argList => exact argList ih
  case arguments => exact arguments ih

end Carried

/-! ## Where conditions start -/

theorem ahead_of_takes_trivia {x y : Point} (h : x.Takes x.ahead.triviaLength y) :
    y.ahead = x.ahead.afterTrivia := by
  obtain ⟨ts, hlen, hahead, -⟩ := h
  have hsplit := List.takeWhile_append_dropWhile (p := Token.isTrivia) (l := x.ahead)
  exact (List.append_inj (hahead.symm.trans hsplit.symm) hlen).2

theorem isStart_of_enters_lhsUnary {n : Nat} {x y : Point}
    (h : Enters Production.body n .lhsUnary x y) : Conditions.isStart x.ahead.current = true := by
  cases n with
  | zero => exact h.elim
  | succ n =>
    change Accepts _ Conditions.lhsUnary x y at h
    simp only [Conditions.lhsUnary, Accepts] at h
    split at h
    case h_9 =>
      exact absurd h (rejects_complain rfl _ _ rfl)
    all_goals
      rename_i hk
      rw [hk]
      rfl

theorem isStart_of_enters_lhsAnd {n : Nat} {x y : Point}
    (h : Enters Production.body n .lhsAnd x y) : Conditions.isStart x.ahead.current = true := by
  cases n with
  | zero => exact h.elim
  | succ n =>
    obtain ⟨u, hu, z, ⟨v, hv, -⟩, -⟩ := h
    have := isStart_of_enters_lhsUnary hv
    rwa [ahead_of_takes_trivia hu, current_afterTrivia] at this

theorem isStart_of_enters_lhsOr {n : Nat} {x y : Point}
    (h : Enters Production.body n .lhsOr x y) : Conditions.isStart x.ahead.current = true := by
  cases n with
  | zero => exact h.elim
  | succ n =>
    obtain ⟨u, hu, z, ⟨v, hv, -⟩, -⟩ := h
    have := isStart_of_enters_lhsAnd hv
    rwa [ahead_of_takes_trivia hu, current_afterTrivia] at this

/-! ## Changes without special nodes -/

/-- If a change treats all nodes alike, every production reads the changed tokens. -/
theorem allCarried_of_plain {C : Correspondence} (hC : ∀ k, C.special k = false) (n : Nat) :
    AllCarried C (Enters Production.body n) := by
  induction n with
  | zero => exact fun _ _ _ _ _ h => h.elim
  | succ n ih =>
    intro p φ hφ
    have hnode (k : Kind) (cs : List Element) : φ (.node k cs) = .node k (cs.map C.image) :=
      (hφ.fits.node k cs).trans (C.image_node k cs (hC k))
    have hi := C.image_token
    refine Carries.call ?_
    cases hp : p.isSensitive with
    | false => exact Carried.body ih hp hφ
    | true =>
      cases p <;> try (cases hp; done)
      case lhsOr =>
        exact Carried.lhsOr ih hφ.fits C.fits_image (hnode _) (.seq (.bump hi)
          (.seq (Carried.call ih _) (Carried.call ih _)))
      case lhsAnd =>
        exact Carried.lhsAnd ih hφ.fits C.fits_image (hnode _) (.seq (.bump hi)
          (.seq (Carried.call ih _) (Carried.call ih _)))
      case lhsUnary =>
        exact Carried.lhsUnary ih hφ.fits (Carried.evaluation ih hφ.fits.trivia (hnode _))
      case lhsParen =>
        refine Carried.lhsParen ih hφ.fits (fun _ _ => isStart_of_enters_lhsOr) ?_ ?_
        · exact .inner C.fits_image (hC _) (.seq (.bump hi) (Carried.call ih _))
        · exact .inner C.fits_image (hC _) (.seq (.bump hi) (Carried.call ih _))
      case pattern => exact Carried.pattern ih hφ.fits.trivia (hnode _)
      all_goals obtain rfl := hφ.eq rfl
      case thenClause => exact Carried.thenClause hφ.fits.trivia (hnode _)
      case functionDecl => exact Carried.functionDecl ih (hC _)
      case binary => exact Carried.binary ih _ _
      case binaryRest => exact Carried.binaryRest ih (hC _) _
      case relational => exact Carried.relational ih (hC _) _

end Grammar

end RuleLang
