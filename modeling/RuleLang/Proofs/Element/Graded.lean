import RuleLang.Element

/-!
# Levels of expressions

A tree respects precedence if no operand is looser than the place that it stands in. Each node of
the expression grammar has a level, the loosest lowest, and each operand has a least level.

A comparison without left operand has its place right after `||` or `&&`, and the joined conditions
of a rule are not nested where they need not be.

## Main definitions

* `Element.parts` — the children that are not trivia.
* `Element.level?` — the level of an expression.
* `Element.isGraded` — the parts of a node are as loose as they may be, and no looser.
* `Element.halvesFollow` — each comparison without left operand stands right after `||` or `&&`.
* `Element.Sound` — both, at and below an element.
-/

namespace RuleLang

/-- The levels of the binary operators. -/
def Kind.precedence? : Kind → Option Nat
  | .pipePipe => some 1
  | .ampAmp => some 2
  | .pipe => some 3
  | .caret => some 4
  | .amp => some 5
  | .plus | .minus => some 7
  | .star | .slash | .percent => some 8
  | _ => none

/-- Operators after which a comparison may leave out its left operand. -/
def Kind.admitsHalf : Kind → Bool
  | .pipePipe | .ampAmp => true
  | _ => false

namespace Element

/-- The children that are not trivia. -/
def parts (e : Element) : List Element :=
  e.children.filter fun c => !c.isTrivia

/-! ## Levels -/

/-- The level of an expression. A sign before its operand is looser than one after it. -/
def level? : Element → Option Nat
  | .token _ _ => none
  | .node k cs =>
    match k with
    | .ternaryExpr => some 0
    | .binaryExpr => ((node k cs).parts.find? isToken).bind fun op => op.kind.precedence?
    | .relationalExpr | .halfConstraint => some 6
    | .unaryExpr => if (node k cs).parts.head?.any isToken then some 9 else some 10
    | .castExpr => some 9
    | .literal | .nameRef | .fieldAccess | .methodCall | .indexExpr | .inlineCast | .newExpr
    | .parenExpr | .arrayInit => some 10
    | _ => none

/-- An expression of a level or of one above. -/
def isOfLevel (l : Nat) (e : Element) : Bool :=
  e.level?.any fun m => l ≤ m

/-- `left op right`: the left operand may be of the level of the operator, the right one may not. -/
def isBinary : List Element → Bool
  | [left, .token op _, right] =>
    op.precedence?.any fun l => left.isOfLevel l && right.isOfLevel (l + 1)
  | _ => false

/-- An operator that is, or negates, the one of a kind. -/
def isOperator (k : Kind) (e : Element) : Bool :=
  e.parts.any fun c => c.isToken && c.kind == k

/-- What may stand on the right side of a comparison. -/
def isRightSide (operator right : Element) : Bool :=
  match right.kind with
  | .argList => operator.isOperator .inKw
  | .typeRef => operator.isOperator .instanceofKw
  | _ => right.isOfLevel 7

/-- `left operator right` -/
def isRelational : List Element → Bool
  | [left, .node .operator cs, right] =>
    left.isOfLevel 6 && isRightSide (.node .operator cs) right
  | _ => false

/-- A sign and its operand, in one order or the other. -/
def isUnary : List Element → Bool
  | [.token _ _, operand] => operand.isOfLevel 9
  | [base, .token _ _] => base.isOfLevel 10
  | _ => false

/-- `(Type) operand` -/
def isCast : List Element → Bool
  | [.token .lParen _, .node .typeRef _, .token .rParen _, operand] => operand.isOfLevel 9
  | _ => false

/-- A base with something after it. -/
def isSuffixed : List Element → Bool
  | base :: _ => base.isOfLevel 10
  | [] => false

/-- Joined conditions: at least two, none of a barred kind. A form that starts with its word is no
such join. -/
def isJoin (barred : List Kind) : List Element → Bool
  | .node k cs :: rest =>
    let operands := (.node k cs :: rest).filter isNode
    decide (2 ≤ operands.length) && operands.all fun e => !barred.contains e.kind
  | _ => true

/-- What is asked of the parts of a node. -/
def isGradedAs (k : Kind) (parts : List Element) : Bool :=
  match k with
  | .binaryExpr => isBinary parts
  | .relationalExpr => isRelational parts
  | .unaryExpr => isUnary parts
  | .castExpr => isCast parts
  | .fieldAccess | .methodCall | .indexExpr | .inlineCast => isSuffixed parts
  | .lhsOr => isJoin [.lhsOr] parts
  | .lhsAnd => isJoin [.lhsAnd, .lhsOr] parts
  | _ => true

/-- The parts of a node are as loose as they may be, and no looser. -/
def isGraded : Element → Bool
  | .token _ _ => true
  | .node k cs => isGradedAs k (node k cs).parts

/-! ## Comparisons without left operand -/

/-- A token right below a binary expression after which a left operand may be left out. -/
def endsBeforeHalf (parent : Kind) (e : Element) : Bool :=
  parent == .binaryExpr && e.isToken && e.kind.admitsHalf

mutual

/-- Every comparison without left operand stands, trivia aside, right after a token `||` or `&&` of
a binary expression around it. That such a token stands right before the element is told by
`after`. -/
def halvesFollow (after : Bool) : Element → Bool
  | .token _ _ => true
  | .node k cs => (k != .halfConstraint || after) && halvesFollowAll k after cs

/-- The same for children, from left to right. -/
def halvesFollowAll (parent : Kind) (after : Bool) : List Element → Bool
  | [] => true
  | e :: es =>
    e.halvesFollow after &&
      halvesFollowAll parent (if e.isTrivia then after else e.endsBeforeHalf parent) es

end

example : (node .binaryExpr [.node .relationalExpr [], .token .pipePipe ['|', '|'],
    .token .whitespace [' '], .node .halfConstraint []]).halvesFollow false = true := by
  decide

example : (node .binaryExpr [.node .relationalExpr [], .token .pipe ['|'],
    .node .halfConstraint []]).halvesFollow false = false := by
  decide

@[simp] theorem halvesFollow_token (after : Bool) (k : Kind) (t : List Char) :
    (token k t).halvesFollow after = true := by
  rw [halvesFollow]

theorem halvesFollow_node (after : Bool) (k : Kind) (cs : List Element) :
    (node k cs).halvesFollow after =
      ((k != .halfConstraint || after) && halvesFollowAll k after cs) := by
  rw [halvesFollow]

/-- Trivia does not come between an operator and its operand. -/
theorem halvesFollowAll_filter (parent : Kind) (after : Bool) (es : List Element) :
    halvesFollowAll parent after (es.filter fun c => !c.isTrivia) =
      halvesFollowAll parent after es := by
  induction es generalizing after with
  | nil => rfl
  | cons e es ih =>
    cases he : e.isTrivia with
    | true =>
      cases e with
      | node => cases he
      | token k t => simp [he, halvesFollowAll, ih]
    | false => simp [he, halvesFollowAll, ih]

mutual

theorem halvesFollow_mono : (e : Element) → e.halvesFollow false = true →
    e.halvesFollow true = true
  | .token k t, _ => halvesFollow_token true k t
  | .node k cs, h => by
    rw [halvesFollow_node, Bool.and_eq_true] at h ⊢
    exact ⟨by simp, halvesFollowAll_mono k cs h.2⟩

theorem halvesFollowAll_mono (parent : Kind) : (es : List Element) →
    halvesFollowAll parent false es = true → halvesFollowAll parent true es = true
  | [], _ => rfl
  | e :: es, h => by
    rw [halvesFollowAll, Bool.and_eq_true] at h ⊢
    refine ⟨halvesFollow_mono e h.1, ?_⟩
    cases he : e.isTrivia with
    | true => exact halvesFollowAll_mono parent es (by simpa [he] using h.2)
    | false => simpa [he] using h.2

end

/-- Elements that need no operator before them. -/
theorem halvesFollowAll_of_forall {parent : Kind} {after : Bool} {es : List Element}
    (h : ∀ e ∈ es, e.halvesFollow false = true) : halvesFollowAll parent after es = true := by
  induction es generalizing after with
  | nil => rfl
  | cons e es ih =>
    have he := h e List.mem_cons_self
    rw [halvesFollowAll, ih fun x hx => h x (List.mem_cons_of_mem e hx), Bool.and_true]
    cases after with
    | false => exact he
    | true => exact halvesFollow_mono e he

/-! ## Sound elements -/

/-- All nodes at and below an element are graded, and its comparisons without left operand have
their places if `after` tells right what stands before it. -/
structure Sound (after : Bool) (e : Element) : Prop where
  graded : ∀ n ∈ e.nodes, n.isGraded = true
  halves : e.halvesFollow after = true

theorem sound_token (after : Bool) (k : Kind) (t : List Char) : Sound after (.token k t) :=
  ⟨nofun, halvesFollow_token after k t⟩

theorem Sound.mono {after : Bool} {e : Element} (h : Sound false e) : Sound after e := by
  cases after with
  | false => exact h
  | true => exact ⟨h.graded, halvesFollow_mono e h.halves⟩

theorem mem_nodesOf {n : Element} {es : List Element} :
    n ∈ nodesOf es ↔ ∃ e ∈ es, n ∈ e.nodes := by
  induction es with
  | nil => simp [nodesOf]
  | cons e es ih => simp [nodesOf, ih]

/-- A node is sound if its parts are graded and have their places. -/
theorem sound_node {after : Bool} {k : Kind} {cs : List Element}
    (hgraded : isGradedAs k (node k cs).parts = true)
    (hnodes : ∀ e ∈ (node k cs).parts, ∀ n ∈ e.nodes, n.isGraded = true)
    (hhalf : k = .halfConstraint → after = true)
    (hhalves : halvesFollowAll k after (node k cs).parts = true) : Sound after (.node k cs) := by
  constructor
  · intro n hn
    rw [nodes] at hn
    rcases List.mem_cons.1 hn with rfl | hn
    · exact hgraded
    · obtain ⟨e, he, hne⟩ := mem_nodesOf.1 hn
      refine hnodes e (List.mem_filter.2 ⟨he, ?_⟩) n hne
      cases e with
      | token => exact absurd hne List.not_mem_nil
      | node => rfl
  · rw [halvesFollow_node, Bool.and_eq_true]
    refine ⟨?_, by rwa [parts, children, halvesFollowAll_filter] at hhalves⟩
    by_cases hk : k = .halfConstraint
    · simp [hhalf hk]
    · simp [hk]

/-- A node whose parts are sound by themselves. -/
theorem sound_node_of_parts {after : Bool} {k : Kind} {cs : List Element}
    (hgraded : isGradedAs k (node k cs).parts = true) (hhalf : k = .halfConstraint → after = true)
    (hparts : ∀ e ∈ (node k cs).parts, Sound false e) : Sound after (.node k cs) :=
  sound_node hgraded (fun e he => (hparts e he).graded) hhalf
    (halvesFollowAll_of_forall fun e he => (hparts e he).halves)

end Element

/-- Kinds of nodes that ask something of their parts or of their place. -/
def Kind.isGraded : Kind → Bool
  | .binaryExpr | .relationalExpr | .halfConstraint | .unaryExpr | .castExpr | .fieldAccess
  | .methodCall | .indexExpr | .inlineCast | .lhsOr | .lhsAnd => true
  | _ => false

theorem Element.isGradedAs_of_not {k : Kind} (h : k.isGraded = false) (parts : List Element) :
    isGradedAs k parts = true := by
  cases k <;> first | rfl | cases h

/-- A node of a kind that asks nothing is sound if its parts are. -/
theorem Element.sound_ordinary {after : Bool} {k : Kind} {cs : List Element}
    (h : k.isGraded = false) (hparts : ∀ e ∈ (node k cs).parts, Sound false e) :
    Sound after (.node k cs) :=
  sound_node_of_parts (isGradedAs_of_not h _) (fun hk => by simp [hk, Kind.isGraded] at h) hparts

end RuleLang
