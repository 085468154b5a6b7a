import RuleLang.Proofs.Grammar.Makes
import RuleLang.Proofs.Grammar.Steady
import RuleLang.Proofs.Parser.Changed

/-!
# Trees respect precedence

The tree of a source without errors shows how its operators bind: each operand is at least as tight
as its place asks, operators of one level nest to the left, and what leaves out its left operand
stands right after `||` or `&&`.

What each production adds to a group when it reads without complaint is an expression of a level, a
node of a kind, or any sound elements. The productions for what follows a first operand turn the one
element of the group into another of the same level.

## Main definitions

* `Level.grade` — the level of a binary operator.
* `Grammar.AddsOne`, `Grammar.AddsNode`, `Grammar.Turns` — what comes to a group.
* `Production.Meets` — what each production is to do.

## Main statements

* `Grammar.meets_body` — every body does what is asked of its production, if those it enters do.
* `Grammar.meets_of_enters` — every production does what is asked of it.
* `parse_isGraded` — all nodes of a tree without errors are graded.
-/

namespace RuleLang

open Element

/-- The level of the operators, as in `Kind.precedence?`. -/
def Level.grade : Level → Nat
  | .logicalOr => 1
  | .logicalAnd => 2
  | .bitOr => 3
  | .bitXor => 4
  | .bitAnd => 5
  | .additive => 7
  | .multiplicative => 8

/-- What is known of an operator from its level. -/
theorem Level.of_mem_operators {level : Level} {k : Kind} (h : level.operators.contains k = true) :
    k.precedence? = some level.grade ∧ k.admitsHalf = level.admitsHalf ∧ k ≠ .eof ∧
      k.isTrivia = false := by
  have hall : ∀ k ∈ level.operators, k.precedence? = some level.grade ∧
      k.admitsHalf = level.admitsHalf ∧ k ≠ .eof ∧ k.isTrivia = false := by
    cases level <;> decide
  exact hall k (by simpa using h)

/-- Nodes with a base and something after it. -/
def Kind.isSuffixed : Kind → Bool
  | .fieldAccess | .methodCall | .indexExpr | .inlineCast => true
  | _ => false

theorem Kind.of_isSuffixed {k : Kind} (h : k.isSuffixed = true) :
    k ≠ .halfConstraint ∧ (∀ base rest, isGradedAs k (base :: rest) = base.isOfLevel 10) ∧
      ∀ cs, (Element.node k cs).isOfLevel 10 = true := by
  cases k <;> first | exact ⟨nofun, fun _ _ => rfl, fun _ => rfl⟩ | cases h

/-! ## Elements with a level -/

namespace Element

theorem isOfLevel_mono {l m : Nat} {e : Element} (hl : l ≤ m) (h : e.isOfLevel m = true) :
    e.isOfLevel l = true := by
  unfold isOfLevel at h ⊢
  cases hm : e.level? with
  | none => simp [hm] at h
  | some n =>
    simp only [hm, Option.any_some, decide_eq_true_eq] at h ⊢
    omega

/-- Only nodes have levels. -/
theorem exists_of_isOfLevel {l : Nat} {e : Element} (h : e.isOfLevel l = true) :
    ∃ k cs, e = .node k cs := by
  cases e with
  | token => cases h
  | node k cs => exact ⟨k, cs, rfl⟩

/-- A node made of an element and of more after it is sound in the place of that element. -/
theorem sound_wrapped {k : Kind} {cs rest : List Element} {base : Element} {after : Bool} {l : Nat}
    (hparts : (node k cs).parts = base :: rest) (hk : k ≠ .halfConstraint)
    (hgraded : isGradedAs k (base :: rest) = true) (hlevel : base.isOfLevel l = true)
    (hbase : Sound after base)
    (hrest : halvesFollowAll k false rest = true ∧ ∀ e ∈ rest, ∀ n ∈ e.nodes, n.isGraded = true) :
    Sound after (.node k cs) := by
  obtain ⟨j, ds, rfl⟩ := exists_of_isOfLevel hlevel
  refine sound_node (hparts ▸ hgraded) ?_ (fun h => absurd h hk) ?_
  · rw [hparts, List.forall_mem_cons]
    exact ⟨hbase.graded, hrest.2⟩
  · rw [hparts, halvesFollowAll, hbase.halves]
    simpa [isTrivia, endsBeforeHalf, isToken, isNode] using hrest.1

/-- The same if what comes after is sound by itself. -/
theorem sound_wrapped_of_sound {k : Kind} {cs rest : List Element} {base : Element} {after : Bool}
    {l : Nat} (hparts : (node k cs).parts = base :: rest) (hk : k ≠ .halfConstraint)
    (hgraded : isGradedAs k (base :: rest) = true) (hlevel : base.isOfLevel l = true)
    (hbase : Sound after base) (hrest : ∀ e ∈ rest, Sound false e) :
    Sound after (.node k cs) :=
  sound_wrapped hparts hk hgraded hlevel hbase
    ⟨halvesFollowAll_of_forall fun e he => (hrest e he).halves, fun e he => (hrest e he).graded⟩

end Element

/-! ## What comes to a group -/

namespace Grammar

open Point Declarations Conditions Expressions

/-- An expression of a level comes to the group. -/
def AddsOne (l : Nat) (half : Bool) (x y : Point) : Prop :=
  ∃ e, y.parts = x.parts ++ [e] ∧ e.isOfLevel l = true ∧ Sound half e

/-- A node of a kind comes to the group. -/
def AddsNode (k : Kind) (x y : Point) : Prop :=
  ∃ cs, y.parts = x.parts ++ [.node k cs] ∧ Sound false (.node k cs)

/-- A sound element, and no node of a barred kind. -/
def Operand (barred : List Kind) (e : Element) : Prop :=
  Sound false e ∧ (e.isNode = true → barred.contains e.kind = false)

/-- A node that is of no barred kind comes to the group. -/
def AddsOperand (barred : List Kind) (x y : Point) : Prop :=
  ∃ k cs, y.parts = x.parts ++ [.node k cs] ∧ Operand barred (.node k cs)

/-- The only expression of the group gives way to another one of the same level. -/
def Turns (l : Nat) (x y : Point) : Prop :=
  ∀ half e, x.parts = [e] → e.isOfLevel l = true → Sound half e →
    ∃ e', y.parts = [e'] ∧ e'.isOfLevel l = true ∧ Sound half e'

/-- An operator comes to the group, and its kind is known from the tokens ahead. -/
def AddsOperator (x y : Point) : Prop :=
  ∃ cs, y.parts = x.parts ++ [.node .operator cs] ∧ Sound false (.node .operator cs) ∧
    ∀ op, operatorKind x.ahead = op → op = .inKw ∨ op = .instanceofKw →
      (Element.node .operator cs).isOperator op = true

/-- The right side of a comparison comes to the group. -/
def AddsRightSide (op : Kind) (x y : Point) : Prop :=
  ∃ e, y.parts = x.parts ++ [e] ∧ Sound false e ∧
    ∀ operator : Element, (op = .inKw ∨ op = .instanceofKw → operator.isOperator op = true) →
      isRightSide operator e = true

end Grammar

open Grammar Point in
/-- What a production is to do when it reads without complaint. -/
def Production.Meets : Production → Point → Point → Prop
  | .expr | .ternary => AddsOne 0 false
  | .binary level half => AddsOne level.grade half
  | .binaryRest level => Turns level.grade
  | .relational half => AddsOne 6 half
  | .relationalRest => Turns 6
  | .unary => AddsOne 9 false
  | .postfixed | .primary => AddsOne 10 false
  | .suffixes => Turns 10
  | .operator => AddsOperator
  | .relationalRhs op => AddsRightSide op
  | .creation => AddsNode .newExpr
  | .arrayInit => AddsNode .arrayInit
  | .argList => AddsNode .argList
  | .typeRef => AddsNode .typeRef
  | .lhsOr => AddsOperand []
  | .lhsAnd => AddsOperand [.lhsOr]
  | .lhsUnary => AddsOperand [.lhsAnd, .lhsOr]
  | .lhsOrRest => Adds (Operand [.lhsOr])
  | .lhsAndRest => Adds (Operand [.lhsAnd, .lhsOr])
  | .lhsParen => AddsNode .lhsParen
  | .accumulate => AddsNode .accumulateClause
  | .pattern => AddsNode .pattern
  | _ => Adds (Sound false)

namespace Grammar

open Point Declarations Conditions Expressions

variable {l m : Nat} {half : Bool} {barred : List Kind} {k : Kind} {x y z : Point}

theorem AddsOne.mono (h : AddsOne m false x y) (hl : l ≤ m) (half : Bool) : AddsOne l half x y := by
  obtain ⟨e, hy, hlevel, hsound⟩ := h
  exact ⟨e, hy, isOfLevel_mono hl hlevel, hsound.mono⟩

theorem AddsNode.addsOne (h : AddsNode k x y) (hk : ∀ cs, (Element.node k cs).isOfLevel l = true) :
    AddsOne l false x y := by
  obtain ⟨cs, hy, hsound⟩ := h
  exact ⟨_, hy, hk cs, hsound⟩

theorem AddsNode.addsOperand (h : AddsNode k x y) (hk : barred.contains k = false) :
    AddsOperand barred x y := by
  obtain ⟨cs, hy, hsound⟩ := h
  exact ⟨k, cs, hy, hsound, fun _ => hk⟩

theorem AddsOperand.mono {fewer : List Kind} (h : AddsOperand barred x y) (hf : fewer ⊆ barred) :
    AddsOperand fewer x y := by
  obtain ⟨k, cs, hy, hsound, hk⟩ := h
  refine ⟨k, cs, hy, hsound, fun hnode => ?_⟩
  have := hk hnode
  simp only [List.contains_eq_mem, decide_eq_false_iff_not] at this ⊢
  exact fun hmem => this (hf hmem)

theorem AddsOperand.adds (h : AddsOperand barred x y) : Adds (Operand barred) x y := by
  obtain ⟨k, cs, hy, hop⟩ := h
  exact Adds.one hy hop

theorem operand_token (k : Kind) (t : List Char) : Operand barred (.token k t) :=
  ⟨sound_token false k t, nofun⟩

/-- A production that stands alone adds sound elements. -/
theorem adds_of_meets {p : Production} (hp : p.isSelfContained = true) (h : p.Meets x y) :
    Adds (Sound false) x y := by
  cases p with
  | expr | ternary | unary | postfixed | primary =>
    obtain ⟨e, hy, -, hsound⟩ := h
    exact Adds.one hy hsound
  | binary level half | relational half =>
    obtain ⟨e, hy, -, hsound⟩ := h
    obtain rfl : half = false := by simpa [Production.isSelfContained] using hp
    exact Adds.one hy hsound
  | binaryRest | relationalRest | suffixes => cases hp
  | operator =>
    obtain ⟨cs, hy, hsound, -⟩ := h
    exact Adds.one hy hsound
  | relationalRhs =>
    obtain ⟨e, hy, hsound, -⟩ := h
    exact Adds.one hy hsound
  | creation | arrayInit | argList | typeRef | lhsParen | accumulate | pattern =>
    obtain ⟨cs, hy, hsound⟩ := h
    exact Adds.one hy hsound
  | lhsOr | lhsAnd | lhsUnary =>
    obtain ⟨k, cs, hy, hsound, -⟩ := h
    exact Adds.one hy hsound
  | lhsOrRest | lhsAndRest => exact Adds.mono h fun _ he => he.1
  | _ => exact h

/-! ## Bodies -/

/-- A first operand, and what takes its place after it. -/
theorem addsOne_of_turns {enters : Production → Point → Point → Prop} {f g : Rule}
    (h : (innerGroup (f >> g)).Accepts enters x y)
    (hf : ∀ {x y}, f.Accepts enters x y → AddsOne m half x y) (hl : l ≤ m)
    (hg : ∀ {x y}, g.Accepts enters x y → Turns l x y) : AddsOne l half x y := by
  obtain ⟨z, ⟨w, hw, hz⟩, -, hy⟩ := accepts_innerGroup h
  obtain ⟨e, hparts, hlevel, hsound⟩ := hf hw
  obtain ⟨e', hz', hlevel', hsound'⟩ :=
    hg hz half e (by simpa using hparts) (isOfLevel_mono hl hlevel) hsound
  exact ⟨e', by rw [hy, hz'], hlevel', hsound'⟩

/-- After its negation the token of an operator comes next. -/
theorem current_of_operatorKind {enters : Production → Point → Point → Prop} {op : Kind}
    {w : Point} (hop : operatorKind x.ahead = op)
    (hident : op ≠ .ident) (h : (Grammar.eat .notKw : Rule).Accepts enters x w) :
    w.ahead.current = op := by
  have hkind : (if x.ahead.isAt .notKw then x.ahead.nth 1 else x.ahead.current) = op := by
    simp only [operatorKind] at hop
    generalize (if x.ahead.isAt .notKw then x.ahead.nth 1 else x.ahead.current) = k at hop ⊢
    split at hop
    · exact absurd hop.symm hident
    · exact hop
  rcases accepts_when h with ⟨htest, v, hbump, hskip⟩ | ⟨htest, hskip⟩
  · obtain rfl : w = v := hskip
    rw [htest, if_pos rfl] at hkind
    have hne : x.ahead.current ≠ .eof := by
      rw [show x.ahead.current = .notKw by simpa [Ahead.isAt] using htest]
      decide
    rw [ahead_of_take hbump, Ahead.current_after_one hne, hkind]
  · obtain rfl : w = x := hskip
    rwa [htest, if_neg Bool.false_ne_true] at hkind

/-- A node with a base takes the place of its base. -/
theorem turns_suffix {enters : Production → Point → Point → Prop} {e : Element} {z : Point}
    (hk : k.isSuffixed = true) (hx : x.parts = [e]) (hlevel : e.isOfLevel 10 = true)
    (hsound : Sound half e)
    (hadds : Adds (Sound false) x y) (h : (Grammar.enclose k .skip : Rule).Accepts enters y z) :
    ∃ e', z.parts = [e'] ∧ e'.isOfLevel 10 = true ∧ Sound half e' := by
  obtain ⟨v, hskip, -, hz⟩ := accepts_enclose h
  obtain rfl : v = y := hskip
  obtain ⟨new, hv, hnew⟩ := hadds
  have hparts : (Element.node k v.group.reverse).parts = e :: new := by
    rw [parts_enclose, hv, hx]
    rfl
  obtain ⟨hhalf, hgraded, hnode⟩ := Kind.of_isSuffixed hk
  exact ⟨_, hz, hnode _, sound_wrapped_of_sound hparts hhalf ((hgraded e new).trans hlevel) hlevel
    hsound hnew⟩

theorem isJoin_of_operands {a b : Element} {op : Kind} {t : List Char} {rest : List Element}
    (ha : a.isNode = true) (hb : b.isNode = true)
    (h : ∀ e ∈ a :: .token op t :: b :: rest, Operand barred e) :
    isJoin barred (a :: .token op t :: b :: rest) = true := by
  cases a with
  | token => cases ha
  | node k cs =>
    rw [isJoin, Bool.and_eq_true, decide_eq_true_iff, List.all_eq_true]
    constructor
    · rw [List.filter_cons_of_pos rfl, List.filter_cons_of_neg Bool.false_ne_true,
        List.filter_cons_of_pos hb]
      exact Nat.le_add_left 2 _
    · intro e he
      obtain ⟨hmem, hnode⟩ := List.mem_filter.1 he
      simpa using (h e hmem).2 hnode

/-- Conditions, joined or alone. -/
theorem addsOperand_join {enters : Production → Point → Point → Prop}
    {fewer : List Kind} {first rest : Production} {test : Ahead → Bool}
    (hk : fewer.contains k = false) (hgraded : ∀ parts, isGradedAs k parts = isJoin barred parts)
    (hhalf : k ≠ .halfConstraint) (htest : ∀ a, test a = true → a.current ≠ .eof)
    (hfirst : ∀ x y, enters first x y → AddsOperand barred x y)
    (hrest : ∀ x y, enters rest x y → Adds (Operand barred) x y) (hf : fewer ⊆ barred)
    (h : (innerGroup (.call first >>
      .when test (.enclose k (.bump >> .call first >> .call rest))) : Rule).Accepts enters x y) :
    AddsOperand fewer x y := by
  obtain ⟨z, ⟨w, hw, hjoin⟩, -, hy⟩ := accepts_innerGroup h
  have hfirst' : AddsOperand barred _ w := hfirst _ _ hw
  rcases accepts_when hjoin with ⟨htrue, henclose⟩ | ⟨-, hskip⟩
  · obtain ⟨v, ⟨u, hbump, u', hsecond, hothers⟩, -, hz⟩ := accepts_enclose henclose
    obtain ⟨j, cs, hwparts, ha⟩ := hfirst'
    obtain ⟨t, hu⟩ := accepts_bump hbump (htest _ htrue)
    obtain ⟨j', cs', hu', hb⟩ := hfirst _ _ hsecond
    obtain ⟨new, hv, hnew⟩ := hrest _ _ hothers
    have hparts : (Element.node k v.group.reverse).parts =
        .node j cs :: .token w.ahead.current t :: .node j' cs' :: new := by
      rw [parts_enclose, hv, hu', hu, hwparts]
      simp
    have hall : ∀ e ∈ (Element.node k v.group.reverse).parts, Operand barred e := by
      rw [hparts]
      simpa using ⟨ha, operand_token _ t, hb, hnew⟩
    refine ⟨k, _, by rw [hy, hz], ?_, fun _ => hk⟩
    refine sound_node_of_parts ?_ (fun h => absurd h hhalf) fun e he => (hall e he).1
    rw [hgraded, hparts]
    exact isJoin_of_operands rfl rfl (hparts ▸ hall)
  · obtain rfl : z = w := hskip
    obtain ⟨j, cs, hz, hop⟩ := hfirst'.mono hf
    exact ⟨j, cs, by rw [hy, hz]; rfl, hop⟩

/-- The other conditions that are joined. -/
theorem adds_joined {enters : Production → Point → Point → Prop}
    {test : Ahead → Bool} {operand rest : Production}
    (hoperand : ∀ x y, enters operand x y → AddsOperand barred x y)
    (hrest : ∀ x y, enters rest x y → Adds (Operand barred) x y)
    (h : (.when test (.bump >> .call operand >> .call rest) : Rule).Accepts enters x y) :
    Adds (Operand barred) x y := by
  rcases accepts_when h with ⟨-, u, hbump, v, hfirst, hothers⟩ | ⟨-, hskip⟩
  · exact ((adds_of_takes operand_token hbump).trans (hoperand _ _ hfirst).adds).trans
      (hrest _ _ hothers)
  · obtain rfl : y = x := hskip
    exact .refl _

section Bodies

variable {enters : Production → Point → Point → Prop}
  (ih : ∀ p x y, enters p x y → p.Meets x y)

/-- Instructions that ask nothing of the nodes they make. -/
abbrev Plain (g : Rule) : Prop :=
  Makes (fun k => k.isGraded = false) (fun p => p.isSelfContained = true) False g

include ih

theorem adds_of_plain {g : Rule} (hg : Plain g) (h : g.Accepts enters x y) :
    Adds (Sound false) x y :=
  hg.adds ⟨sound_token false, fun _ _ => sound_ordinary⟩ not_false
    (fun _ _ _ hp hxy => adds_of_meets hp (ih _ _ _ hxy)) h

theorem addsNode_of_node {g : Rule} (hk : k.isGraded = false) (hg : Plain g)
    (h : (node k g).Accepts enters x y) : AddsNode k x y := by
  obtain ⟨z, hz, -, hy⟩ := accepts_node h
  refine ⟨_, hy, sound_ordinary hk ?_⟩
  rw [parts_enclose]
  exact (adds_of_plain ih hg hz).forall_parts

theorem addsNode_of_inner {g : Rule} (hk : k.isGraded = false) (hg : Plain g)
    (h : (inner k g).Accepts enters x y) : AddsNode k x y := by
  obtain ⟨w, htrivia, hnode⟩ := h
  obtain ⟨cs, hy, hsound⟩ := addsNode_of_node ih hk hg hnode
  exact ⟨cs, (accepts_trivia htrivia).2 ▸ hy, hsound⟩

theorem adds_body {p : Production} (hp : p.isLevelled = false)
    (h : p.body.Accepts enters x y) : Adds (Sound false) x y := by
  by_cases hf : p.isFragment = true
  · obtain ⟨-, k, g, -, -, hbody, hk, hg⟩ := makes_fragment (fun k hk _ => hk) p
      (fun q hq => (Bool.and_eq_true_iff.1 (Bool.and_eq_true_iff.1 hq).1).1) hf
    rcases hbody with hbody | hbody
    · rw [hbody] at h
      obtain ⟨cs, hy, hsound⟩ := addsNode_of_inner ih hk hg h
      exact Adds.one hy hsound
    · rw [hbody] at h
      obtain ⟨cs, hy, hsound⟩ := addsNode_of_node ih hk hg h
      exact Adds.one hy hsound
  · exact adds_of_plain ih
      (makes_body p (fun k hk _ => hk)
        (fun q hq => (Bool.and_eq_true_iff.1 (Bool.and_eq_true_iff.1 hq).1).1)
        (by simpa using hf) hp) h

/-! ### Binary operators -/

theorem addsOne_operand {level : Level} (h : (operand level half).Accepts enters x y) :
    AddsOne (level.grade + 1) half x y := by
  cases level with
  | multiplicative => exact AddsOne.mono (ih _ _ _ h) (Nat.le_refl 9) half
  | _ => exact ih _ _ _ h

/-- A binary expression takes the place of its left operand. -/
theorem turns_binary {level : Level} {e : Element} {z : Point}
    (hop : level.operators.contains x.ahead.current = true) (hx : x.parts = [e])
    (hlevel : e.isOfLevel level.grade = true) (hsound : Sound half e)
    (h : (Grammar.enclose .binaryExpr (.seq .bump (operand level level.admitsHalf))).Accepts
      enters x z) :
    ∃ e', z.parts = [e'] ∧ e'.isOfLevel level.grade = true ∧ Sound half e' := by
  obtain ⟨v, ⟨w, hbump, hright⟩, -, hz⟩ := accepts_enclose h
  obtain ⟨hprecedence, hadmits, hne, htrivia⟩ := Level.of_mem_operators hop
  obtain ⟨t, hw⟩ := accepts_bump hbump hne
  obtain ⟨r, hv, hrlevel, hrsound⟩ := addsOne_operand ih hright
  generalize x.ahead.current = op at hw hprecedence hadmits htrivia
  have hparts : (Element.node .binaryExpr v.group.reverse).parts = e :: [.token op t, r] := by
    rw [parts_enclose, hv, hw, hx]
    rfl
  obtain ⟨k, cs, rfl⟩ := exists_of_isOfLevel hlevel
  refine ⟨_, hz, ?_, sound_wrapped hparts nofun ?_ hlevel hsound ⟨?_, ?_⟩⟩
  · simp [isOfLevel, level?, hparts, isToken, isNode, Element.kind, hprecedence]
  · simp [isGradedAs, isBinary, hprecedence, hlevel, hrlevel]
  · rw [← hadmits] at hrsound
    simpa [halvesFollowAll, isTrivia, htrivia, endsBeforeHalf, isToken, isNode, Element.kind] using
      hrsound.halves
  · rw [List.forall_mem_cons, List.forall_mem_singleton]
    exact ⟨(sound_token false op t).graded, hrsound.graded⟩

theorem turns_binaryRest {level : Level} (h : (binaryRest level).Accepts enters x y) :
    Turns level.grade x y := by
  intro half e hx hlevel hsound
  rcases accepts_when h with ⟨htest, u, henclose, hrest⟩ | ⟨-, hskip⟩
  · obtain ⟨e', hu, hlevel', hsound'⟩ := turns_binary ih htest hx hlevel hsound henclose
    exact ih _ _ _ hrest half e' hu hlevel' hsound'
  · obtain rfl : y = x := hskip
    exact ⟨e, hx, hlevel, hsound⟩

theorem addsOne_binary {level : Level} (h : (binary level half).Accepts enters x y) :
    AddsOne level.grade half x y :=
  addsOne_of_turns h (addsOne_operand ih) (Nat.le_succ _) fun h => ih _ _ _ h

/-! ### Comparisons -/

theorem addsOperator (h : Expressions.operator.Accepts enters x y) : AddsOperator x y := by
  have hadds : Adds (Sound false) x y := adds_body ih (p := .operator) rfl h
  obtain ⟨z, ⟨w, hnot, v, hsymbol, hrest⟩, -, hy⟩ := accepts_inner h
  refine ⟨_, hy, hadds.of_one hy, fun op hop hword => ?_⟩
  have hne : op ≠ .ident ∧ op ≠ .hashHash ∧ op ≠ .eof := by
    rcases hword with rfl | rfl <;> exact ⟨nofun, nofun, nofun⟩
  have hcurrent : w.ahead.current = op := by
    refine current_of_operatorKind ?_ hne.1 hnot
    simpa [operatorKind, Ahead.isAt] using hop
  rcases accepts_when hsymbol with ⟨htest, -⟩ | ⟨-, hbump⟩
  · exact absurd (by simpa [Ahead.isAt, hcurrent] using htest) hne.2.1
  · obtain ⟨t, hv⟩ := accepts_bump hbump (hcurrent ▸ hne.2.2)
    have hparams : Adds (Sound false) v z := adds_of_plain ih
      (.ite (.when (.inner rfl (.seq .bump (.seq .look_take .expect_skip))) .skip) .skip) hrest
    obtain ⟨new, hz, -⟩ := hparams
    rw [isOperator, parts_enclose, hz, hv, hcurrent]
    simp [isToken, isNode, Element.kind]

theorem addsRightSide {op : Kind} (h : (relationalRhs op).Accepts enters x y) :
    AddsRightSide op x y := by
  rw [relationalRhs] at h
  split at h
  · rename_i hop
    obtain rfl := beq_iff_eq.1 hop
    obtain ⟨cs, hy, hsound⟩ := ih _ _ _ h
    exact ⟨_, hy, hsound, fun o ho => ho (.inr rfl)⟩
  · rcases accepts_when h with ⟨htest, hlist⟩ | ⟨-, hoperand⟩
    · obtain ⟨hop, -⟩ := Bool.and_eq_true_iff.1 htest
      obtain rfl := beq_iff_eq.1 hop
      obtain ⟨cs, hy, hsound⟩ := ih _ _ _ hlist
      exact ⟨_, hy, hsound, fun o ho => ho (.inl rfl)⟩
    · obtain ⟨e, hy, hlevel, hsound⟩ := ih _ _ _ hoperand
      refine ⟨e, hy, hsound, fun o _ => ?_⟩
      have hlevel : e.isOfLevel 7 = true := hlevel
      rw [isRightSide]
      split
      · rename_i hk
        obtain ⟨k, cs, rfl⟩ := exists_of_isOfLevel hlevel
        obtain rfl : k = .argList := hk
        cases hlevel
      · rename_i hk
        obtain ⟨k, cs, rfl⟩ := exists_of_isOfLevel hlevel
        obtain rfl : k = .typeRef := hk
        cases hlevel
      · exact hlevel

/-- An operator and its right side come to the group. -/
theorem adds_operation (h : operation.Accepts enters x y) :
    ∃ cs e, y.parts = x.parts ++ [.node .operator cs, e] ∧ Sound false (.node .operator cs) ∧
      Sound false e ∧ isRightSide (.node .operator cs) e = true := by
  obtain ⟨z, hoperator, hright⟩ := h
  obtain ⟨cs, hz, hsound, hop⟩ := ih _ _ _ hoperator
  obtain ⟨e, hy, hesound, hside⟩ := ih _ _ _ hright
  refine ⟨cs, e, by rw [hy, hz]; simp, hsound, hesound, hside _ fun hword => hop _ rfl hword⟩

theorem turns_relational {e : Element} {z : Point} (hx : x.parts = [e])
    (hlevel : e.isOfLevel 6 = true) (hsound : Sound half e)
    (h : (Grammar.enclose .relationalExpr operation).Accepts enters x z) :
    ∃ e', z.parts = [e'] ∧ e'.isOfLevel 6 = true ∧ Sound half e' := by
  obtain ⟨v, hv, -, hz⟩ := accepts_enclose h
  obtain ⟨cs, r, hparts, hop, hr, hside⟩ := adds_operation ih hv
  have hall : (Element.node .relationalExpr v.group.reverse).parts = e :: [.node .operator cs, r] := by
    rw [parts_enclose, hparts, hx]
    rfl
  refine ⟨_, hz, rfl, sound_wrapped_of_sound hall nofun ?_ hlevel hsound ?_⟩
  · simp [isGradedAs, isRelational, hlevel, hside]
  · simpa using ⟨hop, hr⟩

theorem turns_relationalRest (h : relationalRest.Accepts enters x y) : Turns 6 x y := by
  intro half e hx hlevel hsound
  rcases accepts_when h with ⟨-, u, henclose, hrest⟩ | ⟨-, hskip⟩
  · obtain ⟨e', hu, hlevel', hsound'⟩ := turns_relational ih hx hlevel hsound henclose
    exact ih _ _ _ hrest half e' hu hlevel' hsound'
  · obtain rfl : y = x := hskip
    exact ⟨e, hx, hlevel, hsound⟩

theorem addsOne_relational (h : (relational half).Accepts enters x y) : AddsOne 6 half x y := by
  rcases accepts_when h with ⟨htest, hhalf⟩ | ⟨-, hfull⟩
  · obtain ⟨rfl, -⟩ := Bool.and_eq_true_iff.1 htest
    obtain ⟨z, hz, -, hy⟩ := accepts_inner hhalf
    obtain ⟨cs, r, hparts, hop, hr, -⟩ := adds_operation ih hz
    refine ⟨_, hy, rfl, sound_node_of_parts rfl (fun _ => rfl) ?_⟩
    rw [parts_enclose, hparts]
    simpa using ⟨hop, hr⟩
  · exact addsOne_of_turns hfull (fun h => AddsOne.mono (ih _ _ _ h) (Nat.le_refl 7) half)
      (by decide) fun h => ih _ _ _ h

/-! ### Conditional expressions -/

theorem addsOne_ternary (h : ternary.Accepts enters x y) : AddsOne 0 false x y := by
  obtain ⟨z, ⟨w, hcondition, hrest⟩, -, hy⟩ := accepts_innerGroup h
  obtain ⟨e, hw, hlevel, hsound⟩ := ih _ _ _ hcondition
  rcases accepts_when hrest with ⟨-, henclose⟩ | ⟨-, hskip⟩
  · obtain ⟨v, hv, -, hz⟩ := accepts_enclose henclose
    have hadds : Adds (Sound false) w v := adds_of_plain ih
      (.seq .bump (.seq (.call rfl) (.seq .expect_skip (.call rfl)))) hv
    obtain ⟨new, hparts, hnew⟩ := hadds
    refine ⟨_, by rw [hy, hz], rfl, sound_ordinary rfl ?_⟩
    rw [parts_enclose, hparts, hw]
    simpa using ⟨hsound, hnew⟩
  · obtain rfl : z = w := hskip
    exact ⟨e, by rw [hy, hw]; rfl, isOfLevel_mono (Nat.zero_le _) hlevel, hsound⟩

/-! ### Signs, casts and suffixes -/

theorem addsOne_sign (hne : x.ahead.current ≠ .eof)
    (h : (inner .unaryExpr (.bump >> .call .unary) : Rule).Accepts enters x y) :
    AddsOne 9 false x y := by
  obtain ⟨z, ⟨w, hbump, hoperand⟩, -, hy⟩ := accepts_inner h
  obtain ⟨t, hw⟩ := accepts_bump hbump (by simpa using hne)
  obtain ⟨e, hz, hlevel, hsound⟩ := ih _ _ _ hoperand
  have hlevel : e.isOfLevel 9 = true := hlevel
  have hparts : (Element.node .unaryExpr z.group.reverse).parts =
      [.token (Ahead.afterTrivia x.ahead).current t, e] := by
    rw [parts_enclose, hz, hw]
    rfl
  refine ⟨_, hy, ?_, sound_node_of_parts ?_ nofun ?_⟩
  · simp [isOfLevel, level?, hparts, isToken, isNode]
  · rw [hparts, isGradedAs, isUnary]
    exact hlevel
  · rw [hparts]
    simpa using ⟨sound_token false _ t, hsound⟩

theorem addsOne_cast (hcast : atCast x.ahead = true)
    (h : (inner .castExpr
      (.seq .bump (.seq (.call .typeRef) (.seq (.expect .rParen) (.call .unary)))) : Rule).Accepts enters x y) :
    AddsOne 9 false x y := by
  obtain ⟨z, ⟨w, hopen, u, htype, v, hclose, hoperand⟩, -, hy⟩ := accepts_inner h
  have hparen : (Ahead.afterTrivia x.ahead).current = .lParen := by
    rw [atCast, Bool.and_eq_true, Bool.and_eq_true] at hcast
    simpa [Ahead.isAt] using hcast.1.1
  obtain ⟨t, hw⟩ := accepts_bump hopen (by simp [hparen])
  obtain ⟨cs, hu, htsound⟩ := ih _ _ _ htype
  obtain ⟨hrparen, v', hbump, hskip⟩ := accepts_expect hclose
  obtain rfl : v = v' := hskip
  obtain ⟨s, hv⟩ := accepts_bump hbump (by simp [hrparen])
  obtain ⟨e, hz, hlevel, hsound⟩ := ih _ _ _ hoperand
  have hlevel : e.isOfLevel 9 = true := hlevel
  have hparts : (Element.node .castExpr z.group.reverse).parts =
      [.token .lParen t, .node .typeRef cs, .token .rParen s, e] := by
    rw [parts_enclose, hz, hv, hu, hw, hrparen]
    simp [hparen]
  refine ⟨_, hy, rfl, sound_node_of_parts ?_ (by decide) ?_⟩
  · rw [hparts, isGradedAs, isCast]
    exact hlevel
  · rw [hparts]
    simpa using ⟨sound_token false _ t, htsound, sound_token false _ s, hsound⟩

theorem addsOne_unary (h : Expressions.unary.Accepts enters x y) : AddsOne 9 false x y := by
  rw [Expressions.unary, Accepts] at h
  split at h
  case h_7 =>
    split at h
    · rename_i hcast
      exact addsOne_cast ih hcast h
    · exact AddsOne.mono (ih _ _ _ h) (Nat.le_succ 9) false
  all_goals
    rename_i hcurrent
    exact addsOne_sign ih (by rw [hcurrent]; decide) h

/-- A field access or a call of a method. -/
theorem turns_access (h : (.seq (.take 2) (.seq (.whenAt .lParen
      (.seq (.call .argList) (.enclose .methodCall .skip)) (.enclose .fieldAccess .skip))
      (.call .suffixes)) : Rule).Accepts enters x y) :
    Turns 10 x y := by
  intro half e hx hlevel hsound
  obtain ⟨u, htake, v, hnode, hrest⟩ := h
  have hname : Adds (Sound false) x u := adds_of_takes (sound_token false) htake
  have hturned : ∃ e', v.parts = [e'] ∧ e'.isOfLevel 10 = true ∧ Sound half e' := by
    rcases accepts_when hnode with ⟨-, w, hargs, henclose⟩ | ⟨-, henclose⟩
    · exact turns_suffix (k := .methodCall) rfl hx hlevel hsound
        (hname.trans (adds_of_meets rfl (ih _ _ _ hargs))) henclose
    · exact turns_suffix (k := .fieldAccess) rfl hx hlevel hsound hname henclose
  obtain ⟨e', hv, hlevel', hsound'⟩ := hturned
  exact ih _ _ _ hrest half e' hv hlevel' hsound'

/-- A sign after its operand. -/
theorem turns_increment (hne : x.ahead.current ≠ .eof)
    (h : (.bump >> .enclose .unaryExpr .skip >> .call .suffixes : Rule).Accepts enters x y) :
    Turns 10 x y := by
  intro half e hx hlevel hsound
  obtain ⟨u, hbump, v, henclose, hrest⟩ := h
  obtain ⟨t, hu⟩ := accepts_bump hbump hne
  obtain ⟨w, hskip, -, hv⟩ := accepts_enclose henclose
  obtain rfl : w = u := hskip
  have hparts : (Element.node .unaryExpr w.group.reverse).parts =
      e :: [.token x.ahead.current t] := by
    rw [parts_enclose, hu, hx]
    rfl
  obtain ⟨k, cs, rfl⟩ := exists_of_isOfLevel hlevel
  refine ih _ _ _ hrest half _ hv ?_ (sound_wrapped_of_sound hparts nofun hlevel hlevel hsound ?_)
  · simp [isOfLevel, level?, hparts, isToken, isNode]
  · simpa using sound_token false _ t

theorem turns_suffixes (h : suffixes.Accepts enters x y) : Turns 10 x y := by
  have hstop (h : (Grammar.skip : Rule).Accepts enters x y) : Turns 10 x y := by
    obtain rfl : y = x := h
    exact fun half e hx hlevel hsound => ⟨e, hx, hlevel, hsound⟩
  rw [suffixes, Accepts] at h
  split at h
  · split at h
    · exact turns_access ih h
    · exact hstop h
  · split at h
    · exact turns_access ih h
    · exact hstop h
  · split at h
    · intro half e hx hlevel hsound
      obtain ⟨u, hbump, v, hname, w, henclose, hrest⟩ := h
      have hcast : Adds (Sound false) x v :=
        (adds_of_takes (sound_token false) hbump).trans (adds_of_meets rfl (ih _ _ _ hname))
      obtain ⟨e', hw, hlevel', hsound'⟩ :=
        turns_suffix (k := .inlineCast) rfl hx hlevel hsound hcast henclose
      exact ih _ _ _ hrest half e' hw hlevel' hsound'
    · exact hstop h
  · intro half e hx hlevel hsound
    obtain ⟨u, hbump, v, hexpr, v', hclose, w, henclose, hrest⟩ := h
    have hindex : Adds (Sound false) x v' :=
      ((adds_of_takes (sound_token false) hbump).trans (adds_of_meets rfl (ih _ _ _ hexpr))).trans
        (adds_of_plain ih .expect_skip hclose)
    obtain ⟨e', hw, hlevel', hsound'⟩ :=
      turns_suffix (k := .indexExpr) rfl hx hlevel hsound hindex henclose
    exact ih _ _ _ hrest half e' hw hlevel' hsound'
  · rename_i hcurrent
    split at h
    · exact turns_increment ih (by rw [hcurrent]; decide) h
    · exact hstop h
  · rename_i hcurrent
    split at h
    · exact turns_increment ih (by rw [hcurrent]; decide) h
    · exact hstop h
  · exact hstop h

/-- A name, or a call of it. -/
theorem addsOne_name (h : (innerGroup (.node .nameRef .bump >>
      .when (fun a => a.isAt .lParen && a.adjacent)
        (.call .argList >> .enclose .methodCall .skip)) : Rule).Accepts enters x y) :
    AddsOne 10 false x y := by
  obtain ⟨z, ⟨w, hname, hcall⟩, -, hy⟩ := accepts_innerGroup h
  obtain ⟨cs, hw, hsound⟩ := addsNode_of_node ih rfl .bump hname
  rcases accepts_when hcall with ⟨-, u, hargs, henclose⟩ | ⟨-, hskip⟩
  · obtain ⟨e, hz, hlevel, hesound⟩ := turns_suffix (k := .methodCall) rfl hw rfl
      hsound (adds_of_meets rfl (ih _ _ _ hargs)) henclose
    exact ⟨e, by rw [hy, hz], hlevel, hesound⟩
  · obtain rfl : z = w := hskip
    exact ⟨_, by rw [hy, hw]; rfl, rfl, hsound⟩

theorem addsOne_primary (h : primary.Accepts enters x y) : AddsOne 10 false x y := by
  rw [primary, Accepts] at h
  split at h
  · exact AddsNode.addsOne (addsNode_of_inner ih rfl .bump h) fun _ => rfl
  · split at h
    · exact addsOne_name ih h
    · split at h
      · exact AddsNode.addsOne (ih _ _ _ h) fun _ => rfl
      · exact AddsNode.addsOne (addsNode_of_inner ih rfl
          (.seq .bump (.seq (.call rfl) (.seq (.recoverInParens rfl) .expect_skip))) h) fun _ => rfl
      · exact AddsNode.addsOne (ih _ _ _ h) fun _ => rfl
      · cases h.1

/-! ### Conditions -/

theorem addsOperand_lhsOr (h : lhsOr.Accepts enters x y) : AddsOperand [] x y :=
  addsOperand_join (k := .lhsOr) rfl (fun _ => rfl) nofun (fun _ => ne_eof_of_isOr) (ih .lhsAnd)
    (ih .lhsOrRest) (List.nil_subset _) h

theorem addsOperand_lhsAnd (h : lhsAnd.Accepts enters x y) : AddsOperand [.lhsOr] x y :=
  addsOperand_join (k := .lhsAnd) rfl (fun _ => rfl) nofun (fun _ => ne_eof_of_isAnd)
    (ih .lhsUnary) (ih .lhsAndRest) (List.subset_cons_self _ _) h

theorem addsOperand_lhsUnary (h : lhsUnary.Accepts enters x y) :
    AddsOperand [.lhsAnd, .lhsOr] x y := by
  rw [lhsUnary, Accepts] at h
  split at h
  · exact AddsNode.addsOperand (addsNode_of_inner ih rfl (.seq .bump (.call rfl)) h) rfl
  · exact AddsNode.addsOperand (addsNode_of_inner ih rfl (.seq .bump (.call rfl)) h) rfl
  · exact AddsNode.addsOperand (addsNode_of_inner ih rfl
      (.seq .bump (.expect (.seq (.call rfl) .expect_skip))) h) rfl
  · exact AddsNode.addsOperand (addsNode_of_inner ih rfl
      (.seq .bump (.expect (.seq (.call rfl) .expect_skip))) h) rfl
  · exact AddsNode.addsOperand (ih _ _ _ h) rfl
  · exact AddsNode.addsOperand (ih _ _ _ h) rfl
  · exact AddsNode.addsOperand (ih _ _ _ h) rfl
  · exact AddsNode.addsOperand (ih _ _ _ h) rfl
  · cases h.1

/-- A prefix form starts with its word, so it may hold any conditions. -/
theorem addsNode_prefix (hk : ∀ parts, isGradedAs k parts = isJoin barred parts)
    (hhalf : k ≠ .halfConstraint) (hne : x.ahead.current ≠ .eof)
    (h : (inner k (.bump >> .call .prefixOperands) : Rule).Accepts enters x y) :
    AddsNode k x y := by
  obtain ⟨z, ⟨w, hbump, hoperands⟩, -, hy⟩ := accepts_inner h
  obtain ⟨t, hw⟩ := accepts_bump hbump (by simpa using hne)
  obtain ⟨new, hz, hnew⟩ := adds_of_meets rfl (ih _ _ _ hoperands)
  have hparts : (Element.node k z.group.reverse).parts =
      .token (Ahead.afterTrivia x.ahead).current t :: new := by
    rw [parts_enclose, hz, hw]
    rfl
  refine ⟨_, hy, sound_node_of_parts ?_ (fun h => absurd h hhalf) ?_⟩
  · rw [hk, hparts]
    rfl
  · rw [hparts, List.forall_mem_cons]
    exact ⟨sound_token false _ t, hnew⟩

theorem addsNode_lhsParen (h : lhsParen.Accepts enters x y) : AddsNode .lhsParen x y := by
  obtain ⟨z, ⟨w, hopen, v, hinner, hclose⟩, -, hy⟩ := accepts_inner h
  have hadds : Adds (Sound false) w v := by
    rw [Accepts] at hinner
    split at hinner
    · rename_i hcurrent
      obtain ⟨cs, hv, hsound⟩ :=
        addsNode_prefix (k := .lhsAnd) ih (fun _ => rfl) (by decide) (by rw [hcurrent]; decide) hinner
      exact .one hv hsound
    · rename_i hcurrent
      obtain ⟨cs, hv, hsound⟩ :=
        addsNode_prefix (k := .lhsOr) ih (fun _ => rfl) (by decide) (by rw [hcurrent]; decide) hinner
      exact .one hv hsound
    · exact adds_of_meets rfl (ih _ _ _ hinner)
  refine ⟨_, hy, sound_ordinary rfl ?_⟩
  rw [parts_enclose]
  exact (((adds_of_takes (sound_token false) hopen).trans hadds).trans
    (adds_of_plain ih .expect_skip hclose)).forall_parts

/-! ### All productions -/

/-- A production that reads one node of a kind. -/
theorem addsNode_of_body {p : Production} {g : Rule} (hp : p.isLevelled = false)
    (hinner : p.body = .inner k g) (h : p.body.Accepts enters x y) : AddsNode k x y := by
  have hadds : Adds (Sound false) x y := adds_body ih hp h
  rw [hinner] at h
  obtain ⟨z, -, -, hy⟩ := accepts_inner h
  exact ⟨_, hy, hadds.of_one hy⟩

theorem addsNode_typeRef (h : typeRef.Accepts enters x y) : AddsNode .typeRef x y := by
  have hadds : Adds (Sound false) x y := adds_body ih (p := .typeRef) rfl h
  rcases accepts_when h with ⟨-, hinner⟩ | ⟨-, hfail⟩
  · obtain ⟨z, -, -, hy⟩ := accepts_inner hinner
    exact ⟨_, hy, hadds.of_one hy⟩
  · exact (not_accepts_fail (fun _ => rfl) hfail).elim

/-- Every body does what is asked of its production, if the productions it enters do. -/
theorem meets_body {p : Production} (h : p.body.Accepts enters x y) : p.Meets x y := by
  cases p with
  | expr => exact ih .ternary _ _ h
  | ternary => exact addsOne_ternary ih h
  | binary => exact addsOne_binary ih h
  | binaryRest => exact turns_binaryRest ih h
  | relational => exact addsOne_relational ih h
  | relationalRest => exact turns_relationalRest ih h
  | operator => exact addsOperator ih h
  | relationalRhs => exact addsRightSide ih h
  | unary => exact addsOne_unary ih h
  | postfixed =>
    exact addsOne_of_turns h (fun h => ih _ _ _ h) (Nat.le_refl 10) fun h => ih _ _ _ h
  | suffixes => exact turns_suffixes ih h
  | primary => exact addsOne_primary ih h
  | creation | arrayInit | argList | accumulate | pattern => exact addsNode_of_body ih rfl rfl h
  | typeRef => exact addsNode_typeRef ih h
  | lhsOr => exact addsOperand_lhsOr ih h
  | lhsAnd => exact addsOperand_lhsAnd ih h
  | lhsUnary => exact addsOperand_lhsUnary ih h
  | lhsOrRest => exact adds_joined (ih .lhsAnd) (ih .lhsOrRest) h
  | lhsAndRest => exact adds_joined (ih .lhsUnary) (ih .lhsAndRest) h
  | lhsParen => exact addsNode_lhsParen ih h
  | _ => exact adds_body ih rfl h

end Bodies

/-- Every production does what is asked of it. -/
theorem meets_of_enters {depth : Nat} {p : Production} (h : Enters Production.body depth p x y) :
    p.Meets x y := by
  induction depth generalizing p x y with
  | zero => exact h.elim
  | succ depth ih => exact meets_body (fun _ _ _ => ih) h

end Grammar

/-! ## Trees respect precedence -/

open Grammar Element

theorem sound_parse {source : List Char} (hclean : IsClean (parse source).syntaxErrors) :
    Sound false (parse source).root := by
  obtain ⟨e, hended, -⟩ := (covers_lex source).ended
  obtain ⟨children, -, hroot, -⟩ := exists_parse source none
  obtain ⟨depth, haccepted⟩ := hended.accepted hclean
  have hadds : Point.Adds (Sound false) _ _ := meets_of_enters haccepted
  refine hadds.forall_parts _ ?_
  rw [show (parseTokens (lex source).tokens none).1 = (parse source).root from rfl, hroot]
  exact List.mem_singleton_self _

/-- The tree of a source without errors respects precedence and associativity: what is asked of the
parts of a node holds of all its nodes, and each comparison without left operand stands right after
`||` or `&&` of a binary expression around it. -/
theorem parse_isGraded (source : List Char) (hclean : IsClean (parse source).syntaxErrors) :
    (∀ n ∈ (parse source).root.nodes, n.isGraded = true) ∧
      (parse source).root.halvesFollow false = true :=
  ⟨(sound_parse hclean).graded, (sound_parse hclean).halves⟩

theorem parse_isGraded_rule :
    let root := (parse ("rule R when A(a - b - c * -d < 1 || > 2 && e.f(1)[0] != (int) g++, " ++
      "h in (1, 2), i instanceof T) and (B() or C() && D()) then end").toList).root
    (∀ n ∈ root.nodes, n.isGraded = true) ∧ root.halvesFollow false = true :=
  parse_isGraded _ (List.all_eq_true.1 (by decide +kernel))

end RuleLang
