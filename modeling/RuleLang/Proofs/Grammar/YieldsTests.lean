import Mathlib.Tactic.FinCases
import RuleLang.Proofs.Grammar.Yields

/-!
# Comparisons are read as their nodes

A comparison of names and literals is read as a node with its operands and its operator, wherever a
comma or a parenthesis comes after it. Between operands and operators, what comes next decides where
one ends: no kind that an operator starts with goes on with an operand, and no kind that comes after
a comparison goes on with the comparison.

## Main definitions

* `Follow.terms`, `Follow.relations`, `Follow.closers`, `Follow.clauses` — the kinds that operands,
  operators and conditional elements start with, and those that come after comparisons.
* `Follow.extensions`, `Follow.connectors` — the kinds that go on with an operand and with a
  comparison.

## Main statements

* `Relation.seen` — an operator is seen where it comes before an operand.
* `Term.gives_expr`, `Test.gives_expr` — an operand alone and a comparison are read as expressions.
-/

namespace RuleLang

open Grammar Element Ahead

/-! ## Kinds that come next -/

namespace Follow

/-- What an operand starts with. -/
def terms : List Kind :=
  [.ident, .stringLit, .intLit, .floatLit, .trueKw, .falseKw, .nullKw]

/-- What an operator starts with. -/
def relations : List Kind :=
  [.eqEq, .neq, .lt, .gt, .ltEq, .gtEq, .matchesKw, .containsKw, .memberOfKw, .soundslikeKw,
    .excludesKw, .strKw, .notKw, .hashHash, .ident]

/-- What comes after a comparison. -/
def closers : List Kind :=
  [.comma, .rParen]

/-- What goes on with an operand. -/
def extensions : List Kind :=
  [.lParen, .dot, .bangDot, .hash, .lBracket, .plusPlus, .minusMinus, .plus, .minus, .star, .slash,
    .percent]

/-- What goes on with a comparison. -/
def connectors : List Kind :=
  [.amp, .caret, .pipe, .ampAmp, .pipePipe, .question]

/-- What a conditional element starts with. -/
def clauses : List Kind :=
  [.notKw, .existsKw, .evalKw, .forallKw, .lParen, .question, .ident]

end Follow

open Follow

/-- Neither operators nor what comes after a comparison goes on with an operand. -/
theorem Follow.not_mem_extensions {a : Ahead} (h : Begins [] (At (relations ++ closers)) a) :
    a.current ∉ extensions :=
  have hdisjoint : ∀ k ∈ relations ++ closers, k ∉ extensions := by decide
  hdisjoint _ h.at

theorem Kind.mem_terms {k : Kind} (h : k.isLiteral = true) : k ∈ terms := by
  cases k <;> first | decide | cases h

theorem Kind.isSolid_of_mem {k : Kind} (h : k ∈ terms ++ relations) : k.isSolid = true := by
  revert h k
  decide

/-! ## Operands -/

namespace Term

theorem kind_mem_terms (t : Term) : t.leaf.kind ∈ terms := by
  cases t with
  | name => exact List.mem_cons_self
  | literal l => exact Kind.mem_terms l.isLiteral

theorem isSolid (t : Term) : t.leaf.kind.isSolid = true :=
  Kind.isSolid_of_mem (List.mem_append_left _ t.kind_mem_terms)

theorem starts_shape (t : Term) (es : List Element) : Starts t.leaf.kind (t.shape :: es) := by
  cases t with
  | name n => exact (Starts.leaf rfl []).node .nameRef es
  | literal l => exact (Starts.leaf (Term.literal l).isSolid []).node .literal es

theorem kindsOf_shape (t : Term) (es : List Element) :
    kindsOf (t.shape :: es) = t.leaf.kind :: kindsOf es := by
  have hleaf := kindsOf_token (Kind.isTrivia_of_isSolid t.isSolid) t.leaf.text []
  cases t <;> exact (kindsOf_node _ _ _).trans (congrArg (· ++ kindsOf es) hleaf)

section

variable {next : Ahead → Prop} (t : Term)
  (hnext : ∀ a, Begins [] next a → a.current ∉ extensions)

include hnext

theorem gives_primary : Gives (.call .primary) next [t.shape] := by
  cases t with
  | name n =>
    have hname : Gives (innerGroup (node .nameRef bump >>
        when (fun a => a.isAt .lParen && a.adjacent)
          (.call .argList >> .enclose .methodCall .skip)))
        next [.node .nameRef [n.leaf.element]] := by
      refine Gives.innerGroup (k := .ident) (Yields.seq_nil ?_ ?_) ?_
      · exact (Gives.bump n.leaf rfl).yields.node
      · refine Yields.skip.not_when fun a ha => ?_
        have hne : a.current ≠ .lParen := fun h => hnext a ha (h ▸ by decide)
        simp [isAt, hne]
      · exact (Starts.token rfl _ []).node _ []
    refine .call (.look hname fun a ha => ?_)
    simp only [ha.current_of_first ((Term.name n).starts_shape []).first]
    rfl
  | literal l =>
    have hkind := l.isLiteral
    have hliteral : Gives (inner .literal bump) next [.node .literal [l.leaf.element]] := by
      have hsolid : l.leaf.kind.isSolid = true := (Term.literal l).isSolid
      exact Gives.inner (Gives.bump l.leaf hsolid).yields (.leaf hsolid [])
    refine .call (.look hliteral fun a ha => ?_)
    have hcurrent : a.current = l.leaf.kind :=
      ha.current_of_first ((Term.literal l).starts_shape []).first
    simp only [hcurrent, hkind, if_true]

theorem gives_postfixed : Gives (.call .postfixed) next [t.shape] := by
  refine .call (.innerGroup (k := t.leaf.kind) ((t.gives_primary hnext).yields.seq_nil ?_)
    (t.starts_shape []))
  refine .call (Yields.skip.look fun a ha => ?_)
  have hnone := hnext a ha
  split <;> rename_i hcurrent
  all_goals first
    | rfl
    | rw [hcurrent] at hnone
      exact absurd (by decide) hnone

theorem gives_unary : Gives (.call .unary) next [t.shape] := by
  refine .call ((t.gives_postfixed hnext).look fun a ha => ?_)
  have hcurrent := ha.current_of_first (t.starts_shape []).first
  have hcast : Expressions.atCast a = false := by
    have hne : t.leaf.kind ≠ .lParen := fun h => absurd (h ▸ t.kind_mem_terms) (by decide)
    simp [Expressions.atCast, isAt, hcurrent, hne]
  have hmem := t.kind_mem_terms
  simp only [hcurrent, hcast]
  generalize t.leaf.kind = k at hmem
  fin_cases hmem <;> rfl

end

end Term

/-! ## Operators -/

/-- An operand with no operator of the level after it. -/
theorem gives_binary {level : Level} {half : Bool} {next : Ahead → Prop} {k : Kind} {e : Element}
    (h : Gives (Expressions.operand level half) next [e]) (he : Starts k [e])
    (hnext : ∀ a, Begins [] next a → a.current ∉ level.operators) :
    Gives (.call (.binary level half)) next [e] := by
  refine .call (.innerGroup (h.yields.seq_nil ?_) he)
  refine .call (Yields.skip.not_when fun a ha => ?_)
  simpa using hnext a ha

theorem Term.gives_additive {next : Ahead → Prop} (t : Term)
    (hnext : ∀ a, Begins [] next a → a.current ∉ extensions) :
    Gives (.call (.binary .additive false)) next [t.shape] := by
  have hlevel {level : Level} (hsubset : level.operators ⊆ extensions) (a : Ahead)
      (ha : Begins [] next a) : a.current ∉ level.operators := fun h => hnext a ha (hsubset h)
  exact gives_binary (gives_binary (t.gives_unary hnext) (t.starts_shape []) (hlevel (by decide)))
    (t.starts_shape []) (hlevel (by decide))

/-- A comparison, or an operand alone, is an expression where nothing goes on with it. -/
theorem gives_expr_of_relational {next : Ahead → Prop} {k : Kind} {e : Element}
    (h : Gives (.call (.relational false)) next [e]) (he : Starts k [e])
    (hnext : ∀ a, Begins [] next a → a.current ∉ connectors) : Gives (.call .expr) next [e] := by
  have hlevel {level : Level} (hsubset : level.operators ⊆ connectors) (a : Ahead)
      (ha : Begins [] next a) : a.current ∉ level.operators := fun h => hnext a ha (hsubset h)
  have hternary : Gives (.call (.binary .logicalOr false)) next [e] :=
    gives_binary (gives_binary (gives_binary (gives_binary (gives_binary h he (hlevel (by decide)))
      he (hlevel (by decide))) he (hlevel (by decide))) he (hlevel (by decide))) he
      (hlevel (by decide))
  have hquestion : Yields (whenAt .question (.enclose .ternaryExpr (bump >> .call .expr >>
      expect .colon >> .call .expr))) next [] :=
    Yields.skip.not_at fun a ha h => hnext a ha (h ▸ by decide)
  exact .call (.call (.innerGroup (hternary.yields.seq_nil hquestion) he))

/-- An operand alone is read as an expression. -/
theorem Term.gives_expr {next : Ahead → Prop} (t : Term)
    (hnext : ∀ a, Begins [] next a → a.current ∉ extensions ++ connectors ∧
      Expressions.atRelationalOperator a = false) : Gives (.call .expr) next [t.shape] := by
  have hadditive := t.gives_additive fun a ha h => (hnext a ha).1 (List.mem_append_left _ h)
  have hrest : Yields (.call .relationalRest) next [] :=
    .call (Yields.skip.not_when fun a ha => (hnext a ha).2)
  have hrelational : Gives (.call (.relational false)) next [t.shape] :=
    .call (Gives.not_when (.innerGroup (hadditive.yields.seq_nil hrest) (t.starts_shape []))
      fun _ _ => rfl)
  exact gives_expr_of_relational hrelational (t.starts_shape []) fun a ha h =>
    (hnext a ha).1 (List.mem_append_right _ h)

namespace Relation

/-- The kind of the operator without negation and mark. -/
def kind : Relation → Kind
  | .symbol k _ | .word _ k _ => k
  | .custom _ _ _ => .ident

theorem mem_relations {k : Kind} (h : k.isComparison = true ∨ k.isWordOperator = true) :
    k ∈ relations := by
  cases k <;> first | decide | (rcases h with h | h <;> cases h)

theorem kind_ne {k m : Kind} (h : k.isComparison = true ∨ k.isWordOperator = true)
    (hm : m = .notKw ∨ m = .hashHash) : k ≠ m := by
  rintro rfl
  rcases hm with rfl | rfl <;> rcases h with h | h <;> cases h

theorem isSolid_of_operator {k : Kind} (h : k.isComparison = true ∨ k.isWordOperator = true) :
    k.isSolid = true :=
  Kind.isSolid_of_mem (List.mem_append_right _ (mem_relations h))

/-- All words of an operator may come in front of an operand. -/
theorem kind_mem_relations (r : Relation) : ∀ l ∈ r.words, l.kind ∈ relations := by
  have hnot : Kind.notKw.leaf.kind ∈ relations := by decide
  have hmark : Kind.hashHash.leaf.kind ∈ relations := by decide
  have hname : Kind.ident ∈ relations := by decide
  have hone {l : Leaf} (h : l.kind ∈ relations) : ∀ m ∈ [l], m.kind ∈ relations :=
    List.forall_mem_singleton.2 h
  cases r with
  | symbol k h => exact hone (mem_relations (.inl h))
  | word negated k h =>
    exact List.forall_mem_append.2 ⟨Leaf.forall_mem_optional hnot negated,
      hone (mem_relations (.inr h))⟩
  | custom negated marked name =>
    exact List.forall_mem_append.2 ⟨Leaf.forall_mem_optional hnot negated,
      List.forall_mem_append.2 ⟨Leaf.forall_mem_optional hmark marked, hone hname⟩⟩

theorem isSolid_of_mem (r : Relation) : ∀ l ∈ r.words, l.kind.isSolid = true := fun l hl =>
  Kind.isSolid_of_mem (List.mem_append_right _ (r.kind_mem_relations l hl))

/-- An operator is seen where it comes before an operand. -/
theorem seen {a : Ahead} {next : Ahead → Prop} {l : Kind} {ks : List Kind} (r : Relation)
    (hl : l ∈ terms) (ha : Begins (r.words.map Leaf.kind ++ l :: ks) next a) :
    Expressions.atRelationalOperator a = true ∧ Expressions.operatorKind a = r.kind := by
  have hoperand : Expressions.isOperandStart l = true := by fin_cases hl <;> rfl
  cases r with
  | symbol k h =>
    have hcurrent : a.current = k := ha.current
    simp [Expressions.atRelationalOperator, Expressions.operatorKind, isAt, hcurrent, h, kind,
      kind_ne (.inl h) (.inl rfl), kind_ne (.inl h) (.inr rfl)]
  | word negated k h =>
    cases negated with
    | false =>
      have hcurrent : a.current = k := ha.current
      simp [Expressions.atRelationalOperator, Expressions.operatorKind, isAt, hcurrent, h, kind,
        kind_ne (.inr h) (.inl rfl), kind_ne (.inr h) (.inr rfl)]
    | true =>
      have hcurrent : a.current = .notKw := ha.current
      have hsecond : a.nth 1 = k := ha.nth_one
      simp [Expressions.atRelationalOperator, Expressions.operatorKind, isAt, hcurrent, hsecond, h,
        kind, kind_ne (.inr h) (.inr rfl)]
  | custom negated marked name =>
    cases negated <;> cases marked
    · have hcurrent : a.current = .ident := ha.current
      have hsecond : a.nth 1 = l := ha.nth_one
      simp [Expressions.atRelationalOperator, Expressions.operatorKind, isAt, hcurrent, hsecond,
        hoperand, kind]
    · have hcurrent : a.current = .hashHash := ha.current
      simp [Expressions.atRelationalOperator, Expressions.operatorKind, isAt, hcurrent, kind]
    · have hcurrent : a.current = .notKw := ha.current
      have hsecond : a.nth 1 = .ident := ha.nth_one
      simp [Expressions.atRelationalOperator, Expressions.operatorKind, isAt, hcurrent, hsecond,
        kind]
    · have hcurrent : a.current = .notKw := ha.current
      have hsecond : a.nth 1 = .hashHash := ha.nth_one
      simp [Expressions.atRelationalOperator, Expressions.operatorKind, isAt, hcurrent, hsecond,
        kind]

/-- An operator that is one word. -/
theorem gives_word (next : Ahead → Prop) (l : Leaf) (hl : l.kind ∈ relations)
    (hne : l.kind ≠ .hashHash) :
    Gives (eat .hashHash (expect .ident) bump) next [l.element] := by
  have hsolid := Kind.isSolid_of_mem (List.mem_append_right terms hl)
  refine (Gives.bump l hsolid).not_at fun a ha => ?_
  rw [ha.current_of_first (Starts.leaf hsolid []).first]
  exact hne

/-- An identifier after a mark. -/
theorem gives_marked {next : Ahead → Prop} (name : Identifier) :
    Gives (eat .hashHash (expect .ident) bump) next
      [Kind.hashHash.leaf.element, Leaf.blank.element, name.leaf.element] :=
  .eat Kind.hashHash.leaf rfl (Gives.expect name.leaf rfl .skip).led

/-- Between an operator and its operand nothing stands. -/
theorem yields_params {k : Kind} {body : Rule} :
    Yields (if k == .ident || k == .strKw then whenAt .lBracket body else .skip) (At terms) [] := by
  split
  · exact .absent (by decide)
  · exact .skip

theorem kindsOf_shape (r : Relation) (es : List Element) :
    kindsOf (r.shape :: es) = r.words.map Leaf.kind ++ kindsOf es := by
  rw [shape, spread, kindsOf_node, kindsOf_intersperse, kindsOf_leaves r.isSolid_of_mem]

theorem starts_words (r : Relation) :
    ∃ k ∈ relations, Starts k ((r.words.map Leaf.element).intersperse Leaf.blank.element) := by
  obtain ⟨l, ls, hwords⟩ := List.exists_cons_of_ne_nil r.words_ne_nil
  have hl : l ∈ r.words := hwords ▸ List.mem_cons_self
  refine ⟨l.kind, r.kind_mem_relations l hl, ?_⟩
  rw [hwords]
  cases ls with
  | nil => exact .leaf (r.isSolid_of_mem l hl) []
  | cons => exact .leaf (r.isSolid_of_mem l hl) _

theorem gives_operator (r : Relation) : Gives (.call .operator) (At terms) [r.shape] := by
  obtain ⟨_, -, hstarts⟩ := r.starts_words
  have hwords : Gives (.seq (eat .notKw) (.seq (eat .hashHash (expect .ident) bump)
      (if r.kind == .ident || r.kind == .strKw then
        whenAt .lBracket
          (inner .operatorParams (bump >> Grammar.untilClose .rBracket >> expect .rBracket))
      else .skip))) (At terms) ((r.words.map Leaf.element).intersperse Leaf.blank.element) := by
    cases r with
    | symbol k h =>
      have hword := gives_word (At terms) k.leaf (mem_relations (.inl h))
        (kind_ne (.inl h) (.inr rfl))
      exact (hword.seq_nil yields_params).absent_seq
        (Starts.leaf (l := k.leaf) (isSolid_of_operator (.inl h)) []).first
        (kind_ne (.inl h) (.inl rfl))
    | word negated k h =>
      have hword := gives_word (At terms) k.leaf (mem_relations (.inr h))
        (kind_ne (.inr h) (.inr rfl))
      rw [words, List.map_append]
      exact .optional_seq rfl negated (hword.seq_nil yields_params)
        (Starts.leaf (l := k.leaf) (isSolid_of_operator (.inr h)) []).first
        (kind_ne (.inr h) (.inl rfl))
    | custom negated marked name =>
      have hname := gives_word (At terms) name.leaf
        (kind_mem_relations (.custom false false name) _ List.mem_cons_self)
        (show Kind.ident ≠ .hashHash by decide)
      rw [words, List.map_append]
      cases marked with
      | false =>
        exact .optional_seq rfl negated (hname.seq_nil yields_params)
          (Starts.leaf (l := name.leaf) rfl []).first (show Kind.ident ≠ .notKw by decide)
      | true =>
        exact .optional_seq rfl negated ((gives_marked name).seq_nil yields_params)
          (Starts.leaf (l := Kind.hashHash.leaf) rfl _).first (by decide)
  refine .call (.look (.inner hwords.yields hstarts) fun a ha => ?_)
  rw [kindsOf_shape] at ha
  obtain ⟨l, hl, ha⟩ := ha.extend (by decide)
  rw [List.append_assoc] at ha
  rw [(r.seen hl ha).2]
  rfl

theorem first_shape (r : Relation) (es : List Element) :
    ∃ k ∈ relations, First k (r.shape :: es) := by
  obtain ⟨k, hk, hstarts⟩ := r.starts_words
  exact ⟨k, hk, (hstarts.node .operator es).first⟩

/-- The operand after an operator. -/
theorem gives_rhs (r : Relation) (t : Term) :
    Gives (.call (.relationalRhs r.kind)) (At (relations ++ closers)) [t.shape] := by
  have hne : r.kind ≠ .instanceofKw ∧ r.kind ≠ .inKw := by
    cases r with
    | symbol k h => constructor <;> (rintro (rfl : k = _); cases h)
    | word _ k h => constructor <;> (rintro (rfl : k = _); cases h)
    | custom => exact ⟨by simp [kind], by simp [kind]⟩
  refine .call ?_
  simp only [Production.body, Expressions.relationalRhs, beq_eq_false_iff_ne.2 hne.1,
    Bool.false_eq_true, if_false]
  exact (t.gives_additive fun _ => not_mem_extensions).not_when fun a _ => by simp [hne.2]

end Relation

/-! ## Comparisons -/

namespace Test

theorem starts_shape (t : Test) (es : List Element) : Starts t.left.leaf.kind (t.shape :: es) :=
  (t.left.starts_shape _).node .relationalExpr es

/-- The second token of a comparison is one of its operator. -/
theorem kindsOf_shape (t : Test) (es : List Element) :
    ∃ l ∈ relations, ∃ ks, kindsOf (t.shape :: es) = t.left.leaf.kind :: l :: ks := by
  obtain ⟨l, hl, ks, hks⟩ := t.relation.first_shape [t.right.shape]
  exact ⟨l, hl, ks ++ kindsOf es, by
    rw [shape, spread, kindsOf_node, kindsOf_intersperse, Term.kindsOf_shape, hks]; rfl⟩

/-- The operator and the operand after it. -/
theorem yields_operation (t : Test) :
    Yields Expressions.operation (At closers) [Leaf.blank.element, t.relation.shape,
      Leaf.blank.element, t.right.shape] := by
  have hright := ((t.relation.gives_rhs t.right).mono fun a (ha : At closers a) =>
    List.mem_append_right _ ha).led
  have hboth := t.relation.gives_operator.led.seq hright fun a ha =>
    ha.at_of_first (t.right.starts_shape []).first.blank t.right.kind_mem_terms
  refine Yields.look hboth fun a ha => ?_
  obtain ⟨ks, hks⟩ := (t.right.starts_shape []).first
  rw [kindsOf_blank, Relation.kindsOf_shape, kindsOf_blank, hks] at ha
  rw [(t.relation.seen t.right.kind_mem_terms ha).2]
  rfl

theorem yields_no_rest : Yields (.call .relationalRest) (At closers) [] := by
  refine .call (Yields.skip.not_when fun a ha => ?_)
  have hmem := ha.at
  rw [At] at hmem
  generalize hk : a.current = k at hmem
  fin_cases hmem <;> simp [Expressions.atRelationalOperator, hk] <;> decide

/-- A comparison is read after its left operand. -/
theorem becomes_test (t : Test) :
    Becomes (.call .relationalRest) (At closers) [t.left.shape] [Leaf.blank.element,
      t.relation.shape, Leaf.blank.element, t.right.shape] [t.shape] := by
  have hnode : Becomes (.enclose .relationalExpr Expressions.operation) (At closers)
      [t.left.shape] [Leaf.blank.element, t.relation.shape, Leaf.blank.element, t.right.shape]
      [t.shape] :=
    .enclose (t.yields_operation [t.left.shape])
  have hrest : Becomes (.enclose .relationalExpr Expressions.operation >> .call .relationalRest)
      (At closers) [t.left.shape] [Leaf.blank.element, t.relation.shape, Leaf.blank.element,
        t.right.shape] [t.shape] :=
    hnode.seq (yields_no_rest [t.shape]) fun a ha => ha.begins.at
  refine .call (hrest.when fun a ha => ?_)
  obtain ⟨ks, hks⟩ := (t.right.starts_shape []).first
  rw [kindsOf_blank, Relation.kindsOf_shape, kindsOf_blank, hks] at ha
  exact (t.relation.seen t.right.kind_mem_terms ha).1

theorem gives_relational (t : Test) :
    Gives (.call (.relational false)) (At closers) [t.shape] := by
  have hleft := t.left.gives_additive fun _ => not_mem_extensions
  have hbody := (hleft.yields []).seq t.becomes_test fun a ha => by
    obtain ⟨k, hk, hfirst⟩ := t.relation.first_shape [Leaf.blank.element, t.right.shape]
    exact ha.begins.at_of_first hfirst.blank (List.mem_append_left _ hk)
  have hgroup := Gives.innerGroup_of_becomes hbody (t.left.starts_shape _) (by simp [shape, spread])
  exact .call (hgroup.not_when fun _ _ => rfl)

theorem gives_expr (t : Test) : Gives (.call .expr) (At closers) [t.shape] := by
  have hdisjoint : ∀ k ∈ closers, k ∉ connectors := by decide
  exact gives_expr_of_relational t.gives_relational (t.starts_shape []) fun _ ha =>
    hdisjoint _ ha.at

end Test

end RuleLang
