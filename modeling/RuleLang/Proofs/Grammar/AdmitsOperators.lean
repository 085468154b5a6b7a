import RuleLang.Proofs.Grammar.AdmitsRules
import RuleLang.Proofs.Grammar.SpendsRules

/-!
# Operators admit marks

An operator that lacks its mark gets it here, and is then read as an operator with a mark. What comes
after an operator is an operand, so no mark can come there; the decisions that lead to an operator,
to a comparison without left operand, or to a cast are the same with the marks.

## Main definitions

* `Ahead.lacksMark` — the operator that comes next lacks its mark.

## Main statements

* `Grammar.Admitted.operation` — an operator with its right side admits marks.
* `Grammar.allAdmitted` — all productions admit marks.
-/

namespace RuleLang

open Grammar Grammar.Expressions Ahead

namespace Ahead

/-- The token that names the operator that comes next, unless that bears a mark. -/
def operatorToken? (a : Ahead) : Option Token :=
  if a.isAt .notKw then a.nthToken? 1 else a.currentToken?

/-- The operator that comes next lacks its mark. -/
def lacksMark (custom : List Char → Bool) (a : Ahead) : Bool :=
  (operatorToken? a).any fun t => t.kind == .ident && custom t.text

theorem lacksMark_afterTrivia (custom : List Char → Bool) (a : Ahead) :
    lacksMark custom a.afterTrivia = lacksMark custom a := by
  rw [lacksMark, lacksMark, operatorToken?, operatorToken?, isAt, isAt, current_afterTrivia,
    currentToken?, currentToken?, nthToken?_afterTrivia, nthToken?_afterTrivia]

theorem atRelationalOperator_afterTrivia (a : Ahead) :
    atRelationalOperator a.afterTrivia = atRelationalOperator a := by
  simp only [atRelationalOperator, current_afterTrivia, nth_afterTrivia]

variable {p : Before} {a b : Ahead} {w : List Token} {t : Token}

theorem afterTrivia_append_cons (hw : ∀ u ∈ w, u.isTrivia = true) (ht : t.isTrivia = false) (a : Ahead) :
    afterTrivia (w ++ t :: a) = t :: a := by
  rw [afterTrivia, List.dropWhile_append_of_pos hw, List.dropWhile_cons_of_neg (by simp [ht])]

theorem bumpLength_one (hw : ∀ u ∈ w, u.isTrivia = true) (ht : t.isTrivia = false)
    (hne : t.kind ≠ .eof) (a : Ahead) : bumpLength 1 (w ++ t :: a) = w.length + 1 := by
  induction w with
  | nil =>
    have hzero : bumpLength 0 a = 0 := by cases a <;> rfl
    simp [bumpLength, ht, hne, hzero]
  | cons u w ih =>
    obtain ⟨hu, hw⟩ := List.forall_mem_cons.1 hw
    rw [List.cons_append, bumpLength_of_isTrivia hu, ih hw, List.length_cons]

/-- After the same tokens the same kind comes next, if it does after them. -/
theorem current_append_of_leaf {ts us : List Token} (hl : ts.map Token.leaf = us.map Token.leaf)
    (h : b.current = a.current) : current (us ++ b) = current (ts ++ a) := by
  induction ts generalizing us with
  | nil =>
    obtain rfl : us = [] := by simpa using hl.symm
    exact h
  | cons t ts ih =>
    cases us with
    | nil => simp at hl
    | cons u us =>
      obtain ⟨htu, hl⟩ := List.cons.inj hl
      rw [List.cons_append, List.cons_append, current_cons, current_cons,
        isTrivia_eq_of_leaf_eq htu, kind_eq_of_leaf_eq htu, ih hl]

/-- The second token that comes next belongs to the same tokens, or is the first after them. -/
theorem nth_one_append_of_leaf {ts us : List Token} (hl : ts.map Token.leaf = us.map Token.leaf)
    (hts : ∃ t ∈ ts, t.isTrivia = false) (h : b.current = a.current) :
    nth (us ++ b) 1 = nth (ts ++ a) 1 := by
  induction ts generalizing us with
  | nil =>
    obtain ⟨t, ht, -⟩ := hts
    exact absurd ht List.not_mem_nil
  | cons t ts ih =>
    cases us with
    | nil => simp at hl
    | cons u us =>
      obtain ⟨htu, hl⟩ := List.cons.inj hl
      cases ht : t.isTrivia with
      | true =>
        rw [List.cons_append, List.cons_append, nth_cons_trivia ht,
          nth_cons_trivia ((isTrivia_eq_of_leaf_eq htu).symm.trans ht)]
        refine ih hl ?_
        obtain ⟨v, hv, hvt⟩ := hts
        rcases List.mem_cons.1 hv with rfl | hv
        · rw [ht] at hvt
          cases hvt
        · exact ⟨v, hv, hvt⟩
      | false =>
        rw [List.cons_append, List.cons_append, nth_succ_cons ht,
          nth_succ_cons ((isTrivia_eq_of_leaf_eq htu).symm.trans ht)]
        exact current_append_of_leaf hl h

theorem isTrivia_of_leaves {ts us : List Token} (hl : ts.map Token.leaf = us.map Token.leaf)
    (h : ∀ t ∈ ts, t.isTrivia = true) : ∀ u ∈ us, u.isTrivia = true := by
  intro u hu
  obtain ⟨t, ht, htu⟩ := List.mem_map.1 (hl ▸ List.mem_map_of_mem (f := Token.leaf) hu)
  exact isTrivia_eq_of_leaf_eq htu ▸ h t ht

theorem significant_append_trivia {ts : List Token} (h : ∀ t ∈ ts, t.isTrivia = true) (a : Ahead) :
    significant (ts ++ a) = a.significant := by
  induction ts with
  | nil => rfl
  | cons t ts ih =>
    obtain ⟨ht, hts⟩ := List.forall_mem_cons.1 h
    rw [List.cons_append, significant_cons_trivia ht, ih hts]

/-- A token that is among the same tokens is the same. -/
theorem nthToken?_append_of_leaf {n : Nat} {ts us : List Token}
    (hl : ts.map Token.leaf = us.map Token.leaf) (hn : n < (significantKinds ts).length) :
    (nthToken? n (us ++ b)).map Token.leaf = (nthToken? n (ts ++ a)).map Token.leaf := by
  induction ts generalizing n us with
  | nil => simp [significantKinds] at hn
  | cons t ts ih =>
    cases us with
    | nil => simp at hl
    | cons u us =>
      obtain ⟨htu, hl⟩ := List.cons.inj hl
      simp only [List.cons_append, nthToken?, ← isTrivia_eq_of_leaf_eq htu]
      cases ht : t.isTrivia with
      | true => exact ih hl (by simpa [significantKinds, ht] using hn)
      | false =>
        cases n with
        | zero => simp [htu]
        | succ n => exact ih hl (by simpa [significantKinds, ht] using hn)

/-! ## Casts -/

theorem atCast_afterTrivia (a : Ahead) : atCast a.afterTrivia = atCast a := by
  rw [Ahead.atCast_eq, Ahead.atCast_eq, isAt, isAt, current_afterTrivia, nthToken?_afterTrivia,
    significantKinds_afterTrivia]

theorem significantKinds_of_current (h : a.current ≠ .eof) :
    ∃ ks, significantKinds a = a.current :: ks :=
  ⟨_, significantKinds_after_one h⟩

/-- A cast comes next where the same tokens through its closing parenthesis do, and the same kind
after them. -/
theorem atCast_append_of_leaf {ts us : List Token} {ks : List Kind}
    (hl : ts.map Token.leaf = us.map Token.leaf) (hks : significantKinds ts = ks ++ [Kind.rParen])
    (hlength : 2 ≤ ks.length) (hcur : b.current = a.current) (hne : a.current ≠ .eof)
    (h : atCast (ts ++ a) = true) : atCast (us ++ b) = true := by
  obtain ⟨js, hjs⟩ := significantKinds_of_current hne
  obtain ⟨js', hjs'⟩ := significantKinds_of_current (hcur ▸ hne)
  have hn : 1 < (significantKinds ts).length := by
    rw [hks, List.length_append]
    omega
  have hdrop (more : List Kind) :
      (ks ++ [Kind.rParen] ++ more).drop 2 = ks.drop 2 ++ .rParen :: more := by
    rw [List.append_assoc, List.drop_append_of_le_length hlength]
    rfl
  rw [Ahead.atCast_eq, significantKinds_append, hks, hjs, hdrop, castEnd_paren] at h
  rwa [Ahead.atCast_eq, significantKinds_append, significantKinds_of_leaf hl, hks, hjs', hdrop,
    castEnd_paren, isAt, current_append_of_leaf hl hcur,
    any_looksLikeType_of_leaf (nthToken?_append_of_leaf hl hn), hcur]

/-! ## Where operators come next -/

/-- The operator that comes next has a name, or bears a mark. -/
theorem operator_cases (h : atRelationalOperator a = true) :
    (a.current = .notKw ∧ a.nth 1 ≠ .notKw ∧ a.nth 1 ≠ .eof) ∨
      a.current ≠ .notKw ∧ a.current ≠ .eof := by
  by_cases hnot : a.current = .notKw
  · refine .inl ⟨hnot, ?_⟩
    rw [atRelationalOperator, hnot] at h
    constructor <;> intro hn <;> rw [hn] at h <;> cases h
  · refine .inr ⟨hnot, fun he => ?_⟩
    rw [atRelationalOperator, he] at h
    cases h

/-- With marks, an operator comes next where one did. Only after an identifier has it to be seen
that no mark comes. -/
theorem Marked.atRelationalOperator (h : Marked p a b) (ha : atRelationalOperator a = true)
    (hnext : b.current = .ident → b.nth 1 = a.nth 1) : atRelationalOperator b = true := by
  rcases h.current with hcur | ⟨-, hb, -⟩
  · by_cases hident : a.current = .ident
    · rwa [Expressions.atRelationalOperator, hcur, hnext (hcur.trans hident)]
    · rcases h.next hcur with hn | ⟨hn, hn', -⟩
      · rwa [Expressions.atRelationalOperator, hcur, hn]
      · rw [Expressions.atRelationalOperator, hn] at ha
        rw [Expressions.atRelationalOperator, hcur, hn']
        generalize a.current = k at ha hident
        cases k <;> first | rfl | exact absurd rfl hident | cases ha
  · rw [Expressions.atRelationalOperator, hb]
    rfl

theorem atRelationalOperator_of_half (h : atHalfConstraint a = true) :
    Expressions.atRelationalOperator a = true ∧ a.current ≠ .ident := by
  rw [atHalfConstraint] at h
  rw [Expressions.atRelationalOperator]
  generalize a.current = k at h
  generalize a.nth 1 = j at h
  cases k <;> first | exact ⟨rfl, by decide⟩ | cases h | skip
  cases j <;> first | exact ⟨rfl, by decide⟩ | cases h

theorem atHalfConstraint_of_current (hnot : a.current ≠ .notKw) (h : b.current = a.current) :
    atHalfConstraint b = atHalfConstraint a := by
  rw [atHalfConstraint, atHalfConstraint, h]
  generalize a.current = k at hnot
  cases k <;> first | rfl | exact absurd rfl hnot

/-- With marks, a comparison without left operand comes next where one did. -/
theorem Marked.atHalfConstraint (h : Marked .other a b) (ha : atHalfConstraint a = true) :
    atHalfConstraint b = true := by
  have hcur := h.current_eq
  rcases h.next hcur with hn | ⟨hn, hn', -⟩
  · rwa [Expressions.atHalfConstraint, hcur, hn]
  · rw [Expressions.atHalfConstraint, hn] at ha
    rw [Expressions.atHalfConstraint, hcur, hn']
    generalize a.current = k at ha
    cases k <;> first | rfl | cases ha

end Ahead

namespace Grammar

variable {enters : Production → Point → Point → Prop} {x y : Point} {a : Ahead} {w : List Token}
  {t : Token}

/-! ## A token with its trivia -/

theorem accepts_bump_cases (h : (bump : Rule).Accepts enters x y) (hne : x.ahead.current ≠ .eof) :
    ∃ w t, (∀ u ∈ w, u.isTrivia = true) ∧ t.isTrivia = false ∧ t.kind = x.ahead.current ∧
      x.ahead = w ++ t :: y.ahead ∧
      y.group = .ofToken t :: (w.map Element.ofToken).reverse ++ x.group := by
  obtain ⟨ts, hlen, hahead, hgroup⟩ := h
  obtain ⟨w, t, rfl, hw, ht, hk⟩ := exists_of_bump (hahead ▸ hlen) (hahead ▸ hne)
  refine ⟨w, t, hw, ht, hahead ▸ hk, by rw [hahead, List.append_assoc]; rfl, ?_⟩
  rw [hgroup, List.map_append, List.reverse_append]
  rfl

theorem accepts_bump_of (hw : ∀ u ∈ w, u.isTrivia = true) (ht : t.isTrivia = false)
    (hne : t.kind ≠ .eof) (group : List Element) :
    (bump : Rule).Accepts enters ⟨w ++ t :: a, group⟩
      ⟨a, .ofToken t :: (w.map Element.ofToken).reverse ++ group⟩ := by
  refine ⟨w ++ [t], ?_, by rw [List.append_assoc]; rfl, ?_⟩
  · rw [bumpLength_one hw ht hne, List.length_append]
    rfl
  · rw [List.map_append, List.reverse_append]
    rfl

/-! ## The parts of an operator -/

/-- The parameters of an operator, if it may have some. -/
def operatorTail (more : Bool) : Rule :=
  if more then
    whenAt .lBracket (inner .operatorParams (bump >> untilClose .rBracket >> expect .rBracket))
  else .skip

/-- What an operator is read by, once its kind is known. -/
def operatorBody (more : Bool) : Rule :=
  eat .notKw >> eat .hashHash (expect .ident) bump >> operatorTail more

theorem operator_eq : operator = .look fun a =>
    inner .operator (operatorBody (operatorKind a == .ident || operatorKind a == .strKw)) := rfl

theorem ofToken_eq_of_leaf_eq {t' : Token} (h : t.leaf = t'.leaf) :
    Element.ofToken t = .ofToken t' := by
  rw [Element.ofToken, Element.ofToken, kind_eq_of_leaf_eq h, text_eq_of_leaf_eq h]

theorem ofToken_of_mark {m : Token} (h : m.leaf = .mark) : Element.ofToken m = .mark := by
  rw [Element.ofToken, kind_of_mark h, show m.text = ['#', '#'] from congrArg Leaf.text h]
  rfl

theorem isMark_of_isTrivia (h : t.isTrivia = true) : (Element.ofToken t).isMark = false := by
  have hne : t.kind ≠ .hashHash := by
    intro he
    rw [Token.isTrivia, he] at h
    cases h
  simp [Element.isMark, Element.ofToken, Element.isNode, Element.kind, hne]

theorem namesOperator_of_isTrivia (h : t.isTrivia = true) :
    (Element.ofToken t).namesOperator = false := by
  simp [Element.namesOperator, Element.ofToken, Element.isNode, Element.kind,
    show t.kind.isTrivia = true from h]

/-- The negation is neither the name nor the mark of an operator. -/
theorem accepts_eat_not {z : Point} (ha : atRelationalOperator a = true)
    (h : (eat .notKw : Rule).Accepts enters ⟨a, []⟩ z) :
    (∀ e ∈ z.group, e.namesOperator = false ∧ e.isMark = false) ∧
      z.ahead.currentToken? = operatorToken? a ∧ z.ahead.current ≠ .notKw ∧
      z.ahead.current ≠ .eof := by
  rcases accepts_when h with ⟨hnot, w, hbump, rfl⟩ | ⟨hnot, rfl⟩
  · have hcur : a.current = .notKw := beq_iff_eq.1 hnot
    obtain ⟨v, t, hv, ht, hk, hahead, hgroup⟩ :=
      accepts_bump_cases hbump (current_ne_eof hcur rfl)
    have hafter : afterTrivia a = t :: z.ahead :=
      (congrArg afterTrivia hahead).trans (afterTrivia_append_cons hv ht _)
    refine ⟨fun e he => ?_, ?_, ?_⟩
    · rw [hgroup, List.append_nil, List.mem_cons, List.mem_reverse, List.mem_map] at he
      rcases he with rfl | ⟨u, hu, rfl⟩
      · have hkind : t.kind = .notKw := hk.trans hcur
        simp [Element.namesOperator, Element.isMark, Element.ofToken, Element.isNode, Element.kind,
          hkind]
      · exact ⟨namesOperator_of_isTrivia (hv u hu), isMark_of_isTrivia (hv u hu)⟩
    · rw [operatorToken?, if_pos hnot, nth_succ_of_afterTrivia hafter ht]
      rfl
    · rcases operator_cases ha with ⟨-, hne⟩ | ⟨hne, -⟩
      · rwa [nth_one_of_afterTrivia hafter ht] at hne
      · exact absurd hcur hne
  · have hcur : a.current ≠ .notKw := by simpa [isAt] using hnot
    refine ⟨fun e he => absurd he List.not_mem_nil, ?_, hcur, ?_⟩
    · rw [operatorToken?, hnot, if_neg (by simp)]
    · rcases operator_cases ha with ⟨hnot, -⟩ | ⟨-, hne⟩
      · exact absurd hnot hcur
      · exact hne

/-- The parameters of an operator come after what the group holds, whatever that is. -/
theorem accepts_operatorTail {more : Bool} {group : List Element}
    (h : (operatorTail more).Accepts enters ⟨a, group⟩ y) :
    ∃ post, y.group = post ++ group ∧ (∀ e ∈ post, e.isMark = false) ∧
      ∀ group', (operatorTail more).Accepts enters ⟨a, group'⟩ ⟨y.ahead, post ++ group'⟩ := by
  cases more with
  | false =>
    obtain rfl := h
    exact ⟨[], rfl, fun e he => absurd he List.not_mem_nil, fun _ => rfl⟩
  | true =>
    cases hat : a.isAt .lBracket with
    | false =>
      simp only [operatorTail, if_true, whenAt, when, Accepts, hat, Bool.false_eq_true,
        if_false] at h
      obtain rfl := h
      refine ⟨[], rfl, fun e he => absurd he List.not_mem_nil, fun group' => ?_⟩
      simp only [operatorTail, if_true, whenAt, when, Accepts, hat, Bool.false_eq_true, if_false,
        List.nil_append]
    | true =>
      simp only [operatorTail, if_true, whenAt, when, Accepts, hat] at h
      obtain ⟨v, ⟨ts, hlen, hahead, hgroup⟩, _, ⟨z, hz, rfl⟩, rfl⟩ := h
      refine ⟨.node .operatorParams z.group.reverse :: (ts.map Element.ofToken).reverse, ?_, ?_, ?_⟩
      · simp [hgroup]
      · intro e he
        rw [List.mem_cons, List.mem_reverse, List.mem_map] at he
        rcases he with rfl | ⟨t, ht, rfl⟩
        · rfl
        · exact isMark_of_isTrivia (isTrivia_of_mem_trivia (hahead ▸ hlen) t ht)
      · intro group'
        simp only [operatorTail, if_true, whenAt, when, Accepts, hat]
        exact ⟨⟨v.ahead, (ts.map Element.ofToken).reverse ++ group'⟩, ⟨ts, hlen, hahead, rfl⟩, _,
          ⟨z, hz, rfl⟩, rfl⟩

/-- The name or the mark of an operator, between its negation and its parameters. -/
theorem accepts_symbol (hne : x.ahead.current ≠ .eof)
    (h : (eat .hashHash (expect .ident) bump : Rule).Accepts enters x y) :
    (x.ahead.current = .hashHash ∧ ∃ e ∈ y.group, e.isMark = true) ∨
      x.ahead.current ≠ .hashHash ∧ (bump : Rule).Accepts enters x y := by
  rcases accepts_when h with ⟨hhash, z, hbump, hident⟩ | ⟨hhash, h⟩
  · have hcur : x.ahead.current = .hashHash := beq_iff_eq.1 hhash
    obtain ⟨w, t, -, -, hk, -, hgroup⟩ := accepts_bump_cases hbump hne
    obtain ⟨hident, v, hbump', rfl⟩ := accepts_expect hident
    obtain ⟨_, _, -, -, -, -, hgroup'⟩ := accepts_bump_cases hbump' (current_ne_eof hident rfl)
    refine .inl ⟨hcur, .ofToken t, ?_, ?_⟩
    · rw [hgroup', hgroup]
      simp
    · simp [Element.isMark, Element.ofToken, Element.isNode, Element.kind, hk.trans hcur]
  · exact .inr ⟨by simpa [isAt] using hhash, h⟩

/-- What an operator without a mark consists of. -/
theorem exists_of_operatorBody {more : Bool} {u v z : Point} (ha : atRelationalOperator a = true)
    (hu : (eat .notKw : Rule).Accepts enters ⟨a, []⟩ u) (hhash : u.ahead.current ≠ .hashHash)
    (hv : (bump : Rule).Accepts enters u v) (hz : (operatorTail more).Accepts enters v z) :
    ∃ w t post, (∀ s ∈ w, s.isTrivia = true) ∧ t.isTrivia = false ∧
      operatorToken? a = some t ∧ u.ahead = w ++ t :: v.ahead ∧
      (Element.ofToken t).namesOperator = true ∧
      (∀ e ∈ u.group.reverse ++ w.map Element.ofToken, e.namesOperator = false) ∧
      (∀ e ∈ u.group.reverse ++ w.map Element.ofToken ++ Element.ofToken t :: post, e.isMark = false) ∧
      z.group.reverse = u.group.reverse ++ w.map Element.ofToken ++ Element.ofToken t :: post ∧
      ∀ group, (operatorTail more).Accepts enters ⟨v.ahead, group⟩
        ⟨z.ahead, post.reverse ++ group⟩ := by
  obtain ⟨hgroup, htoken, hnot, hne⟩ := accepts_eat_not ha hu
  obtain ⟨post, hpost, hmarks, hframe⟩ := accepts_operatorTail hz
  obtain ⟨w, t, hw, ht, hk, hahead, hvgroup⟩ := accepts_bump_cases hv hne
  have hcur : u.ahead.currentToken? = some t :=
    currentToken?_of_afterTrivia ((congrArg afterTrivia hahead).trans
      (afterTrivia_append_cons hw ht _)) ht
  have hnames : (Element.ofToken t).namesOperator = true := by
    rw [← hk] at hnot hhash
    simp [Element.namesOperator, Element.ofToken, Element.isNode, Element.kind,
      show t.kind.isTrivia = false from ht, hnot, hhash]
  refine ⟨w, t, post.reverse, hw, ht, htoken.symm.trans hcur, hahead, hnames, fun e he => ?_,
    fun e he => ?_, ?_, fun group => ?_⟩
  · rcases List.mem_append.1 he with he | he
    · exact (hgroup e (List.mem_reverse.1 he)).1
    · obtain ⟨s, hs, rfl⟩ := List.mem_map.1 he
      exact namesOperator_of_isTrivia (hw s hs)
  · rw [List.mem_append, List.mem_append, List.mem_cons] at he
    rcases he with (he | he) | rfl | he
    · exact (hgroup e (List.mem_reverse.1 he)).2
    · obtain ⟨s, hs, rfl⟩ := List.mem_map.1 he
      exact isMark_of_isTrivia (hw s hs)
    · exact Element.isMark_of_namesOperator hnames
    · exact hmarks e (List.mem_reverse.1 he)
  · rw [hpost, hvgroup]
    simp
  · rw [List.reverse_reverse]
    exact hframe group

/-- An operator that lacks no mark stays as it is. -/
theorem unmarkedAt?_of_operatorBody {custom : List Char → Bool} {more : Bool} {z : Point}
    (ha : atRelationalOperator a = true) (hlacks : lacksMark custom a = false)
    (h : (operatorBody more).Accepts enters ⟨a, []⟩ z) :
    Element.unmarkedAt? custom z.group.reverse = none := by
  obtain ⟨u, hu, v, hv, hz⟩ := h
  obtain ⟨-, -, -, hne⟩ := accepts_eat_not ha hu
  rcases accepts_symbol hne hv with ⟨-, e, he, hmark⟩ | ⟨hhash, hbump⟩
  · obtain ⟨post, hpost, -⟩ := accepts_operatorTail hz
    refine Element.unmarkedAt?_of_any (List.any_eq_true.2 ⟨e, ?_, hmark⟩)
    rw [hpost, List.mem_reverse]
    exact List.mem_append_right post he
  · obtain ⟨w, t, post, -, -, htoken, -, hnames, hpre, -, hgroup, -⟩ :=
      exists_of_operatorBody ha hu hhash hbump hz
    have hcustom : (Element.ofToken t).isCustom custom = false := by
      rwa [lacksMark, htoken] at hlacks
    rw [hgroup, Element.unmarkedAt?_append hpre hnames, hcustom]
    simp

/-! ## Operators -/

namespace Admitted

variable {custom : List Char → Bool} {still : Prop} {p : Before}

theorem operatorTail {more : Bool} :
    Admits Production.body enters id still .other p a (operatorTail more) := by
  cases more with
  | false => exact Admits.skip.from_other
  | true =>
    refine (Admits.whenAt rfl (fun _ => ?_) .skip).from_other
    refine .inner (fun _ _ _ => rfl) (fun cs => by simp) ?_
    exact .seq (.bump fun _ _ => rfl) fun _ => .seq (.untilClose (fun _ _ => rfl) (by decide))
      fun _ => .expect (fun _ _ => rfl) rfl fun _ => .skip

/-- The negation of an operator: what comes after it is marked as what comes after `not`, or where
the operator starts. -/
theorem eat_not : Admits Production.body enters id still
    (if a.current = .notKw then .negation else p) p a (Grammar.eat .notKw) := by
  refine .when (.isAt rfl) (fun hat => ?_) fun hat => ?_
  · have hnot : a.current = .notKw := beq_iff_eq.1 hat
    have hafter : p.after a.current = .negation := by rw [hnot, Before.after_not]
    rw [if_pos hnot]
    refine .seq (r := .negation) ?_ fun _ => .skip
    exact hafter ▸ Admits.bump_after (fun _ _ => rfl) (current_ne_eof hnot rfl)
  · rw [if_neg (by simpa [isAt] using hat)]
    exact .skip

/-- An operator that lacks no mark. -/
theorem operator_kept (ha : atRelationalOperator a = true) (hlacks : lacksMark custom a = false) :
    Admitted custom enters still .other .other a operator := by
  have hi : Carries.KeepsTokens (id : Element → Element) := fun _ _ => rfl
  refine .look_blind (fun a b h => by simp only [Blind.operatorKind h]) ?_
  refine .trivia_seq keepsTrivia (.node_kept (fun z hz => ?_)
    (show Admits Production.body enters id True .other .other _ _ from ?_))
  · rw [← atRelationalOperator_afterTrivia] at ha
    rw [← lacksMark_afterTrivia] at hlacks
    rw [Element.prefixed_operator,
      Element.prefixedOperator_of_none (unmarkedAt?_of_operatorBody ha hlacks hz)]
  · refine .seq (.eat hi rfl (fun _ => .skip) .skip) fun b => .seq (r := .other) ?_ fun _ =>
      operatorTail
    refine .when (.here (· == .hashHash)) (fun _ => .seq (.bump hi) fun c => ?_) fun _ => .bump hi
    exact .when (.here (· == .ident)) (fun _ => .seq (.bump hi) fun _ => .skip) fun _ =>
      .fail fun _ => rfl

/-- The mark and the name that it is put before. -/
theorem accepted_symbol {m t : Token} {w : List Token} (hw : ∀ u ∈ w, u.isTrivia = true)
    (hm : m.leaf = .mark) (ht : t.kind = .ident) (group : List Element) :
    Accepted Production.body (Grammar.eat .hashHash (Grammar.expect .ident) Grammar.bump)
      ⟨w ++ m :: t :: a, group⟩
      ⟨a, .ofToken t :: .ofToken m :: (w.map Element.ofToken).reverse ++ group⟩ := by
  have hkind := kind_of_mark hm
  have hmark : Ahead.current (w ++ m :: t :: a) = .hashHash :=
    (current_of_afterTrivia (afterTrivia_append_cons hw (isTrivia_of_mark hm) _)
      (isTrivia_of_mark hm)).trans hkind
  have hident : Ahead.current (t :: a) = .ident := by
    rw [current_cons, if_neg (by simp [isTrivia_of_ident ht]), ht]
  refine ⟨0, ?_⟩
  simp only [Grammar.eat, Grammar.whenAt, Grammar.when, Accepts, isAt, hmark, beq_self_eq_true,
    if_true]
  refine ⟨_, accepts_bump_of hw (isTrivia_of_mark hm) (by rw [hkind]; decide) group, ?_⟩
  simp only [Grammar.expect, Grammar.eat, Grammar.whenAt, Grammar.when, Accepts, isAt, hident,
    beq_self_eq_true, if_true]
  exact ⟨_, accepts_bump_of (w := []) (fun _ h => absurd h List.not_mem_nil)
    (isTrivia_of_ident ht) (by rw [ht]; decide) _, rfl⟩

/-- An operator that lacks its mark gets it. -/
theorem operator_marked (ha : atRelationalOperator x.ahead = true)
    (hp : x.ahead.current = .ident → p = .operand) (hlacks : lacksMark custom x.ahead = true)
    (h : operator.Accepts enters x y) : ∃ leaves : List Leaf,
      ∀ us b, us.map Token.leaf = leaves → Marked .other y.ahead b →
        Marked p x.ahead (us ++ b) ∧ Ahead.current (us ++ b) ≠ .ident ∧
          Accepted Production.body operator ⟨us ++ b, x.group.map (Element.prefixed custom)⟩
            ⟨b, y.group.map (Element.prefixed custom)⟩ := by
  obtain ⟨v, htrivia, _, ⟨z, ⟨u₁, heat, u₂, hsymbol, htail⟩, rfl⟩, rfl⟩ := h
  have hv : v.ahead = x.ahead.afterTrivia := (accepts_trivia htrivia).1
  have ha' : atRelationalOperator v.ahead = true := by
    rwa [hv, atRelationalOperator_afterTrivia]
  have hlacks' : lacksMark custom v.ahead = true := by rwa [hv, lacksMark_afterTrivia]
  obtain ⟨-, hcur, -, hne⟩ := accepts_eat_not ha' heat
  obtain ⟨t, htoken, hcustom⟩ := (Option.any_eq_true _ _).1 hlacks'
  have ht : t.kind = .ident := beq_iff_eq.1 (Bool.and_eq_true_iff.1 hcustom).1
  have hident : u₁.ahead.current = .ident :=
    (current_eq_of_currentToken? (hcur.trans htoken)).trans ht
  rcases accepts_symbol hne hsymbol with ⟨hhash, -⟩ | ⟨hhash, hbump⟩
  · rw [hident] at hhash
    cases hhash
  obtain ⟨w, s, post, hw, -, hs, hahead, -, hpre, hmarks, hgroup, hframe⟩ :=
    exists_of_operatorBody ha' heat hhash hbump htail
  obtain rfl := Option.some.inj (hs.symm.trans htoken)
  -- What is known before the name: it comes after `not`, or the operator starts with it.
  have hq : v.ahead.current = .notKw ∨ p = .operand ∧ isOperandStart u₂.ahead.current = true := by
    by_cases hnot : v.ahead.current = .notKw
    · exact .inl hnot
    · rcases accepts_when heat with ⟨hat, -⟩ | ⟨-, rfl⟩
      · exact absurd (beq_iff_eq.1 hat) hnot
      · refine .inr ⟨hp (by rwa [hv, current_afterTrivia] at hident), ?_⟩
        have hafter : afterTrivia v.ahead = s :: u₂.ahead :=
          (congrArg afterTrivia hahead).trans (afterTrivia_append_cons hw (isTrivia_of_ident ht) _)
        rw [atRelationalOperator, hident,
          nth_one_of_afterTrivia hafter (isTrivia_of_ident ht)] at ha'
        exact ha'
  -- What becomes of the parts, from the right to the left.
  have hblank : Admitted custom enters False p p x.ahead .trivia := Admits.trivia keepsTrivia
  obtain ⟨l₀, -, h₀⟩ := hblank x v rfl htrivia
  have hnegation : Admits Production.body enters id False _ p v.ahead (Grammar.eat .notKw) := eat_not
  have hparams (a : Ahead) (more : Bool) :
      Admits Production.body enters id False .other .operand a (Grammar.operatorTail more) :=
    operatorTail
  obtain ⟨l₁, -, h₁⟩ := hnegation ⟨v.ahead, []⟩ u₁ rfl heat
  obtain ⟨l₂, -, h₂⟩ := hparams _ _ _ _ rfl
    (hframe (.ofToken s :: .mark :: (w.map Element.ofToken).reverse ++ u₁.group))
  refine ⟨l₀ ++ (l₁ ++ (w.map Token.leaf ++ .mark :: s.leaf :: l₂)), fun us b hu hb => ?_⟩
  obtain ⟨s₀, us, rfl, hs₀, hus⟩ := List.map_eq_append_iff.1 hu
  obtain ⟨s₁, us, rfl, hs₁, hus⟩ := List.map_eq_append_iff.1 hus
  obtain ⟨w', us, rfl, hw', hus⟩ := List.map_eq_append_iff.1 hus
  obtain ⟨m, us, rfl, hm, hus⟩ := List.map_eq_cons_iff.1 hus
  obtain ⟨t', s₂, rfl, hl, hs₂⟩ := List.map_eq_cons_iff.1 hus
  obtain ⟨hm₂, hacc₂⟩ := h₂ s₂ b hs₂ hb
  have hname : Marked (if v.ahead.current = .notKw then .negation else p) u₁.ahead
      (w' ++ m :: t' :: (s₂ ++ b)) := by
    rw [hahead]
    refine .append hw'.symm (past_of_trivia _ hw ▸ .mark ht ?_ hm hl.symm hm₂)
    rcases hq with hnot | ⟨rfl, hstart⟩
    · exact .inl (if_pos hnot)
    · split
      · exact .inl rfl
      · exact .inr ⟨rfl, hstart⟩
  obtain ⟨hm₁, hacc₁⟩ := h₁ s₁ _ hs₁ hname
  obtain ⟨hm₀, hacc₀⟩ := h₀ s₀ _ hs₀ hm₁
  have hassoc : s₀ ++ (s₁ ++ (w' ++ m :: t' :: s₂)) ++ b =
      s₀ ++ (s₁ ++ (w' ++ m :: t' :: (s₂ ++ b))) := by simp
  rw [hassoc]
  have hw'' := isTrivia_of_leaves hw'.symm hw
  refine ⟨hm₀, ?_, ?_⟩
  · have hmark : Ahead.current (w' ++ m :: t' :: (s₂ ++ b)) = .hashHash :=
      (current_of_afterTrivia (afterTrivia_append_cons hw'' (isTrivia_of_mark hm) _)
        (isTrivia_of_mark hm)).trans (kind_of_mark hm)
    obtain ⟨d, hd⟩ := hacc₀
    obtain ⟨e, he⟩ := hacc₁
    rw [← current_afterTrivia, ← (accepts_trivia hd).1]
    dsimp only
    rcases accepts_when he with ⟨hat, -⟩ | ⟨-, hskip⟩
    · rw [show Ahead.current _ = .notKw from beq_iff_eq.1 hat]
      decide
    · have hnone : s₁ ++ (w' ++ m :: t' :: (s₂ ++ b)) = w' ++ m :: t' :: (s₂ ++ b) :=
        (congrArg Point.ahead hskip).symm
      rw [hnone, hmark]
      decide
  · have hsymbol := accepted_symbol (a := s₂ ++ b) hw'' hm
      ((kind_eq_of_leaf_eq hl).trans ht) u₁.group
    have hparts : Element.ofToken t' :: .ofToken m :: (w'.map Element.ofToken).reverse ++
        u₁.group = .ofToken s :: .mark :: (w.map Element.ofToken).reverse ++ u₁.group := by
      rw [Carries.map_ofToken_eq hw', ofToken_eq_of_leaf_eq hl, ofToken_of_mark hm]
    rw [hparts] at hsymbol
    simp only [List.map_id] at hacc₁ hacc₂
    have hbody : Accepted Production.body
        (operatorBody (operatorKind x.ahead == .ident || operatorKind x.ahead == .strKw))
        ⟨s₁ ++ (w' ++ m :: t' :: (s₂ ++ b)), []⟩ _ := hacc₁.seq (hsymbol.seq hacc₂)
    have hnode : Accepted Production.body (.enclose .operator (operatorBody
        (operatorKind x.ahead == .ident || operatorKind x.ahead == .strKw))) _ _ := hbody.enclose
    obtain ⟨d, hd⟩ := hacc₀.seq (Accepted.group
      (x := ⟨s₁ ++ (w' ++ m :: t' :: (s₂ ++ b)), v.group.map (Element.prefixed custom)⟩) hnode)
    refine ⟨d, ?_⟩
    have hprefixed : Element.prefixedOperator custom z.group.reverse =
        (post.reverse ++ (.ofToken s :: .mark :: (w.map Element.ofToken).reverse ++
          u₁.group)).reverse := by
      have hcustom : (Element.ofToken s).isCustom custom = true := hcustom
      rw [hgroup, Element.prefixedOperator_append hpre hcustom ?_]
      · simp
      · rw [List.any_eq_false]
        exact fun e he => by simp [hmarks e he]
    change Accepts _ (Grammar.inner .operator (operatorBody (operatorKind _ == .ident ||
      operatorKind _ == .strKw))) _ _
    rw [Blind.operatorKind hm₀, List.map_append, List.map_cons, List.map_nil,
      Element.prefixed_operator, hprefixed]
    exact hd

/-- An operator admits a mark where one may come, and it can be told apart from what follows it. -/
theorem operator (custom : List Char → Bool) (hE : Obeys enters)
    (ha : atRelationalOperator x.ahead = true) (hp : x.ahead.current = .ident → p = .operand) (h : Expressions.operator.Accepts enters x y) :
    ∃ leaves : List Leaf, ∀ us b, us.map Token.leaf = leaves → Marked .other y.ahead b →
      Marked p x.ahead (us ++ b) ∧
        (Ahead.current (us ++ b) = .ident → Ahead.nth (us ++ b) 1 = x.ahead.nth 1) ∧
        Accepted Production.body Expressions.operator
          ⟨us ++ b, x.group.map (Element.prefixed custom)⟩
          ⟨b, y.group.map (Element.prefixed custom)⟩ := by
  cases hlacks : lacksMark custom x.ahead with
  | true =>
    obtain ⟨ls, h⟩ := operator_marked ha hp hlacks h
    refine ⟨ls, fun us b hu hb => ?_⟩
    obtain ⟨hmarked, hne, hacc⟩ := h us b hu hb
    exact ⟨hmarked, fun hident => absurd hident hne, hacc⟩
  | false =>
    have hspends : y.ahead.significant + 1 ≤ x.ahead.significant := by
      refine spends_operator (fun he => ?_) enters hE x y rfl h
      rw [atRelationalOperator, he] at ha
      cases ha
    have hkept : Admitted custom enters True .other .other x.ahead Expressions.operator :=
      operator_kept ha hlacks
    obtain ⟨ls, hstill, h⟩ := hkept x y rfl h
    obtain ⟨ts, hts, rfl, -⟩ := hstill trivial
    have hsome : ∃ t ∈ ts, t.isTrivia = false := by
      by_contra hnone
      have htrivia : ∀ t ∈ ts, t.isTrivia = true := fun t ht => by
        by_contra htr
        exact hnone ⟨t, ht, by simpa using htr⟩
      rw [hts, significant_append_trivia htrivia] at hspends
      omega
    refine ⟨ts.map Token.leaf, fun us b hu hb => ?_⟩
    obtain ⟨hmarked, hacc⟩ := h us b hu hb
    refine ⟨hmarked.of_other p, fun _ => ?_, hacc⟩
    rw [hts]
    exact nth_one_append_of_leaf hu.symm hsome hb.current_eq

variable {n : Nat} (ih : AllAdmitted custom (Enters Production.body n))

include ih

/-- An operator with its right side. -/
theorem operation (ha : atRelationalOperator x.ahead = true)
    (hp : x.ahead.current = .ident → p = .operand)
    (h : Expressions.operation.Accepts (Enters Production.body n) x y) :
    ∃ leaves : List Leaf, ∀ us b, us.map Token.leaf = leaves → Marked .operand y.ahead b →
      Marked p x.ahead (us ++ b) ∧ atRelationalOperator (us ++ b) = true ∧
        Accepted Production.body Expressions.operation
          ⟨us ++ b, x.group.map (Element.prefixed custom)⟩
          ⟨b, y.group.map (Element.prefixed custom)⟩ := by
  obtain ⟨z, hop, hrhs⟩ := h
  obtain ⟨ms, -, hright⟩ := call ih (.relationalRhs (operatorKind x.ahead)) rfl z y rfl hrhs
  cases n with
  | zero => exact hop.elim
  | succ n =>
    obtain ⟨ls, hop⟩ := operator custom (Production.obeys n) ha hp hop
    refine ⟨ls ++ ms, fun us b hu hb => ?_⟩
    obtain ⟨us, us', rfl, hus, hus'⟩ := List.map_eq_append_iff.1 hu
    obtain ⟨hz, haccr⟩ := hright us' b hus' hb
    obtain ⟨hx, hnext, hacc⟩ := hop us (us' ++ b) hus hz
    rw [List.append_assoc]
    refine ⟨hx, hx.atRelationalOperator ha hnext, ?_⟩
    have hop : Accepted Production.body (.call .operator) _ _ := hacc.call
    obtain ⟨d, hd⟩ := hop.seq haccr
    refine ⟨d, ?_⟩
    rw [← Blind.operatorKind hx] at hd
    exact hd

theorem relationalRest :
    Admitted custom (Enters Production.body n) False .other .operand a
      Expressions.relationalRest := by
  cases hat : atRelationalOperator a with
  | false =>
    refine .look (fun b hb => .inl ?_) ?_
    · rw [hat, hb.not_atRelationalOperator hat]
    · rw [hat]
      exact Admits.skip.to_other
  | true =>
    rintro x y rfl hxy
    simp only [Expressions.relationalRest, Grammar.when, Accepts, hat, if_true] at hxy
    obtain ⟨_, ⟨z, hz, rfl⟩, hrest⟩ := hxy
    obtain ⟨ms, -, hrest⟩ := call ih .relationalRest rfl _ y rfl hrest
    obtain ⟨ls, hop⟩ := operation (p := .operand) ih hat (fun _ => rfl) hz
    refine ⟨ls ++ ms, False.elim, fun us b hu hb => ?_⟩
    obtain ⟨us, us', rfl, hus, hus'⟩ := List.map_eq_append_iff.1 hu
    obtain ⟨hmz, haccr⟩ := hrest us' b hus' hb
    obtain ⟨hx, hat', hacc⟩ := hop us (us' ++ b) hus hmz
    rw [List.append_assoc]
    refine ⟨hx, ?_⟩
    have hnode : Accepted Production.body (.enclose .relationalExpr Expressions.operation) _ _ :=
      hacc.enclose
    rw [List.map_cons, List.map_nil, prefixed_plain rfl, List.map_reverse] at haccr
    obtain ⟨d, hd⟩ := hnode.seq haccr
    refine ⟨d, ?_⟩
    simp only [Expressions.relationalRest, Grammar.when, Accepts, hat', if_true]
    exact hd

/-! ## Comparisons without left operand -/

omit ih

/-- No operand up to a sum starts with `not`. -/
theorem current_ne_not_of_primary
    (h : Enters Production.body n .primary x y) : x.ahead.current ≠ .notKw := by
  intro hnot
  cases n with
  | zero => exact h
  | succ n =>
    change Accepts _ Expressions.primary x y at h
    simp only [Expressions.primary, Accepts, hnot] at h
    exact rejects_complain rfl _ _ rfl h

theorem current_ne_not_of_postfixed
    (h : Enters Production.body n .postfixed x y) : x.ahead.current ≠ .notKw := by
  cases n with
  | zero => exact h.elim
  | succ n =>
    obtain ⟨u, hu, z, ⟨v, hv, -⟩, -⟩ := h
    have := current_ne_not_of_primary hv
    rwa [(accepts_trivia hu).1, current_afterTrivia] at this

theorem current_ne_not_of_unary
    (h : Enters Production.body n .unary x y) : x.ahead.current ≠ .notKw := by
  intro hnot
  cases n with
  | zero => exact h
  | succ n =>
    change Accepts _ Expressions.unary x y at h
    have hcast : atCast x.ahead = false := by
      rw [atCast_eq, isAt, hnot]
      rfl
    simp only [Expressions.unary, Accepts, hnot, hcast, Bool.false_eq_true, if_false] at h
    exact current_ne_not_of_postfixed h hnot

theorem current_ne_not_of_tight {level : Level} (hl : level.isTight = true) {half : Bool}
    (h : Enters Production.body n (.binary level half) x y) : x.ahead.current ≠ .notKw := by
  induction n generalizing level half x y with
  | zero => exact h.elim
  | succ n ih =>
    obtain ⟨u, hu, z, ⟨v, hv, -⟩, -⟩ := h
    rw [← current_afterTrivia, ← (accepts_trivia hu).1]
    cases level
    case additive => exact @ih ⟨u.ahead, []⟩ v .multiplicative rfl half hv
    case multiplicative => exact @current_ne_not_of_unary ⟨u.ahead, []⟩ v n hv
    all_goals cases hl

include ih

theorem relational (half : Bool) :
    Admitted custom (Enters Production.body n) False .other .other a
      (Expressions.relational half) := by
  cases hat : half && atHalfConstraint a with
  | true =>
    obtain ⟨hhalf, hat'⟩ := Bool.and_eq_true_iff.1 hat
    refine .look (fun b hb => .inl ?_) ?_
    · simp only [hhalf, hat', hb.atHalfConstraint hat']
    · simp only [hat, if_true]
      obtain ⟨ha, hne⟩ := atRelationalOperator_of_half hat'
      rw [← atRelationalOperator_afterTrivia] at ha
      rw [← current_afterTrivia] at hne
      refine inner rfl (Admits.to_other (q := .operand) fun x y hx h => ?_)
      obtain ⟨ls, h⟩ := operation (p := .other) ih (hx ▸ ha) (fun h => absurd (hx ▸ h) hne) h
      exact ⟨ls, False.elim, fun us b hu hb => ⟨(h us b hu hb).1, (h us b hu hb).2.2⟩⟩
  | false =>
    refine .look (fun b hb => ?_) ?_
    · by_cases hnot : a.current = .notKw
      · right
        simp only [hat, Bool.false_eq_true, if_false]
        rintro x y hx ⟨u, hu, z, ⟨v, hv, -⟩, -⟩
        refine @current_ne_not_of_tight ⟨u.ahead, []⟩ v n .additive rfl false hv ?_
        rw [(accepts_trivia hu).1, current_afterTrivia, hx, hnot]
      · left
        simp only [atHalfConstraint_of_current hnot hb.current_eq]
    · simp only [hat, Bool.false_eq_true, if_false]
      exact innerGroup (.seq (call ih (.binary .additive false) rfl) fun _ =>
        call ih .relationalRest rfl)

/-! ## Casts -/

omit ih in
/-- The kinds of the tokens of a cast before its operand. -/
theorem kinds_before_operand (hE : Obeys enters) {u₁ u₂ u₃ : Point}
    (hne : x.ahead.current ≠ .eof) (hopen : (Grammar.bump : Rule).Accepts enters x u₁)
    (htype : (Grammar.call .typeRef : Rule).Accepts enters u₁ u₂)
    (hclose : (Grammar.expect .rParen : Rule).Accepts enters u₂ u₃) :
    ∃ ks, significantKinds x.ahead = ks ++ [Kind.rParen] ++ significantKinds u₃.ahead ∧
      2 ≤ ks.length := by
  obtain ⟨hparen, w, hbump, rfl⟩ := accepts_expect hclose
  obtain ⟨ks, hks, hlength⟩ := (hE.passes htype).exists_kinds
  have hleast := hE.least htype
  simp only [Production.least] at hleast
  refine ⟨x.ahead.current :: ks, ?_, by rw [List.length_cons]; omega⟩
  rw [significantKinds_after_one hne, ← ahead_of_take hopen, hks,
    significantKinds_after_one (current_ne_eof hparen rfl), hparen, ← ahead_of_take hbump]
  simp

/-- A cast is still read as one. -/
theorem cast (hcast : atCast x.ahead = true)
    (h : (Grammar.inner .castExpr (.seq .bump (.seq (.call .typeRef) (.seq (.expect .rParen)
      (.call .unary))))).Accepts (Enters Production.body n) x y) :
    ∃ leaves : List Leaf, ∀ us b, us.map Token.leaf = leaves → Marked .operand y.ahead b →
      Marked .other x.ahead (us ++ b) ∧ atCast (us ++ b) = true ∧
        Accepted Production.body (Grammar.inner .castExpr (.seq .bump (.seq (.call .typeRef)
          (.seq (.expect .rParen) (.call .unary)))))
            ⟨us ++ b, x.group.map (Element.prefixed custom)⟩
            ⟨b, y.group.map (Element.prefixed custom)⟩ := by
  obtain ⟨v, htrivia, _, ⟨z, ⟨u₁, hopen, u₂, htype, u₃, hclose, hunary⟩, rfl⟩, rfl⟩ := h
  have hv : v.ahead = x.ahead.afterTrivia := (accepts_trivia htrivia).1
  rw [← atCast_afterTrivia, ← hv] at hcast
  have hne : v.ahead.current ≠ .eof := by
    intro he
    rw [atCast_eq, isAt, he] at hcast
    cases hcast
  have hblank : Admitted custom (Enters Production.body n) False .other .other x.ahead .trivia :=
    Admits.trivia keepsTrivia
  have hfront : Admitted custom (Enters Production.body n) True .other .other v.ahead
      (.seq .bump (.seq (.call .typeRef) (.expect .rParen))) :=
    .seq bump fun _ => .seq (call_still ih .typeRef rfl).to_other fun _ => expect rfl fun _ => .skip
  obtain ⟨l₀, -, h₀⟩ := hblank x v rfl htrivia
  obtain ⟨_, hstill, h₁⟩ := hfront ⟨v.ahead, []⟩ u₃ rfl ⟨u₁, hopen, u₂, htype, hclose⟩
  obtain ⟨ts, hts, rfl, -⟩ := hstill trivial
  obtain ⟨l₂, -, h₂⟩ := call ih .unary rfl u₃ z rfl hunary
  -- The kinds of the tokens before the operand, and that there is one.
  have hE := Production.obeys n
  obtain ⟨ks, hks, hlength⟩ := kinds_before_operand (x := ⟨v.ahead, []⟩) hE hne hopen htype hclose
  rw [show (⟨v.ahead, []⟩ : Point).ahead = ts ++ u₃.ahead from hts, significantKinds_append] at hks
  have hne₃ : u₃.ahead.current ≠ .eof := by
    intro he
    have hleast := hE.least hunary
    rw [significant_eq_zero he] at hleast
    simp [Production.least] at hleast
  refine ⟨l₀ ++ (ts.map Token.leaf ++ l₂), fun us b hu hb => ?_⟩
  obtain ⟨s₀, us, rfl, hs₀, hus⟩ := List.map_eq_append_iff.1 hu
  obtain ⟨s₁, s₂, rfl, hs₁, hs₂⟩ := List.map_eq_append_iff.1 hus
  obtain ⟨hm₂, hacc₂⟩ := h₂ s₂ b hs₂ hb
  obtain ⟨hm₁, hacc₁⟩ := h₁ s₁ (s₂ ++ b) hs₁ hm₂
  obtain ⟨hm₀, hacc₀⟩ := h₀ s₀ (s₁ ++ (s₂ ++ b)) hs₀ hm₁
  rw [List.append_assoc, List.append_assoc]
  refine ⟨hm₀, ?_, ?_⟩
  · obtain ⟨d, hd⟩ := hacc₀
    rw [← atCast_afterTrivia, ← (accepts_trivia hd).1]
    exact atCast_append_of_leaf hs₁.symm (List.append_cancel_right hks) hlength hm₂.current_eq hne₃
      (hts ▸ hcast)
  · obtain ⟨d, p₁, hp₁, p₂, hp₂, hp₃⟩ := hacc₁
    have hbump : Accepted Production.body Grammar.bump _ p₁ := ⟨d, hp₁⟩
    have htype : Accepted Production.body (.call .typeRef) p₁ p₂ := ⟨d, hp₂⟩
    have hclose : Accepted Production.body (Grammar.expect .rParen) p₂ _ := ⟨d, hp₃⟩
    have hnode : Accepted Production.body (.enclose .castExpr (.seq .bump (.seq (.call .typeRef)
        (.seq (.expect .rParen) (.call .unary))))) _ _ :=
      (hbump.seq (htype.seq (hclose.seq hacc₂))).enclose
    have hgroup := hacc₀.seq (Accepted.group
      (x := ⟨s₁ ++ (s₂ ++ b), v.group.map (Element.prefixed custom)⟩) hnode)
    rw [List.map_append, List.map_cons, List.map_nil, prefixed_plain rfl, List.map_reverse]
    exact hgroup

theorem unary :
    Admitted custom (Enters Production.body n) False .operand .other a Expressions.unary := by
  cases hcast : atCast a with
  | false =>
    have hsign : Admitted custom (Enters Production.body n) False .operand .other a
        (Grammar.inner .unaryExpr (.seq .bump (.call .unary))) :=
      inner rfl (.seq bump fun _ => call ih .unary rfl)
    refine .look (fun b hb => .inl ?_) ?_
    · have hcast' : atCast b = false := by
        by_contra h
        rw [hb.atCast_of_atCast (by simpa using h)] at hcast
        cases hcast
      simp only [hb.current_eq, hcast, hcast']
    · split
      any_goals exact hsign
      rw [hcast]
      exact call ih .postfixed rfl
  | true =>
    have hparen {a : Ahead} (h : atCast a = true) : a.current = .lParen := by
      rw [atCast_eq, Bool.and_eq_true, Bool.and_eq_true] at h
      exact beq_iff_eq.1 h.1.1
    rintro x y rfl hxy
    simp only [Expressions.unary, Accepts, hparen hcast, hcast, if_true] at hxy
    obtain ⟨ls, h⟩ := cast ih hcast hxy
    refine ⟨ls, False.elim, fun us b hu hb => ?_⟩
    obtain ⟨hmarked, hcast', d, hacc⟩ := h us b hu hb
    refine ⟨hmarked, d, ?_⟩
    simp only [Expressions.unary, Accepts, hparen hcast', hcast', if_true]
    exact hacc

end Admitted

/-- All productions read the marked tokens as the elements with marks. -/
theorem allAdmitted (custom : List Char → Bool) (n : Nat) :
    AllAdmitted custom (Enters Production.body n) := by
  induction n with
  | zero => exact fun _ _ _ _ _ _ h => h.elim
  | succ n ih =>
    intro c a hc
    refine Admits.call ?_
    have hfew {q p : Before} {g : Rule}
        (h : Admitted custom (Enters Production.body n) False q p a g) :
        Admitted custom (Enters Production.body n) (false = true) q p a g :=
      h.weaken (.inl rfl) (.inl rfl) Bool.false_ne_true
    cases hm : c.meetsOperators with
    | false => exact Admitted.body ih hm
    | true =>
      cases c <;> try (cases hm; done)
      case operator => exact absurd rfl hc
      case relational half => exact hfew (Admitted.relational ih half)
      case relationalRest => exact hfew (Admitted.relationalRest ih)
      case unary => exact hfew (Admitted.unary ih)

end Grammar

end RuleLang
