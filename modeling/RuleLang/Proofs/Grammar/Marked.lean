import RuleLang.Proofs.Element.Prefixed
import RuleLang.Proofs.Grammar.Cut

/-!
# Token lists with marked operators

A custom operator is an identifier, and the mark `##` in front of it tells it from a name. A mark may
be put only where an operator is read: after a token that an operand may end with, or after `not`. So
how far decisions tell the marked tokens from the unmarked ones depends on the token before.

## Main definitions

* `Ahead.Before` — what is known of the significant token before.
* `Ahead.Marked` — the same tokens, but for their positions, with marks before some operators.
* `Ahead.Blind` — decisions that are the same for marked tokens.

## Main statements

* `Ahead.Marked.current_cases` — what comes next in both lists.
* `Ahead.Marked.keepsCount_bump`, … — the counts of tokens are the same for marked tokens.
-/

namespace RuleLang

open Grammar.Expressions

/-- An operand may end with a token of the kind. -/
def Kind.endsOperand (k : Kind) : Bool :=
  k.isName || k.isLiteral ||
  match k with
  | .rParen | .rBracket | .rBrace | .gt | .plusPlus | .minusMinus => true
  | _ => false

namespace Ahead

/-- What is known of the significant token before. -/
inductive Before where
  /-- An operand may end with it. -/
  | operand
  /-- It is `not`. -/
  | negation
  | other
  deriving DecidableEq

/-- What is known after one more token. -/
def Before.after (p : Before) (k : Kind) : Before :=
  if k.isTrivia then p
  else if k == .notKw then .negation
  else if k.endsOperand then .operand
  else .other

/-- What is known after some more tokens. -/
def Before.past (p : Before) (ts : List Token) : Before :=
  ts.foldl (fun p t => p.after t.kind) p

/-- The same tokens, but for their positions, with marks before some of the identifiers that are read
as operators: after `not`, or after an operand and before another one. -/
inductive Marked : Before → Ahead → Ahead → Prop
  | nil {p : Before} : Marked p [] []
  | cons {p : Before} {t t' : Token} {a b : Ahead} (hl : t.leaf = t'.leaf)
    (h : Marked (p.after t.kind) a b) : Marked p (t :: a) (t' :: b)
  | mark {p : Before} {t m t' : Token} {a b : Ahead} (ht : t.kind = .ident)
    (hp : p = .negation ∨ p = .operand ∧ isOperandStart a.current = true) (hm : m.leaf = .mark)
    (hl : t.leaf = t'.leaf) (h : Marked .operand a b) : Marked p (t :: a) (m :: t' :: b)

namespace Before

theorem after_of_isTrivia (p : Before) {k : Kind} (h : k.isTrivia = true) : p.after k = p := by
  rw [after, if_pos h]

/-- A significant token decides alone. -/
theorem after_of_significant (p q : Before) {k : Kind} (h : k.isTrivia = false) :
    p.after k = q.after k := by
  simp [after, h]

theorem after_not (p : Before) : p.after .notKw = .negation := rfl

theorem after_of_endsOperand (p : Before) {k : Kind} (h : k.endsOperand = true) :
    p.after k = .operand := by
  cases k <;> first | rfl | cases h

theorem after_of_not_endsOperand (p : Before) {k : Kind} (h : k.endsOperand = false)
    (hk : k.isTrivia = false) (hnot : k ≠ .notKw) : p.after k = .other := by
  simp [after, h, hk, hnot]

end Before

theorem isTrivia_of_ident {t : Token} (h : t.kind = .ident) : t.isTrivia = false := by
  rw [Token.isTrivia, h]
  rfl

theorem kind_of_mark {m : Token} (h : m.leaf = .mark) : m.kind = .hashHash :=
  congrArg Leaf.kind h

theorem isTrivia_of_mark {m : Token} (h : m.leaf = .mark) : m.isTrivia = false := by
  rw [Token.isTrivia, kind_of_mark h]
  rfl

theorem current_of_afterTrivia {a c : Ahead} {t : Token} (h : a.afterTrivia = t :: c)
    (ht : t.isTrivia = false) : a.current = t.kind :=
  current_eq_of_currentToken? (currentToken?_of_afterTrivia h ht)

theorem nth_one_of_afterTrivia {a c : Ahead} {t : Token} (h : a.afterTrivia = t :: c)
    (ht : t.isTrivia = false) : a.nth 1 = c.current := by
  rw [nth, nth_succ_of_afterTrivia h ht]
  rfl

theorem current_of_none {a : Ahead} (h : a.currentToken? = none) : a.current = .eof := by
  rw [currentToken?] at h
  simp [current, nth, h]

namespace Marked

variable {p q : Before} {a b : Ahead}

/-- Where no identifier comes next, or no mark may come next, nothing need be known of the token
before. -/
theorem change (h : Marked p a b) (hpq : a.current = .ident → p = .other ∨ q = p) :
    Marked q a b := by
  induction h generalizing q with
  | nil => exact .nil
  | @cons p t t' a b hl h ih =>
    by_cases ht : t.isTrivia = true
    · refine .cons hl (ih fun hident => ?_)
      rw [current_cons, if_pos ht] at hpq
      rw [Before.after_of_isTrivia p ht, Before.after_of_isTrivia q ht]
      exact hpq hident
    · rw [Bool.not_eq_true] at ht
      exact .cons hl (Before.after_of_significant p q ht ▸ h)
  | mark ht hp hm hl h =>
    rw [current_cons, isTrivia_of_ident ht, if_neg (by simp)] at hpq
    rcases hpq ht with rfl | rfl
    · rcases hp with hp | ⟨hp, -⟩ <;> cases hp
    · exact .mark ht hp hm hl h

theorem of_other (h : Marked .other a b) (q : Before) : Marked q a b :=
  h.change fun _ => .inl rfl

theorem of_current (h : Marked p a b) (hcur : a.current ≠ .ident) (q : Before) : Marked q a b :=
  h.change fun hident => absurd hident hcur

/-- Leading tokens with the same leaves. -/
theorem append {ts us : List Token} (hl : ts.map Token.leaf = us.map Token.leaf)
    (h : Marked (p.past ts) a b) : Marked p (ts ++ a) (us ++ b) := by
  induction ts generalizing p us with
  | nil =>
    obtain rfl : us = [] := by simpa using hl.symm
    exact h
  | cons t ts ih =>
    cases us with
    | nil => simp at hl
    | cons u us =>
      obtain ⟨ht, hts⟩ := List.cons.inj hl
      exact .cons ht (ih hts h)

/-- What comes next: nothing, the same token, or a mark before it. -/
theorem current_cases (h : Marked p a b) :
    (a.currentToken? = none ∧ b.currentToken? = none) ∨
    (∃ t t' c d, a.afterTrivia = t :: c ∧ b.afterTrivia = t' :: d ∧ t.isTrivia = false ∧
      t.leaf = t'.leaf ∧ Marked (p.after t.kind) c d) ∨
    ∃ t m t' c d, a.afterTrivia = t :: c ∧ b.afterTrivia = m :: t' :: d ∧ t.kind = .ident ∧
      m.leaf = .mark ∧ t.leaf = t'.leaf ∧
      (p = .negation ∨ p = .operand ∧ isOperandStart (current c) = true) ∧ Marked .operand c d := by
  induction h with
  | nil => exact .inl ⟨rfl, rfl⟩
  | @cons p t t' a b hl h ih =>
    have htr := isTrivia_eq_of_leaf_eq hl
    by_cases ht : t.isTrivia = true
    · have ht' : t'.isTrivia = true := htr ▸ ht
      rw [Before.after_of_isTrivia p ht] at ih
      simpa only [currentToken?, nthToken?, ht, ht', if_true, afterTrivia,
        List.dropWhile_cons_of_pos] using ih
    · have ht' : ¬t'.isTrivia = true := htr ▸ ht
      exact .inr (.inl ⟨t, t', a, b, List.dropWhile_cons_of_neg ht,
        List.dropWhile_cons_of_neg ht', by simpa using ht, hl, h⟩)
  | @mark p t m t' a b ht hp hm hl h =>
    refine .inr (.inr ⟨t, m, t', a, b, List.dropWhile_cons_of_neg ?_,
      List.dropWhile_cons_of_neg ?_, ht, hm, hl, hp, h⟩)
    · simp [isTrivia_of_ident ht]
    · simp [isTrivia_of_mark hm]

/-- The same kind comes next, or a mark before an operator. -/
theorem current (h : Marked p a b) :
    b.current = a.current ∨ a.current = .ident ∧ b.current = .hashHash ∧
      (p = .negation ∨ p = .operand ∧ isOperandStart (a.nth 1) = true) := by
  rcases h.current_cases with ⟨ha, hb⟩ | ⟨t, t', c, d, ha, hb, ht, hl, -⟩ |
    ⟨t, m, t', c, d, ha, hb, ht, hm, hl, hp, -⟩
  · exact .inl (by rw [current_of_none ha, current_of_none hb])
  · have ht' : t'.isTrivia = false := isTrivia_eq_of_leaf_eq hl ▸ ht
    exact .inl (by rw [current_of_afterTrivia ha ht, current_of_afterTrivia hb ht',
      kind_eq_of_leaf_eq hl])
  · refine .inr ⟨?_, ?_, ?_⟩
    · rw [current_of_afterTrivia ha (isTrivia_of_ident ht), ht]
    · rw [current_of_afterTrivia hb (isTrivia_of_mark hm), kind_of_mark hm]
    · rwa [nth_one_of_afterTrivia ha (isTrivia_of_ident ht)]

theorem current_eq (h : Marked .other a b) : b.current = a.current := by
  rcases h.current with h | ⟨-, -, hp | ⟨hp, -⟩⟩
  · exact h
  · cases hp
  · cases hp

/-- A decision on the current token that does not tell a mark from an identifier. -/
theorem current_apply (h : Marked p a b) {α : Type} {f : Kind → α} (hf : f .hashHash = f .ident) :
    f b.current = f a.current := by
  rcases h.current with h | ⟨ha, hb, -⟩
  · rw [h]
  · rw [ha, hb, hf]

/-- Past a token that stands in both lists, the same kind comes next, or a mark before an operator. -/
theorem next (h : Marked p a b) (hcur : b.current = a.current) :
    b.nth 1 = a.nth 1 ∨ a.nth 1 = .ident ∧ b.nth 1 = .hashHash ∧
      (a.current = .notKw ∨ a.current.endsOperand = true) := by
  rcases h.current_cases with ⟨ha, hb⟩ | ⟨t, t', c, d, ha, hb, ht, hl, hcd⟩ |
    ⟨t, m, t', c, d, ha, hb, ht, hm, hl, hp, -⟩
  · exact .inl (by rw [nth, nth, nthToken?_one_of_none ha, nthToken?_one_of_none hb])
  · have ht' : t'.isTrivia = false := isTrivia_eq_of_leaf_eq hl ▸ ht
    rw [nth_one_of_afterTrivia ha ht, nth_one_of_afterTrivia hb ht',
      current_of_afterTrivia ha ht]
    refine hcd.current.imp_right ?_
    rintro ⟨hc, hd, hp⟩
    refine ⟨hc, hd, ?_⟩
    by_contra hnone
    rw [not_or, Bool.not_eq_true] at hnone
    rw [Before.after_of_not_endsOperand p hnone.2 ht hnone.1] at hp
    rcases hp with hp | ⟨hp, -⟩ <;> cases hp
  · rw [current_of_afterTrivia ha (isTrivia_of_ident ht),
      current_of_afterTrivia hb (isTrivia_of_mark hm), ht, kind_of_mark hm] at hcur
    cases hcur

/-- After a token that no operand ends with the same kind comes next. -/
theorem next_eq (h : Marked p a b) (hcur : b.current = a.current) (hnot : a.current ≠ .notKw)
    (hend : a.current.endsOperand = false) : b.nth 1 = a.nth 1 := by
  rcases h.next hcur with h | ⟨-, -, h | h⟩
  · exact h
  · exact absurd h hnot
  · rw [hend] at h
    cases h

theorem next_apply (h : Marked p a b) (hcur : b.current = a.current) {α : Type} {f : Kind → α}
    (hf : f .hashHash = f .ident) : f (b.nth 1) = f (a.nth 1) := by
  rcases h.next hcur with h | ⟨ha, hb, -⟩
  · rw [h]
  · rw [ha, hb, hf]

theorem adjacent (h : Marked p a b) : b.adjacent = a.adjacent := by
  cases h with
  | nil => rfl
  | cons hl _ => simp [Ahead.adjacent, isTrivia_eq_of_leaf_eq hl]
  | mark ht _ hm _ _ => simp [Ahead.adjacent, isTrivia_of_ident ht, isTrivia_of_mark hm]

/-! ## Counts -/

theorem keepsCount_trivia (h : Marked p a b) : KeepsCount triviaLength a b := by
  refine Ahead.keepsCount_trivia fun hf => ?_
  cases h with
  | nil => rfl
  | @cons _ t t' _ _ hl _ =>
    have ht : t.isTrivia = false := by
      by_contra ht
      simp [triviaLength, ht] at hf
    simp [triviaLength, ← isTrivia_eq_of_leaf_eq hl, ht]
  | mark _ _ hm _ _ => simp [triviaLength, isTrivia_of_mark hm]

theorem keepsCount_lineTrivia (h : Marked p a b) :
    KeepsCount Reading.lineTriviaLength a b := by
  refine Ahead.keepsCount_lineTrivia fun hf => ?_
  cases h with
  | nil => rfl
  | cons hl _ =>
    exact lineTriviaLength_eq_zero
      ((isTrivia_eq_of_leaf_eq hl).symm.trans (isTrivia_of_lineTriviaLength hf))
  | mark _ _ hm _ _ => exact lineTriviaLength_eq_zero (isTrivia_of_mark hm)

theorem bumpLength_eq_zero (h : Marked p a b) {n : Nat} (hn : bumpLength n a = 0) :
    bumpLength n b = 0 := by
  cases n with
  | zero => cases b <;> rfl
  | succ n =>
    cases h with
    | nil => rfl
    | @cons _ t t' a b hl _ =>
      simp only [bumpLength, ← isTrivia_eq_of_leaf_eq hl, ← kind_eq_of_leaf_eq hl] at hn ⊢
      split at hn
      · omega
      · split at hn
        · rename_i ht he
          simp [ht, he]
        · omega
    | mark ht _ _ _ _ => simp [bumpLength, isTrivia_of_ident ht, ht] at hn

theorem keepsCount_bump (h : Marked p a b) (n : Nat) : KeepsCount (bumpLength n) a b :=
  Ahead.keepsCount_bump (fun _ => h.bumpLength_eq_zero) n

section

variable {σ : Type} {step : σ → Kind → Move σ}

theorem stretch_eq_zero (hident : ∀ s, step s .ident ≠ .halt) (h : Marked p a b) {s : σ}
    (ha : stretch step s a = 0) : stretch step s b = 0 := by
  induction h with
  | nil => rfl
  | @cons p t t' a b hl h ih =>
    simp only [stretch, ← isTrivia_eq_of_leaf_eq hl, ← kind_eq_of_leaf_eq hl] at ha ⊢
    split at ha
    · rename_i ht
      simpa only [ht, if_true] using ih ha
    · rename_i ht
      simp only [ht, Bool.false_eq_true, if_false]
      split at ha <;> simp_all
  | @mark p t m t' a b ht hp hm hl h =>
    have := hident s
    simp only [stretch, isTrivia_of_ident ht, ht, Bool.false_eq_true, if_false] at ha
    split at ha <;> simp_all

theorem keepsCount_stretch (heof : ∀ s, step s .eof = .halt)
    (hident : ∀ s, step s .ident ≠ .halt) (h : Marked p a b) (s : σ) :
    KeepsCount (fun a => bumpLength (stretch step s a) a) a b :=
  Ahead.keepsCount_stretch heof (fun _ => h.bumpLength_eq_zero)
    (fun _ => h.stretch_eq_zero hident) s

end

theorem keepsCount_untilClose (h : Marked p a b) {close : Kind} (hclose : close ≠ .ident) :
    KeepsCount (fun a => bumpLength (untilClose close 0 a) a) a b := by
  simp only [untilClose_eq_stretch]
  refine h.keepsCount_stretch (fun _ => rfl) (fun s => ?_) 0
  have hne : (Kind.ident == close) = false := beq_eq_false_iff_ne.2 hclose.symm
  simp [beforeClose, hne]

theorem throughDepth_ident (after : Nat → Kind → Nat) (depth : Nat) :
    throughDepth after depth .ident ≠ .halt := by
  have hident : (Kind.ident == .eof) = false := rfl
  simp only [throughDepth, hident, Bool.false_eq_true, if_false]
  split <;> simp

theorem keepsCount_typeArguments (h : Marked p a b) :
    KeepsCount (fun a => bumpLength (typeArguments 0 a) a) a b := by
  simp only [typeArguments_eq_stretch]
  exact h.keepsCount_stretch (fun _ => rfl) (throughDepth_ident _) 0

theorem keepsCount_balanced (h : Marked p a b) :
    KeepsCount (fun a => bumpLength (balanced 0 a).1 a) a b := by
  simp only [balanced_eq_stretch]
  exact h.keepsCount_stretch (fun _ => rfl) (throughDepth_ident _) 0

end Marked

/-! ## Decisions -/

theorem exists_dropPairs (first second : Kind) (ks : List Kind) :
    ∃ pre, ks = pre ++ dropPairs first second ks ∧ ∀ k ∈ pre, k = first ∨ k = second := by
  induction ks using dropPairs.induct first second with
  | case1 a b ks hab ih =>
    obtain ⟨pre, hks, hpre⟩ := ih
    obtain ⟨rfl, rfl⟩ : a = first ∧ b = second := by simpa using hab
    refine ⟨a :: b :: pre, ?_, ?_⟩
    · rw [dropPairs, if_pos hab, List.cons_append, List.cons_append, ← hks]
    · simpa using hpre
  | case2 a b ks hab =>
    rw [dropPairs_of_not (by simpa using hab)]
    exact ⟨[], rfl, by simp⟩
  | case3 ks hks =>
    refine ⟨[], ?_, by simp⟩
    cases ks with
    | nil => rfl
    | cons a ks => cases ks with
      | nil => rfl
      | cons b ks => exact absurd rfl (hks a b ks)

/-- The end of a cast holds no mark. -/
theorem exists_castEnd_prefix {ks : List Kind} (h : castEnd ks = true) :
    ∃ js, js <+: ks ∧ .hashHash ∉ js ∧ castEnd js = true := by
  have hends : ∀ js, endsCast js = true →
      ∃ k rest, js = .rParen :: k :: rest ∧ isCastOperandStart k = true := by
    intro js hjs
    unfold endsCast at hjs
    split at hjs
    · exact ⟨_, _, rfl, hjs⟩
    · cases hjs
  obtain ⟨k, rest, hjs, hk⟩ := hends _ h
  obtain ⟨pre, hpre, hpairs⟩ := exists_dropPairs .dot .ident ks
  obtain ⟨pre', hpre', hpairs'⟩ :=
    exists_dropPairs .lBracket .rBracket (dropPairs .dot .ident ks)
  have hks : ks = pre ++ pre' ++ .rParen :: k :: rest := by
    rw [List.append_assoc, ← hjs, ← hpre', ← hpre]
  refine ⟨pre ++ pre' ++ [.rParen, k], ?_, ?_, ?_⟩
  · rw [hks]
    exact List.prefix_append_right_inj _ |>.2 ⟨rest, rfl⟩
  · have hne : k ≠ .hashHash := by
      rintro rfl
      cases hk
    simp only [List.mem_append, List.mem_cons, List.not_mem_nil, or_false, not_or]
    refine ⟨⟨fun hm => ?_, fun hm => ?_⟩, by decide, hne.symm⟩
    · rcases hpairs _ hm with h | h <;> cases h
    · rcases hpairs' _ hm with h | h <;> cases h
  · rwa [← castEnd_paren, ← hks]

/-- The same for marked tokens. -/
def Blind {α : Type} (p : Before) (f : Ahead → α) : Prop :=
  ∀ ⦃a b : Ahead⦄, Marked p a b → f b = f a

namespace Blind

variable {p : Before} {α β γ : Type}

theorem const (x : α) : Blind p fun _ => x :=
  fun _ _ _ => rfl

theorem map₂ {f : Ahead → α} {g : Ahead → β} (hf : Blind p f) (hg : Blind p g) (op : α → β → γ) :
    Blind p fun a => op (f a) (g a) := by
  intro a b h
  simp only [hf h, hg h]

theorem current {f : Kind → α} (hf : f .hashHash = f .ident) : Blind p fun a => f a.current :=
  fun _ _ h => h.current_apply hf

/-- Where no mark may come next, the current token is the same. -/
theorem here (f : Kind → α) : Blind .other fun a => f a.current :=
  fun _ _ h => congrArg f h.current_eq

theorem isAt {k : Kind} (h : (Kind.hashHash == k) = (Kind.ident == k)) : Blind p fun a => a.isAt k :=
  current (f := (· == k)) h

theorem adjacent : Blind p fun a => a.adjacent :=
  fun _ _ h => h.adjacent

/-- A decision on the next two tokens: the second one is seen only after a token that no operand
ends with, or a mark in front of it is not told from an identifier. -/
theorem next_two {f g : Kind → Bool} (hf : p = .other ∨ f .ident = false ∧ f .hashHash = false)
    (hg : (∀ k, f k = true → k ≠ .notKw ∧ k.endsOperand = false) ∨ g .hashHash = g .ident) :
    Blind p fun a => f a.current && g (a.nth 1) := by
  intro a b h
  have hcur : b.current = a.current ∨ f a.current = false ∧ f b.current = false := by
    rcases h.current with hcur | ⟨ha, hb, hp⟩
    · exact .inl hcur
    · rcases hf with rfl | hf
      · exact .inl h.current_eq
      · exact .inr ⟨ha ▸ hf.1, hb ▸ hf.2⟩
  dsimp only
  rcases hcur with hcur | ⟨ha, hb⟩
  · rw [hcur]
    cases hfa : f a.current with
    | false => rfl
    | true =>
      rcases hg with hg | hg
      · obtain ⟨hnot, hend⟩ := hg _ hfa
        rw [h.next_eq hcur hnot hend]
      · rw [h.next_apply hcur hg]
  · rw [ha, hb]
    rfl

/-- The kind of an operator is that of the identifier behind its mark. -/
theorem operatorKind : Blind p operatorKind := by
  intro a b h
  unfold Grammar.Expressions.operatorKind
  rcases h.current with hcur | ⟨ha, hb, -⟩
  · have hnot : b.isAt .notKw = a.isAt .notKw := by rw [Ahead.isAt, Ahead.isAt, hcur]
    rw [hnot]
    split
    · exact h.next_apply hcur (f := fun k => if k == .hashHash then .ident else k) rfl
    · rw [hcur]
  · rw [Ahead.isAt, Ahead.isAt, ha, hb]
    rfl

end Blind

namespace Marked

variable {p : Before} {a b : Ahead}

/-- Where no operator comes next, a mark does not make one. -/
theorem not_atRelationalOperator (h : Marked .operand a b) (ha : atRelationalOperator a = false) :
    atRelationalOperator b = false := by
  rcases h.current with hcur | ⟨hident, -, hp | ⟨-, hstart⟩⟩
  · rcases h.next hcur with hnext | ⟨hnext, hnext', hk | hk⟩
    · rwa [atRelationalOperator, hcur, hnext]
    · rw [atRelationalOperator, hk, hnext] at ha
      cases ha
    · rw [atRelationalOperator, hnext] at ha
      rw [atRelationalOperator, hcur, hnext']
      generalize a.current = k at ha
      cases k <;> first | rfl | cases ha
  · cases hp
  · rw [atRelationalOperator, hident] at ha
    simp [hstart] at ha

/-! ### Casts -/

/-- What comes next without a mark comes next before marks are put. -/
theorem prefix_significantKinds (h : Marked p a b) {ks : List Kind}
    (hks : ks <+: significantKinds b) (hmark : .hashHash ∉ ks) : ks <+: significantKinds a := by
  induction h generalizing ks with
  | nil => exact hks
  | @cons p t t' a b hl _ ih =>
    simp only [significantKinds, List.filter_cons, ← isTrivia_eq_of_leaf_eq hl] at hks ⊢
    split at hks
    · rename_i ht
      rw [if_pos ht, List.map_cons]
      rw [List.map_cons, ← kind_eq_of_leaf_eq hl] at hks
      cases ks with
      | nil => exact List.nil_prefix
      | cons k ks =>
        obtain ⟨rfl, htail⟩ := List.cons_prefix_cons.1 hks
        exact List.cons_prefix_cons.2 ⟨rfl, ih htail fun hk => hmark (List.mem_cons_of_mem _ hk)⟩
    · rename_i ht
      rw [if_neg ht]
      exact ih hks hmark
  | @mark p t m t' a b ht _ hm _ _ _ =>
    simp only [significantKinds, List.filter_cons, isTrivia_of_mark hm, Bool.not_false, if_true,
      List.map_cons, kind_of_mark hm] at hks
    cases ks with
    | nil => exact List.nil_prefix
    | cons k ks =>
      obtain ⟨rfl, -⟩ := List.cons_prefix_cons.1 hks
      exact absurd List.mem_cons_self hmark

/-- Where no cast comes next, marks do not make one. -/
theorem atCast_of_atCast (h : Marked .other a b) (hb : atCast b = true) : atCast a = true := by
  have hparen : b.isAt .lParen = true := by
    rw [atCast_eq, Bool.and_eq_true, Bool.and_eq_true] at hb
    exact hb.1.1
  have hne : b.current ≠ .eof := current_ne_eof (beq_iff_eq.1 hparen) rfl
  have hparen' : a.isAt .lParen = true := by rwa [Ahead.isAt, ← h.current_eq]
  rcases h.current_cases with ⟨-, hnone⟩ | ⟨t, t', c, d, ha, hb', ht, hl, hcd⟩ |
    ⟨_, _, _, _, _, -, -, -, -, -, hp | ⟨hp, -⟩, -⟩
  · exact absurd (current_of_none hnone) hne
  · have ht' : t'.isTrivia = false := isTrivia_eq_of_leaf_eq hl ▸ ht
    rw [atCast_of_afterTrivia hb' ht', hparen, Bool.true_and, castRest, Bool.and_eq_true] at hb
    have hkind : t.kind = .lParen := by
      rw [← current_of_afterTrivia ha ht]
      exact beq_iff_eq.1 hparen'
    rw [hkind] at hcd
    have hcd : Marked .other c d := hcd
    rw [atCast_of_afterTrivia ha ht, hparen', Bool.true_and, castRest, Bool.and_eq_true]
    rcases hcd.current_cases with ⟨-, hnone⟩ | ⟨u, u', e, f, hc, hd, hu, hlu, hef⟩ |
      ⟨_, _, _, _, _, -, -, -, -, -, hp | ⟨hp, -⟩, -⟩
    · rw [hnone] at hb
      exact absurd hb.1 (by simp)
    · have hu' : u'.isTrivia = false := isTrivia_eq_of_leaf_eq hlu ▸ hu
      rw [currentToken?_of_afterTrivia hd hu', significantKinds_of_afterTrivia hd hu'] at hb
      rw [currentToken?_of_afterTrivia hc hu, significantKinds_of_afterTrivia hc hu]
      refine ⟨(looksLikeType_of_leaf_eq hlu).symm.trans hb.1, ?_⟩
      obtain ⟨ks, hks, hmark, hend⟩ := exists_castEnd_prefix hb.2
      obtain ⟨rest, hrest⟩ := hef.prefix_significantKinds hks hmark
      rw [List.drop_succ_cons, List.drop_zero, ← hrest]
      exact castEnd_append_of_castEnd hend rest
    · cases hp
    · cases hp
  · cases hp
  · cases hp

end Marked

end Ahead

end RuleLang
