import RuleLang.Grammar.Expressions
import RuleLang.Proofs.Grammar.Clean

/-!
# Token lists that look alike

No decision of the grammar tells a word that joins conditions from the symbol with the same meaning,
and none but the raw stretches looks past a joining token. So two token lists may differ in a joining
token and in all that comes after it, and decisions are still the same.

## Main definitions

* `Kind.isJoin`, `Kind.joinWord` — the tokens that join conditions, and their spelling as words.
* `Ahead.Agree` — the same tokens up to a joining token that may be spelled as a word.
* `Ahead.Stable`, `Ahead.StableCount` — decisions and counts that are the same for token lists that
  agree.
-/

namespace RuleLang

/-! ## Joining tokens -/

/-- A token that joins conditions or operands. -/
def Kind.isJoin : Kind → Bool
  | .ampAmp | .pipePipe | .andKw | .orKw => true
  | _ => false

/-- The word for a symbol that joins. -/
def Kind.joinWord : Kind → Kind
  | .ampAmp => .andKw
  | .pipePipe => .orKw
  | k => k

/-- The same kind, but a joining symbol may have become a word. -/
def Kind.Same (k k' : Kind) : Prop :=
  k' = k ∨ k.isJoin = true ∧ k' = k.joinWord

namespace Kind

theorem isJoin_cases {k : Kind} (h : k.isJoin = true) :
    k = .ampAmp ∨ k = .pipePipe ∨ k = .andKw ∨ k = .orKw := by
  cases k <;> simp_all [isJoin]

theorem isTrivia_of_isJoin {k : Kind} (h : k.isJoin = true) : k.isTrivia = false := by
  rcases isJoin_cases h with rfl | rfl | rfl | rfl <;> rfl

theorem isJoin_joinWord {k : Kind} (h : k.isJoin = true) : k.joinWord.isJoin = true := by
  rcases isJoin_cases h with rfl | rfl | rfl | rfl <;> rfl

namespace Same

theorem refl (k : Kind) : Same k k :=
  .inl rfl

theorem eq_of_not_isJoin {k k' : Kind} (h : Same k k') (hk : k.isJoin = false) : k' = k := by
  rcases h with h | ⟨hj, -⟩
  · exact h
  · simp [hk] at hj

theorem isJoin {k k' : Kind} (h : Same k k') : k'.isJoin = k.isJoin := by
  rcases h with rfl | ⟨hj, rfl⟩
  · rfl
  · rw [hj, isJoin_joinWord hj]

/-- What does not tell symbols from words is the same for both kinds. -/
theorem apply {α : Type} {k k' : Kind} (h : Same k k') {f : Kind → α}
    (hand : f .andKw = f .ampAmp) (hor : f .orKw = f .pipePipe) : f k' = f k := by
  rcases h with rfl | ⟨hj, rfl⟩
  · rfl
  · rcases isJoin_cases hj with rfl | rfl | rfl | rfl
    · exact hand
    · exact hor
    · rfl
    · rfl

end Same

end Kind

namespace Ahead

/-! ## Agreement -/

/-- The same tokens, but for their positions, up to a joining token that may be spelled as a word.
After it nothing is said. -/
inductive Agree : Ahead → Ahead → Prop
  | nil : Agree [] []
  | join {t t' : Token} {a b : Ahead} (ht : t.kind.isJoin = true)
    (hs : Kind.Same t.kind t'.kind) : Agree (t :: a) (t' :: b)
  | cons {t t' : Token} {a b : Ahead} (hl : t.leaf = t'.leaf) (h : Agree a b) :
    Agree (t :: a) (t' :: b)

theorem kind_eq_of_leaf_eq {t t' : Token} (h : t.leaf = t'.leaf) : t.kind = t'.kind :=
  congrArg Leaf.kind h

theorem text_eq_of_leaf_eq {t t' : Token} (h : t.leaf = t'.leaf) : t.text = t'.text :=
  congrArg Leaf.text h

theorem isTrivia_eq_of_leaf_eq {t t' : Token} (h : t.leaf = t'.leaf) :
    t.isTrivia = t'.isTrivia :=
  congrArg Kind.isTrivia (kind_eq_of_leaf_eq h)

theorem Agree.adjacent {a b : Ahead} (h : Agree a b) : b.adjacent = a.adjacent := by
  cases h with
  | nil => rfl
  | join ht hs =>
    have hs' := hs.isJoin
    simp [Ahead.adjacent, Token.isTrivia, Kind.isTrivia_of_isJoin ht,
      Kind.isTrivia_of_isJoin (hs'.trans ht)]
  | cons hl _ => simp [Ahead.adjacent, isTrivia_eq_of_leaf_eq hl]

/-- The current tokens of lists that agree: there is none in both, they join, or they look the same
and the lists agree after them. -/
theorem Agree.current_cases {a b : Ahead} (h : Agree a b) :
    (a.currentToken? = none ∧ b.currentToken? = none) ∨
    (∃ t t', a.currentToken? = some t ∧ b.currentToken? = some t' ∧ t.kind.isJoin = true ∧
      Kind.Same t.kind t'.kind) ∨
    ∃ t t' c d, a.afterTrivia = t :: c ∧ b.afterTrivia = t' :: d ∧ t.isTrivia = false ∧
      t.leaf = t'.leaf ∧ Agree c d := by
  induction h with
  | nil => exact .inl ⟨rfl, rfl⟩
  | @join t t' a b ht hs =>
    have htr := Kind.isTrivia_of_isJoin ht
    have htr' := Kind.isTrivia_of_isJoin (hs.isJoin.trans ht)
    exact .inr (.inl ⟨t, t', by simp [currentToken?, nthToken?, Token.isTrivia, htr],
      by simp [currentToken?, nthToken?, Token.isTrivia, htr'], ht, hs⟩)
  | @cons t t' a b hl h ih =>
    have htr := isTrivia_eq_of_leaf_eq hl
    by_cases ht : t.isTrivia = true
    · have ht' : t'.isTrivia = true := htr ▸ ht
      simpa only [currentToken?, nthToken?, ht, ht', if_true, afterTrivia,
        List.dropWhile_cons_of_pos] using ih
    · have ht' : ¬t'.isTrivia = true := htr ▸ ht
      refine .inr (.inr ⟨t, t', a, b, ?_, ?_, by simpa using ht, hl, h⟩)
      · exact List.dropWhile_cons_of_neg ht
      · exact List.dropWhile_cons_of_neg ht'

theorem currentToken?_of_afterTrivia {a c : Ahead} {t : Token} (h : a.afterTrivia = t :: c)
    (ht : t.isTrivia = false) : a.currentToken? = some t := by
  rw [currentToken?, ← nthToken?_afterTrivia, h]
  simp [nthToken?, ht]

theorem nth_succ_of_afterTrivia {a c : Ahead} {t : Token} (h : a.afterTrivia = t :: c)
    (ht : t.isTrivia = false) (n : Nat) : nthToken? (n + 1) a = nthToken? n c := by
  rw [← nthToken?_afterTrivia, h]
  simp [nthToken?, ht]

theorem current_eq_of_currentToken? {a : Ahead} {t : Token} (h : a.currentToken? = some t) :
    a.current = t.kind := by
  rw [currentToken?] at h
  simp [current, nth, h]

theorem Agree.current {a b : Ahead} (h : Agree a b) : Kind.Same a.current b.current := by
  rcases h.current_cases with ⟨ha, hb⟩ | ⟨t, t', ha, hb, -, hs⟩ | ⟨t, t', c, d, ha, hb, ht, hl, -⟩
  · rw [currentToken?] at ha hb
    simp [Ahead.current, nth, ha, hb, Kind.Same.refl]
  · rwa [current_eq_of_currentToken? ha, current_eq_of_currentToken? hb]
  · have ht' : t'.isTrivia = false := isTrivia_eq_of_leaf_eq hl ▸ ht
    rw [current_eq_of_currentToken? (currentToken?_of_afterTrivia ha ht),
      current_eq_of_currentToken? (currentToken?_of_afterTrivia hb ht'), kind_eq_of_leaf_eq hl]
    exact .refl _

/-- What relates the current tokens of lists that agree follows from three cases. -/
@[elab_as_elim]
theorem Agree.current_rec {a b : Ahead} (h : Agree a b) {motive : Kind → Kind → Prop}
    (same : ∀ k, motive k k) (hand : motive .ampAmp .andKw) (hor : motive .pipePipe .orKw) :
    motive a.current b.current := by
  rcases h.current with hs | ⟨hj, hs⟩
  · rw [hs]
    exact same _
  · rw [hs]
    rcases Kind.isJoin_cases hj with hk | hk | hk | hk <;> rw [hk]
    · exact hand
    · exact hor
    · exact same _
    · exact same _

/-- Past a current token that does not join, the lists agree as well. -/
theorem Agree.past {a b : Ahead} (h : Agree a b) (hj : a.current.isJoin = false) :
    (a.currentToken? = none ∧ b.currentToken? = none) ∨
    ∃ t t' c d, a.afterTrivia = t :: c ∧ b.afterTrivia = t' :: d ∧ t.isTrivia = false ∧
      t'.isTrivia = false ∧ t.leaf = t'.leaf ∧ Agree c d := by
  rcases h.current_cases with h | ⟨t, t', ha, -, ht, -⟩ | ⟨t, t', c, d, ha, hb, ht, hl, h⟩
  · exact .inl h
  · rw [current_eq_of_currentToken? ha, ht] at hj
    exact absurd hj (by simp)
  · exact .inr ⟨t, t', c, d, ha, hb, ht, isTrivia_eq_of_leaf_eq hl ▸ ht, hl, h⟩

theorem nthToken?_one_of_none {a : Ahead} (h : a.currentToken? = none) : nthToken? 1 a = none := by
  induction a with
  | nil => rfl
  | cons t ts ih =>
    rw [currentToken?] at h
    by_cases ht : t.isTrivia = true
    · simp only [nthToken?, ht, if_true] at h ⊢
      exact ih h
    · simp [nthToken?, ht] at h

theorem Agree.nth_one {a b : Ahead} (h : Agree a b) (hj : a.current.isJoin = false) :
    Kind.Same (a.nth 1) (b.nth 1) := by
  rcases h.past hj with ⟨ha, hb⟩ | ⟨t, t', c, d, ha, hb, ht, ht', -, hcd⟩
  · rw [nth, nth, nthToken?_one_of_none ha, nthToken?_one_of_none hb]
    exact .refl _
  · rw [nth, nth, nth_succ_of_afterTrivia ha ht, nth_succ_of_afterTrivia hb ht']
    exact hcd.current

/-! ## Decisions -/

/-- The same for token lists that agree. -/
def Stable {α : Type} (f : Ahead → α) : Prop :=
  ∀ ⦃a b : Ahead⦄, Agree a b → f b = f a

namespace Stable

variable {α β γ : Type}

theorem const (x : α) : Stable fun _ => x :=
  fun _ _ _ => rfl

theorem map₂ {f : Ahead → α} {g : Ahead → β} (hf : Stable f) (hg : Stable g) (op : α → β → γ) :
    Stable fun a => op (f a) (g a) := by
  intro a b h
  simp only [hf h, hg h]

theorem current {f : Kind → α} (hand : f .andKw = f .ampAmp) (hor : f .orKw = f .pipePipe) :
    Stable fun a => f a.current :=
  fun _ _ h => h.current.apply hand hor

theorem isAt {k : Kind} (h : k.isJoin = false) : Stable fun a => a.isAt k := by
  refine current (f := (· == k)) ?_ ?_ <;> cases k <;> simp_all [Kind.isJoin]

/-- A decision on the next two tokens that is negative if the first of them joins. -/
theorem next_two {p : Kind → Bool} {q : Kind → Bool}
    (hp : ∀ k, k.isJoin = true → p k = false) (hand : q .andKw = q .ampAmp)
    (hor : q .orKw = q .pipePipe) : Stable fun a => p a.current && q (a.nth 1) := by
  intro a b h
  cases hj : a.current.isJoin with
  | false =>
    have hq := (h.nth_one hj).apply hand hor
    simp only [h.current.eq_of_not_isJoin hj, hq]
  | true =>
    have hb : b.current.isJoin = true := h.current.isJoin.trans hj
    simp only [hp _ hj, hp _ hb, Bool.false_and]

theorem adjacent : Stable fun a => a.adjacent :=
  fun _ _ h => h.adjacent

end Stable

/-! ## Counts -/

/-- A count of tokens to be taken that depends on what is taken, and on what comes next only as far
as lists that agree have it in common. -/
def StableCount (f : Ahead → Nat) : Prop :=
  ∀ ⦃ts us : List Token⦄ ⦃a b : Ahead⦄, ts.map Token.leaf = us.map Token.leaf → Agree a b →
    f (ts ++ a) = ts.length → f (us ++ b) = us.length

/-- A count of tokens to be taken is the same with `b` in the place of `a`, what comes next. The
tokens that are taken may have other positions. -/
def KeepsCount (f : Ahead → Nat) (a b : Ahead) : Prop :=
  ∀ ⦃ts us : List Token⦄, ts.map Token.leaf = us.map Token.leaf →
    f (ts ++ a) = ts.length → f (us ++ b) = us.length

theorem keepsCount_trivia {a b : Ahead} (h : triviaLength a = 0 → triviaLength b = 0) :
    KeepsCount triviaLength a b := by
  intro ts us hl hf
  induction ts generalizing us with
  | nil =>
    obtain rfl : us = [] := by simpa using hl.symm
    exact h hf
  | cons t ts ih =>
    cases us with
    | nil => simp at hl
    | cons u us =>
      obtain ⟨htu, hl⟩ := List.cons.inj hl
      by_cases ht : t.isTrivia = true
      · have hu : u.isTrivia = true := isTrivia_eq_of_leaf_eq htu ▸ ht
        have hf : triviaLength (ts ++ a) = ts.length := by simpa [triviaLength, ht] using hf
        simpa [triviaLength, hu] using ih hl hf
      · simp [triviaLength, ht] at hf

theorem stableCount_trivia : StableCount triviaLength := by
  intro ts us a b hl h
  refine keepsCount_trivia (fun hf => ?_) hl
  cases h with
  | nil => rfl
  | join ht hs =>
    simp [triviaLength, Token.isTrivia, Kind.isTrivia_of_isJoin (hs.isJoin.trans ht)]
  | @cons t t' _ _ hl _ =>
    have ht : t.isTrivia = false := by
      by_contra ht
      simp [triviaLength, ht] at hf
    simp [triviaLength, ← isTrivia_eq_of_leaf_eq hl, ht]

theorem lineTriviaLength_eq_zero {t : Token} {ts : Ahead} (h : t.isTrivia = false) :
    Reading.lineTriviaLength (t :: ts) = 0 := by
  have hn : t.kind ≠ .newline := fun hn => by simp [Token.isTrivia, hn, Kind.isTrivia] at h
  simp [Reading.lineTriviaLength, h, hn]

theorem isTrivia_of_lineTriviaLength {t : Token} {ts : Ahead}
    (h : Reading.lineTriviaLength (t :: ts) = 0) : t.isTrivia = false := by
  by_contra ht
  simp only [Reading.lineTriviaLength] at h
  split at h
  · simp at h
  · simp [ht] at h

theorem keepsCount_lineTrivia {a b : Ahead}
    (h : Reading.lineTriviaLength a = 0 → Reading.lineTriviaLength b = 0) :
    KeepsCount Reading.lineTriviaLength a b := by
  intro ts us hl hf
  induction ts generalizing us with
  | nil =>
    obtain rfl : us = [] := by simpa using hl.symm
    exact h hf
  | cons t ts ih =>
    cases us with
    | nil => simp at hl
    | cons u us =>
      obtain ⟨htu, hl⟩ := List.cons.inj hl
      simp only [List.cons_append, Reading.lineTriviaLength, List.length_cons,
        ← kind_eq_of_leaf_eq htu, ← isTrivia_eq_of_leaf_eq htu] at hf ⊢
      have hlen : ts.length = us.length := by simpa using congrArg List.length hl
      split at hf
      · rename_i hn
        simp only [hn, if_true]
        omega
      · rename_i hn
        split at hf
        · rename_i ht
          have := ih hl (by omega)
          simp only [hn, ht, if_true, Bool.false_eq_true, if_false]
          omega
        · omega

theorem stableCount_lineTrivia : StableCount Reading.lineTriviaLength := by
  intro ts us a b hl h
  refine keepsCount_lineTrivia (fun hf => ?_) hl
  cases h with
  | nil => rfl
  | join ht hs =>
    exact lineTriviaLength_eq_zero (Kind.isTrivia_of_isJoin (hs.isJoin.trans ht))
  | cons hl _ =>
    exact lineTriviaLength_eq_zero
      ((isTrivia_eq_of_leaf_eq hl).symm.trans (isTrivia_of_lineTriviaLength hf))

theorem bumpLength_of_agree {n : Nat} {a b : Ahead} (h : Agree a b) (hn : bumpLength n a = 0) :
    bumpLength n b = 0 := by
  cases n with
  | zero => cases b <;> rfl
  | succ n =>
    cases h with
    | nil => rfl
    | @join t t' a b ht hs =>
      have htr := Kind.isTrivia_of_isJoin ht
      have hne : (t.kind == .eof) = false := by
        rcases Kind.isJoin_cases ht with h | h | h | h <;> rw [h] <;> rfl
      simp [bumpLength, Token.isTrivia, htr, hne] at hn
    | @cons t t' a b hl _ =>
      simp only [bumpLength, ← isTrivia_eq_of_leaf_eq hl, ← kind_eq_of_leaf_eq hl] at hn ⊢
      split at hn
      · omega
      · split at hn
        · rename_i ht he
          simp [ht, he]
        · omega

theorem keepsCount_bump {a b : Ahead} (h : ∀ n, bumpLength n a = 0 → bumpLength n b = 0)
    (n : Nat) : KeepsCount (bumpLength n) a b := by
  intro ts us hl hf
  induction ts generalizing n us with
  | nil =>
    obtain rfl : us = [] := by simpa using hl.symm
    exact h n hf
  | cons t ts ih =>
    cases us with
    | nil => simp at hl
    | cons u us =>
      obtain ⟨htu, hl⟩ := List.cons.inj hl
      cases n with
      | zero => simp [bumpLength] at hf
      | succ n =>
        simp only [List.cons_append, bumpLength, List.length_cons, ← isTrivia_eq_of_leaf_eq htu,
          ← kind_eq_of_leaf_eq htu] at hf ⊢
        split at hf
        · rename_i ht
          have := ih (n + 1) hl (by omega)
          simp only [ht, if_true]
          omega
        · split at hf
          · omega
          · rename_i ht he
            have := ih n hl (by omega)
            simp only [ht, he, Bool.false_eq_true, if_false]
            omega

theorem stableCount_bump (n : Nat) : StableCount (bumpLength n) :=
  fun _ _ _ _ hl h => keepsCount_bump (fun _ => bumpLength_of_agree h) n hl

theorem current_cons (t : Token) (ts : Ahead) :
    current (t :: ts) = if t.isTrivia then current ts else t.kind := by
  simp only [current, nth, nthToken?]
  split <;> rfl

/-- The significant token that is taken first comes next, whatever follows. -/
theorem current_append_of_bump {ts us : List Token} {a b : Ahead} {leaves : List Leaf}
    (hlen : ts.length = bumpLength 1 (ts ++ a)) (hne : current (ts ++ a) ≠ .eof)
    (hu : us.map Token.leaf = ts.map Token.leaf ++ leaves) :
    current (us ++ b) = current (ts ++ a) := by
  induction ts generalizing us with
  | nil =>
    cases a with
    | nil => exact absurd rfl hne
    | cons t c =>
      simp only [List.nil_append, List.length_nil, bumpLength] at hlen
      split at hlen
      · omega
      · split at hlen
        · rename_i ht he
          simp [current_cons, ht, beq_iff_eq.1 he] at hne
        · omega
  | cons t ts ih =>
    cases us with
    | nil => simp at hu
    | cons u us =>
      obtain ⟨htu, hu⟩ := List.cons.inj hu
      have htr := isTrivia_eq_of_leaf_eq htu
      simp only [List.cons_append, current_cons, htr] at hne ⊢
      by_cases ht : t.isTrivia = true
      · simp only [ht, if_true] at hne ⊢
        refine ih ?_ hne hu
        rw [List.cons_append, bumpLength_of_isTrivia ht] at hlen
        simpa using hlen
      · simp only [ht]
        exact kind_eq_of_leaf_eq htu

/-! ## Raw stretches -/

/-- What to do at a significant token of a stretch that is read as it stands. -/
inductive Move (σ : Type) where
  /-- The token does not belong to the stretch. -/
  | halt
  /-- It is the last one. -/
  | last
  /-- The stretch goes on. -/
  | next (s : σ)

variable {σ : Type}

/-- The significant tokens of a stretch. -/
def stretch (step : σ → Kind → Move σ) (s : σ) : Ahead → Nat
  | [] => 0
  | t :: ts =>
    if t.isTrivia then stretch step s ts
    else
      match step s t.kind with
      | .halt => 0
      | .last => 1
      | .next s => stretch step s ts + 1

/-- A stretch through the token at which a depth becomes zero. -/
def throughDepth (after : Nat → Kind → Nat) (depth : Nat) (k : Kind) : Move Nat :=
  if k == .eof then .halt else if after depth k == 0 then .last else .next (after depth k)

/-- A stretch before a closing bracket that is not nested. -/
def beforeClose (close : Kind) (depth : Nat) (k : Kind) : Move Nat :=
  if k == .eof || (k == close && depth == 0) then .halt else .next (depthAfter depth k)

theorem untilClose_eq_stretch (close : Kind) (depth : Nat) (a : Ahead) :
    untilClose close depth a = stretch (beforeClose close) depth a := by
  induction a generalizing depth with
  | nil => rfl
  | cons t ts ih =>
    simp only [untilClose, stretch, beforeClose, ih]
    split
    · rfl
    · split <;> rfl

/-- The depth of angle brackets after one more token. -/
def angleDepthAfter (depth : Nat) (k : Kind) : Nat :=
  if k == .lt then depth + 1 else if k == .gt then depth - 1 else depth

theorem typeArguments_cons (depth : Nat) (t : Token) (ts : Ahead) :
    typeArguments depth (t :: ts) =
      if t.isTrivia then typeArguments depth ts
      else if t.kind == .eof then 0
      else if angleDepthAfter depth t.kind == 0 then 1
      else typeArguments (angleDepthAfter depth t.kind) ts + 1 := rfl

theorem typeArguments_eq_stretch (depth : Nat) (a : Ahead) :
    typeArguments depth a = stretch (throughDepth angleDepthAfter) depth a := by
  induction a generalizing depth with
  | nil => rfl
  | cons t ts ih =>
    simp only [typeArguments_cons, stretch, throughDepth, ih]
    split
    · rfl
    · split
      · rfl
      · split <;> rfl

theorem balanced_eq_stretch (depth : Nat) (a : Ahead) :
    (balanced depth a).1 = stretch (throughDepth depthAfter) depth a := by
  induction a generalizing depth with
  | nil => rfl
  | cons t ts ih =>
    simp only [balanced, stretch, throughDepth, ← ih]
    split
    · rfl
    · split
      · rfl
      · split <;> rfl

section

variable {step : σ → Kind → Move σ} {s : σ}

theorem stretch_of_agree (hjoin : ∀ s k, k.isJoin = true → step s k ≠ .halt) {a b : Ahead}
    (h : Agree a b) (ha : stretch step s a = 0) : stretch step s b = 0 := by
  induction h with
  | nil => rfl
  | @join t t' a b ht hs =>
    have htr := Kind.isTrivia_of_isJoin ht
    have := hjoin s t.kind ht
    simp only [stretch, Token.isTrivia, htr, Bool.false_eq_true, if_false] at ha
    split at ha <;> simp_all
  | @cons t t' a b hl h ih =>
    simp only [stretch, ← isTrivia_eq_of_leaf_eq hl, ← kind_eq_of_leaf_eq hl] at ha ⊢
    split at ha
    · rename_i ht
      simpa only [ht, if_true] using ih ha
    · rename_i ht
      simp only [ht, Bool.false_eq_true, if_false]
      split at ha <;> simp_all

theorem stretch_eq_zero (heof : ∀ s, step s .eof = .halt) {a : Ahead}
    (h : bumpLength (stretch step s a) a = 0) : stretch step s a = 0 := by
  cases a with
  | nil => rfl
  | cons t ts =>
    cases hn : stretch step s (t :: ts) with
    | zero => rfl
    | succ n =>
      rw [hn, bumpLength] at h
      split at h
      · omega
      · rename_i ht
        split at h
        · rename_i he
          simp [stretch, ht, beq_iff_eq.1 he, heof] at hn
        · omega

/-- A stretch that is taken ends where it ended, if what follows is no part of it. -/
theorem stretch_append (heof : ∀ s, step s .eof = .halt) {a b : Ahead}
    (h : ∀ s, stretch step s a = 0 → stretch step s b = 0) {ts us : List Token}
    (hl : ts.map Token.leaf = us.map Token.leaf)
    (hf : bumpLength (stretch step s (ts ++ a)) (ts ++ a) = ts.length) :
    stretch step s (us ++ b) = stretch step s (ts ++ a) := by
  induction ts generalizing s us with
  | nil =>
    obtain rfl : us = [] := by simpa using hl.symm
    have ha := stretch_eq_zero heof hf
    exact (h s ha).trans ha.symm
  | cons t ts ih =>
    cases us with
    | nil => simp at hl
    | cons u us =>
      obtain ⟨htu, hl⟩ := List.cons.inj hl
      simp only [List.cons_append, stretch, ← isTrivia_eq_of_leaf_eq htu,
        ← kind_eq_of_leaf_eq htu] at hf ⊢
      by_cases ht : t.isTrivia = true
      · simp only [ht, if_true] at hf ⊢
        refine ih hl ?_
        cases hn : stretch step s (ts ++ a) with
        | zero => simp [hn, bumpLength] at hf
        | succ n =>
          rw [hn, bumpLength_of_isTrivia ht] at hf
          simpa using hf
      · simp only [ht, Bool.false_eq_true, if_false] at hf ⊢
        cases hs : step s t.kind with
        | halt | last => rfl
        | next s' =>
          have he : (t.kind == .eof) = false := by
            rw [beq_eq_false_iff_ne]
            rintro he
            rw [he, heof] at hs
            cases hs
          simp only [hs, bumpLength, ht, he, Bool.false_eq_true, if_false,
            List.length_cons] at hf
          have hts : bumpLength (stretch step s' (ts ++ a)) (ts ++ a) = ts.length := by omega
          simp only [ih hl hts]

theorem keepsCount_stretch (heof : ∀ s, step s .eof = .halt) {a b : Ahead}
    (hbump : ∀ n, bumpLength n a = 0 → bumpLength n b = 0)
    (h : ∀ s, stretch step s a = 0 → stretch step s b = 0) (s : σ) :
    KeepsCount (fun a => bumpLength (stretch step s a) a) a b := by
  intro ts us hl hf
  simp only [stretch_append heof h hl hf]
  exact keepsCount_bump hbump _ hl hf

theorem stableCount_stretch (heof : ∀ s, step s .eof = .halt)
    (hjoin : ∀ s k, k.isJoin = true → step s k ≠ .halt) (s : σ) :
    StableCount fun a => bumpLength (stretch step s a) a :=
  fun _ _ _ _ hl h => keepsCount_stretch heof (fun _ => bumpLength_of_agree h)
    (fun _ => stretch_of_agree hjoin h) s hl

end

theorem stableCount_untilClose {close : Kind} (hclose : close.isJoin = false) (depth : Nat) :
    StableCount fun a => bumpLength (untilClose close depth a) a := by
  simp only [untilClose_eq_stretch]
  refine stableCount_stretch (fun _ => rfl) (fun s k hk => ?_) depth
  have hne : (k == close) = false := by
    rw [beq_eq_false_iff_ne]
    rintro rfl
    rw [hclose] at hk
    cases hk
  rcases Kind.isJoin_cases hk with rfl | rfl | rfl | rfl <;> simp [beforeClose, hne]

theorem throughDepth_ne_halt (after : Nat → Kind → Nat) (depth : Nat) {k : Kind}
    (hk : k.isJoin = true) : throughDepth after depth k ≠ .halt := by
  have he : (k == .eof) = false := by
    rcases Kind.isJoin_cases hk with rfl | rfl | rfl | rfl <;> rfl
  simp only [throughDepth, he, Bool.false_eq_true, if_false]
  split <;> simp

theorem stableCount_typeArguments (depth : Nat) :
    StableCount fun a => bumpLength (typeArguments depth a) a := by
  simp only [typeArguments_eq_stretch]
  exact stableCount_stretch (fun _ => rfl) (fun _ _ => throughDepth_ne_halt _ _) depth

theorem stableCount_balanced (depth : Nat) :
    StableCount fun a => bumpLength (balanced depth a).1 a := by
  simp only [balanced_eq_stretch]
  exact stableCount_stretch (fun _ => rfl) (fun _ _ => throughDepth_ne_halt _ _) depth

theorem balanced_fst_pos {depth : Nat} {a : Ahead} (h : (balanced depth a).2 = true) :
    0 < (balanced depth a).1 := by
  induction a generalizing depth with
  | nil => cases h
  | cons t ts ih =>
    simp only [balanced] at h ⊢
    split at h
    · rename_i ht
      simpa only [ht, if_true] using ih h
    · rename_i ht
      simp only [ht, Bool.false_eq_true, if_false]
      split at h
      · cases h
      · rename_i he
        simp only [he, Bool.false_eq_true, if_false]
        split <;> simp

/-- A bracketed group that is taken is closed, whatever follows. -/
theorem closed_append {depth : Nat} {ts us : List Token} {a b : Ahead}
    (hl : ts.map Token.leaf = us.map Token.leaf) (h : (balanced depth (ts ++ a)).2 = true)
    (hf : bumpLength (balanced depth (ts ++ a)).1 (ts ++ a) = ts.length) :
    (balanced depth (us ++ b)).2 = true := by
  induction ts generalizing depth us with
  | nil =>
    have hz := hf
    simp only [List.nil_append, List.length_nil, balanced_eq_stretch] at hz
    have := stretch_eq_zero (fun _ => rfl) hz
    rw [← balanced_eq_stretch] at this
    have := balanced_fst_pos h
    simp only [List.nil_append] at this
    omega
  | cons t ts ih =>
    cases us with
    | nil => simp at hl
    | cons u us =>
      obtain ⟨htu, hl⟩ := List.cons.inj hl
      simp only [List.cons_append, balanced, ← isTrivia_eq_of_leaf_eq htu,
        ← kind_eq_of_leaf_eq htu] at h hf ⊢
      by_cases ht : t.isTrivia = true
      · simp only [ht, if_true] at h hf ⊢
        refine ih hl h ?_
        cases hn : (balanced depth (ts ++ a)).1 with
        | zero => simp [hn, bumpLength] at hf
        | succ n =>
          rw [hn, bumpLength_of_isTrivia ht] at hf
          simpa using hf
      · simp only [ht, Bool.false_eq_true, if_false] at h hf ⊢
        split at h
        · cases h
        · rename_i he
          simp only [he, Bool.false_eq_true, if_false] at hf ⊢
          split at h
          · rename_i hd
            simp only [hd, if_true]
          · rename_i hd
            simp only [hd, Bool.false_eq_true, if_false, bumpLength, ht, he,
              List.length_cons] at hf ⊢
            exact ih hl h (by omega)

/-! ## Casts -/

/-- The same kinds up to one that joins. -/
inductive KindsAgree : List Kind → List Kind → Prop
  | nil : KindsAgree [] []
  | join {k k' : Kind} {ks ks' : List Kind} (hk : k.isJoin = true) (hs : Kind.Same k k') :
    KindsAgree (k :: ks) (k' :: ks')
  | cons {k : Kind} {ks ks' : List Kind} (h : KindsAgree ks ks') : KindsAgree (k :: ks) (k :: ks')

theorem Agree.kindsAgree {a b : Ahead} (h : Agree a b) :
    KindsAgree (Grammar.Expressions.significantKinds a)
      (Grammar.Expressions.significantKinds b) := by
  induction h with
  | nil => exact .nil
  | @join t t' a b ht hs =>
    have htr := Kind.isTrivia_of_isJoin ht
    have htr' := Kind.isTrivia_of_isJoin (hs.isJoin.trans ht)
    simp only [Grammar.Expressions.significantKinds, List.filter_cons, Token.isTrivia, htr, htr',
      Bool.not_false, if_true, List.map_cons]
    exact .join ht hs
  | @cons t t' a b hl h ih =>
    simp only [Grammar.Expressions.significantKinds, List.filter_cons,
      ← isTrivia_eq_of_leaf_eq hl] at ih ⊢
    split
    · rw [List.map_cons, List.map_cons, ← kind_eq_of_leaf_eq hl]
      exact .cons ih
    · exact ih

section

open Grammar.Expressions

theorem beq_eq_false_of_isJoin {k j : Kind} (hk : k.isJoin = true) (hj : j.isJoin = false) :
    (k == j) = false := by
  rw [beq_eq_false_iff_ne]
  rintro rfl
  simp [hk] at hj

theorem dropPairs_of_not {first second a b : Kind} {ks : List Kind} (h : (a == first && b == second) = false) :
    dropPairs first second (a :: b :: ks) = a :: b :: ks := by
  rw [dropPairs, h]
  rfl

theorem dropPairs_join {first second k : Kind} (hk : k.isJoin = true) (hf : first.isJoin = false)
    (ks : List Kind) : dropPairs first second (k :: ks) = k :: ks := by
  cases ks with
  | nil => rfl
  | cons => exact dropPairs_of_not (by simp [beq_eq_false_of_isJoin hk hf])

theorem KindsAgree.dropPairs (first second : Kind) (hf : first.isJoin = false)
    (hs : second.isJoin = false) {ks ks' : List Kind} (h : KindsAgree ks ks') :
    KindsAgree (dropPairs first second ks) (dropPairs first second ks') := by
  induction ks using dropPairs.induct first second generalizing ks' with
  | case1 a b ks hab ih =>
    obtain ⟨ha, hb⟩ : a = first ∧ b = second := by simpa using hab
    subst ha hb
    cases h with
    | join hk => simp [hk] at hf
    | cons h => cases h with
      | join hk => simp [hk] at hs
      | cons h => simpa [Grammar.Expressions.dropPairs] using ih h
  | case2 a b ks hab =>
    have hab : (a == first && b == second) = false := by simpa using hab
    rw [dropPairs_of_not hab]
    cases h with
    | join hk hsame =>
      rw [dropPairs_join (hsame.isJoin.trans hk) hf]
      exact .join hk hsame
    | cons h => cases h with
      | join hk hsame =>
        rw [dropPairs_of_not (by
          simp [beq_eq_false_of_isJoin (hsame.isJoin.trans hk) hs])]
        exact .cons (.join hk hsame)
      | cons h =>
        rw [dropPairs_of_not hab]
        exact .cons (.cons h)
  | case3 ks hks =>
    cases h with
    | nil => exact .nil
    | @join k k' ks ks' hk hsame =>
      rw [dropPairs_join hk hf, dropPairs_join (hsame.isJoin.trans hk) hf]
      exact .join hk hsame
    | @cons k ks ks' h =>
      cases h with
      | nil => exact .cons .nil
      | join => exact absurd rfl (hks _ _ _)
      | cons => exact absurd rfl (hks _ _ _)

/-- The kinds after the type of a cast: the closing parenthesis and the start of an operand. -/
def endsCast : List Kind → Bool
  | .rParen :: k :: _ => isCastOperandStart k
  | _ => false

theorem KindsAgree.endsCast_eq {ks ks' : List Kind} (h : KindsAgree ks ks') :
    endsCast ks' = endsCast ks := by
  cases h with
  | nil => rfl
  | @join k k' ks ks' hk hs =>
    rcases Kind.isJoin_cases hk with rfl | rfl | rfl | rfl <;>
      rcases Kind.isJoin_cases (hs.isJoin.trans hk) with rfl | rfl | rfl | rfl <;> rfl
  | @cons k ks ks' h =>
    cases h with
    | nil => rfl
    | @join j j' ks ks' hj hs =>
      have hstart : isCastOperandStart j' = isCastOperandStart j := hs.apply rfl rfl
      cases k <;> first | rfl | exact hstart
    | @cons j ks ks' h => cases k <;> rfl

/-- What a cast shows of the kinds after its opening parenthesis and its name. -/
def castEnd (ks : List Kind) : Bool :=
  endsCast (dropPairs .lBracket .rBracket (dropPairs .dot .ident ks))

theorem KindsAgree.castEnd_eq {ks ks' : List Kind} (h : KindsAgree ks ks') :
    castEnd ks' = castEnd ks :=
  ((h.dropPairs .dot .ident rfl rfl).dropPairs .lBracket .rBracket rfl rfl).endsCast_eq

end

theorem significantKinds_afterTrivia (a : Ahead) :
    Grammar.Expressions.significantKinds a.afterTrivia =
      Grammar.Expressions.significantKinds a := by
  induction a with
  | nil => rfl
  | cons u us ih =>
    unfold afterTrivia at ih ⊢
    by_cases hu : u.isTrivia = true
    · rw [List.dropWhile_cons_of_pos hu, ih]
      simp [Grammar.Expressions.significantKinds, hu]
    · rw [List.dropWhile_cons_of_neg hu]

theorem significantKinds_of_afterTrivia {a c : Ahead} {t : Token} (h : a.afterTrivia = t :: c)
    (ht : t.isTrivia = false) :
    Grammar.Expressions.significantKinds a = t.kind :: Grammar.Expressions.significantKinds c := by
  rw [← significantKinds_afterTrivia, h]
  simp [Grammar.Expressions.significantKinds, ht]

theorem looksLikeType_of_leaf_eq {t t' : Token} (h : t.leaf = t'.leaf) :
    Grammar.Expressions.looksLikeType t' = Grammar.Expressions.looksLikeType t := by
  simp only [Grammar.Expressions.looksLikeType, ← kind_eq_of_leaf_eq h, ← text_eq_of_leaf_eq h]

theorem looksLikeType_of_isJoin {t : Token} (h : t.kind.isJoin = true) :
    Grammar.Expressions.looksLikeType t = false := by
  rcases Kind.isJoin_cases h with h | h | h | h <;>
    simp [Grammar.Expressions.looksLikeType, h]

/-- What comes after the opening parenthesis of a cast. -/
def castRest (a : Ahead) : Bool :=
  a.currentToken?.any Grammar.Expressions.looksLikeType &&
    castEnd ((Grammar.Expressions.significantKinds a).drop 1)

theorem stable_castRest : Stable castRest := by
  intro a b h
  unfold castRest
  rcases h.current_cases with ⟨ha, hb⟩ | ⟨t, t', ha, hb, ht, hs⟩ | ⟨t, t', c, d, ha, hb, ht, hl, h⟩
  · rw [ha, hb]
    rfl
  · simp [ha, hb, looksLikeType_of_isJoin ht, looksLikeType_of_isJoin (hs.isJoin.trans ht)]
  · have ht' : t'.isTrivia = false := isTrivia_eq_of_leaf_eq hl ▸ ht
    rw [currentToken?_of_afterTrivia ha ht, currentToken?_of_afterTrivia hb ht',
      significantKinds_of_afterTrivia ha ht, significantKinds_of_afterTrivia hb ht']
    simp only [Option.any_some, looksLikeType_of_leaf_eq hl, List.drop_succ_cons, List.drop_zero,
      h.kindsAgree.castEnd_eq]

theorem atCast_of_afterTrivia {a c : Ahead} {t : Token} (h : a.afterTrivia = t :: c)
    (ht : t.isTrivia = false) :
    Grammar.Expressions.atCast a = (a.isAt .lParen && castRest c) := by
  have htail : (Grammar.Expressions.significantKinds a).drop 2 =
      (Grammar.Expressions.significantKinds c).drop 1 := by
    rw [significantKinds_of_afterTrivia h ht, List.drop_succ_cons]
  rw [castRest, currentToken?, ← nth_succ_of_afterTrivia h ht, ← htail, ← Bool.and_assoc]
  rfl

/-- Whether a cast comes next is decided by tokens before any that joins. -/
theorem stable_atCast : Stable Grammar.Expressions.atCast := by
  intro a b h
  have hparen : b.isAt .lParen = a.isAt .lParen := Stable.isAt rfl h
  cases hp : a.isAt .lParen with
  | false =>
    rw [hp] at hparen
    simp [Grammar.Expressions.atCast, hp, hparen]
  | true =>
    have hcur : a.current = .lParen := by simpa [isAt] using hp
    rcases h.past (by rw [hcur]; rfl) with ⟨ha, -⟩ | ⟨t, t', c, d, ha, hb, ht, ht', -, h⟩
    · rw [currentToken?] at ha
      simp [Ahead.current, nth, ha] at hcur
    · rw [atCast_of_afterTrivia ha ht, atCast_of_afterTrivia hb ht', hparen, stable_castRest h]

end Ahead

end RuleLang
