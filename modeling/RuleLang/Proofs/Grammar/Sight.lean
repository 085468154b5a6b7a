import RuleLang.Proofs.Grammar.Agree
import RuleLang.Proofs.Lexer.Concat

/-!
# What decisions see

A decision of the grammar sees the next two significant tokens, the tokens of a cast, or a stretch of
raw tokens. So it is the same for tokens that were moved, and it does not tell the end of the input
from the first keyword of a declaration, unless a raw stretch runs up to there.

## Main definitions

* `Ahead.Sees` — decisions see the same of two token lists.

## Main statements

* `Ahead.sees_moved` — tokens that were moved are seen alike.
* `Ahead.sees_past` — what comes after an unfinished declaration is not seen.
-/

namespace RuleLang

/-- The keywords that open a declaration. -/
def Kind.declarationStarts : List Kind :=
  [.ruleKw, .functionKw, .globalKw, .queryKw, .declareKw, .importKw, .packageKw]

theorem Kind.mem_declarationStarts {k : Kind} (h : k.isDeclarationStart = true) :
    k ∈ declarationStarts := by
  cases k <;> first | decide | cases h

/-- A declaration is over where one of these kinds comes next. -/
def Kind.Closes (k : Kind) : Prop :=
  k ∈ Kind.eof :: declarationStarts

namespace Kind.Closes

variable {k : Kind}

theorem eof : Closes .eof :=
  List.mem_cons_self

theorem of_start (h : k.isDeclarationStart = true) : Closes k :=
  List.mem_cons_of_mem _ (mem_declarationStarts h)

theorem isTrivia (h : Closes k) : k.isTrivia = false := by
  have hall : ∀ j ∈ Kind.eof :: declarationStarts, j.isTrivia = false := by decide
  exact hall k h

end Kind.Closes

namespace Ahead

variable {w : Ahead} {x : Token} {xs : Ahead}

theorem current_eq_head {t : Token} (ht : t.isTrivia = false) (ts : Ahead) :
    current (t :: ts) = t.kind := by
  simp [current, nth, nthToken?, ht]

theorem current_cons_trivia {t : Token} (ht : t.isTrivia = true) (ts : Ahead) :
    current (t :: ts) = current ts := by
  simp [current, nth, nthToken?, ht]

theorem current_after_trivia {t : Token} (ht : t.isTrivia = true) (n : Nat) (ts : Ahead) :
    current (after n (t :: ts)) = current (after n ts) := by
  cases n with
  | zero => exact current_cons_trivia ht ts
  | succ n => simp [after, afterTrivia, ht]

theorem after_succ_cons {t : Token} (ht : t.isTrivia = false) (he : t.kind ≠ .eof) (n : Nat)
    (ts : Ahead) : after (n + 1) (t :: ts) = after n ts := by
  simp [after, afterTrivia, afterToken, ht, he]

/-! ## Tokens that were moved -/

section Moved

variable {bytes lines : Nat} (a : Ahead)

theorem nthToken?_moved (n : Nat) :
    nthToken? n (a.map (Token.moved bytes lines)) =
      (nthToken? n a).map (Token.moved bytes lines) := by
  induction a generalizing n with
  | nil => rfl
  | cons t ts ih =>
    simp only [List.map_cons, nthToken?, Token.isTrivia_moved, ih]
    split
    · rfl
    · cases n <;> rfl

@[simp] theorem nth_moved (n : Nat) : nth (a.map (Token.moved bytes lines)) n = a.nth n := by
  simp [nth, nthToken?_moved, Function.comp_def]

@[simp] theorem current_moved : current (a.map (Token.moved bytes lines)) = a.current :=
  nth_moved a 0

theorem adjacent_moved : adjacent (a.map (Token.moved bytes lines)) = a.adjacent := by
  cases a <;> rfl

theorem stretch_moved {σ : Type} (step : σ → Kind → Move σ) (s : σ) :
    stretch step s (a.map (Token.moved bytes lines)) = stretch step s a := by
  induction a generalizing s with
  | nil => rfl
  | cons t ts ih =>
    simp only [List.map_cons, stretch, Token.isTrivia_moved, Token.kind_moved, ih]

theorem countUntil_moved (stops : Kind → Bool) :
    countUntil stops (a.map (Token.moved bytes lines)) = countUntil stops a := by
  induction a with
  | nil => rfl
  | cons t ts ih =>
    simp only [List.map_cons, countUntil, Token.isTrivia_moved, Token.kind_moved, ih]

theorem balanced_moved (depth : Nat) :
    balanced depth (a.map (Token.moved bytes lines)) = balanced depth a := by
  induction a generalizing depth with
  | nil => rfl
  | cons t ts ih =>
    simp only [List.map_cons, balanced, Token.isTrivia_moved, Token.kind_moved, ih]

theorem beforeCloseParen_moved (depth : Nat) :
    beforeCloseParen depth (a.map (Token.moved bytes lines)) = beforeCloseParen depth a := by
  induction a generalizing depth with
  | nil => rfl
  | cons t ts ih =>
    simp only [List.map_cons, beforeCloseParen, Token.isTrivia_moved, Token.kind_moved, ih]

theorem atCast_moved :
    Grammar.Expressions.atCast (a.map (Token.moved bytes lines)) =
      Grammar.Expressions.atCast a := by
  have hkinds : Grammar.Expressions.significantKinds (a.map (Token.moved bytes lines)) =
      Grammar.Expressions.significantKinds a := by
    simp [Grammar.Expressions.significantKinds, List.filter_map, Function.comp_def]
  have htype (t : Token) : Grammar.Expressions.looksLikeType (t.moved bytes lines) =
      Grammar.Expressions.looksLikeType t := rfl
  simp [Grammar.Expressions.atCast, hkinds, isAt, nthToken?_moved, Option.any_map,
    htype]

end Moved

/-! ## What comes after a declaration -/

theorem exists_currentToken? (hw : w.current ≠ .eof) :
    ∃ t c, w.afterTrivia = t :: c ∧ t.isTrivia = false ∧ w.currentToken? = some t := by
  obtain ⟨t, c, h, -, ht⟩ := afterTrivia_eq_cons hw
  exact ⟨t, c, h, ht, currentToken?_of_afterTrivia h ht⟩

theorem nthToken?_append {n : Nat} {t : Token} (h : nthToken? n w = some t) (b : Ahead) :
    nthToken? n (w ++ b) = some t := by
  induction w generalizing n with
  | nil => cases h
  | cons u us ih =>
    rw [List.cons_append]
    simp only [nthToken?] at h ⊢
    split at h
    · rename_i hu
      rw [if_pos hu]
      exact ih h
    · rename_i hu
      rw [if_neg hu]
      cases n with
      | zero => exact h
      | succ n => exact ih h

theorem nthToken?_append_cons (hx : x.isTrivia = false) (h : nthToken? 0 w = none) :
    nthToken? 0 (w ++ x :: xs) = some x := by
  induction w with
  | nil => simp [nthToken?, hx]
  | cons u us ih =>
    rw [List.cons_append]
    simp only [nthToken?] at h ⊢
    split at h
    · rename_i hu
      rw [if_pos hu]
      exact ih h
    · cases h

theorem afterTrivia_append {t : Token} {c : Ahead} (h : w.afterTrivia = t :: c) (b : Ahead) :
    afterTrivia (w ++ b) = t :: (c ++ b) := by
  rw [afterTrivia, List.dropWhile_append]
  simp only [afterTrivia] at h
  simp [h]

theorem currentToken?_append (hw : w.current ≠ .eof) (b : Ahead) :
    currentToken? (w ++ b) = w.currentToken? := by
  obtain ⟨t, -, -, -, ht⟩ := exists_currentToken? hw
  rw [ht]
  exact nthToken?_append ht b

@[simp] theorem current_append (hw : w.current ≠ .eof) (b : Ahead) :
    current (w ++ b) = w.current := by
  have := currentToken?_append hw b
  simp only [currentToken?] at this
  rw [current, nth, this]
  rfl

/-- The second token is seen, or the first is the last one of the declaration. -/
theorem nth_one_append (hw : w.current ≠ .eof) (hx : x.kind.Closes) :
    nth (w ++ x :: xs) 1 = w.nth 1 ∨ w.nth 1 = .eof ∧ nth (w ++ x :: xs) 1 = x.kind := by
  cases h : nthToken? 1 w with
  | some t =>
    left
    rw [nth, nth, h, nthToken?_append h]
  | none =>
    right
    obtain ⟨t, c, hc, ht, -⟩ := exists_currentToken? hw
    have hc' := afterTrivia_append hc (x :: xs)
    have hnone : nthToken? 0 c = none := (nth_succ_of_afterTrivia hc ht 0).symm.trans h
    have hsome : nthToken? 1 (w ++ x :: xs) = some x :=
      (nth_succ_of_afterTrivia hc' ht 0).trans (nthToken?_append_cons hx.isTrivia hnone)
    simp [nth, h, hsome]

theorem adjacent_append (hw : w.current ≠ .eof) (b : Ahead) :
    adjacent (w ++ b) = w.adjacent := by
  cases w with
  | nil => exact absurd rfl hw
  | cons t ts => rfl

theorem countUntil_append {stops : Kind → Bool} (hx : x.isTrivia = false)
    (hs : stops x.kind = true) : countUntil stops (w ++ x :: xs) = countUntil stops w := by
  induction w with
  | nil => simp [countUntil, hx, hs]
  | cons t ts ih => simp only [List.cons_append, countUntil, ih]

theorem beforeCloseParen_append {depth : Nat} (hx : x.kind.Closes) :
    beforeCloseParen depth (w ++ x :: xs) = beforeCloseParen depth w := by
  induction w generalizing depth with
  | nil =>
    have hall : ∀ k ∈ Kind.eof :: Kind.declarationStarts, (k == .rParen) = false ∧
        (k == .eof || k == .thenKw || k.isDeclarationStart) = true := by decide
    obtain ⟨hparen, hstop⟩ := hall x.kind hx
    have htrivia : x.isTrivia = false := hx.isTrivia
    simp [beforeCloseParen, htrivia, hparen, hstop]
  | cons t ts ih => simp only [List.cons_append, beforeCloseParen, ih]

/-- A stretch ends before what comes after, or it reaches up to the end of the input. -/
theorem stretch_append_or {σ : Type} {step : σ → Kind → Move σ}
    (heof : ∀ s, step s .eof = .halt) (s : σ) (w : Ahead) :
    (∀ b c, stretch step s (w ++ b) = stretch step s (w ++ c)) ∨
      ∀ e : Token, e.kind = .eof →
        current (after (stretch step s (w ++ [e])) (w ++ [e])) = .eof := by
  induction w generalizing s with
  | nil =>
    right
    intro e he
    have htrivia := isTrivia_of_kind_eof he
    simp [stretch, htrivia, he, heof, after, current_eq_head]
  | cons t ts ih =>
    by_cases ht : t.isTrivia = true
    · rcases ih s with h | h
      · left
        intro b c
        simpa [stretch, ht] using h b c
      · right
        intro e he
        rw [List.cons_append, current_after_trivia ht]
        simpa [stretch, ht] using h e he
    · rw [Bool.not_eq_true] at ht
      cases hs : step s t.kind with
      | halt =>
        left
        intro b c
        simp [stretch, ht, hs]
      | last =>
        left
        intro b c
        simp [stretch, ht, hs]
      | next s' =>
        have he : t.kind ≠ .eof := by
          intro he
          rw [he, heof] at hs
          cases hs
        rcases ih s' with h | h
        · left
          intro b c
          simp [stretch, ht, hs, h b c]
        · right
          intro e hend
          have := h e hend
          simp only [List.cons_append, stretch, ht, hs, Bool.false_eq_true, if_false]
          rwa [after_succ_cons ht he]

/-- Whether a bracketed group is closed is seen with its last token. -/
theorem balanced_snd_eq {depth : Nat} {w : Ahead}
    (h : ∀ b c, (balanced depth (w ++ b)).1 = (balanced depth (w ++ c)).1) (b c : Ahead) :
    (balanced depth (w ++ b)).2 = (balanced depth (w ++ c)).2 := by
  induction w generalizing depth with
  | nil =>
    have hpos := h [⟨.lParen, [], .origin⟩] []
    cases depth <;> simp [balanced, depthAfter, isOpening, Token.isTrivia, Kind.isTrivia] at hpos
  | cons t ts ih =>
    simp only [List.cons_append, balanced] at h ⊢
    split
    · rename_i ht
      simp only [ht, if_true] at h
      exact ih h
    · rename_i ht
      simp only [ht, Bool.false_eq_true, if_false] at h
      split
      · rfl
      · rename_i he
        simp only [he, Bool.false_eq_true, if_false] at h
        split
        · rfl
        · rename_i hd
          simp only [hd, Bool.false_eq_true, if_false] at h
          exact ih fun b c => Nat.succ.inj (h b c)

theorem balanced_append_or (depth : Nat) (w : Ahead) :
    (∀ b c, balanced depth (w ++ b) = balanced depth (w ++ c)) ∨
      ∀ e : Token, e.kind = .eof →
        current (after (balanced depth (w ++ [e])).1 (w ++ [e])) = .eof := by
  simp only [balanced_eq_stretch]
  refine (stretch_append_or (fun _ => rfl) depth w).imp_left fun h b c => ?_
  simp only [← balanced_eq_stretch] at h
  exact Prod.ext (h b c) (balanced_snd_eq h b c)

/-! ### Casts -/

section

open Grammar.Expressions

theorem dropPairs_append {first second k : Kind} (hf : (k == first) = false)
    (hs : (k == second) = false) (ks rest : List Kind) :
    dropPairs first second (ks ++ k :: rest) = dropPairs first second ks ++ k :: rest := by
  induction ks using dropPairs.induct first second with
  | case1 a b ks hab ih => simpa [dropPairs, hab] using ih
  | case2 a b ks hab =>
    have hab : (a == first && b == second) = false := by simpa using hab
    rw [dropPairs_of_not hab]
    exact dropPairs_of_not hab
  | case3 ks hks =>
    cases ks with
    | nil =>
      cases rest with
      | nil => rfl
      | cons j rest => exact dropPairs_of_not (by simp [hf])
    | cons a ks =>
      cases ks with
      | nil => exact dropPairs_of_not (by simp [hs])
      | cons b ks => exact absurd rfl (hks a b ks)

theorem castEnd_append {k : Kind} (hk : k.Closes) (ks rest : List Kind) :
    castEnd (ks ++ k :: rest) = castEnd ks := by
  have hall : ∀ k ∈ Kind.eof :: Kind.declarationStarts, (k == .dot) = false ∧
      (k == .ident) = false ∧ (k == .lBracket) = false ∧ (k == .rBracket) = false ∧
      (k == .rParen) = false ∧ isCastOperandStart k = false := by decide
  obtain ⟨hdot, hident, hleft, hright, hparen, hstart⟩ := hall k hk
  rw [castEnd, dropPairs_append hdot hident, dropPairs_append hleft hright, castEnd]
  generalize dropPairs .lBracket .rBracket (dropPairs .dot .ident ks) = js
  cases js with
  | nil => cases k <;> first | rfl | cases hparen
  | cons a js =>
    cases js with
    | nil => cases a <;> first | rfl | exact hstart
    | cons b js => cases a <;> rfl

theorem castRest_append (hx : x.kind.Closes) : castRest (w ++ x :: xs) = castRest w := by
  have hall : ∀ k ∈ Kind.eof :: Kind.declarationStarts, (k == .ident) = false := by decide
  have htrivia : x.isTrivia = false := hx.isTrivia
  cases h : w.currentToken? with
  | none =>
    have hcur : currentToken? (w ++ x :: xs) = some x := nthToken?_append_cons htrivia h
    simp [castRest, h, hcur, looksLikeType, hall x.kind hx]
  | some t =>
    have hcur : currentToken? (w ++ x :: xs) = some t := nthToken?_append h _
    have hkinds : significantKinds (w ++ x :: xs) =
        significantKinds w ++ x.kind :: significantKinds xs := by
      simp [significantKinds, htrivia]
    have hne : significantKinds w ≠ [] := by
      simp only [significantKinds, ne_eq, List.map_eq_nil_iff, List.filter_eq_nil_iff]
      intro hall
      clear hcur hkinds
      induction w with
      | nil => cases h
      | cons u us ih =>
        have hu : u.isTrivia = true := by simpa using hall u List.mem_cons_self
        refine ih ?_ fun v hv => hall v (List.mem_cons_of_mem u hv)
        simpa [currentToken?, nthToken?, hu] using h
    obtain ⟨k, ks, hks⟩ := List.exists_cons_of_ne_nil hne
    simp only [castRest, h, hcur, hkinds, hks, List.cons_append, List.drop_succ_cons,
      List.drop_zero, castEnd_append hx]

theorem atCast_append (hw : w.current ≠ .eof) (hx : x.kind.Closes) :
    atCast (w ++ x :: xs) = atCast w := by
  obtain ⟨t, c, hc, ht, -⟩ := exists_currentToken? hw
  have hparen : isAt (w ++ x :: xs) .lParen = w.isAt .lParen := by
    rw [isAt, isAt, current_append hw]
  rw [atCast_of_afterTrivia (afterTrivia_append hc _) ht, atCast_of_afterTrivia hc ht,
    castRest_append hx, hparen]

end

/-! ## Decisions -/

/-- Decisions see the same of two token lists. If it need not be exactly the same, the second list
may go on with a declaration where the first one ends. -/
structure Sees (exact : Prop) (a b : Ahead) : Prop where
  current : b.current = a.current
  leaf : b.currentToken?.map Token.leaf = a.currentToken?.map Token.leaf
  next : b.nth 1 = a.nth 1 ∨ ¬exact ∧ a.nth 1 = .eof ∧ (b.nth 1).isDeclarationStart = true
  adjacent : b.adjacent = a.adjacent
  atCast : Grammar.Expressions.atCast b = Grammar.Expressions.atCast a
  countUntil {stops : Kind → Bool}
    (hs : ∀ k ∈ Kind.eof :: Kind.declarationStarts, stops k = true) :
    b.countUntil stops = a.countUntil stops
  beforeCloseParen : b.beforeCloseParen 0 = a.beforeCloseParen 0
  balanced : b.balanced 0 = a.balanced 0 ∨
    ¬exact ∧ (a.after (a.balanced 0).1).current = .eof
  untilClose (close : Kind) : b.untilClose close 0 = a.untilClose close 0 ∨
    ¬exact ∧ (a.after (a.untilClose close 0)).current = .eof
  typeArguments : b.typeArguments 0 = a.typeArguments 0 ∨
    ¬exact ∧ (a.after (a.typeArguments 0)).current = .eof

/-- Tokens that were moved are seen alike. -/
theorem sees_moved (exact : Prop) (a : Ahead) (bytes lines : Nat) :
    Sees exact a (a.map (Token.moved bytes lines)) where
  current := current_moved a
  leaf := by simp [currentToken?, nthToken?_moved, Function.comp_def]
  next := .inl (nth_moved a 1)
  adjacent := adjacent_moved a
  atCast := atCast_moved a
  countUntil _ := countUntil_moved a _
  beforeCloseParen := beforeCloseParen_moved a 0
  balanced := .inl (balanced_moved a 0)
  untilClose close := .inl (by rw [untilClose_eq_stretch, stretch_moved, ← untilClose_eq_stretch])
  typeArguments := .inl (by rw [typeArguments_eq_stretch, stretch_moved, ← typeArguments_eq_stretch])

/-- What comes after an unfinished declaration is not seen. -/
theorem sees_past {exact : Prop} (hexact : ¬exact) {e : Token} (he : e.kind = .eof)
    (hx : x.kind.isDeclarationStart = true) (hw : w.current ≠ .eof) :
    Sees exact (w ++ [e]) (w ++ x :: xs) := by
  have hend : e.kind.Closes := he ▸ .eof
  have hstart : x.kind.Closes := .of_start hx
  have htrivia : e.isTrivia = false ∧ x.isTrivia = false := ⟨hend.isTrivia, hstart.isTrivia⟩
  have hstretch {σ : Type} {step : σ → Kind → Move σ} (heof : ∀ s, step s .eof = .halt) (s : σ) :
      stretch step s (w ++ x :: xs) = stretch step s (w ++ [e]) ∨
        ¬exact ∧ Ahead.current (after (stretch step s (w ++ [e])) (w ++ [e])) = .eof :=
    (stretch_append_or heof s w).imp (fun h => h _ _) fun h => ⟨hexact, h e he⟩
  refine ⟨?_, ?_, ?_, ?_, ?_, fun hs => ?_, ?_, ?_, fun close => ?_, ?_⟩
  · rw [current_append hw, current_append hw]
  · rw [currentToken?_append hw, currentToken?_append hw]
  · rcases nth_one_append hw hend with h | h <;> rcases nth_one_append hw hstart with h' | h'
    · exact .inl (h'.trans h.symm)
    · exact .inr ⟨hexact, h.trans h'.1, by rw [h'.2]; exact hx⟩
    · exact .inl (by rw [h', h.1, h.2, he])
    · exact .inr ⟨hexact, h.2.trans he, by rw [h'.2]; exact hx⟩
  · rw [adjacent_append hw, adjacent_append hw]
  · rw [atCast_append hw hend, atCast_append hw hstart]
  · rw [countUntil_append htrivia.2 (hs _ hstart), countUntil_append htrivia.1 (hs _ hend)]
  · rw [beforeCloseParen_append hend, beforeCloseParen_append hstart]
  · exact (balanced_append_or 0 w).imp (fun h => h _ _) fun h => ⟨hexact, h e he⟩
  · simp only [untilClose_eq_stretch]
    exact hstretch (fun _ => rfl) 0
  · simp only [typeArguments_eq_stretch]
    exact hstretch (fun _ => rfl) 0

namespace Sees

variable {exact : Prop} {a b : Ahead}

theorem isAt (h : Sees exact a b) (k : Kind) : b.isAt k = a.isAt k := by
  rw [Ahead.isAt, Ahead.isAt, h.current]

theorem atName (h : Sees exact a b) : b.atName = a.atName := by
  rw [Ahead.atName, Ahead.atName, h.current]

/-- A test of the second token that no declaration passes unless the end of the input does. -/
theorem next_eq {α : Type} (h : Sees exact a b) {f : Kind → α}
    (hf : ∀ k ∈ Kind.declarationStarts, f k = f .eof) : f (b.nth 1) = f (a.nth 1) := by
  rcases h.next with h | ⟨-, ha, hb⟩
  · rw [h]
  · rw [ha, hf _ (Kind.mem_declarationStarts hb)]

end Sees

end Ahead

end RuleLang
