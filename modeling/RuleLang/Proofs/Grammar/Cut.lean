import RuleLang.Proofs.Grammar.Carries
import RuleLang.Proofs.Grammar.Spends

/-!
# Tokens cut out of a list

Tokens in the middle of a list, with the end of the input in place of what comes after them. How
much decisions see of both depends on how many significant tokens stand before the cut.

## Main definitions

* `Ahead.Cut` — the same tokens, but the second list ends where the first goes on.

## Main statements

* `Ahead.Cut.seen` — what is seen of a list that is cut.
* `Ahead.Cut.takes` — what is taken before the cut.
-/

namespace RuleLang

open Grammar Grammar.Expressions

namespace Ahead

theorem nth_cons_trivia {t : Token} (ht : t.isTrivia = true) (n : Nat) (ts : Ahead) :
    nth (t :: ts) n = nth ts n := by
  simp [nth, nthToken?, ht]

theorem nth_succ_cons {t : Token} (ht : t.isTrivia = false) (n : Nat) (ts : Ahead) :
    nth (t :: ts) (n + 1) = nth ts n := by
  simp [nth, nthToken?, ht]

theorem nth_eq_leaf (n : Nat) (a : Ahead) :
    a.nth n = (((a.nthToken? n).map Token.leaf).map Leaf.kind).getD .eof := by
  rw [Option.map_map]
  rfl

/-! ## Casts -/

theorem atCast_eq (a : Ahead) : atCast a =
    (a.isAt .lParen && (a.nthToken? 1).any looksLikeType &&
      castEnd ((significantKinds a).drop 2)) := rfl

theorem any_looksLikeType_of_leaf {t t' : Option Token}
    (h : t'.map Token.leaf = t.map Token.leaf) : t'.any looksLikeType = t.any looksLikeType := by
  cases t with
  | none => rw [Option.map_eq_none_iff.1 h]
  | some t =>
    obtain ⟨u, rfl, hu⟩ := Option.map_eq_some_iff.1 h
    exact looksLikeType_of_leaf_eq hu.symm

theorem significantKinds_append (ts us : List Token) :
    significantKinds (ts ++ us) = significantKinds ts ++ significantKinds us := by
  simp [significantKinds]

theorem significantKinds_of_leaf {ts us : List Token} (h : ts.map Token.leaf = us.map Token.leaf) :
    significantKinds us = significantKinds ts := by
  have hkinds (xs : List Token) : significantKinds xs =
      ((xs.map Token.leaf).filter fun l => !l.kind.isTrivia).map Leaf.kind := by
    rw [List.filter_map, List.map_map]
    rfl
  rw [hkinds, hkinds, h]

theorem length_significantKinds {ts : List Token} (hts : ∀ t ∈ ts, t.kind ≠ .eof) :
    (significantKinds ts).length = significant ts := by
  induction ts with
  | nil => rfl
  | cons t ts ih =>
    obtain ⟨ht, hts⟩ := List.forall_mem_cons.1 hts
    cases htrivia : t.isTrivia with
    | true => simpa [significantKinds, significant_cons_trivia, htrivia] using ih hts
    | false => simpa [significantKinds, significant_cons, htrivia, ht] using ih hts

/-- The kinds of the tokens that are taken. -/
theorem Passes.exists_kinds {a b : Ahead} (h : a.Passes b) :
    ∃ ks, significantKinds a = ks ++ significantKinds b ∧
      a.significant = ks.length + b.significant := by
  obtain ⟨ts, rfl, hts⟩ := h
  exact ⟨_, significantKinds_append ts b, by
    rw [significant_append hts, length_significantKinds hts]⟩

/-- The kind of a token that is taken. -/
theorem significantKinds_after_one {a : Ahead} (h : a.current ≠ .eof) :
    significantKinds a = a.current :: significantKinds (a.after 1) := by
  obtain ⟨t, ts, ha, hk, ht⟩ := afterTrivia_eq_cons h
  have he : (t.kind == .eof) = false := by simpa [hk] using h
  have hafter : a.after 1 = ts := by
    simp [after, ha, afterToken, he]
  rw [significantKinds_of_afterTrivia ha ht, hafter, hk]

theorem dropPairs_suffix (first second : Kind) (ks : List Kind) :
    dropPairs first second ks <:+ ks := by
  induction ks using dropPairs.induct first second with
  | case1 a b ks hab ih =>
    rw [dropPairs, if_pos hab]
    exact ih.trans (List.suffix_append [a, b] ks)
  | case2 a b ks hab =>
    rw [dropPairs_of_not (by simpa using hab)]
  | case3 ks hks =>
    cases ks with
    | nil => exact List.suffix_refl _
    | cons a ks => cases ks with
      | nil => exact List.suffix_refl _
      | cons b ks => exact absurd rfl (hks a b ks)

theorem endsCast_paren (js : List Kind) (k : Kind) (rest : List Kind) :
    endsCast (js ++ .rParen :: k :: rest) = endsCast (js ++ [.rParen, k]) := by
  cases js with
  | nil => rfl
  | cons a js => cases js with
    | nil => cases a <;> rfl
    | cons b js => cases a <;> rfl

/-- The end of a cast is seen with its closing parenthesis and the token after it. -/
theorem castEnd_paren (ks : List Kind) (k : Kind) (rest : List Kind) :
    castEnd (ks ++ .rParen :: k :: rest) = castEnd (ks ++ [.rParen, k]) := by
  have hdot : (Kind.rParen == .dot) = false := rfl
  have hident : (Kind.rParen == .ident) = false := rfl
  have hleft : (Kind.rParen == .lBracket) = false := rfl
  have hright : (Kind.rParen == .rBracket) = false := rfl
  rw [castEnd, castEnd, dropPairs_append hdot hident, dropPairs_append hdot hident,
    dropPairs_append hleft hright, dropPairs_append hleft hright, endsCast_paren]

/-- A cast is still seen if more comes after it. -/
theorem castEnd_append_of_castEnd {ks : List Kind} (h : castEnd ks = true) (rest : List Kind) :
    castEnd (ks ++ rest) = true := by
  have hends : ∀ js, endsCast js = true → ∃ k js', js = .rParen :: k :: js' := by
    intro js hjs
    unfold endsCast at hjs
    split at hjs
    · exact ⟨_, _, rfl⟩
    · cases hjs
  obtain ⟨k, js, hjs⟩ := hends _ h
  obtain ⟨pre, rfl⟩ : Kind.rParen :: k :: js <:+ ks :=
    hjs ▸ (dropPairs_suffix _ _ _).trans (dropPairs_suffix _ _ _)
  rw [castEnd_paren] at h
  rwa [List.append_assoc, List.cons_append, List.cons_append, castEnd_paren]

/-- The same tokens but for their positions, up to where `b` comes next; there the second list
ends. -/
inductive Cut (b : Ahead) : Ahead → Ahead → Prop
  | stop {e : Token} (he : e.kind = .eof) : Cut b b [e]
  | next {t t' : Token} {a a' : Ahead} (ht : t.kind ≠ .eof) (hl : t.leaf = t'.leaf)
    (h : Cut b a a') : Cut b (t :: a) (t' :: a')

namespace Cut

variable {a a' b : Ahead}

theorem passes (h : Cut b a a') : a.Passes b := by
  induction h with
  | stop => exact .refl b
  | @next t t' a a' ht hl h ih =>
    obtain ⟨ts, rfl, hts⟩ := ih
    exact ⟨t :: ts, rfl, List.forall_mem_cons.2 ⟨ht, hts⟩⟩

theorem length_le (h : Cut b a a') : b.length ≤ a.length :=
  h.passes.suffix.length_le

theorem significant_le (h : Cut b a a') : b.significant ≤ a.significant :=
  h.passes.significant_le

/-- Tokens before the cut are the same. -/
theorem split {ts : List Token} {c : Ahead} (h : Cut b (ts ++ c) a') (hc : b <:+ c) :
    ∃ us c', a' = us ++ c' ∧ ts.map Token.leaf = us.map Token.leaf ∧ Cut b c c' := by
  induction ts generalizing a' with
  | nil => exact ⟨[], a', rfl, rfl, h⟩
  | cons t ts ih =>
    rw [List.cons_append] at h
    cases h with
    | stop =>
      have := hc.length_le
      simp only [List.length_cons, List.length_append] at this
      omega
    | @next _ u _ _ _ hl h =>
      obtain ⟨us, c', rfl, hus, hcut⟩ := ih h
      exact ⟨u :: us, c', rfl, by rw [List.map_cons, List.map_cons, hl, hus], hcut⟩

/-- The end of a list, cut. -/
theorem append {ts us : List Token} (hts : ∀ t ∈ ts, t.kind ≠ .eof)
    (hl : ts.map Token.leaf = us.map Token.leaf) (h : Cut b a a') : Cut b (ts ++ a) (us ++ a') := by
  induction ts generalizing us with
  | nil =>
    obtain rfl : us = [] := by simpa using hl.symm
    exact h
  | cons t ts ih =>
    cases us with
    | nil => simp at hl
    | cons u us =>
      obtain ⟨htu, hl⟩ := List.cons.inj hl
      obtain ⟨ht, hts⟩ := List.forall_mem_cons.1 hts
      exact .next ht htu (ih hts hl)

/-! ## What is seen -/

/-- With no significant token before the cut, the end of the input comes next. -/
theorem current_eof (h : Cut b a a') (hsig : a.significant ≤ b.significant) :
    a'.current = .eof := by
  induction h with
  | stop he => rw [current_eq_head (isTrivia_of_kind_eof he), he]
  | @next t t' a a' ht hl h ih =>
    cases htrivia : t.isTrivia with
    | true =>
      rw [significant_cons_trivia htrivia] at hsig
      rw [current_cons_trivia (isTrivia_eq_of_leaf_eq hl ▸ htrivia)]
      exact ih hsig
    | false =>
      rw [significant_cons htrivia ht] at hsig
      have := h.significant_le
      omega

theorem currentToken?_eq (h : Cut b a a') (hsig : b.significant < a.significant) :
    a'.currentToken?.map Token.leaf = a.currentToken?.map Token.leaf := by
  induction h with
  | stop => exact absurd hsig (Nat.lt_irrefl _)
  | @next t t' a a' ht hl h ih =>
    simp only [currentToken?, nthToken?, ← isTrivia_eq_of_leaf_eq hl] at ih ⊢
    by_cases htrivia : t.isTrivia = true
    · rw [significant_cons_trivia htrivia] at hsig
      simpa only [htrivia, if_true] using ih hsig
    · simp only [htrivia, Bool.false_eq_true, if_false, Option.map_some, hl]

theorem current_eq (h : Cut b a a') (hsig : b.significant < a.significant) :
    a'.current = a.current := by
  have hleaf := h.currentToken?_eq hsig
  simp only [currentToken?] at hleaf
  rw [current, current, nth_eq_leaf, nth_eq_leaf, hleaf]

theorem adjacent_eq (h : Cut b a a') (hsig : b.significant < a.significant) :
    a'.adjacent = a.adjacent := by
  cases h with
  | stop => exact absurd hsig (Nat.lt_irrefl _)
  | next _ hl => simp [adjacent, isTrivia_eq_of_leaf_eq hl]

/-- With one significant token before the cut, the end of the input comes after it. -/
theorem next_eof (h : Cut b a a') (hsig : a.significant ≤ b.significant + 1) :
    a'.nth 1 = .eof := by
  induction h with
  | @stop e he => simp [nth, nthToken?, isTrivia_of_kind_eof he]
  | @next t t' a a' ht hl h ih =>
    have htr := isTrivia_eq_of_leaf_eq hl
    cases htrivia : t.isTrivia with
    | true =>
      rw [significant_cons_trivia htrivia] at hsig
      rw [nth_cons_trivia (htr ▸ htrivia)]
      exact ih hsig
    | false =>
      rw [significant_cons htrivia ht] at hsig
      rw [nth_succ_cons (htr ▸ htrivia)]
      exact h.current_eof (by omega)

theorem nextToken?_eq (h : Cut b a a') (hsig : b.significant + 2 ≤ a.significant) :
    (a'.nthToken? 1).map Token.leaf = (a.nthToken? 1).map Token.leaf := by
  induction h with
  | stop => omega
  | @next t t' a a' ht hl h ih =>
    simp only [nthToken?, ← isTrivia_eq_of_leaf_eq hl]
    cases htrivia : t.isTrivia with
    | true =>
      rw [significant_cons_trivia htrivia] at hsig
      exact ih hsig
    | false =>
      rw [significant_cons htrivia ht] at hsig
      exact h.currentToken?_eq (by omega)

theorem next_eq (h : Cut b a a') (hsig : b.significant + 2 ≤ a.significant) :
    a'.nth 1 = a.nth 1 := by
  rw [nth_eq_leaf, nth_eq_leaf, h.nextToken?_eq hsig]

/-- The end of the input comes next, or the current token is seen, and after it comes the end of the
input or the next token is seen. -/
theorem seen (h : Cut b a a') :
    (a.significant = b.significant ∧ a'.current = .eof) ∨
    (b.significant + 1 ≤ a.significant ∧ a'.current = a.current ∧
      (a.significant = b.significant + 1 ∧ a'.nth 1 = .eof ∨
        b.significant + 2 ≤ a.significant ∧ a'.nth 1 = a.nth 1)) := by
  have hle := h.significant_le
  rcases Nat.lt_or_ge b.significant a.significant with hlt | hge
  · refine .inr ⟨hlt, h.current_eq hlt, ?_⟩
    rcases Nat.lt_or_ge (b.significant + 1) a.significant with hlt' | hge'
    · exact .inr ⟨hlt', h.next_eq hlt'⟩
    · exact .inl ⟨by omega, h.next_eof hge'⟩
  · exact .inl ⟨by omega, h.current_eof hge⟩

/-! ## What is counted -/

theorem triviaLength_eq (h : Cut b a a') (hn : a.triviaLength + b.length ≤ a.length) :
    a'.triviaLength = a.triviaLength := by
  induction h with
  | @stop e he =>
    have hzero : b.triviaLength = 0 := by omega
    rw [hzero]
    simp [triviaLength, isTrivia_of_kind_eof he]
  | @next t t' a a' ht hl h ih =>
    simp only [triviaLength, List.takeWhile_cons, ← isTrivia_eq_of_leaf_eq hl] at hn ih ⊢
    split
    · rename_i htrivia
      simp only [htrivia, if_true, List.length_cons] at hn ⊢
      rw [ih (by omega)]
    · rfl

theorem lineTriviaLength_eq (h : Cut b a a')
    (hn : Reading.lineTriviaLength a + b.length ≤ a.length) :
    Reading.lineTriviaLength a' = Reading.lineTriviaLength a := by
  induction h with
  | @stop e he =>
    have hzero : Reading.lineTriviaLength b = 0 := by omega
    rw [hzero, lineTriviaLength_eq_zero (isTrivia_of_kind_eof he)]
  | @next t t' a a' ht hl h ih =>
    simp only [Reading.lineTriviaLength, ← isTrivia_eq_of_leaf_eq hl, ← kind_eq_of_leaf_eq hl,
      List.length_cons] at hn ⊢
    split
    · rfl
    · rename_i hline
      split
      · rename_i htrivia
        simp only [hline, htrivia, if_true, Bool.false_eq_true, if_false] at hn
        rw [ih (by omega)]
      · rfl

theorem bumpLength_eq {n : Nat} (h : Cut b a a') (hn : bumpLength n a + b.length ≤ a.length) :
    bumpLength n a' = bumpLength n a := by
  induction h generalizing n with
  | @stop e he =>
    have hzero : bumpLength n b = 0 := by omega
    rw [hzero, bumpLength_eof he]
  | @next t t' a a' ht hl h ih =>
    cases n with
    | zero => rfl
    | succ n =>
      simp only [bumpLength, ← isTrivia_eq_of_leaf_eq hl, ← kind_eq_of_leaf_eq hl,
        List.length_cons] at hn ⊢
      split
      · rename_i htrivia
        simp only [htrivia, if_true] at hn
        rw [ih (by omega)]
      · rename_i htrivia
        have he : (t.kind == .eof) = false := by simpa using ht
        simp only [htrivia, he, Bool.false_eq_true, if_false] at hn ⊢
        rw [ih (by omega)]

/-- A stretch that is taken before the cut ends where it ended. -/
theorem stretch_eq {σ : Type} {step : σ → Kind → Move σ} {s : σ}
    (heof : ∀ s, step s .eof = .halt) (h : Cut b a a')
    (hn : bumpLength (stretch step s a) a + b.length ≤ a.length) :
    stretch step s a' = stretch step s a := by
  induction h generalizing s with
  | @stop e he =>
    have hzero : bumpLength (stretch step s b) b = 0 := by omega
    rw [stretch_eq_zero heof hzero]
    simp [stretch, isTrivia_of_kind_eof he, he, heof]
  | @next t t' a a' ht hl h ih =>
    simp only [stretch, ← isTrivia_eq_of_leaf_eq hl, ← kind_eq_of_leaf_eq hl] at hn ⊢
    by_cases htrivia : t.isTrivia = true
    · simp only [htrivia, if_true] at hn ⊢
      refine ih ?_
      cases hs : stretch step s a with
      | zero =>
        rw [bumpLength_zero]
        have := h.length_le
        omega
      | succ n =>
        rw [hs, bumpLength_of_isTrivia htrivia, List.length_cons] at hn
        omega
    · simp only [htrivia, Bool.false_eq_true, if_false] at hn ⊢
      cases hs : step s t.kind with
      | halt | last => rfl
      | next s' =>
        simp only [hs] at hn ⊢
        rw [bumpLength_succ_cons (by simpa using htrivia) ht, List.length_cons] at hn
        rw [ih (by omega)]

theorem balanced_eq {depth : Nat} (h : Cut b a a')
    (hn : bumpLength (balanced depth a).1 a + b.length ≤ a.length) :
    (balanced depth a').1 = (balanced depth a).1 := by
  rw [balanced_eq_stretch] at hn
  rw [balanced_eq_stretch, balanced_eq_stretch, h.stretch_eq (fun _ => rfl) hn]

/-- A bracketed group that is closed before the cut. -/
theorem closed {depth : Nat} (h : Cut b a a') (hc : (balanced depth a).2 = true)
    (hn : bumpLength (balanced depth a).1 a + b.length ≤ a.length) :
    (balanced depth a').2 = true := by
  induction h generalizing depth with
  | @stop e he =>
    have hzero : bumpLength (balanced depth b).1 b = 0 := by omega
    rw [balanced_eq_stretch] at hzero
    have := stretch_eq_zero (fun _ => rfl) hzero
    rw [← balanced_eq_stretch] at this
    have := balanced_fst_pos hc
    omega
  | @next t t' a a' ht hl h ih =>
    simp only [balanced, ← isTrivia_eq_of_leaf_eq hl, ← kind_eq_of_leaf_eq hl] at hc hn ⊢
    by_cases htrivia : t.isTrivia = true
    · simp only [htrivia, if_true] at hc hn ⊢
      refine ih hc ?_
      obtain ⟨n, hpos⟩ := Nat.exists_eq_add_one_of_ne_zero (balanced_fst_pos hc).ne'
      rw [hpos] at hn ⊢
      rw [bumpLength_of_isTrivia htrivia, List.length_cons] at hn
      omega
    · have he : (t.kind == .eof) = false := by simpa using ht
      simp only [htrivia, he, Bool.false_eq_true, if_false] at hc hn ⊢
      split
      · rfl
      · rename_i hd
        simp only [hd, Bool.false_eq_true, if_false] at hc hn
        rw [bumpLength_succ_cons (by simpa using htrivia) ht, List.length_cons] at hn
        exact ih hc (by omega)

/-! ## Casts -/

/-- Where the first list goes on the second one ends. -/
theorem exists_eq {w : List Token} (h : Cut b (w ++ b) a') :
    ∃ us e, a' = us ++ [e] ∧ w.map Token.leaf = us.map Token.leaf ∧ e.kind = .eof := by
  obtain ⟨us, c', rfl, hl, hcut⟩ := h.split (List.suffix_refl b)
  cases hcut with
  | @stop e he => exact ⟨us, e, rfl, hl, he⟩
  | next _ _ hcut =>
    have := hcut.length_le
    rw [List.length_cons] at this
    exact absurd this (Nat.not_succ_le_self _)

theorem significantKinds_eq {w : List Token} (h : Cut b (w ++ b) a') :
    significantKinds a' = significantKinds w ++ [.eof] := by
  obtain ⟨us, e, rfl, hl, he⟩ := h.exists_eq
  rw [significantKinds_append, significantKinds_of_leaf hl]
  simp [significantKinds, isTrivia_of_kind_eof he, he]

/-- What looks like a cast where the list is cut looks like one where it goes on. -/
theorem atCast_of_cut (h : Cut b a a') (hcast : atCast a' = true) : atCast a = true := by
  obtain ⟨w, rfl, hw⟩ := h.passes
  rw [atCast_eq, Bool.and_eq_true, Bool.and_eq_true] at hcast ⊢
  obtain ⟨⟨hparen, htype⟩, hend⟩ := hcast
  have hsig : b.significant + 2 ≤ significant (w ++ b) := by
    rcases h.seen with ⟨-, hcurrent⟩ | ⟨-, -, ⟨-, hnext⟩ | ⟨hsig, -⟩⟩
    · rw [isAt, hcurrent] at hparen
      cases hparen
    · obtain ⟨t, ht, htype⟩ := (Option.any_eq_true _ _).1 htype
      have hkind : t.kind = .ident := beq_iff_eq.1 (Bool.and_eq_true_iff.1 htype).1
      rw [nth, ht, Option.map_some, Option.getD_some, hkind] at hnext
      cases hnext
    · exact hsig
  refine ⟨⟨?_, ?_⟩, ?_⟩
  · rwa [isAt, ← h.current_eq (by omega)]
  · rwa [← any_looksLikeType_of_leaf (h.nextToken?_eq hsig)]
  · have hlength : 2 ≤ (significantKinds w).length := by
      rw [significant_append hw] at hsig
      rw [length_significantKinds hw]
      omega
    rw [h.significantKinds_eq, List.drop_append_of_le_length hlength, castEnd_append .eof] at hend
    rw [significantKinds_append, List.drop_append_of_le_length hlength]
    exact castEnd_append_of_castEnd hend _

/-- A cast is seen if its closing parenthesis and one more token stand before the cut. -/
theorem atCast_eq (h : Cut b a a') {ks js : List Kind} {k : Kind}
    (hkinds : significantKinds a = (ks ++ .rParen :: k :: js) ++ significantKinds b)
    (hks : 2 ≤ ks.length) : atCast a' = atCast a := by
  obtain ⟨w, rfl, hw⟩ := h.passes
  rw [significantKinds_append] at hkinds
  have hw' := List.append_cancel_right hkinds
  have hsig : b.significant + 2 ≤ significant (w ++ b) := by
    rw [significant_append hw, ← length_significantKinds hw, hw', List.length_append]
    omega
  have hdrop (more : List Kind) : ((ks ++ .rParen :: k :: js) ++ more).drop 2 =
      ks.drop 2 ++ .rParen :: k :: (js ++ more) := by
    rw [List.append_assoc, List.drop_append_of_le_length hks]
    rfl
  rw [Ahead.atCast_eq, Ahead.atCast_eq, isAt, isAt, h.current_eq (by omega),
    any_looksLikeType_of_leaf (h.nextToken?_eq hsig), h.significantKinds_eq,
    significantKinds_append, hw', hdrop, hdrop, castEnd_paren, castEnd_paren _ k (js ++ _)]

/-! ## What is taken -/

/-- Tokens that are taken before the cut are taken of the list that is cut as well. -/
theorem takes {x y : Point} {n : Nat} (h : Cut b x.ahead a') (hy : x.Takes n y)
    (hb : b <:+ y.ahead) :
    ∃ c', Cut b y.ahead c' ∧ Point.Takes ⟨a', x.group⟩ n ⟨c', y.group⟩ := by
  obtain ⟨ts, rfl, ha, hg⟩ := hy
  rw [ha] at h
  obtain ⟨us, c', rfl, hl, hcut⟩ := h.split hb
  have hlength : us.length = ts.length := by simpa using (congrArg List.length hl).symm
  exact ⟨c', hcut, us, hlength, rfl, by rw [hg, Carries.map_ofToken_eq hl]⟩

/-- What is taken before the cut is not more than what stands there. -/
theorem count_le {x y : Point} {n : Nat} (hy : x.Takes n y) (hb : b <:+ y.ahead) :
    n + b.length ≤ x.ahead.length := by
  obtain ⟨ts, rfl, ha, -⟩ := hy
  have := hb.length_le
  rw [ha, List.length_append]
  omega

end Cut

end Ahead

end RuleLang
