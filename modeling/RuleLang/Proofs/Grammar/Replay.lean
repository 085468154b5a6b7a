import RuleLang.Proofs.Grammar.Clean
import RuleLang.Proofs.Grammar.Steady
import RuleLang.Proofs.Parser.Lossless

/-!
# Reading at another place

The same tokens are read in the same way wherever they stand, and whatever declarations come after
them. What is read is compared with what is read of the same tokens up to the end of the input.

## Main definitions

* `Replay` — where tokens stand, and what comes after them in place of the end of the input.
* `Replay.Shows` — a state of reading shows a state of reading at another place.

## Main statements

* `Grammar.Reads.replayed` — steady instructions read the same tokens in the same way.
-/

namespace RuleLang

open Grammar Production

/-! ## Counting tokens -/

namespace Ahead

variable {w : Ahead} {e x : Token} {xs : Ahead} {bytes lines : Nat}

/-- The significant tokens before the end of the input. -/
def significant (a : Ahead) : Nat :=
  a.countUntil (· == .eof)

theorem significant_cons_trivia {t : Token} (ht : t.isTrivia = true) (ts : Ahead) :
    significant (t :: ts) = significant ts := by
  simp [significant, countUntil, ht]

theorem significant_cons {t : Token} (ht : t.isTrivia = false) (he : t.kind ≠ .eof) (ts : Ahead) :
    significant (t :: ts) = significant ts + 1 := by
  simp [significant, countUntil, ht, he]

theorem after_nil (n : Nat) : after n [] = [] := by
  induction n with
  | zero => rfl
  | succ n ih => exact ih

theorem after_eof {t : Token} (he : t.kind = .eof) (n : Nat) (ts : Ahead) :
    after n (t :: ts) = t :: ts := by
  induction n with
  | zero => rfl
  | succ n ih =>
    rw [after]
    simpa [afterTrivia, afterToken, isTrivia_of_kind_eof he, he] using ih

/-- Where a significant token is left, there were more of them than were taken. -/
theorem lt_significant_of_after {n : Nat} {a : Ahead} (h : (after n a).current ≠ .eof) :
    n < significant a := by
  induction a generalizing n with
  | nil =>
    rw [after_nil] at h
    exact absurd rfl h
  | cons t ts ih =>
    by_cases ht : t.isTrivia = true
    · rw [current_after_trivia ht] at h
      rw [significant_cons_trivia ht]
      exact ih h
    · rw [Bool.not_eq_true] at ht
      have he : t.kind ≠ .eof := by
        intro he
        rw [after_eof he, current_eq_head ht] at h
        exact h he
      rw [significant_cons ht he]
      cases n with
      | zero => omega
      | succ n =>
        rw [after_succ_cons ht he] at h
        have := ih h
        omega

theorem one_le_significant {a : Ahead} (h : a.current ≠ .eof) : 1 ≤ significant a :=
  lt_significant_of_after (n := 0) h

theorem two_le_significant {a : Ahead} (h : a.current ≠ .eof) (hnext : a.nth 1 ≠ .eof) :
    2 ≤ significant a := by
  refine lt_significant_of_after (n := 1) ?_
  rwa [current_after_one h]

/-- A bracketed group that is closed is seen whatever comes after it. -/
theorem balanced_of_closed {depth : Nat} (he : e.kind = .eof)
    (h : (balanced depth (w ++ [e])).2 = true) (b : Ahead) :
    balanced depth (w ++ b) = balanced depth (w ++ [e]) ∧
      (balanced depth (w ++ [e])).1 ≤ significant (w ++ [e]) := by
  induction w generalizing depth with
  | nil => simp [balanced, isTrivia_of_kind_eof he, he] at h
  | cons t ts ih =>
    simp only [List.cons_append] at h ⊢
    by_cases ht : t.isTrivia = true
    · simp only [balanced, ht, if_true, significant_cons_trivia ht] at h ⊢
      exact ih h
    · rw [Bool.not_eq_true] at ht
      by_cases hk : t.kind = .eof
      · simp [balanced, ht, hk] at h
      · have hk' : (t.kind == .eof) = false := by simpa using hk
        rw [significant_cons ht hk]
        simp only [balanced, ht, hk', Bool.false_eq_true, if_false] at h ⊢
        by_cases hd : (depthAfter depth t.kind == 0) = true
        · simp only [hd, if_true]
          exact ⟨trivial, by omega⟩
        · simp only [hd, Bool.false_eq_true, if_false] at h ⊢
          obtain ⟨heq, hle⟩ := ih h
          exact ⟨by rw [heq], by omega⟩

theorem triviaLength_append_cons (hx : x.isTrivia = false) :
    triviaLength (w ++ x :: xs) = triviaLength w := by
  induction w with
  | nil => simp [triviaLength, hx]
  | cons t ts ih =>
    simp only [triviaLength, List.cons_append, List.takeWhile_cons] at ih ⊢
    split
    · rw [List.length_cons, List.length_cons, ih]
    · rfl

theorem lineTriviaLength_append_cons (hx : x.isTrivia = false) :
    Reading.lineTriviaLength (w ++ x :: xs) = Reading.lineTriviaLength w := by
  induction w with
  | nil => simp [lineTriviaLength_eq_zero hx, Reading.lineTriviaLength]
  | cons t ts ih => simp only [List.cons_append, Reading.lineTriviaLength, ih]

theorem triviaLength_moved : triviaLength (w.map (Token.moved bytes lines)) = triviaLength w := by
  simp [triviaLength, List.takeWhile_map, Function.comp_def]

theorem lineTriviaLength_moved :
    Reading.lineTriviaLength (w.map (Token.moved bytes lines)) = Reading.lineTriviaLength w := by
  induction w with
  | nil => rfl
  | cons t ts ih =>
    simp only [List.map_cons, Reading.lineTriviaLength, Token.kind_moved, Token.isTrivia_moved, ih]

theorem bumpLength_moved (n : Nat) :
    bumpLength n (w.map (Token.moved bytes lines)) = bumpLength n w := by
  induction w generalizing n with
  | nil => cases n <;> rfl
  | cons t ts ih =>
    cases n with
    | zero => rfl
    | succ n =>
      simp only [List.map_cons, bumpLength, Token.kind_moved, Token.isTrivia_moved, ih]

/-- As many tokens as there are before the end are taken whatever comes after them. -/
theorem bumpLength_append_cons (he : e.kind = .eof) {n : Nat} (hn : n ≤ significant (w ++ [e])) :
    bumpLength n (w ++ x :: xs) = bumpLength n (w ++ [e]) := by
  induction w generalizing n with
  | nil =>
    have hzero : significant [e] = 0 := by
      simp [significant, countUntil, isTrivia_of_kind_eof he, he]
    rw [List.nil_append, hzero] at hn
    obtain rfl : n = 0 := by omega
    rfl
  | cons t ts ih =>
    cases n with
    | zero => rfl
    | succ n =>
      simp only [List.cons_append] at hn ⊢
      by_cases ht : t.isTrivia = true
      · rw [significant_cons_trivia ht] at hn
        rw [bumpLength_of_isTrivia ht, bumpLength_of_isTrivia ht, ih hn]
      · rw [Bool.not_eq_true] at ht
        by_cases hk : t.kind = .eof
        · rw [bumpLength_eof hk, bumpLength_eof hk]
        · rw [significant_cons ht hk] at hn
          simp [bumpLength, ht, hk, ih (Nat.le_of_succ_le_succ hn)]

end Ahead

/-! ## The end of the input -/

theorem Ended.current_init {a w : Ahead} {e : Token} (h : Ended a w e)
    (ha : a.current ≠ .eof) : w.current ≠ .eof := by
  obtain ⟨hw, he, hinit⟩ := h
  subst hw
  intro hc
  apply ha
  clear ha
  induction w with
  | nil => rw [List.nil_append, Ahead.current_eq_head (Ahead.isTrivia_of_kind_eof he), he]
  | cons t ts ih =>
    rw [List.cons_append]
    by_cases ht : t.isTrivia = true
    · rw [Ahead.current_cons_trivia ht] at hc ⊢
      exact ih (fun u hu => hinit u (List.mem_cons_of_mem t hu)) hc
    · rw [Ahead.current_eq_head (by simpa using ht)] at hc
      exact absurd hc (hinit t List.mem_cons_self)

/-- What is counted up to the end of the input is not more than what stands before it. -/
theorem Ended.le_length {a w : Ahead} {e : Token} (h : Ended a w e) {n : Nat} (hn : n ≤ a.length)
    (hk : ∀ t ∈ a.take n, t.kind ≠ .eof) : n ≤ w.length := by
  by_contra hlt
  have hlen : n = a.length := by
    rw [h.eq, List.length_append, List.length_singleton] at hn ⊢
    omega
  rw [hlen, List.take_length] at hk
  exact hk e (by rw [h.eq]; simp) h.kind

/-! ## Replays -/

/-- Tokens stand at another place: they are moved, something else comes in place of the `eof` at
their end, and errors were recorded earlier. -/
structure Replay where
  bytes : Nat
  lines : Nat
  last : Token
  rest : Ahead
  earlier : List SyntaxError

namespace Replay

/-- Either the tokens are moved together with the `eof` at their end, or they stay where they are
and a declaration comes next. -/
structure Fits (ρ : Replay) (exact : Prop) : Prop where
  last : ρ.last.kind = .eof
  rest : exact ∧ ρ.rest = [ρ.last.moved ρ.bytes ρ.lines] ∨
    ¬exact ∧ ρ.bytes = 0 ∧ ρ.lines = 0 ∧
      ∃ x xs, ρ.rest = x :: xs ∧ x.kind.isDeclarationStart = true

/-- A state of reading shows another one at its place, with the tokens of `w` left. -/
structure Shows (ρ : Replay) (w : List Token) (s s' : Reading) : Prop where
  ended : Ended s.ahead w ρ.last
  ahead : s'.ahead = w.map (Token.moved ρ.bytes ρ.lines) ++ ρ.rest
  group : s'.group = s.group
  errors : s'.errors = s.errors.map (SyntaxError.moved ρ.bytes) ++ ρ.earlier
  recovering : s'.recovering = s.recovering
  limit : s.limit = none
  limit' : s'.limit = none

theorem Fits.exists_rest {ρ : Replay} {exact : Prop} (h : ρ.Fits exact) :
    ∃ x xs, ρ.rest = x :: xs ∧ x.isTrivia = false := by
  rcases h.rest with ⟨-, h'⟩ | ⟨-, -, -, x, xs, h', hx⟩
  · refine ⟨_, [], h', ?_⟩
    rw [Token.isTrivia_moved]
    exact Ahead.isTrivia_of_kind_eof h.last
  · exact ⟨x, xs, h', (Kind.Closes.of_start hx).isTrivia⟩

theorem moved_zero (w : List Token) : w.map (Token.moved 0 0) = w :=
  List.map_id w

namespace Shows

variable {ρ : Replay} {exact : Prop} {w : List Token} {s s' t : Reading}

/-- Decisions see the same if they see the whole input or an unfinished declaration. -/
theorem sees (hρ : ρ.Fits exact) (h : ρ.Shows w s s')
    (hend : exact ∨ s.ahead.current ≠ .eof) : Ahead.Sees exact s.ahead s'.ahead := by
  rw [h.ahead]
  rcases hρ.rest with ⟨-, hrest⟩ | ⟨hexact, hbytes, hlines, x, xs, hrest, hx⟩
  · have hmap : w.map (Token.moved ρ.bytes ρ.lines) ++ ρ.rest =
        s.ahead.map (Token.moved ρ.bytes ρ.lines) := by
      rw [h.ended.eq, hrest, List.map_append]
      rfl
    rw [hmap]
    exact Ahead.sees_moved exact _ _ _
  · have hw := h.ended.current_init (hend.resolve_left hexact)
    rw [hbytes, hlines, moved_zero, hrest, h.ended.eq]
    exact Ahead.sees_past hexact h.ended.kind hx hw

/-- The current token is the same, moved. -/
theorem span (hρ : ρ.Fits exact) (h : ρ.Shows w s s')
    (hend : exact ∨ s.ahead.current ≠ .eof) : s'.ahead.span = s.ahead.span.moved ρ.bytes := by
  obtain ⟨u, hu, hu'⟩ : ∃ u, s.ahead.currentToken? = some u ∧
      s'.ahead.currentToken? = some (u.moved ρ.bytes ρ.lines) := by
    by_cases hcur : s.ahead.current = .eof
    · rcases hρ.rest with ⟨-, hrest⟩ | ⟨hexact, -⟩
      · have hsome : ∃ u, s.ahead.currentToken? = some u := by
          rw [h.ended.eq]
          cases hw : Ahead.nthToken? 0 w with
          | none =>
            exact ⟨_, Ahead.nthToken?_append_cons (Ahead.isTrivia_of_kind_eof h.ended.kind) hw⟩
          | some u => exact ⟨u, Ahead.nthToken?_append hw _⟩
        obtain ⟨u, hu⟩ := hsome
        refine ⟨u, hu, ?_⟩
        have hmap : s'.ahead = s.ahead.map (Token.moved ρ.bytes ρ.lines) := by
          rw [h.ahead, h.ended.eq, hrest, List.map_append]
          rfl
        rw [hmap, Ahead.currentToken?, Ahead.nthToken?_moved]
        rw [Ahead.currentToken?] at hu
        rw [hu]
        rfl
      · exact absurd hcur (hend.resolve_left hexact)
    · have hw := h.ended.current_init hcur
      obtain ⟨u, -, -, -, hu⟩ := Ahead.exists_currentToken? hw
      refine ⟨u, by rw [h.ended.eq, Ahead.currentToken?_append hw, hu], ?_⟩
      rw [h.ahead, Ahead.currentToken?_append (by simpa using hw), Ahead.currentToken?,
        Ahead.nthToken?_moved]
      rw [Ahead.currentToken?] at hu
      rw [hu]
      rfl
  simp [Ahead.span, hu, hu']

/-- Tokens are taken that stand before the end of the input. -/
theorem takeTokens (h : ρ.Shows w s s') {n : Nat} (hn : n ≤ w.length) :
    ρ.Shows (w.drop n) (s.takeTokens n) (s'.takeTokens n) := by
  have hlen : (w.take n).length = n := by
    rw [List.length_take]
    omega
  have hlen' : ((w.take n).map (Token.moved ρ.bytes ρ.lines)).length = n := by
    rw [List.length_map, hlen]
  have htaken : ∀ t ∈ w.take n, t.kind ≠ .eof := fun t ht => h.ended.init t (List.mem_of_mem_take ht)
  have htaken' : ∀ t ∈ (w.take n).map (Token.moved ρ.bytes ρ.lines), t.kind ≠ .eof := by
    intro t ht
    obtain ⟨u, hu, rfl⟩ := List.mem_map.1 ht
    exact htaken u hu
  have hahead : s.ahead = w.take n ++ (w.drop n ++ [ρ.last]) := by
    rw [h.ended.eq, ← List.append_assoc, List.take_append_drop]
  have hahead' : s'.ahead = (w.take n).map (Token.moved ρ.bytes ρ.lines) ++
      ((w.drop n).map (Token.moved ρ.bytes ρ.lines) ++ ρ.rest) := by
    rw [h.ahead, ← List.append_assoc, ← List.map_append, List.take_append_drop]
  have hs := Reading.takeTokens_append hahead htaken
  have hs' := Reading.takeTokens_append hahead' htaken'
  rw [hlen] at hs
  rw [hlen'] at hs'
  rw [hs, hs']
  refine ⟨⟨rfl, h.ended.kind, fun t ht => h.ended.init t (List.mem_of_mem_drop ht)⟩, rfl, ?_,
    h.errors, h.recovering, h.limit, h.limit'⟩
  simp [h.group, Function.comp_def]

theorem takeTrivia (hρ : ρ.Fits exact) (h : ρ.Shows w s s') :
    ∃ v, ρ.Shows v s.takeTrivia s'.takeTrivia := by
  obtain ⟨x, xs, hrest, hx⟩ := hρ.exists_rest
  have hcount : s.ahead.triviaLength = Ahead.triviaLength w := by
    rw [h.ended.eq, Ahead.triviaLength_append_cons (Ahead.isTrivia_of_kind_eof h.ended.kind)]
  have hcount' : s'.ahead.triviaLength = Ahead.triviaLength w := by
    rw [h.ahead, hrest, Ahead.triviaLength_append_cons hx, Ahead.triviaLength_moved]
  refine ⟨w.drop (Ahead.triviaLength w), ?_⟩
  have := h.takeTokens (Ahead.triviaLength_le w)
  rw [Reading.takeTrivia, Reading.takeTrivia]
  rw [Ahead.triviaLength] at hcount hcount'
  rwa [hcount, hcount']

theorem takeLineTrivia (hρ : ρ.Fits exact) (h : ρ.Shows w s s') :
    ∃ v, ρ.Shows v s.takeLineTrivia s'.takeLineTrivia := by
  obtain ⟨x, xs, hrest, hx⟩ := hρ.exists_rest
  have hcount : Reading.lineTriviaLength s.ahead = Reading.lineTriviaLength w := by
    rw [h.ended.eq, Ahead.lineTriviaLength_append_cons (Ahead.isTrivia_of_kind_eof h.ended.kind)]
  have hcount' : Reading.lineTriviaLength s'.ahead = Reading.lineTriviaLength w := by
    rw [h.ahead, hrest, Ahead.lineTriviaLength_append_cons hx, Ahead.lineTriviaLength_moved]
  refine ⟨w.drop (Reading.lineTriviaLength w), ?_⟩
  have := h.takeTokens (Reading.lineTriviaLength_le w)
  rwa [Reading.takeLineTrivia, Reading.takeLineTrivia, hcount, hcount']

/-- Significant tokens are taken, as many as there are. -/
theorem bumps (hρ : ρ.Fits exact) (h : ρ.Shows w s s') {n : Nat}
    (hn : exact ∨ n ≤ Ahead.significant s.ahead) : ∃ v, ρ.Shows v (s.bumps n) (s'.bumps n) := by
  have hcount : Ahead.bumpLength n s'.ahead = Ahead.bumpLength n s.ahead := by
    rw [h.ahead]
    rcases hρ.rest with ⟨-, hrest⟩ | ⟨hexact, hbytes, hlines, x, xs, hrest, hx⟩
    · have hmap : w.map (Token.moved ρ.bytes ρ.lines) ++ ρ.rest =
          s.ahead.map (Token.moved ρ.bytes ρ.lines) := by
        rw [h.ended.eq, hrest, List.map_append]
        rfl
      rw [hmap, Ahead.bumpLength_moved]
    · have hn := hn.resolve_left hexact
      rw [h.ended.eq] at hn
      rw [hbytes, hlines, moved_zero, hrest, h.ended.eq,
        Ahead.bumpLength_append_cons h.ended.kind hn]
  have hle := h.ended.le_length (s.ahead.bumpLength_le n) fun _ => Reading.kind_ne_eof_of_mem_bump
  refine ⟨w.drop (s.ahead.bumpLength n), ?_⟩
  have := h.takeTokens hle
  rwa [Reading.bumps_eq_takeTokens, Reading.bumps_eq_takeTokens, hcount]

theorem complain (hρ : ρ.Fits exact) (h : ρ.Shows w s s')
    (hend : exact ∨ s.ahead.current ≠ .eof) (c : Complaint) :
    ρ.Shows w (s.complain c) (s'.complain c) := by
  have hspan := h.span hρ hend
  have herrors : (⟨c, s'.ahead.span⟩ : SyntaxError) =
      SyntaxError.moved ρ.bytes ⟨c, s.ahead.span⟩ := by
    rw [hspan]
    rfl
  have hroom : s.hasRoom = true := by
    simp [Reading.hasRoom, h.limit]
  have hroom' : s'.hasRoom = true := by
    simp [Reading.hasRoom, h.limit']
  unfold Reading.complain
  simp only [hroom, hroom', if_true, herrors, h.recovering]
  cases c.isWarning with
  | true =>
    exact ⟨h.ended, h.ahead, h.group, by simp [h.errors], rfl, h.limit, h.limit'⟩
  | false =>
    cases hr : s.recovering with
    | true => exact h
    | false =>
      exact ⟨h.ended, h.ahead, h.group, by simp [h.errors], rfl, h.limit, h.limit'⟩

end Shows

end Replay

/-! ## Reading -/

/-- Steady instructions read the same tokens in the same way, if they see the whole input or leave a
declaration unfinished. -/
theorem Grammar.Reads.replayed {ρ : Replay} {exact : Prop} (hρ : ρ.Fits exact) {g : Rule}
    {s t : Reading} (h : Reads body g s t) (hg : Steady exact g)
    (hend : exact ∨ t.ahead.current ≠ .eof) :
    ∀ {w s'}, ρ.Shows w s s' → ∃ v t', Reads body g s' t' ∧ ρ.Shows v t t' := by
  induction h with
  | skip s =>
    intro w s' hs
    exact ⟨w, s', .skip s', hs⟩
  | trivia s =>
    intro w s' hs
    obtain ⟨v, hv⟩ := hs.takeTrivia hρ
    exact ⟨v, _, .trivia s', hv⟩
  | lineTrivia s =>
    intro w s' hs
    obtain ⟨v, hv⟩ := hs.takeLineTrivia hρ
    exact ⟨v, _, .lineTrivia s', hv⟩
  | take n s =>
    intro w s' hs
    have hn : exact ∨ n ≤ Ahead.significant s.ahead :=
      hend.imp_right fun h =>
        (Ahead.lt_significant_of_after (by rwa [← Reading.ahead_bumps])).le
    obtain ⟨v, hv⟩ := hs.bumps hρ hn
    exact ⟨v, _, .take n s', hv⟩
  | @seq f g s t u hf hg' ihf ihg =>
    intro w s' hs
    cases hg with
    | seq hsf hsg =>
      have hmid : exact ∨ t.ahead.current ≠ .eof := hend.imp_right fun h he => h (hg'.current_eof he)
      obtain ⟨v, t', ht', hv⟩ := ihf hsf hmid hs
      obtain ⟨z, u', hu', hz⟩ := ihg hsg hend hv
      exact ⟨z, u', .seq ht' hu', hz⟩
  | @look choose s t h ih =>
    intro w s' hs
    cases hg with
    | look hall same =>
      have hstart : exact ∨ s.ahead.current ≠ .eof :=
        hend.imp_right fun h' he => h' (h.current_eof he)
      obtain ⟨v, t', ht', hv⟩ := ih (hall s.ahead) hend hs
      rcases same (hs.sees hρ hstart) with heq | ⟨hexact, hout⟩
      · exact ⟨v, t', .look (by rwa [heq]), hv⟩
      · exact absurd (hout s t rfl h) (hend.resolve_left hexact)
  | @ifRecovering yes no s t h ih =>
    intro w s' hs
    cases hg with
    | ifRecovering hy hn =>
      have hsteady : Steady exact (if s.recovering then yes else no) := .ite hy hn
      obtain ⟨v, t', ht', hv⟩ := ih hsteady hend hs
      exact ⟨v, t', .ifRecovering (by rwa [hs.recovering]), hv⟩
  | recovered s =>
    intro w s' hs
    exact ⟨w, _, .recovered s', hs.ended, hs.ahead, hs.group, hs.errors, rfl, hs.limit, hs.limit'⟩
  | complain c s =>
    intro w s' hs
    rw [Reading.ahead_complain] at hend
    exact ⟨w, _, .complain c s', hs.complain hρ hend c⟩
  | @call p s t h ih =>
    intro w s' hs
    have hentered : ρ.Shows w { s with entered := s.entered + 1 }
        { s' with entered := s'.entered + 1 } :=
      ⟨hs.ended, hs.ahead, hs.group, hs.errors, hs.recovering, hs.limit, hs.limit'⟩
    obtain ⟨v, t', ht', hv⟩ := ih (p.steady_body exact) hend hentered
    exact ⟨v, t', .call ht', hv⟩
  | @group body s t h ih =>
    intro w s' hs
    cases hg with
    | group hb =>
      have hempty : ρ.Shows w { s with group := [] } { s' with group := [] } :=
        ⟨hs.ended, hs.ahead, rfl, hs.errors, hs.recovering, hs.limit, hs.limit'⟩
      obtain ⟨v, t', ht', hv⟩ := ih hb hend hempty
      exact ⟨v, _, .group ht', hv.ended, hv.ahead, by rw [hv.group, hs.group], hv.errors,
        hv.recovering, hv.limit, hv.limit'⟩
  | @enclose kind body s t h ih =>
    intro w s' hs
    cases hg with
    | enclose hb =>
      obtain ⟨v, t', ht', hv⟩ := ih hb hend hs
      exact ⟨v, _, .enclose ht', hv.ended, hv.ahead, by rw [hv.group], hv.errors, hv.recovering,
        hv.limit, hv.limit'⟩

end RuleLang
