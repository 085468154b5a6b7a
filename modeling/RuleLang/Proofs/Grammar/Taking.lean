import Mathlib.Data.List.TakeWhile
import RuleLang.Grammar.Basic

/-!
# Taking tokens

What is left ahead after tokens were taken, and where the tokens went that are not left: every one
of them is the next leaf of the current group, so that no token is lost on the way into the tree.

## Main definitions

* `Ahead.afterTrivia`, `Ahead.after`, `Ahead.afterLine` — what is left ahead.
* `Reading.Keeps` — tokens moved from what is ahead to the end of the group, and nothing else.

## Main statements

* `Ahead.nth_afterTrivia` — trivia does not change what comes next.
* `Ahead.length_after_lt` — a significant token that is taken makes the rest shorter.
* `Reading.keeps_takeTokens`, `Reading.keeps_bumps` — taking keeps all tokens.
-/

namespace RuleLang

namespace Ahead

/-- What is left without the trivia that comes next. -/
def afterTrivia (a : Ahead) : Ahead :=
  a.dropWhile Token.isTrivia

/-- What is left without the next token, which is kept if it is `eof`. -/
def afterToken : Ahead → Ahead
  | [] => []
  | t :: ts => if t.kind == .eof then t :: ts else ts

/-- What is left without the next `n` significant tokens and the trivia before each of them. -/
def after : Nat → Ahead → Ahead
  | 0, a => a
  | n + 1, a => after n a.afterTrivia.afterToken

/-- What is left without the trivia through the first line break. -/
def afterLine (a : Ahead) : Ahead :=
  a.drop (Reading.lineTriviaLength a)

/-! ## What comes next -/

theorem isTrivia_of_kind_eof {t : Token} (h : t.kind = .eof) : t.isTrivia = false := by
  simp [Token.isTrivia, h, Kind.isTrivia]

@[simp] theorem nthToken?_afterTrivia (a : Ahead) (n : Nat) :
    nthToken? n a.afterTrivia = nthToken? n a := by
  induction a with
  | nil => rfl
  | cons t ts ih =>
    unfold afterTrivia at ih ⊢
    by_cases ht : t.isTrivia = true
    · rw [List.dropWhile_cons_of_pos ht, ih]
      simp [nthToken?, ht]
    · rw [List.dropWhile_cons_of_neg ht]

@[simp] theorem nth_afterTrivia (a : Ahead) (n : Nat) : a.afterTrivia.nth n = a.nth n := by
  simp [nth]

@[simp] theorem current_afterTrivia (a : Ahead) : a.afterTrivia.current = a.current :=
  nth_afterTrivia a 0

theorem current_ne_eof {a : Ahead} {k : Kind} (h : a.current = k) (hk : (k == .eof) = false) :
    a.current ≠ .eof := by
  rintro he
  simp [← h, he] at hk

/-- If the current token is not `eof`, it stands after the trivia that comes next. -/
theorem afterTrivia_eq_cons {a : Ahead} (h : a.current ≠ .eof) :
    ∃ t ts, a.afterTrivia = t :: ts ∧ t.kind = a.current ∧ t.isTrivia = false := by
  cases hc : a.afterTrivia with
  | nil =>
    rw [← current_afterTrivia, hc] at h
    exact absurd rfl h
  | cons t ts =>
    have ht : t.isTrivia = false := by
      have := List.head?_dropWhile_not Token.isTrivia a
      rw [show a.dropWhile Token.isTrivia = t :: ts from hc] at this
      simpa using this
    refine ⟨t, ts, rfl, ?_, ht⟩
    rw [← current_afterTrivia, hc]
    simp [current, nth, nthToken?, ht]

/-- A stretch that is counted from the current token on, if the count depends on significant tokens
alone. -/
theorem countUntil_afterTrivia (stops : Kind → Bool) (a : Ahead) :
    countUntil stops a.afterTrivia = countUntil stops a := by
  induction a with
  | nil => rfl
  | cons t ts ih =>
    unfold afterTrivia at ih ⊢
    by_cases ht : t.isTrivia = true
    · rw [List.dropWhile_cons_of_pos ht, ih]
      simp [countUntil, ht]
    · rw [List.dropWhile_cons_of_neg ht]

theorem balanced_afterTrivia (depth : Nat) (a : Ahead) :
    balanced depth a.afterTrivia = balanced depth a := by
  induction a with
  | nil => rfl
  | cons t ts ih =>
    unfold afterTrivia at ih ⊢
    by_cases ht : t.isTrivia = true
    · rw [List.dropWhile_cons_of_pos ht, ih]
      simp [balanced, ht]
    · rw [List.dropWhile_cons_of_neg ht]

theorem countUntil_pos {stops : Kind → Bool} {a : Ahead} (h : a.current ≠ .eof)
    (hs : stops a.current = false) : 0 < countUntil stops a := by
  obtain ⟨t, ts, ha, ht, hn⟩ := afterTrivia_eq_cons h
  rw [← countUntil_afterTrivia, ha]
  simp [countUntil, hn, ht, hs]

theorem balanced_pos {depth : Nat} {a : Ahead} (h : a.current ≠ .eof) :
    0 < (balanced depth a).1 := by
  obtain ⟨t, ts, ha, ht, hn⟩ := afterTrivia_eq_cons h
  rw [← balanced_afterTrivia, ha]
  simp only [balanced, hn, ht, Bool.false_eq_true, if_false, beq_iff_eq, h]
  split <;> simp

/-! ## Lengths -/

theorem afterTrivia_suffix (a : Ahead) : a.afterTrivia <:+ a :=
  List.dropWhile_suffix _

theorem length_afterTrivia_le (a : Ahead) : a.afterTrivia.length ≤ a.length :=
  a.afterTrivia_suffix.length_le

theorem length_afterLine_le (a : Ahead) : a.afterLine.length ≤ a.length :=
  (List.drop_suffix _ a).length_le

theorem length_afterToken_le (a : Ahead) : a.afterToken.length ≤ a.length := by
  unfold afterToken
  split
  · simp
  · split <;> simp

theorem length_after_le (n : Nat) (a : Ahead) : (after n a).length ≤ a.length := by
  induction n generalizing a with
  | zero => exact Nat.le_refl _
  | succ n ih =>
    have := ih a.afterTrivia.afterToken
    have := length_afterToken_le a.afterTrivia
    have := length_afterTrivia_le a
    simp only [after]
    omega

theorem length_after_lt {n : Nat} {a : Ahead} (hn : 0 < n) (h : a.current ≠ .eof) :
    (after n a).length < a.length := by
  obtain ⟨t, ts, ha, ht, -⟩ := afterTrivia_eq_cons h
  cases n with
  | zero => exact absurd hn (Nat.lt_irrefl 0)
  | succ n =>
    have := length_after_le n ts
    have := length_afterTrivia_le a
    have he : (t.kind == .eof) = false := by simpa [ht] using h
    simp only [ha, List.length_cons] at this
    simp only [after, ha, afterToken, he, Bool.false_eq_true, if_false]
    omega

end Ahead

namespace Reading

/-! ## What is left after taking -/

@[simp] theorem ahead_takeToken (s : Reading) : s.takeToken.ahead = s.ahead.afterToken := by
  obtain ⟨ahead, _, _, _, _, _⟩ := s
  cases ahead with
  | nil => rfl
  | cons t ts =>
    simp only [takeToken, Ahead.afterToken]
    split <;> rfl

theorem takeTokens_append {s : Reading} {taken rest : List Token} (ha : s.ahead = taken ++ rest)
    (hk : ∀ t ∈ taken, t.kind ≠ .eof) :
    s.takeTokens taken.length =
      { s with ahead := rest, group := (taken.map Element.ofToken).reverse ++ s.group } := by
  induction taken generalizing s with
  | nil =>
    simp only [List.nil_append] at ha
    simp [takeTokens, ← ha]
  | cons t ts ih =>
    have ht : (t.kind == .eof) = false := by simpa using hk t List.mem_cons_self
    have hs : s.takeToken = { s with ahead := ts ++ rest, group := .ofToken t :: s.group } := by
      simp [takeToken, ha, ht]
    rw [List.length_cons, takeTokens, hs, ih rfl fun u hu => hk u (List.mem_cons_of_mem t hu)]
    simp

theorem takeTrivia_eq (s : Reading) :
    s.takeTrivia = { s with
      ahead := s.ahead.afterTrivia
      group := ((s.ahead.takeWhile Token.isTrivia).map Element.ofToken).reverse ++ s.group } := by
  refine takeTokens_append List.takeWhile_append_dropWhile.symm fun t ht he => ?_
  have := List.mem_takeWhile_imp ht
  simp [Ahead.isTrivia_of_kind_eof he] at this

theorem lineTriviaLength_le (a : Ahead) : lineTriviaLength a ≤ a.length := by
  induction a with
  | nil => exact Nat.le_refl _
  | cons t ts ih =>
    simp only [lineTriviaLength, List.length_cons]
    split
    · omega
    · split <;> omega

theorem isTrivia_of_mem_lineTrivia {a : Ahead} {t : Token}
    (h : t ∈ a.take (lineTriviaLength a)) : t.isTrivia = true := by
  induction a with
  | nil => simp at h
  | cons u us ih =>
    simp only [lineTriviaLength] at h
    split at h
    · rename_i hn
      rw [List.take_succ_cons, List.take_zero, List.mem_singleton] at h
      subst h
      simp [Token.isTrivia, beq_iff_eq.1 hn, Kind.isTrivia]
    · split at h
      · rename_i hu
        rw [List.take_succ_cons, List.mem_cons] at h
        rcases h with rfl | h
        · exact hu
        · exact ih h
      · simp at h

theorem takeLineTrivia_eq (s : Reading) :
    s.takeLineTrivia = { s with
      ahead := s.ahead.afterLine
      group := ((s.ahead.take (lineTriviaLength s.ahead)).map Element.ofToken).reverse ++
        s.group } := by
  have hl : (s.ahead.take (lineTriviaLength s.ahead)).length = lineTriviaLength s.ahead := by
    rw [List.length_take]
    exact Nat.min_eq_left (lineTriviaLength_le _)
  have := takeTokens_append (s := s) (List.take_append_drop (lineTriviaLength s.ahead) s.ahead).symm
    fun t ht he => by
      have := isTrivia_of_mem_lineTrivia ht
      simp [Ahead.isTrivia_of_kind_eof he] at this
  rwa [hl] at this

@[simp] theorem ahead_takeTrivia (s : Reading) : s.takeTrivia.ahead = s.ahead.afterTrivia := by
  rw [takeTrivia_eq]

@[simp] theorem ahead_takeLineTrivia (s : Reading) :
    s.takeLineTrivia.ahead = s.ahead.afterLine := by
  rw [takeLineTrivia_eq]

@[simp] theorem ahead_bumps (n : Nat) (s : Reading) : (s.bumps n).ahead = s.ahead.after n := by
  induction n generalizing s with
  | zero => rfl
  | succ n ih => simp [bumps, ih, bump, Ahead.after]

@[simp] theorem recovering_bumps (n : Nat) (s : Reading) :
    (s.bumps n).recovering = s.recovering := by
  induction n generalizing s with
  | zero => rfl
  | succ n ih =>
    rw [bumps, ih, bump, takeToken]
    split
    · split <;> simp [takeTrivia_eq]
    · simp [takeTrivia_eq]

/-! ## Keeping tokens -/

/-- Some tokens ahead of `s` are leaves at the end of the group of `t`, and all others are still
ahead. -/
def Keeps (s t : Reading) : Prop :=
  ∃ taken, s.ahead = taken ++ t.ahead ∧ (∀ x ∈ taken, x.kind ≠ .eof) ∧
    Element.leavesOf t.group.reverse =
      Element.leavesOf s.group.reverse ++ taken.map Token.leaf

theorem ahead_complain (s : Reading) (c : Complaint) : (s.complain c).ahead = s.ahead := by
  unfold complain
  dsimp only
  split <;> split <;> first | rfl | (split <;> rfl)

theorem group_complain (s : Reading) (c : Complaint) : (s.complain c).group = s.group := by
  unfold complain
  dsimp only
  split <;> split <;> first | rfl | (split <;> rfl)

theorem recovering_complain (s : Reading) (c : Complaint) :
    (s.complain c).recovering = (s.recovering || !c.isWarning) := by
  unfold complain
  cases hc : c.isWarning <;> cases hr : s.recovering <;> cases s.hasRoom <;> simp_all

namespace Keeps

theorem refl (s : Reading) : Keeps s s :=
  ⟨[], rfl, by simp, by simp⟩

theorem trans {s t u : Reading} (h : Keeps s t) (k : Keeps t u) : Keeps s u := by
  obtain ⟨xs, hs, hx, hl⟩ := h
  obtain ⟨ys, ht, hy, hm⟩ := k
  refine ⟨xs ++ ys, by rw [hs, ht, List.append_assoc], fun x h => ?_, by simp [hm, hl]⟩
  exact (List.mem_append.1 h).elim (hx x) (hy x)

end Keeps

theorem keeps_takeToken (s : Reading) : Keeps s s.takeToken := by
  unfold takeToken
  split
  · rename_i t ts ha
    split
    · exact .refl s
    · rename_i ht
      exact ⟨[t], ha, by simpa using ht, by simp [Element.ofToken, Token.leaf]⟩
  · exact .refl s

theorem keeps_takeTokens (n : Nat) (s : Reading) : Keeps s (s.takeTokens n) := by
  induction n generalizing s with
  | zero => exact .refl s
  | succ n ih => exact (keeps_takeToken s).trans (ih _)

theorem keeps_bumps (n : Nat) (s : Reading) : Keeps s (s.bumps n) := by
  induction n generalizing s with
  | zero => exact .refl s
  | succ n ih => exact ((keeps_takeTokens _ s).trans (keeps_takeToken _)).trans (ih _)

end Reading

end RuleLang
