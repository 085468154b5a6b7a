import RuleLang.Proofs.Grammar.Mends

/-!
# Where errors stand

Every error is recorded at the current token, and the current token only moves forward. So each
error covers a token, and errors are recorded in the order of their offsets, however many of them
are kept.

## Main definitions

* `Reading.Anchored` — the errors so far stand at tokens, in order and not beyond the current one.

## Main statements

* `Grammar.Reads.anchored` — reading keeps the errors anchored.
-/

namespace RuleLang

open Grammar

/-- The current token is one of the tokens ahead. -/
theorem Covers.exists_span_eq {n : Nat} {text : List Char} {a : Ahead} (h : Covers n text a) :
    ∃ t ∈ a, a.span = t.span := by
  induction h with
  | @eof t kind =>
    exact ⟨t, List.mem_cons_self, Ahead.span_cons (Ahead.isTrivia_of_kind_eof kind) []⟩
  | @cons t rest ts _ _ tail ih =>
    cases ht : t.isTrivia with
    | false => exact ⟨t, List.mem_cons_self, Ahead.span_cons ht ts⟩
    | true =>
      obtain ⟨u, hu, hspan⟩ := ih
      exact ⟨u, List.mem_cons_of_mem t hu, (Ahead.span_cons_of_isTrivia ht tail.ne_nil).trans hspan⟩

namespace Reading

/-- The errors recorded so far, the newest first, stand at tokens of the list that is read. None
stands beyond the current token, and none before an older one. -/
structure Anchored (tokens : List Token) (s : Reading) : Prop where
  ahead : s.ahead <:+ tokens
  covers : ∃ n text, Covers n text s.ahead
  at_token : ∀ e ∈ s.errors, ∃ t ∈ tokens, e.span = t.span
  reached : ∀ e ∈ s.errors, e.span.start ≤ s.ahead.span.start
  ordered : s.errors.Pairwise fun e f => f.span.start ≤ e.span.start

namespace Anchored

variable {tokens : List Token} {s t : Reading}

/-- Before reading there are no errors. -/
theorem start {n : Nat} {text : List Char} (h : Covers n text tokens) (limit : Option Nat) :
    (Reading.start tokens limit).Anchored tokens where
  ahead := List.suffix_refl tokens
  covers := ⟨n, text, h⟩
  at_token _ he := (List.not_mem_nil he).elim
  reached _ he := (List.not_mem_nil he).elim
  ordered := .nil

/-- Only errors and the tokens ahead matter. -/
theorem congr (h : s.Anchored tokens) (herrors : t.errors = s.errors) (hahead : t.ahead = s.ahead) :
    t.Anchored tokens where
  ahead := hahead ▸ h.ahead
  covers := hahead ▸ h.covers
  at_token := herrors ▸ h.at_token
  reached := by
    rw [herrors, hahead]
    exact h.reached
  ordered := herrors ▸ h.ordered

theorem takeToken (h : s.Anchored tokens) : s.takeToken.Anchored tokens := by
  obtain ⟨ahead, group, errors, recovering, limit, entered⟩ := s
  cases ahead with
  | nil => exact h
  | cons t ts =>
    by_cases ht : t.kind = .eof
    · simpa [Reading.takeToken, ht] using h
    · rw [takeToken_cons rfl ht]
      obtain ⟨n, text, hcovers⟩ := h.covers
      obtain ⟨-, rest, htail⟩ := hcovers.tail ht
      exact ⟨(List.suffix_cons t ts).trans h.ahead, ⟨_, rest, htail⟩, h.at_token,
        fun e he => Nat.le_trans (h.reached e he) (hcovers.span_start_le ht), h.ordered⟩

theorem takeTokens (n : Nat) (h : s.Anchored tokens) : (s.takeTokens n).Anchored tokens := by
  induction n generalizing s with
  | zero => exact h
  | succ n ih => exact ih h.takeToken

theorem bumps (n : Nat) (h : s.Anchored tokens) : (s.bumps n).Anchored tokens := by
  rw [bumps_eq_takeTokens]
  exact h.takeTokens _

/-- A complaint is about the current token. -/
theorem complain (h : s.Anchored tokens) (c : Complaint) : (s.complain c).Anchored tokens := by
  have hrecorded : Anchored tokens { s with errors := ⟨c, s.ahead.span⟩ :: s.errors } := by
    obtain ⟨n, text, hcovers⟩ := h.covers
    obtain ⟨t, ht, hspan⟩ := hcovers.exists_span_eq
    refine ⟨h.ahead, h.covers, fun e he => ?_, fun e he => ?_, ?_⟩
    · rcases List.mem_cons.1 he with rfl | he
      · exact ⟨t, h.ahead.subset ht, hspan⟩
      · exact h.at_token e he
    · rcases List.mem_cons.1 he with rfl | he
      · exact Nat.le_refl _
      · exact h.reached e he
    · exact List.pairwise_cons.2 ⟨h.reached, h.ordered⟩
  unfold Reading.complain
  dsimp only
  have hkept : Anchored tokens (if s.hasRoom then
      { s with errors := ⟨c, s.ahead.span⟩ :: s.errors } else s) := by
    split
    · exact hrecorded
    · exact h
  split
  · exact hkept
  split
  · exact h
  · exact hkept.congr rfl rfl

end Anchored

end Reading

/-- Reading keeps the errors anchored. -/
theorem Grammar.Reads.anchored {P : Type} {rules : P → Grammar P} {g : Grammar P} {s t : Reading}
    {tokens : List Token} (h : Reads rules g s t) (hs : s.Anchored tokens) : t.Anchored tokens := by
  induction h with
  | skip => exact hs
  | trivia => exact hs.takeTokens _
  | lineTrivia => exact hs.takeTokens _
  | take n => exact hs.bumps n
  | seq _ _ ihf ihg => exact ihg (ihf hs)
  | look _ ih | ifRecovering _ ih => exact ih hs
  | recovered => exact hs.congr rfl rfl
  | complain c => exact hs.complain c
  | call _ ih | group _ ih | enclose _ ih => exact (ih (hs.congr rfl rfl)).congr rfl rfl

end RuleLang
