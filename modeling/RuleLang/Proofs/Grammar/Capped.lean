import Mathlib.Data.List.DropRight
import RuleLang.Proofs.Grammar.Reads

/-!
# Reading under a cap on errors

A cap on the number of recorded errors shows in the recorded errors alone. An error beyond the cap
is not recorded, but it puts reading out of step like any other, so every decision is the same as
without the cap.

## Main definitions

* `Reading.capped` — a state as it is when at most `n` errors are recorded.

## Main statements

* `Grammar.Reads.limit_eq` — reading leaves the cap as it is.
* `Grammar.Reads.capped` — whatever is read without a cap is read likewise under any cap.
-/

namespace RuleLang

namespace Reading

variable {s : Reading} {n : Nat}

/-- The state with the first `n` of its errors, under the cap that keeps no more. -/
def capped (n : Nat) (s : Reading) : Reading :=
  { s with errors := s.errors.rtake n, limit := some n }

@[simp] theorem ahead_capped : (s.capped n).ahead = s.ahead := rfl

@[simp] theorem group_capped : (s.capped n).group = s.group := rfl

@[simp] theorem recovering_capped : (s.capped n).recovering = s.recovering := rfl

theorem recorded_capped : (s.capped n).errors.reverse = s.errors.reverse.take n := by
  rw [capped, List.rtake_eq_reverse_take_reverse, List.reverse_reverse]

theorem start_capped (tokens : List Token) :
    (start tokens none).capped n = start tokens (some n) := by
  simp only [start, capped, List.rtake_nil]

/-! ## Taking tokens -/

theorem takeToken_capped : (s.capped n).takeToken = s.takeToken.capped n := by
  obtain ⟨ahead, _, _, _, _, _⟩ := s
  cases ahead with
  | nil => rfl
  | cons t ts =>
    simp only [takeToken, capped]
    split <;> rfl

theorem takeTokens_capped (k : Nat) (s : Reading) :
    (s.capped n).takeTokens k = (s.takeTokens k).capped n := by
  induction k generalizing s with
  | zero => rfl
  | succ k ih => rw [takeTokens, takeToken_capped, ih, takeTokens]

theorem takeTrivia_capped : (s.capped n).takeTrivia = s.takeTrivia.capped n :=
  takeTokens_capped _ s

theorem takeLineTrivia_capped : (s.capped n).takeLineTrivia = s.takeLineTrivia.capped n :=
  takeTokens_capped _ s

theorem bumps_capped (k : Nat) (s : Reading) : (s.capped n).bumps k = (s.bumps k).capped n := by
  induction k generalizing s with
  | zero => rfl
  | succ k ih => rw [bumps, bump, takeTrivia_capped, takeToken_capped, ih, bumps, bump]

/-! ## Complaints -/

theorem hasRoom_of_limit_none (h : s.limit = none) : s.hasRoom = true := by
  simp [hasRoom, h]

theorem hasRoom_capped : (s.capped n).hasRoom = decide (s.errors.length < n) := by
  simp only [hasRoom, capped, Option.all_some, List.rtake, List.length_drop]
  grind

/-- An error beyond the cap is the one that the capped list leaves out. -/
theorem rtake_cons_of_le {e : SyntaxError} {es : List SyntaxError} (h : n ≤ es.length) :
    (e :: es).rtake n = es.rtake n := by
  have hl : (e :: es).length - n = (es.length - n) + 1 := by
    rw [List.length_cons]
    omega
  rw [List.rtake, List.rtake, hl, List.drop_succ_cons]

theorem rtake_of_length_le {es : List SyntaxError} (h : es.length ≤ n) : es.rtake n = es := by
  rw [List.rtake, Nat.sub_eq_zero_of_le h, List.drop_zero]

/-- Recording under the cap, whether there is room or not, is recording and then cutting off. -/
theorem complain_capped (c : Complaint) (h : s.limit = none) :
    (s.capped n).complain c = (s.complain c).capped n := by
  by_cases hn : s.errors.length < n
  · have hfull : (⟨c, s.ahead.span⟩ :: s.errors : List SyntaxError).rtake n =
        ⟨c, s.ahead.span⟩ :: s.errors.rtake n := by
      rw [rtake_of_length_le (by rw [List.length_cons]; omega), rtake_of_length_le (by omega)]
    unfold complain
    simp only [hasRoom_of_limit_none h, hasRoom_capped, hn, decide_true, if_true,
      recovering_capped, ahead_capped]
    split
    · simp only [capped, hfull]
    · split
      · rfl
      · simp only [capped, hfull]
  · have hcut := rtake_cons_of_le (e := ⟨c, s.ahead.span⟩) (Nat.le_of_not_lt hn)
    unfold complain
    simp only [hasRoom_of_limit_none h, hasRoom_capped, hn, decide_false, if_true,
      recovering_capped, Bool.false_eq_true, if_false]
    split
    · simp only [capped, hcut]
    · split
      · rfl
      · simp only [capped, hcut]

/-! ## The cap stays -/

theorem limit_takeToken : s.takeToken.limit = s.limit := by
  obtain ⟨ahead, _, _, _, _, _⟩ := s
  cases ahead with
  | nil => rfl
  | cons t ts =>
    simp only [takeToken]
    split <;> rfl

theorem limit_takeTokens (k : Nat) (s : Reading) : (s.takeTokens k).limit = s.limit := by
  induction k generalizing s with
  | zero => rfl
  | succ k ih => exact (ih _).trans limit_takeToken

theorem limit_bumps (k : Nat) (s : Reading) : (s.bumps k).limit = s.limit := by
  induction k generalizing s with
  | zero => rfl
  | succ k ih => exact (ih _).trans (limit_takeToken.trans (limit_takeTokens _ s))

theorem limit_complain (c : Complaint) : (s.complain c).limit = s.limit := by
  unfold complain
  dsimp only
  split <;> split <;> first | rfl | (split <;> rfl)

end Reading

namespace Grammar.Reads

variable {P : Type} {rules : P → Grammar P} {g : Grammar P} {s t : Reading}

theorem limit_eq (h : Reads rules g s t) : t.limit = s.limit := by
  induction h with
  | skip | recovered => rfl
  | trivia s | lineTrivia s => exact Reading.limit_takeTokens _ s
  | take k s => exact Reading.limit_bumps k s
  | seq _ _ ihf ihg => exact ihg.trans ihf
  | complain => exact Reading.limit_complain _
  | look _ ih | ifRecovering _ ih | call _ ih | group _ ih | enclose _ ih => exact ih

/-- Whatever is read without a cap on errors is read likewise under any cap. -/
theorem capped (h : Reads rules g s t) (hs : s.limit = none) (n : Nat) :
    Reads rules g (s.capped n) (t.capped n) := by
  induction h with
  | skip s => exact .skip _
  | trivia s => exact Reading.takeTrivia_capped (s := s) ▸ .trivia (s.capped n)
  | lineTrivia s => exact Reading.takeLineTrivia_capped (s := s) ▸ .lineTrivia (s.capped n)
  | take k s => exact Reading.bumps_capped k s ▸ .take k (s.capped n)
  | seq hf _ ihf ihg => exact .seq (ihf hs) (ihg (hf.limit_eq.trans hs))
  | look _ ih => exact .look (ih hs)
  | ifRecovering _ ih => exact .ifRecovering (ih hs)
  | recovered s => exact .recovered (s.capped n)
  | complain c s => exact Reading.complain_capped c hs ▸ .complain c (s.capped n)
  | call _ ih => exact .call (ih hs)
  | @group _ s _ _ ih => exact .group (s := s.capped n) (ih hs)
  | enclose _ ih => exact .enclose (ih hs)

end Grammar.Reads

end RuleLang
