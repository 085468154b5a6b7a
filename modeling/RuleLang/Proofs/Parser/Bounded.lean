import Mathlib.Logic.Relation
import RuleLang.Fragment
import RuleLang.Proofs.Grammar.BudgetRules
import RuleLang.Proofs.Grammar.Shuts
import RuleLang.Proofs.Parser.Lossless

/-!
# How long reading takes

A file and every kind of fragment are read within a number of productions that grows with the number
of tokens only, whatever the tokens are. No production comes round to itself without a token in
between, and a loop over raw tokens takes one of them each time.

## Main definitions

* `Production.ofEntry` — where reading starts.
* `Ahead.TakesEach` — a loop over raw tokens takes a significant token each time.

## Main statements

* `Production.read?_bounded` — reading ends within 64 productions for each token and the end of the
  input.
-/

namespace RuleLang

open Grammar Production

/-! ## Where reading starts -/

/-- A file, or a fragment. -/
def Production.ofEntry : Option FragmentKind → Production
  | none => .compilationUnit
  | some fragment => fragment.production

theorem Production.awaits_ofEntry (entry : Option FragmentKind) : (ofEntry entry).awaits = false := by
  rcases entry with _ | _ | _ <;> rfl

namespace Grammar

variable {m : Nat} {a : Ahead}

/-- A fragment ends also where it takes no token. -/
theorem ends_unready {p : Production} (hp : p.awaits = false) (ho : p.opens = true) :
    Ends ranking 63 0 p.body a := by
  cases p with
  | pattern =>
    refine .inner (.seq_zero (.when (fun h => .weaken ?_) fun _ => .skip) fun _ =>
      .seq_zero (.eat rfl (fun _ => .skip) .skip) fun _ => .seq_zero (ends_call rfl rfl) fun _ =>
      .seq_zero (.expect rfl fun _ => .seq_zero ?_ fun _ => .recoverInParens) fun _ =>
      .seq_zero (.expect_skip rfl) fun _ =>
      .seq_zero (ends_whenAt_open rfl rfl rfl) fun _ => ends_whenAt_open rfl rfl rfl)
    · exact ends_open rfl rfl (ne_eof_of_isAt (Bool.and_eq_true_iff.1 h).1 rfl)
    · exact .whenAt (fun _ => .skip) fun _ => ends_later rfl
  | «attribute» =>
    refine .inner (.seq_zero (.look ?_) fun _ => .seq_zero .take fun _ => .look ?_)
    · split
      · split
        · exact .complain
        · exact .skip
      · exact .skip
    · split
      case h_1 => exact .inner (.seq_zero .take fun _ => ends_call rfl rfl)
      case h_6 =>
        split
        · exact .inner .take
        · exact .skip
      case h_7 => exact .inner .balanced
      case h_8 => exact .skip
      all_goals exact .inner .take
  | ruleDecl =>
    refine .node (.seq_zero .take fun _ => .seq_zero (ends_call rfl rfl) fun _ =>
      .seq_zero (ends_whenAt_open rfl rfl rfl) fun _ => .seq_zero (ends_call rfl rfl) fun _ =>
      .seq_zero (.when (fun _ => ends_call rfl rfl) fun _ => .skip) fun _ =>
      .seq_zero (.whenAt (fun _ => .skip) fun _ => .fail_seq .recoverTo) fun _ =>
      .seq_zero (ends_whenAt_open rfl rfl rfl) fun _ =>
      .seq_zero (.whenAt (fun _ => .skip) fun _ => .fail_seq .recoverTo) fun _ =>
      .seq_zero (ends_whenAt_open rfl rfl rfl) fun _ => .seq_zero (ends_call rfl rfl) fun _ =>
      .lineTrivia)
  | _ => first | (cases hp; done) | cases ho

end Grammar

/-- Reading that may start with a production ends for every token list. -/
theorem Production.exists_read?_of_awaits {p : Production} (hp : p.awaits = false)
    (limit : Option Nat) (tokens : List Token) : ∃ t, p.read? limit tokens = some t := by
  by_cases ho : p.opens = true
  · have hwp := ends_unready (a := tokens) hp ho (64 * tokens.length + 63) tokens.length false
      (Nat.le_refl _) (Nat.le_refl _)
    have hspec : ∀ q Q s, ranking.spec (64 * tokens.length + 63) q Q s.ahead s.recovering →
        ∃ t, enter body (64 * tokens.length + 63) q s = some t ∧ Q t.ahead t.recovering := by
      rintro q Q s ⟨hlt, hready, hQ⟩
      obtain ⟨t, ht, hafter⟩ := ranking.exists_enter obeyed hready hlt
      exact ⟨t, ht, hQ _ _ hafter⟩
    obtain ⟨t, ht, -⟩ := run_of_wp (s := { Reading.start tokens limit with entered := 1 }) hspec hwp
    exact ⟨t, ht⟩
  · obtain ⟨t, ht, -⟩ := p.exists_read? limit tokens fun h => absurd h ho
    exact ⟨t, ht⟩

theorem Production.read?_eq_read {p : Production} (hp : p.awaits = false) (limit : Option Nat)
    (tokens : List Token) : p.read? limit tokens = some (p.read limit tokens) := by
  obtain ⟨t, ht⟩ := exists_read?_of_awaits hp limit tokens
  rw [Production.read, ht, Option.getD_some]

/-! ## Cycles -/

namespace Grammar

variable {P : Type} {β : Prices P} {rules : P → Grammar P} {x y : P × Reading}

theorem Prices.ready_of_reaches (h : β.Obeyed rules) (hready : β.ready x.1 x.2.ahead)
    (hxy : Relation.ReflTransGen (Invokes rules) x y) : β.ready y.1 y.2.ahead := by
  induction hxy with
  | refl => exact hready
  | tail _ hyz ih => exact (Prices.worth_lt h ih hyz).1

/-- Along a path the worth falls. -/
theorem Prices.worth_lt_of_transGen (h : β.Obeyed rules) (hready : β.ready x.1 x.2.ahead)
    (hxy : Relation.TransGen (Invokes rules) x y) :
    β.ready y.1 y.2.ahead ∧ β.worth y < β.worth x := by
  induction hxy with
  | single hxy => exact Prices.worth_lt h hready hxy
  | tail _ hyz ih =>
    obtain ⟨hy, hlt⟩ := ih
    obtain ⟨hz, hlt'⟩ := Prices.worth_lt h hy hyz
    exact ⟨hz, hlt'.trans hlt⟩

end Grammar

/-! ## Loops over raw tokens -/

namespace Ahead

variable {a : Ahead}

/-- Each of the first `n` steps over the tokens ahead takes a significant token. -/
def TakesEach (n : Nat) (a : Ahead) : Prop :=
  ∀ i < n, (a.after (i + 1)).significant < (a.after i).significant

theorem takesEach_of_le {n : Nat} (h : n ≤ a.significant) : TakesEach n a := by
  intro i hi
  rw [significant_after, significant_after]
  omega

theorem countUntil_le {stops : Kind → Bool} (hstops : stops .eof = true) :
    a.countUntil stops ≤ a.significant := by
  induction a with
  | nil => exact Nat.le_refl _
  | cons t ts ih =>
    by_cases ht : t.isTrivia = true
    · simpa [countUntil, ht, significant_cons_trivia ht] using ih
    · by_cases hs : stops t.kind = true
      · simp [countUntil, ht, hs]
      · have he : t.kind ≠ .eof := fun he => hs (he ▸ hstops)
        rw [significant_cons (by simpa using ht) he]
        simpa [countUntil, ht, hs] using ih

theorem beforeCloseParen_le {depth n : Nat} (h : a.beforeCloseParen depth = some n) :
    n ≤ a.significant := by
  induction a generalizing depth n with
  | nil => cases h
  | cons t ts ih =>
    rw [beforeCloseParen] at h
    split at h
    · rename_i ht
      rw [significant_cons_trivia ht]
      exact ih h
    · rename_i ht
      split at h
      · cases h
        exact Nat.zero_le _
      split at h
      · cases h
      · rename_i he
        obtain ⟨n, hn, rfl⟩ := Option.map_eq_some_iff.1 h
        have he : t.kind ≠ .eof := fun he' => he (by simp [he'])
        rw [significant_cons (by simpa using ht) he]
        exact Nat.succ_le_succ (ih hn)

theorem significant_le_length (a : Ahead) : a.significant ≤ a.length := by
  induction a with
  | nil => exact Nat.le_refl _
  | cons t ts ih =>
    rw [List.length_cons, significant, countUntil]
    split
    · exact Nat.le_succ_of_le ih
    · split
      · exact Nat.zero_le _
      · exact Nat.succ_le_succ ih

end Ahead

/-! ## The bound -/

/-- A file and every kind of fragment are read to an end, within 64 productions for each token and
one more. Where a production that was reached comes round to itself, a significant token was taken.
Loops over raw tokens take a significant token each time. -/
theorem Production.read?_bounded (entry : Option FragmentKind) (limit : Option Nat)
    (tokens : List Token) :
    (∃ t, (ofEntry entry).read? limit tokens = some t ∧ t.entered ≤ 64 * (tokens.length + 1)) ∧
    (∀ p s u, Relation.ReflTransGen (Invokes body) (ofEntry entry, .start tokens limit) (p, s) →
      Relation.TransGen (Invokes body) (p, s) (p, u) →
      u.ahead.significant < s.ahead.significant) ∧
    ∀ a : Ahead,
      a.TakesEach (a.balanced 0).1 ∧ (∀ close, a.TakesEach (a.untilClose close 0)) ∧
      a.TakesEach (a.typeArguments 0) ∧
      (∀ stops, stops .eof = true → a.TakesEach (a.countUntil stops)) ∧
      ∀ n, a.beforeCloseParen 0 = some n → a.TakesEach n := by
  have hready (a : Ahead) : prices.ready (ofEntry entry) a := fun h => by
    rw [awaits_ofEntry] at h
    cases h
  refine ⟨?_, fun p s u hreach hcycle => ?_, fun a => ?_⟩
  · obtain ⟨t, ht⟩ := exists_read?_of_awaits (awaits_ofEntry entry) limit tokens
    refine ⟨t, ht, ?_⟩
    have haccount := Prices.account_of_enter prices_obeyed _ _ _ _ (hready tokens) ht
    have hprice : prices.price (ofEntry entry) < 64 := (price_bounds _).2
    have := Ahead.significant_le_length tokens
    simp only [Reading.account, Reading.start] at haccount
    omega
  · have hp := Prices.ready_of_reaches prices_obeyed (hready tokens) hreach
    have := (Prices.worth_lt_of_transGen prices_obeyed hp hcycle).2
    simp only [Prices.worth] at this
    omega
  · exact ⟨Ahead.takesEach_of_le a.balanced_le, fun close => Ahead.takesEach_of_le (a.untilClose_le close),
      Ahead.takesEach_of_le a.typeArguments_le,
      fun _ hstops => Ahead.takesEach_of_le (Ahead.countUntil_le hstops),
      fun _ hn => Ahead.takesEach_of_le (Ahead.beforeCloseParen_le hn)⟩

end RuleLang
