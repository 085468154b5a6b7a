import RuleLang.Proofs.Grammar.Taking

/-!
# Reading without a bound

What the evaluator of instructions does, as a relation between the states before and after, with no
bound on the nesting of productions. A derivation of the relation follows the instructions, so what
holds of all reading is proved by one induction.

## Main definitions

* `Grammar.Reads` — reading by an instruction leads from one state to another.

## Main statements

* `Grammar.reads_of_enter`, `Grammar.exists_enter_of_reads` — the relation is what the evaluator
  does with any bound that is large enough.
* `Grammar.Reads.unique` — reading has one result.
* `Grammar.Reads.keeps` — reading neither drops nor doubles nor reorders tokens.
-/

namespace RuleLang.Grammar

variable {P : Type} {rules : P → Grammar P}

/-- Reading by an instruction leads from one state to another. -/
inductive Reads (rules : P → Grammar P) : Grammar P → Reading → Reading → Prop
  | skip (s : Reading) : Reads rules .skip s s
  | trivia (s : Reading) : Reads rules .trivia s s.takeTrivia
  | lineTrivia (s : Reading) : Reads rules .lineTrivia s s.takeLineTrivia
  | take (n : Nat) (s : Reading) : Reads rules (.take n) s (s.bumps n)
  | seq {f g : Grammar P} {s t u : Reading} : Reads rules f s t → Reads rules g t u →
    Reads rules (.seq f g) s u
  | look {choose : Ahead → Grammar P} {s t : Reading} : Reads rules (choose s.ahead) s t →
    Reads rules (.look choose) s t
  | ifRecovering {yes no : Grammar P} {s t : Reading} :
    Reads rules (if s.recovering then yes else no) s t → Reads rules (.ifRecovering yes no) s t
  | recovered (s : Reading) : Reads rules .recovered s { s with recovering := false }
  | complain (c : Complaint) (s : Reading) : Reads rules (.complain c) s (s.complain c)
  | call {p : P} {s t : Reading} :
    Reads rules (rules p) { s with entered := s.entered + 1 } t → Reads rules (.call p) s t
  | group {body : Grammar P} {s t : Reading} : Reads rules body { s with group := [] } t →
    Reads rules (.group body) s { t with group := t.group ++ s.group }
  | enclose {kind : Kind} {body : Grammar P} {s t : Reading} : Reads rules body s t →
    Reads rules (.enclose kind body) s { t with group := [.node kind t.group.reverse] }

/-! ## The evaluator -/

theorem reads_of_run {enter : P → Reading → Option Reading}
    (h : ∀ p s t, enter p s = some t → Reads rules (.call p) s t) {g : Grammar P}
    {s t : Reading} (hg : g.run enter s = some t) : Reads rules g s t := by
  induction g generalizing s t with
  | skip =>
    cases hg
    exact .skip s
  | trivia =>
    cases hg
    exact .trivia s
  | lineTrivia =>
    cases hg
    exact .lineTrivia s
  | take n =>
    cases hg
    exact .take n s
  | seq f g ihf ihg =>
    simp only [run] at hg
    split at hg
    · rename_i u hu
      exact .seq (ihf hu) (ihg hg)
    · cases hg
  | look choose ih => exact .look (ih _ hg)
  | ifRecovering yes no ihy ihn =>
    refine .ifRecovering ?_
    simp only [run] at hg
    split at hg
    · rename_i hs
      rw [if_pos hs]
      exact ihy hg
    · rename_i hs
      rw [if_neg hs]
      exact ihn hg
  | recovered =>
    cases hg
    exact .recovered s
  | complain c =>
    cases hg
    exact .complain c s
  | call p => exact h p s t hg
  | group body ih =>
    simp only [run] at hg
    split at hg
    · rename_i u hu
      cases hg
      exact .group (ih hu)
    · cases hg
  | enclose kind body ih =>
    simp only [run] at hg
    split at hg
    · rename_i u hu
      cases hg
      exact .enclose (ih hu)
    · cases hg

theorem reads_of_enter {depth : Nat} {p : P} {s t : Reading}
    (h : enter rules depth p s = some t) : Reads rules (.call p) s t := by
  induction depth generalizing p s t with
  | zero => cases h
  | succ depth ih => exact .call (reads_of_run (fun _ _ _ => ih) h)

/-- A bound that is large enough stays large enough when it grows. -/
theorem run_mono {enter enter' : P → Reading → Option Reading}
    (h : ∀ p s t, enter p s = some t → enter' p s = some t) {g : Grammar P} {s t : Reading}
    (hg : g.run enter s = some t) : g.run enter' s = some t := by
  induction g generalizing s t with
  | skip | trivia | lineTrivia | take | recovered | complain => exact hg
  | seq f g ihf ihg =>
    simp only [run] at hg ⊢
    split at hg
    · rename_i u hu
      rw [ihf hu]
      exact ihg hg
    · cases hg
  | look choose ih => exact ih _ hg
  | ifRecovering yes no ihy ihn =>
    simp only [run] at hg ⊢
    split at hg
    · rename_i hs
      rw [if_pos hs]
      exact ihy hg
    · rename_i hs
      rw [if_neg hs]
      exact ihn hg
  | call p => exact h p s t hg
  | group body ih | enclose kind body ih =>
    simp only [run] at hg ⊢
    split at hg
    · rename_i u hu
      rw [ih hu]
      exact hg
    · cases hg

theorem enter_mono {depth depth' : Nat} (hd : depth ≤ depth') {p : P} {s t : Reading}
    (h : enter rules depth p s = some t) : enter rules depth' p s = some t := by
  induction depth generalizing depth' p s t with
  | zero => cases h
  | succ depth ih =>
    obtain ⟨d, rfl⟩ := Nat.exists_eq_succ_of_ne_zero (n := depth') (by omega)
    exact run_mono (fun _ _ _ => ih (by omega)) h

theorem exists_run_of_reads {g : Grammar P} {s t : Reading} (h : Reads rules g s t) :
    ∃ depth, g.run (enter rules depth) s = some t := by
  induction h with
  | skip | trivia | lineTrivia | take | recovered | complain => exact ⟨0, rfl⟩
  | @seq f g s t u _ _ ihf ihg =>
    obtain ⟨d, hd⟩ := ihf
    obtain ⟨e, he⟩ := ihg
    refine ⟨max d e, ?_⟩
    have hd := run_mono (fun _ _ _ => enter_mono (Nat.le_max_left d e)) hd
    have he := run_mono (fun _ _ _ => enter_mono (Nat.le_max_right d e)) he
    simp only [run, hd, he]
  | look _ ih => exact ih
  | @ifRecovering yes no s t _ ih =>
    obtain ⟨d, hd⟩ := ih
    refine ⟨d, ?_⟩
    simp only [run]
    split at hd
    · rename_i hs
      rwa [if_pos hs]
    · rename_i hs
      rwa [if_neg hs]
  | call _ ih =>
    obtain ⟨d, hd⟩ := ih
    exact ⟨d + 1, hd⟩
  | group _ ih | enclose _ ih =>
    obtain ⟨d, hd⟩ := ih
    exact ⟨d, by simp only [run, hd]⟩

theorem exists_enter_of_reads {p : P} {s t : Reading} (h : Reads rules (.call p) s t) :
    ∃ depth, enter rules depth p s = some t :=
  exists_run_of_reads h

namespace Reads

/-- Reading has one result. -/
theorem unique {g : Grammar P} {s t u : Reading} (h : Reads rules g s t)
    (k : Reads rules g s u) : t = u := by
  obtain ⟨d, hd⟩ := exists_run_of_reads h
  obtain ⟨e, he⟩ := exists_run_of_reads k
  have hd := run_mono (fun _ _ _ => enter_mono (Nat.le_max_left d e)) hd
  have he := run_mono (fun _ _ _ => enter_mono (Nat.le_max_right d e)) he
  exact Option.some.inj (hd.symm.trans he)

/-! ## Tokens -/

/-- Reading neither drops nor doubles nor reorders tokens. -/
theorem keeps {g : Grammar P} {s t : Reading} (h : Reads rules g s t) : s.Keeps t := by
  induction h with
  | skip s => exact .refl s
  | trivia s => exact Reading.keeps_takeTokens _ s
  | lineTrivia s => exact Reading.keeps_takeTokens _ s
  | take n s => exact Reading.keeps_bumps n s
  | seq _ _ ihf ihg => exact ihf.trans ihg
  | look _ ih => exact ih
  | ifRecovering _ ih => exact ih
  | recovered s => exact .refl s
  | complain c s =>
    exact ⟨[], by simp [Reading.ahead_complain], by simp, by simp [Reading.group_complain]⟩
  | call _ ih => exact ih
  | group _ ih =>
    obtain ⟨taken, ha, hk, hl⟩ := ih
    exact ⟨taken, ha, hk, by simpa using hl⟩
  | enclose _ ih =>
    obtain ⟨taken, ha, hk, hl⟩ := ih
    exact ⟨taken, ha, hk, by simpa using hl⟩

end Reads

end RuleLang.Grammar
