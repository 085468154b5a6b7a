import RuleLang.Proofs.Grammar.Capped
import RuleLang.Proofs.Parser.Lossless

/-!
# Parsing under a cap on errors

A cap on the number of syntax errors changes the list of syntax errors and nothing else: the tree
and the lexical errors are those of a run without a cap, and the syntax errors are the first ones of
that run, errors and warnings together.

## Main statements

* `Production.read_capped` — what a production reads under a cap.
* `parse_capped` — what parsing under a cap returns.
-/

namespace RuleLang

open Grammar

/-- A production reads under a cap what it reads without one, cut down to the first errors. -/
theorem Production.read_capped {p : Production} {tokens : List Token}
    (h : p.opens = true → p.starts tokens = true) (n : Nat) :
    p.read (some n) tokens = (p.read none tokens).capped n := by
  obtain ⟨t, ht, -⟩ := p.exists_read? none tokens h
  obtain ⟨u, hu, -⟩ := p.exists_read? (some n) tokens h
  have hcapped := (reads_of_enter ht).capped rfl n
  rw [Reading.start_capped] at hcapped
  have htu : u = t.capped n := (reads_of_enter hu).unique hcapped
  simp only [Production.read, ht, hu, Option.getD_some, htu]

theorem parseTokens_capped (tokens : List Token) (n : Nat) :
    parseTokens tokens (some n) =
      ((parseTokens tokens none).1, (parseTokens tokens none).2.take n) := by
  have hopens : ¬Production.compilationUnit.opens = true := by decide
  simp only [parseTokens, Production.read_capped (fun h => absurd h hopens) n,
    Reading.elements, Reading.recorded, Reading.group_capped, Reading.recorded_capped]

/-- The tree of a text does not depend on the cap. -/
theorem root_parse (source : List Char) (limit : Option Nat) :
    (parse source limit).root = (parse source).root := by
  cases limit with
  | none => rfl
  | some n => simp only [parse, parseTokens_capped]

/-- A cap that is not reached changes nothing. -/
theorem parse_of_length_le {source : List Char} {n : Nat}
    (h : (parse source).syntaxErrors.length ≤ n) : parse source (some n) = parse source := by
  have htake := List.take_of_length_le h
  simp only [parse, parseTokens_capped] at htake ⊢
  rw [htake]

/-- Capping changes nothing but the list of syntax errors: under a cap of `n` it holds the first `n`
of all syntax errors, and the first `n` of those under any wider cap, while the tree and the lexical
errors are the same. -/
theorem parse_capped (source : List Char) (n : Nat) :
    parse source (some n) =
        { parse source with syntaxErrors := (parse source).syntaxErrors.take n } ∧
      ∀ m, parse source (some (min n m)) =
        { parse source (some m) with
          syntaxErrors := (parse source (some m)).syntaxErrors.take n } := by
  refine ⟨by simp only [parse, parseTokens_capped], fun m => ?_⟩
  simp only [parse, parseTokens_capped, List.take_take]

end RuleLang
