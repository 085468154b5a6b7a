import Mathlib.Order.Bounds.Defs
import RuleLang.Proofs.Recipe.Converged

/-!
# Runs as passes over a text

A run carries a tree, a text and a list of errors from step to step. What it comes to is told by the
text alone: a step is what a recipe makes of the text, read anew, a pass is one step for each
recipe, and a run is a number of passes. This number is the least after which a pass has no step
that changes the text, unless the passes that are allowed come to an end before.

## Main definitions

* `Recipe.textStep` — what a recipe makes of a text.
* `Recipe.pass`, `Recipe.passes` — one pass and a number of passes, with the recipes that changed
  the text.
* `Recipe.SettledAfter` — after a number of passes no step of the next one changes the text.

## Main statements

* `Recipe.map_fst_pass` — a pass is the left fold of the steps.
* `Runner.pass_of_cycle` — one pass of a run is a pass over its text.
* `Runner.run_eq_passes` — a run is a number of passes over the source, the least that settles it.
-/

namespace RuleLang

/-! ## Steps and passes -/

namespace Recipe

/-- What a recipe makes of a text: the text of the tree after the edits of a visit. -/
def textStep (p : Recipe) (text : List Char) : Except Failure (List Char) :=
  let tree := SyntaxTree.ofElement 0 "" (parse text).root
  tree.textAfter (p.visit tree)

/-- What a pass makes of a text, and the recipes that changed it, in their order. -/
def pass : List Recipe → List Char → Except Failure (List Char × List String)
  | [], text => .ok (text, [])
  | p :: ps, text =>
    (p.textStep text).bind fun new =>
      (pass ps new).map fun (final, ids) => (final, if new = text then ids else p.id :: ids)

/-- What a number of passes makes of a text, and the recipes that changed it, in their order. -/
def passes (ps : List Recipe) : Nat → List Char → Except Failure (List Char × List String)
  | 0, text => .ok (text, [])
  | k + 1, text =>
    (pass ps text).bind fun (new, ids) =>
      (passes ps k new).map fun (final, more) => (final, ids ++ more)

/-- After so many passes over a text no step of the next one changes it. -/
def SettledAfter (ps : List Recipe) (text : List Char) (k : Nat) : Prop :=
  ∃ new ids, passes ps k text = .ok (new, ids) ∧ pass ps new = .ok (new, [])

variable {p : Recipe} {ps : List Recipe} {text new : List Char} {ids : List String} {k : Nat}

/-- A recipe that asks for nothing leaves the text as it is. -/
theorem textStep_of_visit_eq_nil
    (h : p.visit (SyntaxTree.ofElement 0 "" (parse text).root) = []) :
    p.textStep text = .ok text := by
  rw [textStep, h]
  exact congrArg Except.ok (SyntaxTree.shows_ofElement 0 "" text none).text_eq

/-- A recipe that looks at the elements alone makes of any tree of a text what it makes of the
text. -/
theorem ReadsContent.textStep_eq {t : SyntaxTree} (hp : p.ReadsContent) (ht : t.Shows text)
    (hnew : t.textAfter (p.visit t) = .ok new) : p.textStep text = .ok new := by
  have hfresh := SyntaxTree.shows_ofElement 0 "" text none
  rw [textStep, hp _ _ (ht.root_eq hfresh)]
  exact ht.textAfter_readdress hfresh hnew

theorem pass_cons (hstep : p.textStep text = .ok new) {final : List Char}
    (hrest : pass ps new = .ok (final, ids)) :
    pass (p :: ps) text = .ok (final, if new = text then ids else p.id :: ids) := by
  simp only [pass, hstep, Except.bind, hrest, Except.map]

/-- The text that a pass makes is the left fold of the steps. -/
theorem map_fst_pass (ps : List Recipe) (text : List Char) :
    (pass ps text).map Prod.fst = ps.foldlM (fun text p => p.textStep text) text := by
  induction ps generalizing text with
  | nil => rfl
  | cons p ps ih =>
    rw [List.foldlM_cons, pass]
    cases p.textStep text with
    | error => rfl
    | ok new =>
      refine Eq.trans ?_ (ih new)
      simp only [Except.bind]
      cases pass ps new <;> rfl

theorem passes_succ (hpass : pass ps text = .ok (new, ids)) (k : Nat) :
    passes ps (k + 1) text =
      (passes ps k new).map fun (final, more) => (final, ids ++ more) := by
  simp only [passes, hpass, Except.bind]

/-- One pass ahead the text is settled one pass earlier. -/
theorem settledAfter_succ (hpass : pass ps text = .ok (new, ids)) :
    SettledAfter ps text (k + 1) ↔ SettledAfter ps new k := by
  rw [SettledAfter, passes_succ hpass, SettledAfter]
  cases passes ps k new with
  | error => simp [Except.map]
  | ok last =>
    obtain ⟨final, more⟩ := last
    simp [Except.map]

/-- The text is settled before the first pass if that has no step that changes it. -/
theorem settledAfter_zero : SettledAfter ps text 0 ↔ pass ps text = .ok (text, []) := by
  simp [SettledAfter, passes]

end Recipe

namespace Runner

open Recipe RunState

variable {r : Runner} {p : Recipe} {recipes : List Recipe} {s s' : RunState} {changed : Bool}

/-! ## Runs -/

/-- A step of a run is what the recipe makes of the text. -/
theorem textStep_of_step (hp : p.ReadsContent) (hs : s.Ready)
    (h : r.step p s = .ok (s', changed)) :
    s'.Ready ∧ p.textStep s.text = .ok s'.text ∧
      if s'.text = s.text then changed = false ∧ s'.applied = s.applied
      else changed = true ∧ s'.applied = s.applied ++ [p.id] := by
  rcases step_cases hs h with ⟨rfl, hsame, hkeeps⟩ | ⟨rfl, hready, htext, hother, happlied⟩
  · rw [Recipe.Keeps, hs.text_eq] at hkeeps
    rw [if_pos hsame.text, hsame.text]
    exact ⟨hsame.ready hs, hp.textStep_eq hs hkeeps, rfl, hsame.applied⟩
  · rw [if_neg hother]
    exact ⟨hready, hp.textStep_eq hs htext, rfl, happlied⟩

/-- One pass of a run is a pass over its text. -/
theorem pass_of_cycle (hcontent : ∀ p ∈ recipes, p.ReadsContent) (hs : s.Ready)
    (h : r.cycle recipes s = .ok (s', changed)) :
    s'.Ready ∧ ∃ ids, pass recipes s.text = .ok (s'.text, ids) ∧
      s'.applied = s.applied ++ ids ∧ (changed = false ↔ ids = []) := by
  induction recipes generalizing s s' changed with
  | nil =>
    cases h
    exact ⟨hs, [], rfl, (List.append_nil _).symm, by simp⟩
  | cons p recipes ih =>
    rw [cycle] at h
    cases hstep : r.step p s with
    | error => simp [hstep, Except.bind] at h
    | ok first =>
      obtain ⟨t, now⟩ := first
      simp only [hstep, Except.bind] at h
      cases hrest : r.cycle recipes t with
      | error => simp [hrest, Except.map] at h
      | ok rest =>
        obtain ⟨u, later⟩ := rest
        simp only [hrest, Except.map, Except.ok.injEq, Prod.mk.injEq] at h
        obtain ⟨rfl, rfl⟩ := h
        obtain ⟨ht, htext, hnow⟩ := textStep_of_step (hcontent p List.mem_cons_self) hs hstep
        obtain ⟨hu, ids, hpass, happlied, hlater⟩ :=
          ih (fun q hq => hcontent q (List.mem_cons_of_mem p hq)) ht hrest
        refine ⟨hu, _, pass_cons htext hpass, ?_⟩
        by_cases hsame : t.text = s.text
        · rw [if_pos hsame] at hnow ⊢
          rw [happlied, hnow.2, hnow.1, Bool.false_or]
          exact ⟨rfl, hlater⟩
        · rw [if_neg hsame] at hnow ⊢
          rw [happlied, hnow.2, hnow.1, List.append_assoc]
          exact ⟨rfl, by simp⟩

/-- The passes of a run are passes over its text. Before the last of them the text is not settled,
and after it the text is, unless it was the last one allowed. -/
theorem passes_of_cycles {n count : Nat} (hcontent : ∀ p ∈ recipes, p.ReadsContent) (hs : s.Ready)
    (h : r.cycles recipes n s = .ok (s', count)) :
    ∃ ids, passes recipes count s.text = .ok (s'.text, ids) ∧ s'.applied = s.applied ++ ids ∧
      (ids = [] ↔ count = 0) ∧ count ≤ n ∧ (count < n → SettledAfter recipes s.text count) ∧
      ∀ k < count, ¬SettledAfter recipes s.text k := by
  induction n generalizing s s' count with
  | zero =>
    cases h
    exact ⟨[], rfl, (List.append_nil _).symm, by simp, le_refl 0, nofun, nofun⟩
  | succ n ih =>
    rw [cycles] at h
    cases hcycle : r.cycle recipes s with
    | error => simp [hcycle, Except.bind] at h
    | ok first =>
      obtain ⟨t, changed⟩ := first
      obtain ⟨ht, ids, hpass, happlied, hchanged⟩ := pass_of_cycle hcontent hs hcycle
      simp only [hcycle, Except.bind] at h
      cases changed with
      | false =>
        obtain rfl := hchanged.1 rfl
        cases h
        rw [((cycle_cases hs hcycle).2 rfl).1.text] at hpass ⊢
        exact ⟨[], rfl, happlied, by simp, Nat.zero_le _, fun _ => settledAfter_zero.2 hpass, nofun⟩
      | true =>
        cases hrest : r.cycles recipes n t with
        | error => simp [hrest, Except.map] at h
        | ok rest =>
          obtain ⟨u, later⟩ := rest
          simp only [hrest, Except.map, if_true, Except.ok.injEq, Prod.mk.injEq] at h
          obtain ⟨rfl, rfl⟩ := h
          have hids : ids ≠ [] := fun hnil => Bool.noConfusion (hchanged.2 hnil)
          obtain ⟨more, hpasses, hmore, -, hle, hsettled, hbefore⟩ := ih ht hrest
          refine ⟨ids ++ more, ?_, ?_, by simp [hids], Nat.succ_le_succ hle, fun hlt => ?_, ?_⟩
          · rw [passes_succ hpass, hpasses]
            rfl
          · rw [hmore, happlied, List.append_assoc]
          · exact (settledAfter_succ hpass).2 (hsettled (Nat.lt_of_succ_lt_succ hlt))
          · rintro (_ | k) hk
            · rw [settledAfter_zero, hpass]
              simp [hids]
            · rw [settledAfter_succ hpass]
              exact hbefore k (Nat.lt_of_succ_lt_succ hk)

/-- A run of recipes that look at the elements alone is a number of passes over the source. Its text
and its list of recipes are those of the passes, and their number is the least after which no step
of the next pass changes the text, or else the number of passes that are allowed. The run has
changed the source if the texts differ, and there are recipes in the list if there are passes. -/
theorem run_eq_passes {n : Nat} {sourceId : String} {source : List Char} {out : RunOutput}
    (hcontent : ∀ p ∈ flatten recipes, p.ReadsContent)
    (hrun : (r.withMaxCycles n).run sourceId source recipes = .ok out) :
    passes (flatten recipes) out.cycles source = .ok (out.text, out.applied) ∧
      IsLeast {k | k = max n 1 ∨ SettledAfter (flatten recipes) source k} out.cycles ∧
      (out.changed = true ↔ out.text ≠ source) ∧ (out.applied = [] ↔ out.cycles = 0) := by
  rw [run] at hrun
  cases hread : Document.read (r.withMaxCycles n).parser 0 sourceId source with
  | error => simp [hread, Except.bind] at hrun
  | ok document =>
    simp only [hread, Except.bind] at hrun
    rw [show (r.withMaxCycles n).maxCycles = max n 1 from rfl] at hrun
    generalize hs : RunState.mk document.tree source
      (document.diagnostics.filter Diagnostic.isError) document.diagnostics [] = s at hrun
    have hready : s.Ready := by
      rw [← hs]
      exact shows_read hread
    cases hc : (r.withMaxCycles n).cycles (flatten recipes) (max n 1) s with
    | error => simp [hc, Except.map] at hrun
    | ok final =>
      obtain ⟨t, count⟩ := final
      simp only [hc, Except.map, Except.ok.injEq] at hrun
      subst hrun
      obtain ⟨ids, hpasses, happlied, hids, hle, hsettled, hbefore⟩ :=
        passes_of_cycles hcontent hready hc
      obtain rfl : t.applied = ids := by rw [happlied, ← hs, List.nil_append]
      rw [show s.text = source by rw [← hs]] at hpasses hsettled hbefore
      refine ⟨hpasses, ⟨?_, ?_⟩, by simp, hids⟩
      · exact (Nat.lt_or_eq_of_le hle).elim (fun hlt => .inr (hsettled hlt)) .inl
      · rintro k (rfl | hk)
        · exact hle
        · exact Nat.le_of_not_lt fun hlt => hbefore k hlt hk

/-- The word for one symbol takes one pass of the five allowed. -/
theorem run_eq_passes_lhsLogical :
    let source := "rule R when A() && B() then end".toList
    ∃ out, (({} : Runner).withMaxCycles 5).run "a.drl" source [lhsLogical] = .ok out ∧
      passes [lhsLogical] 1 source = .ok (out.text, ["drl/lhs-logical-operators"]) ∧
      IsLeast {k | k = 5 ∨ SettledAfter [lhsLogical] source k} 1 ∧
      out.text = "rule R when A() and B() then end".toList := by
  intro source
  have hrun : (({} : Runner).withMaxCycles 5).run "a.drl" source [lhsLogical] =
      .ok ⟨"rule R when A() and B() then end".toList, [], true, 1,
        ["drl/lhs-logical-operators"]⟩ := by
    decide +kernel
  have hcontent : ∀ p ∈ flatten [lhsLogical], p.ReadsContent :=
    List.forall_mem_singleton.2 readsContent_lhsLogical
  obtain ⟨hpasses, hleast, -⟩ := run_eq_passes hcontent hrun
  exact ⟨_, hrun, hpasses, hleast, rfl⟩

end Runner

end RuleLang
