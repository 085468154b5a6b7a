import RuleLang.Recipe.Run

/-!
# What a run applies

A run notes the recipes that changed the text, one after another. Composite recipes are not among
them: they give way to their steps, and one without steps asks for nothing. So whatever holds of the
recipes that a list comes down to holds of all that a run of it applies.

## Main statements

* `Recipe.visit_composite_eq_nil` — a composite recipe asks for nothing itself.
* `Runner.applied_run` — a run applies none but the recipes that it was given.
-/

namespace RuleLang

/-! ## Recipes that ask for nothing -/

/-- A visitor whose calls ask for nothing adds nothing to a walk. -/
theorem Visitor.edits_follow {σ : Type} {v : Visitor σ}
    (henter : ∀ x s, (v.enter x s).edits = []) (hleave : ∀ x s, (v.leave x s).edits = [])
    (htoken : ∀ x s, (v.token x s).edits = []) (index : TreeIndex) (inside : Option Nat)
    (w : Walk σ) (es : List Event) :
    (v.follow index inside w es).edits = w.edits := by
  have hafter (w : Walk σ) {r : Reaction σ} (h : r.edits = []) : (w.after r).edits = w.edits := by
    rw [Walk.after, h, List.append_nil]
  fun_induction Visitor.follow v index inside w es with
  | case1 => rfl
  -- below a node that is passed over nothing is called
  | case2 | case3 | case4 => assumption
  | case5 w p es next ih => exact ih.trans (hafter w (hleave _ _))
  | case6 w p es r hr ih => exact ih.trans (hafter w (henter _ _))
  | case7 w p es r hr ih => exact ih.trans (hafter w (henter _ _))
  | case8 w p es r hr => exact hafter w (henter _ _)
  | case9 w p es r hr => exact hafter w (htoken _ _)
  | case10 w p es r hr ih => exact ih.trans (hafter w (htoken _ _))
  | case11 w p es next ih => exact ih.trans (hafter w (hleave _ _))

/-- A composite recipe asks for nothing itself. -/
theorem Recipe.visit_composite_eq_nil (info : RecipeInfo) (steps : List Recipe)
    (tree : SyntaxTree) : (composite info steps).visit tree = [] :=
  Visitor.edits_follow (fun _ _ => rfl) (fun _ _ => rfl) (fun _ _ => rfl) _ _ _ _

/-! ## Runs

A list `ids` with what was applied before and with the identifiers of the recipes also holds what is
applied later. A run starts with nothing applied.
-/

namespace Runner

variable {r : Runner} {p : Recipe} {recipes : List Recipe} {s s' : RunState} {changed : Bool}
  {ids : List String}

theorem applied_step (hs : s.applied ⊆ ids) (hp : p.id ∈ ids)
    (h : r.step p s = .ok (s', changed)) : s'.applied ⊆ ids := by
  rw [step] at h
  dsimp only at h
  split at h
  · cases h
    exact hs
  · cases hw : s.tree.apply r.rewrite (s.tree.id + 1) (p.visit s.tree) with
    | error => simp [hw, Except.bind] at h
    | ok rewritten =>
      simp only [hw, Except.bind] at h
      split at h
      · cases h
        exact hs
      · cases hd : Document.read r.rereadConfig (s.tree.id + 1) s.tree.sourceId rewritten.text with
        | error => simp [hd, Except.map] at h
        | ok document =>
          simp only [hd, Except.map] at h
          cases h
          exact List.append_subset.2 ⟨hs, List.cons_subset.2 ⟨hp, List.nil_subset _⟩⟩

theorem applied_cycle (hs : s.applied ⊆ ids) (hrecipes : ∀ p ∈ recipes, p.id ∈ ids)
    (h : r.cycle recipes s = .ok (s', changed)) : s'.applied ⊆ ids := by
  induction recipes generalizing s s' changed with
  | nil =>
    cases h
    exact hs
  | cons p recipes ih =>
    rw [cycle] at h
    cases hstep : r.step p s with
    | error => simp [hstep, Except.bind] at h
    | ok first =>
      obtain ⟨t, now⟩ := first
      simp only [hstep, Except.bind] at h
      cases hrest : r.cycle recipes t with
      | error => simp [hrest, Except.map] at h
      | ok rest =>
        simp only [hrest, Except.map] at h
        cases h
        have ht := applied_step hs (hrecipes p List.mem_cons_self) hstep
        exact ih ht (fun q hq => hrecipes q (List.mem_cons_of_mem p hq)) hrest

theorem applied_cycles {n count : Nat} (hs : s.applied ⊆ ids)
    (hrecipes : ∀ p ∈ recipes, p.id ∈ ids) (h : r.cycles recipes n s = .ok (s', count)) :
    s'.applied ⊆ ids := by
  induction n generalizing s s' count with
  | zero =>
    cases h
    exact hs
  | succ n ih =>
    rw [cycles] at h
    cases hcycle : r.cycle recipes s with
    | error => simp [hcycle, Except.bind] at h
    | ok first =>
      obtain ⟨t, changed⟩ := first
      have ht := applied_cycle hs hrecipes hcycle
      simp only [hcycle, Except.bind] at h
      split at h
      · cases hrest : r.cycles recipes n t with
        | error => simp [hrest, Except.map] at h
        | ok rest =>
          simp only [hrest, Except.map] at h
          cases h
          exact ih ht hrest
      · cases h
        exact ht

/-- A run applies none but the recipes that it was given, composites replaced by their steps. -/
theorem applied_run {sourceId : String} {source : List Char} {out : RunOutput}
    (h : r.run sourceId source recipes = .ok out) :
    out.applied ⊆ (Recipe.flatten recipes).map Recipe.id := by
  rw [run] at h
  cases hread : Document.read r.parser 0 sourceId source with
  | error => simp [hread, Except.bind] at h
  | ok document =>
    simp only [hread, Except.bind] at h
    cases hc : r.cycles (Recipe.flatten recipes) r.maxCycles ⟨document.tree, source,
      document.diagnostics.filter Diagnostic.isError, document.diagnostics, []⟩ with
    | error => simp [hc, Except.map] at h
    | ok last =>
      simp only [hc, Except.map] at h
      cases h
      exact applied_cycles (List.nil_subset _) (fun p hp => List.mem_map_of_mem hp) hc

end Runner

end RuleLang
