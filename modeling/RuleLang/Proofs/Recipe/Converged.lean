import RuleLang.Proofs.Parser.Capped
import RuleLang.Proofs.Recipe.Content
import RuleLang.Proofs.Rewrite.Outcome
import RuleLang.Recipe.Run

/-!
# Runs that converge

A run ends early if a pass over all recipes changes nothing. In such a pass every recipe was tried
on the final text, and what it asked for, if anything, made the same text again. Another run on that
text tries the same recipes on a tree with the same elements, so it changes nothing either.

## Main definitions

* `SyntaxTree.Shows` — a tree has the elements of a text, with the stamps of a fresh reading.
* `Recipe.Keeps` — what a recipe asks for leaves the text of a tree as it is.
* `RunState.Ready` — the tree of a state shows the text of the state.

## Main statements

* `Runner.step_cases` — a step keeps a state as it is, and its recipe the text, or makes it ready
  for another text.
* `Runner.keeps_of_cycles` — if a run ends before its last pass, every recipe keeps the final text.
* `Runner.run_converged` — a run on the result of a converged run changes nothing.
-/

namespace RuleLang

open Stamped

/-! ## Batches on two trees with the same elements -/

namespace Batch

variable {t t' : SyntaxTree} {new : TreeId} {edits : List Edit}

theorem verdict_readdress (h : t.root = t'.root) (e : Edit) (m : Nat) :
    verdict t' (edits.map (Edit.readdress new)) (e.readdress new) m = verdict t edits e m := by
  have habove : t'.above = t.above := by
    funext n
    simp only [SyntaxTree.above, h]
  simp only [verdict, isRepeated, isCovered, habove, ← List.map_take, List.any_map]
  rfl

theorem accepted_readdress (h : t.root = t'.root) :
    accepted t' (edits.map (Edit.readdress new)) =
      (accepted t edits).map (Edit.readdress new) := by
  have hverdict :
      (fun x : Edit × Nat => (verdict t' (edits.map (Edit.readdress new)) x.1 x.2).isNone) ∘
        Prod.map (Edit.readdress new) id = fun x => (verdict t edits x.1 x.2).isNone := by
    funext x
    exact congrArg Option.isNone (verdict_readdress h x.1 x.2)
  rw [accepted, List.zipIdx_map, List.filter_map, hverdict, List.map_map, accepted, List.map_map]
  rfl

theorem action?_readdress (h : t.root = t'.root) :
    action? t' (edits.map (Edit.readdress new)) = action? t edits := by
  funext n
  rw [action?, accepted_readdress h, List.find?_map, Option.map_map]
  rfl

end Batch

namespace SyntaxTree

/-- The text that a batch makes of a tree. -/
def textAfter (t : SyntaxTree) (edits : List Edit) : Except Failure (List Char) :=
  (t.apply {} 0 edits).map Rewritten.text

/-- Neither the configuration nor the identity of the new tree has an effect on its text. -/
theorem map_text_apply (config : RewriteConfig) (newId : TreeId) (t : SyntaxTree)
    (edits : List Edit) : (t.apply config newId edits).map Rewritten.text = t.textAfter edits := by
  rw [textAfter, apply, apply]
  split
  · rfl
  · cases h : Batch.resolve t.index edits with
    | error => simp only [h, Except.map]
    | ok => simp only [h, Except.map, Rewritten.text, SyntaxTree.text]

/-- The tree has the elements of a text, with the stamps of a fresh reading. -/
def Shows (t : SyntaxTree) (text : List Char) : Prop :=
  t.root = (Stamped.ofElement 0 (parse text).root).1

theorem shows_ofElement (id : TreeId) (sourceId : String) (text : List Char)
    (limit : Option Nat) : (ofElement id sourceId (parse text limit).root).Shows text := by
  rw [root_parse]
  rfl

variable {t t' : SyntaxTree} {text : List Char} {edits : List Edit}

namespace Shows

theorem text_eq (h : t.Shows text) : t.text = text := by
  rw [SyntaxTree.text, Stamped.text, h, Stamped.ofElement, erase_stampFrom, text_parse]

theorem root_eq (h : t.Shows text) (h' : t'.Shows text) : t.root = t'.root :=
  Eq.trans h h'.symm

theorem element_eq (h : t.Shows text) : t.element = (parse text).root := by
  rw [SyntaxTree.element, h, Stamped.ofElement, erase_stampFrom]

theorem exists_root (h : t.Shows text) : ∃ s cs, t.root = .node s .compilationUnit cs := by
  rw [h]
  exact exists_root_ofElement 0 "" text none

theorem nodup (h : t.Shows text) : (t.root.places.map Place.identity).Nodup := by
  rw [h]
  exact nodup_ofElement 0 "" text none

/-- What a batch comes to on a tree of a text. -/
theorem apply (h : t.Shows text) (config : RewriteConfig) (newId : TreeId) (edits : List Edit) :
    match edits.find? fun e => !t.reaches e.handle with
    | some e => t.apply config newId edits = .error (t.staleness e.handle)
    | none => ∃ r, t.apply config newId edits = .ok r ∧ t.Applied config edits r := by
  obtain ⟨s, cs, hroot⟩ := h.exists_root
  exact apply_of_nodup newId edits hroot h.nodup

/-- A batch makes one and the same text of all trees of a text. -/
theorem textAfter_readdress (h : t.Shows text) (h' : t'.Shows text) {new : List Char}
    (hnew : t.textAfter edits = .ok new) :
    t'.textAfter (edits.map (Edit.readdress t'.id)) = .ok new := by
  have hroots := h.root_eq h'
  have happly := h.apply {} 0 edits
  have happly' := h'.apply {} 0 (edits.map (Edit.readdress t'.id))
  rw [textAfter] at hnew ⊢
  cases hfind : edits.find? fun e => !t.reaches e.handle with
  | some e =>
    simp only [hfind] at happly
    simp [happly, Except.map] at hnew
  | none =>
    have hfind' : (edits.map (Edit.readdress t'.id)).find? (fun e => !t'.reaches e.handle) =
        none := by
      simp only [List.find?_eq_none, List.forall_mem_map] at hfind ⊢
      intro e he
      have hreaches : t.reaches e.handle = true := by simpa using hfind e he
      rw [reaches, hroots] at hreaches
      have hnew : t'.reaches (e.readdress t'.id).handle = true :=
        Bool.and_eq_true_iff.2 ⟨beq_self_eq_true _, (Bool.and_eq_true_iff.1 hreaches).2⟩
      simp [hnew]
    simp only [hfind] at happly
    simp only [hfind'] at happly'
    obtain ⟨r, hr, happlied⟩ := happly
    obtain ⟨r', hr', happlied'⟩ := happly'
    have helement : r'.tree.element = r.tree.element := by
      rw [happlied'.element, happlied.element, Batch.action?_readdress hroots,
        show t'.element = t.element from congrArg Stamped.erase hroots.symm]
    have htext : r'.text = r.text := congrArg Element.text helement
    rw [hr, Except.map, Except.ok.injEq] at hnew
    rw [hr', Except.map, htext, hnew]

end Shows

end SyntaxTree

/-! ## Recipes that leave a text as it is -/

namespace Recipe

/-- What the recipe asks for can be carried out and leaves the text of the tree as it is. -/
def Keeps (p : Recipe) (t : SyntaxTree) : Prop :=
  t.textAfter (p.visit t) = .ok t.text

/-- A recipe that looks at the elements alone keeps the text of all its trees or of none. -/
theorem ReadsContent.keeps {p : Recipe} {t t' : SyntaxTree} {text : List Char}
    (hp : p.ReadsContent) (h : t.Shows text) (h' : t'.Shows text) (hkeeps : p.Keeps t) :
    p.Keeps t' := by
  rw [Keeps, hp t t' (h.root_eq h'), h.textAfter_readdress h' hkeeps, h.text_eq, h'.text_eq]

end Recipe

namespace RunState

/-- The tree shows the text. -/
def Ready (s : RunState) : Prop :=
  s.tree.Shows s.text

/-- The same tree, text and list of recipes; warnings may be new. -/
structure Same (s s' : RunState) : Prop where
  tree : s'.tree = s.tree
  text : s'.text = s.text
  applied : s'.applied = s.applied

namespace Same

variable {s s' s'' : RunState}

theorem refl (s : RunState) : s.Same s :=
  ⟨rfl, rfl, rfl⟩

theorem trans (h : s.Same s') (h' : s'.Same s'') : s.Same s'' :=
  ⟨h'.tree.trans h.tree, h'.text.trans h.text, h'.applied.trans h.applied⟩

theorem ready (h : s.Same s') (hs : s.Ready) : s'.Ready := by
  rw [Ready, h.tree, h.text]
  exact hs

end Same

end RunState

namespace Runner

open RunState

variable {r : Runner} {p : Recipe} {recipes : List Recipe} {s s' : RunState} {changed : Bool}

/-! ## One step -/

theorem shows_read {config : ParserConfig} {id : TreeId} {sourceId : String} {text : List Char}
    {document : Document} (h : Document.read config id sourceId text = .ok document) :
    document.tree.Shows text := by
  rw [Document.read] at h
  split at h
  · cases h
  · cases h
    exact SyntaxTree.shows_ofElement id sourceId text _

/-- A step that changes nothing was tried by a recipe that keeps the text; any other step makes the
state ready for another text, which is what the recipe asked for. -/
theorem step_cases (hs : s.Ready) (h : r.step p s = .ok (s', changed)) :
    (changed = false ∧ s.Same s' ∧ p.Keeps s.tree) ∨
      (changed = true ∧ s'.Ready ∧ s.tree.textAfter (p.visit s.tree) = .ok s'.text ∧
        s'.text ≠ s.text ∧ s'.applied = s.applied ++ [p.id]) := by
  rw [step] at h
  dsimp only at h
  split at h
  · rename_i hempty
    cases h
    refine .inl ⟨rfl, .refl s, ?_⟩
    rw [Recipe.Keeps, List.isEmpty_iff.1 hempty]
    rfl
  · cases hw : s.tree.apply r.rewrite (s.tree.id + 1) (p.visit s.tree) with
    | error => simp [hw, Except.bind] at h
    | ok w =>
      have htext := SyntaxTree.map_text_apply r.rewrite (s.tree.id + 1) s.tree (p.visit s.tree)
      rw [hw, Except.map] at htext
      simp only [hw, Except.bind] at h
      split at h
      · rename_i hsame
        cases h
        refine .inl ⟨rfl, ⟨rfl, rfl, rfl⟩, ?_⟩
        rw [Recipe.Keeps, ← htext, beq_iff_eq.1 hsame, SyntaxTree.Shows.text_eq hs]
      · rename_i hother
        cases hd : Document.read r.rereadConfig (s.tree.id + 1) s.tree.sourceId w.text with
        | error => simp [hd, Except.map] at h
        | ok document =>
          simp only [hd, Except.map] at h
          cases h
          exact .inr ⟨rfl, shows_read hd, htext.symm, by simpa using hother, rfl⟩

theorem step_of_keeps (hs : s.Ready) (h : p.Keeps s.tree) :
    ∃ s', r.step p s = .ok (s', false) ∧ s.Same s' := by
  rw [step]
  dsimp only
  split
  · exact ⟨s, rfl, .refl s⟩
  · have htext := SyntaxTree.map_text_apply r.rewrite (s.tree.id + 1) s.tree (p.visit s.tree)
    rw [Recipe.Keeps, ← htext, SyntaxTree.Shows.text_eq hs] at h
    cases hw : s.tree.apply r.rewrite (s.tree.id + 1) (p.visit s.tree) with
    | error => simp [hw, Except.map] at h
    | ok w =>
      rw [hw, Except.map, Except.ok.injEq] at h
      simp only [Except.bind, h, beq_self_eq_true, if_true]
      exact ⟨_, rfl, ⟨rfl, rfl, rfl⟩⟩

/-! ## One pass -/

/-- After a pass that changed nothing every recipe keeps the text. -/
theorem cycle_cases (hs : s.Ready) (h : r.cycle recipes s = .ok (s', changed)) :
    s'.Ready ∧ (changed = false → s.Same s' ∧ ∀ p ∈ recipes, p.Keeps s'.tree) := by
  induction recipes generalizing s s' changed with
  | nil =>
    cases h
    exact ⟨hs, fun _ => ⟨.refl s, nofun⟩⟩
  | cons p recipes ih =>
    rw [cycle] at h
    cases hstep : r.step p s with
    | error => simp [hstep, Except.bind] at h
    | ok first =>
      obtain ⟨t, now⟩ := first
      simp only [hstep, Except.bind] at h
      cases hrest : r.cycle recipes t with
      | error => simp [hrest, Except.map] at h
      | ok rest =>
        obtain ⟨u, later⟩ := rest
        simp only [hrest, Except.map, Except.ok.injEq, Prod.mk.injEq] at h
        obtain ⟨rfl, rfl⟩ := h
        rcases step_cases hs hstep with ⟨rfl, hsame, hkeeps⟩ | ⟨rfl, ht, -⟩
        · obtain ⟨hu, hunchanged⟩ := ih (hsame.ready hs) hrest
          refine ⟨hu, fun hchanged => ?_⟩
          obtain ⟨hsame', hall⟩ := hunchanged (by simpa using hchanged)
          refine ⟨hsame.trans hsame', fun q hq => ?_⟩
          rcases List.mem_cons.1 hq with rfl | hq
          · rw [hsame'.tree, hsame.tree]
            exact hkeeps
          · exact hall q hq
        · exact ⟨(ih ht hrest).1, fun hchanged => by simp at hchanged⟩

theorem cycle_of_keeps (hs : s.Ready) (h : ∀ p ∈ recipes, p.Keeps s.tree) :
    ∃ s', r.cycle recipes s = .ok (s', false) ∧ s.Same s' := by
  induction recipes generalizing s with
  | nil => exact ⟨s, rfl, .refl s⟩
  | cons p recipes ih =>
    obtain ⟨t, hstep, hsame⟩ := step_of_keeps (r := r) hs (h p List.mem_cons_self)
    have hall : ∀ q ∈ recipes, q.Keeps t.tree := by
      intro q hq
      rw [hsame.tree]
      exact h q (List.mem_cons_of_mem p hq)
    obtain ⟨u, hrest, hsame'⟩ := ih (hsame.ready hs) hall
    refine ⟨u, ?_, hsame.trans hsame'⟩
    simp only [cycle, hstep, Except.bind, hrest, Except.map, Bool.or_self]

/-! ## All passes -/

/-- If fewer passes than are allowed changed the text, there was one more that changed nothing, so
every recipe keeps the final text. -/
theorem keeps_of_cycles {n count : Nat} (hs : s.Ready)
    (h : r.cycles recipes n s = .ok (s', count)) (hcount : count < n) :
    s'.Ready ∧ ∀ p ∈ recipes, p.Keeps s'.tree := by
  induction n generalizing s s' count with
  | zero => exact absurd hcount (Nat.not_lt_zero _)
  | succ n ih =>
    rw [cycles] at h
    cases hcycle : r.cycle recipes s with
    | error => simp [hcycle, Except.bind] at h
    | ok pass =>
      obtain ⟨t, changed⟩ := pass
      obtain ⟨ht, hunchanged⟩ := cycle_cases hs hcycle
      simp only [hcycle, Except.bind] at h
      split at h
      · cases hrest : r.cycles recipes n t with
        | error => simp [hrest, Except.map] at h
        | ok rest =>
          simp only [hrest, Except.map, Except.ok.injEq, Prod.mk.injEq] at h
          obtain ⟨rfl, rfl⟩ := h
          exact ih ht hrest (by omega)
      · rename_i hchanged
        cases h
        exact ⟨ht, (hunchanged (by simpa using hchanged)).2⟩

theorem cycles_of_keeps (n : Nat) (hs : s.Ready) (h : ∀ p ∈ recipes, p.Keeps s.tree) :
    ∃ s', r.cycles recipes n s = .ok (s', 0) ∧ s.Same s' := by
  cases n with
  | zero => exact ⟨s, rfl, .refl s⟩
  | succ n =>
    obtain ⟨t, hcycle, hsame⟩ := cycle_of_keeps (r := r) hs h
    refine ⟨t, ?_, hsame⟩
    simp only [cycles, hcycle, Except.bind, Bool.false_eq_true, if_false]

/-! ## Runs -/

/-- A run whose passes did not all change the text has converged: a run of the same recipes on its
result, whatever its configuration and its number of passes are, gives the same text, changes
nothing and applies no recipe. The recipes look at the elements of a tree alone, and the second run
does not refuse the text for being blank. -/
theorem run_converged {n : Nat} {sourceId sourceId' : String} {source : List Char}
    {out : RunOutput} (hcontent : ∀ p ∈ Recipe.flatten recipes, p.ReadsContent)
    (hrun : (r.withMaxCycles n).run sourceId source recipes = .ok out)
    (hcycles : out.cycles < max n 1) (r' : Runner)
    (hempty : r'.parser.rejectEmpty = false ∨ Text.isAllBlank out.text = false) :
    ∃ out', r'.run sourceId' out.text recipes = .ok out' ∧ out'.text = out.text ∧
      out'.changed = false ∧ out'.cycles = 0 ∧ out'.applied = [] := by
  rw [run] at hrun
  cases hread : Document.read (r.withMaxCycles n).parser 0 sourceId source with
  | error => simp [hread, Except.bind] at hrun
  | ok document =>
    simp only [hread, Except.bind] at hrun
    generalize hs : RunState.mk document.tree source
      (document.diagnostics.filter Diagnostic.isError) document.diagnostics [] = s at hrun
    have hready : s.Ready := by
      rw [← hs]
      exact shows_read hread
    rw [show (r.withMaxCycles n).maxCycles = max n 1 from rfl] at hrun
    cases hc : (r.withMaxCycles n).cycles (Recipe.flatten recipes) (max n 1) s with
    | error => simp [hc, Except.map] at hrun
    | ok final =>
      obtain ⟨t, count⟩ := final
      simp only [hc, Except.map, Except.ok.injEq] at hrun
      subst hrun
      obtain ⟨ht, hkeeps⟩ := keeps_of_cycles hready hc hcycles
      -- the second run starts on another tree of the final text
      have hread' : Document.read r'.parser 0 sourceId' t.text =
          .ok ⟨.ofElement 0 sourceId' (parse t.text (some r'.parser.maxErrors)).root,
            Document.diagnosticsOf sourceId' t.text (parse t.text (some r'.parser.maxErrors))⟩ := by
        rw [Document.read, if_neg]
        rcases hempty with h | h <;> simp [h]
      generalize hdocument : Document.mk _ _ = document' at hread'
      have hready' : (RunState.mk document'.tree t.text
          (document'.diagnostics.filter Diagnostic.isError) document'.diagnostics []).Ready :=
        shows_read hread'
      have hkeeps' : ∀ p ∈ Recipe.flatten recipes, p.Keeps document'.tree := fun p hp =>
        (hcontent p hp).keeps ht (shows_read hread') (hkeeps p hp)
      obtain ⟨u, hc', hsame⟩ := cycles_of_keeps (r := r') r'.maxCycles hready' hkeeps'
      refine ⟨⟨u.text, u.diagnostics, u.text != t.text, 0, u.applied⟩, ?_, hsame.text, ?_, rfl,
        hsame.applied⟩
      · simp only [run, hread', Except.bind, hc', Except.map]
      · simp [hsame.text]

/-- The migration of a rule takes one pass, and a second run changes nothing. -/
theorem run_converged_migration :
    ∃ out out', (({} : Runner).withMaxCycles 3).run "a.drl"
        "rule R agenda-group \"g\" when A(x == 1 || == 2) && B() then end".toList
        [Recipe.migration {}] = .ok out ∧
      out.text = "rule R ruleflow-group \"g\" when A(x == 1 || x == 2) and B() then end".toList ∧
      out.cycles = 1 ∧
      ({} : Runner).run "a.drl" out.text [Recipe.migration {}] = .ok out' ∧
      out'.text = out.text ∧ out'.changed = false ∧ out'.cycles = 0 ∧ out'.applied = [] := by
  have hrun : (({} : Runner).withMaxCycles 3).run "a.drl"
      "rule R agenda-group \"g\" when A(x == 1 || == 2) && B() then end".toList
      [Recipe.migration {}] =
      .ok ⟨"rule R ruleflow-group \"g\" when A(x == 1 || x == 2) and B() then end".toList, [],
        true, 1, ["drl/agenda-group-to-ruleflow-group", "drl/half-constraint",
          "drl/lhs-logical-operators"]⟩ := by
    decide +kernel
  have hcontent := @Recipe.readsContent_ofId? {} Recipe.Migration.info.id _ rfl
  obtain ⟨out', hrun', htext, hunchanged, hcycles, happlied⟩ :=
    run_converged hcontent hrun (by decide) {} (.inr (by decide +kernel))
  exact ⟨_, out', hrun, rfl, rfl, hrun', htext, hunchanged, hcycles, happlied⟩

end Runner

end RuleLang
