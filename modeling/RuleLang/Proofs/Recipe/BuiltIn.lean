import RuleLang.Proofs.Grammar.Outside
import RuleLang.Proofs.Recipe.AgendaGroup
import RuleLang.Proofs.Recipe.Converged
import RuleLang.Proofs.Recipe.HalfConstraint
import RuleLang.Proofs.Recipe.LhsLogical
import RuleLang.Proofs.Recipe.CustomOperator
import RuleLang.Recipe.BuiltIn

/-!
# The built-in recipes never conflict

Each built-in recipe decides on the elements of a tree from the root down, so that no two of its
edits have one target and no target stands inside another. All edits are carried out, whatever is
wrong with the text, and a run of built-in recipes never fails but for a blank text. Consequences
and functions stay as they are.

## Main definitions

* `Element.foreign` — the consequences and functions of a tree.
* `Marking.Spares` — a marking leaves consequences and functions as they are.
* `Recipe.MarkedBy` — a recipe asks for the edits for the marks of such a marking.
* `Recipe.CarriedOut` — what a recipe asks for is carried out as a whole.

## Main statements

* `Recipe.IsBuiltInLeaf.carriedOut` — so it is with the built-in recipes without steps.
* `Runner.run_cases` — a run of such recipes fails for a blank text alone.
* `Recipe.builtIn_never_conflict` — the edits of a visit, and runs.
-/

namespace RuleLang

open Stamped

namespace Element

/-- The consequences and functions at and below some elements, in preorder. -/
def foreignOf (es : List Element) : List Element :=
  (nodesOf es).filter fun n => n.kind.hidesOperators

/-- The consequences and functions at and below an element, in preorder. -/
def foreign (e : Element) : List Element :=
  e.nodes.filter fun n => n.kind.hidesOperators

variable {es : List Element}

theorem foreignOf_nil : foreignOf [] = [] := rfl

theorem foreignOf_singleton (e : Element) : foreignOf [e] = e.foreign := by
  rw [foreignOf, nodesOf, nodesOf, List.append_nil, foreign]

theorem foreignOf_cons (e : Element) (es : List Element) :
    foreignOf (e :: es) = e.foreign ++ foreignOf es := by
  rw [foreignOf, nodesOf, List.filter_append]
  rfl

theorem foreignOf_append (xs ys : List Element) :
    foreignOf (xs ++ ys) = foreignOf xs ++ foreignOf ys := by
  induction xs with
  | nil => rfl
  | cons x xs ih => rw [List.cons_append, foreignOf_cons, foreignOf_cons, ih, List.append_assoc]

theorem foreign_token (k : Kind) (t : List Char) : (token k t).foreign = [] := by
  simp [foreign, nodes]

theorem foreign_node {k : Kind} (h : k.hidesOperators = false) (cs : List Element) :
    (node k cs).foreign = foreignOf cs := by
  rw [foreign, nodes, List.filter_cons_of_neg (by simpa [Element.kind] using h)]
  rfl

theorem foreign_eq_nil {e : Element} (h : AllNodes (fun n => ¬n.IsForeign) [e]) :
    e.foreign = [] :=
  List.filter_eq_nil_iff.2 fun n hn => allNodes_singleton.1 h n hn

/-- What holds in all nodes of a kind holds in those below a child. -/
theorem Within.child {kind : Kind} {Q : Element → Prop} {k : Kind} {cs : List Element}
    (h : Within kind Q [.node k cs]) {c : Element} (hc : c ∈ cs) : Within kind Q [c] := by
  refine allNodes_singleton.2 fun n hn => ?_
  exact (allNodes_node.1 h).2 n (mem_nodesOf.2 ⟨c, hc, hn⟩)

end Element

open Element

/-! ## Markings that spare consequences and functions -/

namespace Marking

variable {γ : Type} {m : Marking γ}

mutual

/-- Elements at and below which no action is carried out stay as they are. -/
theorem changed_of_quiet (quiet : γ → Element → Prop)
    (hact : ∀ c e a, quiet c e → m.decide c e ≠ .act a)
    (hinto : ∀ c k cs f, quiet c (.node k cs) → m.decide c (.node k cs) = .into f →
      ∀ n, ∀ e ∈ cs, quiet (f n) e) (c : γ) :
    (e : Element) → quiet c e → m.changed c e = [e]
  | .token k t, h => by
    rw [changed]
    cases hd : m.decide c (.token k t) with
    | act a => exact absurd hd (hact c _ a h)
    | keep | into _ => rfl
  | .node k cs, h => by
    rw [changed]
    cases hd : m.decide c (.node k cs) with
    | keep => rfl
    | act a => exact absurd hd (hact c _ a h)
    | into f =>
      have hcs := changedAll_of_quiet quiet hact hinto f cs (hinto c k cs f h hd)
      simp only [hcs]

theorem changedAll_of_quiet (quiet : γ → Element → Prop)
    (hact : ∀ c e a, quiet c e → m.decide c e ≠ .act a)
    (hinto : ∀ c k cs f, quiet c (.node k cs) → m.decide c (.node k cs) = .into f →
      ∀ n, ∀ e ∈ cs, quiet (f n) e) (f : Nat → γ) :
    (es : List Element) → (∀ n, ∀ e ∈ es, quiet (f n) e) → m.changedAll f es = es
  | [], _ => rfl
  | e :: es, h => by
    rw [changedAll, changed_of_quiet quiet hact hinto (f 0) e (h 0 e List.mem_cons_self),
      changedAll_of_quiet quiet hact hinto (fun n => f (n + 1)) es
        fun n e he => h (n + 1) e (List.mem_cons_of_mem _ he)]
    rfl

end

/-- Consequences and functions stay as they are, where something holds of an element and of what is
known of the nodes above it. -/
structure Spares (m : Marking γ) (fit : γ → Element → Prop) : Prop where
  /-- No action is carried out at what holds consequences or functions, nor puts some in. -/
  act : ∀ {c e a}, fit c e → m.decide c e = .act a →
    e.foreign = [] ∧ foreignOf (a.substitute e) = []
  into : ∀ {c k cs f}, fit c (.node k cs) → m.decide c (.node k cs) = .into f →
    ∀ n (h : n < cs.length), fit (f n) cs[n]
  keep : ∀ {c k cs}, fit c (.node k cs) → k.hidesOperators = true →
    m.changed c (.node k cs) = [.node k cs]

namespace Spares

variable {fit : γ → Element → Prop}

mutual

theorem foreignOf_changed (h : m.Spares fit) (c : γ) :
    (e : Element) → fit c e → foreignOf (m.changed c e) = e.foreign
  | .token k t, hfit => by
    rw [changed]
    cases hd : m.decide c (.token k t) with
    | act a =>
      obtain ⟨hold, hnew⟩ := h.act hfit hd
      exact hnew.trans hold.symm
    | keep | into _ => exact foreignOf_singleton _
  | .node k cs, hfit => by
    cases hk : k.hidesOperators with
    | true => rw [h.keep hfit hk, foreignOf_singleton]
    | false =>
      rw [changed]
      cases hd : m.decide c (.node k cs) with
      | keep => exact foreignOf_singleton _
      | act a =>
        obtain ⟨hold, hnew⟩ := h.act hfit hd
        exact hnew.trans hold.symm
      | into f =>
        simp only [foreignOf_singleton, foreign_node hk]
        exact h.foreignOf_changedAll f cs (h.into hfit hd)

theorem foreignOf_changedAll (h : m.Spares fit) (f : Nat → γ) :
    (es : List Element) → (∀ n (h : n < es.length), fit (f n) es[n]) →
      foreignOf (m.changedAll f es) = foreignOf es
  | [], _ => rfl
  | e :: es, hfit => by
    rw [changedAll, foreignOf_append, foreignOf_cons,
      h.foreignOf_changed (f 0) e (hfit 0 (Nat.zero_lt_succ _)),
      h.foreignOf_changedAll (fun n => f (n + 1)) es
        fun n hn => hfit (n + 1) (Nat.succ_lt_succ hn)]

end

end Spares

end Marking

/-! ## The marks of the recipes -/

theorem foreignOf_replacement (cs : List Element) (text : List Char) :
    foreignOf ((Action.replace (Recipe.HalfConstraint.replacement text)).substitute
      (.node .halfConstraint cs)) = [] := by
  rw [Recipe.HalfConstraint.replacement]
  cases h : Fragment.read .expression text with
  | ok e => exact (foreignOf_singleton e).trans (foreign_eq_nil (not_foreign_of_read h))
  | error => rfl

theorem spares_halfMarking :
    halfMarking.Spares fun _ e => Within .halfConstraint (fun n => ¬n.IsForeign) [e] where
  act := by
    intro above e a hfit ha
    cases e with
    | token => cases ha
    | node k cs =>
      by_cases hk : k = .halfConstraint
      · subst hk
        rw [HalfMarking.decide_half, halfEdit?, Option.map_map] at ha
        refine ⟨foreign_eq_nil ((allNodes_node.1 hfit).1 rfl), ?_⟩
        cases hanchor : Recipe.HalfConstraint.anchorOperand? (.node .halfConstraint cs)
            (above.takeWhile Recipe.HalfConstraint.isLogical) with
        | none => simp [hanchor] at ha
        | some operand =>
          simp only [hanchor, Option.map_some, Option.getD_some, Function.comp_apply,
            Decision.act.injEq] at ha
          rw [← ha]
          exact foreignOf_replacement cs _
      · cases hhides : k.hidesOperators with
        | true => simp [HalfMarking.decide_of_hides hhides] at ha
        | false => simp [HalfMarking.decide_node hk hhides] at ha
  into := fun hfit _ _ hn => hfit.child (List.getElem_mem hn)
  keep _ hk := by rw [Marking.changed, HalfMarking.decide_of_hides hk]

/-! ### One child of some nodes -/

namespace ChildChoice

variable {q : ChildChoice}

/-- Without a node of the kind nothing is changed. -/
theorem changed_outside {e : Element} (h : AllNodes (fun n => n.kind ≠ q.kind) [e]) :
    q.marking.changed .outside e = [e] := by
  refine Marking.changed_of_quiet
    (fun c e => c = .outside ∧ AllNodes (fun n => n.kind ≠ q.kind) [e]) ?_ ?_ _ e ⟨rfl, h⟩
  · rintro _ e a ⟨rfl, -⟩
    exact decide_outside e a
  · rintro _ k cs f ⟨rfl, h⟩ hf n e he
    obtain ⟨hkind, hcs⟩ := allNodes_node.1 h
    have hk : k ≠ q.kind := hkind
    refine ⟨?_, allNodes_singleton.2 fun m hm => hcs m (mem_nodesOf.2 ⟨e, he, hm⟩)⟩
    cases hhides : q.hides k with
    | true => simp [decide_of_hides hk hhides] at hf
    | false =>
      rw [decide_node hk hhides, Decision.into.injEq] at hf
      rw [← hf]

/-- What is known of an element where a token is to be changed, if anything is. -/
def Fits (c : ChildStance) (e : Element) : Prop :=
  (c = .chosen → e.isNode = false) ∧ Within .functionDecl IsPlain [e]

/-- The change of a token spares consequences and functions, if they are passed over or hold no node
of the kind. -/
theorem spares (hkind : q.kind.hidesOperators = false)
    (htoken : ∀ cs n (h : n < cs.length), q.child? cs = some n → cs[n].isNode = false)
    (hchange : ∀ k t, foreignOf ((q.change (.token k t)).substitute (.token k t)) = [])
    (hhides : ∀ k : Kind, k.hidesOperators = true →
      q.hides k = true ∨ k = .functionDecl ∧ q.kind.isFragment = true) :
    q.marking.Spares Fits where
  act := by
    intro c e a hfit ha
    cases c with
    | outside => exact absurd ha (decide_outside e a)
    | inside => cases ha
    | chosen =>
      cases e with
      | token k t =>
        cases ha
        exact ⟨foreign_token k t, hchange k t⟩
      | node k cs => cases hfit.1 rfl
  into := by
    intro c k cs f hfit hf n hn
    refine ⟨fun hchosen => ?_, hfit.2.child (List.getElem_mem hn)⟩
    cases c with
    | chosen => cases hf
    | inside => cases hf
    | outside =>
      by_cases hk : k = q.kind
      · rw [decide_of_kind hk, Decision.into.injEq] at hf
        rw [← hf, ChildStance.at] at hchosen
        by_cases hchild : q.child? cs = some n
        · exact htoken cs n hn hchild
        · simp [hchild] at hchosen
      · cases hpassed : q.hides k with
        | true => simp [decide_of_hides hk hpassed] at hf
        | false =>
          rw [decide_node hk hpassed, Decision.into.injEq] at hf
          rw [← hf] at hchosen
          cases hchosen
  keep := by
    intro c k cs hfit hforeign
    cases c with
    | chosen => cases hfit.1 rfl
    | inside => exact changed_inside _
    | outside =>
      have hk : k ≠ q.kind := by
        rintro rfl
        rw [hkind] at hforeign
        cases hforeign
      rcases hhides k hforeign with hpassed | ⟨rfl, hfragment⟩
      · rw [Marking.changed, decide_of_hides hk hpassed]
      · refine changed_outside (allNodes_singleton.2 fun n hn hn' => ?_)
        have hplain := allNodes_singleton.1 ((allNodes_node.1 hfit.2).1 rfl) n hn
        rw [IsPlain, hn', hfragment] at hplain
        cases hplain.2

end ChildChoice

theorem spares_operatorMarking (custom : List Char → Bool) :
    (operatorMarking custom).Spares ChildChoice.Fits := by
  refine ChildChoice.spares rfl (fun cs n hn h => ?_) (fun _ _ => rfl) fun _ h => .inl h
  obtain ⟨pre, e, post, rfl, rfl, -, -, he⟩ := exists_of_unmarkedAt? h
  cases e with
  | token => simp [Element.isNode]
  | node => cases he

theorem spares_agendaMarking : agendaChoice.marking.Spares ChildChoice.Fits := by
  refine ChildChoice.spares rfl (fun cs n hn h => ?_) (fun _ _ => rfl) fun k h => ?_
  · obtain ⟨hfind, -⟩ := Option.filter_eq_some_iff.1 h
    obtain ⟨_, hsignificant, -⟩ := List.findIdx?_eq_some_iff_getElem.1 hfind
    simpa using (Bool.and_eq_true_iff.1 hsignificant).1
  · cases k <;> first | exact .inl rfl | exact .inr ⟨rfl, rfl⟩ | cases h

/-! ### Symbols between conditions -/

theorem joinsIn_of_isGraded {parent : Kind} (h : parent.isGraded = false) (k : Kind) :
    parent.joinsIn k = false := by
  cases parent <;> first | rfl | cases h

theorem decide_joinMarking_node (parent k : Kind) (cs : List Element) (a : Action) :
    joinMarking.decide parent (.node k cs) ≠ .act a := by
  rw [decide_node]
  split <;> nofun

/-- Without joined conditions nothing is changed. -/
theorem changed_joinMarking_of_plain {parent : Kind} (hparent : parent.isGraded = false)
    {e : Element} (h : AllNodes IsPlain [e]) : joinMarking.changed parent e = [e] := by
  refine Marking.changed_of_quiet
    (fun parent e => parent.isGraded = false ∧ AllNodes IsPlain [e]) ?_ ?_ _ e
    ⟨hparent, h⟩
  · rintro parent (⟨k, t⟩ | ⟨k, cs⟩) a ⟨hparent, -⟩
    · simp [decide_token, joinsIn_of_isGraded hparent]
    · exact decide_joinMarking_node parent k cs a
  · rintro parent k cs f ⟨-, h⟩ hf n e he
    obtain ⟨hk, hcs⟩ := allNodes_node.1 h
    refine ⟨?_, allNodes_singleton.2 fun m hm => hcs m (mem_nodesOf.2 ⟨e, he, hm⟩)⟩
    rw [decide_node] at hf
    split at hf
    · cases hf
    · rw [Decision.into.injEq] at hf
      rw [← hf]
      exact hk.1

theorem spares_joinMarking :
    joinMarking.Spares fun _ e => Within .functionDecl IsPlain [e] where
  act := by
    rintro parent (⟨k, t⟩ | ⟨k, cs⟩) a - ha
    · rw [decide_token] at ha
      split at ha
      · cases ha
        exact ⟨foreign_token k t, rfl⟩
      · cases ha
    · exact absurd ha (decide_joinMarking_node parent k cs a)
  into := fun hfit _ _ hn => hfit.child (List.getElem_mem hn)
  keep := by
    intro parent k cs hfit hk
    cases k with
    | thenClause => rfl
    | functionDecl =>
      -- what becomes of a node does not depend on the node above it
      exact changed_joinMarking_of_plain (show Kind.compilationUnit.isGraded = false from rfl)
        (allNodes_singleton.2 (allNodes_singleton.1 ((allNodes_node.1 hfit).1 rfl)))
    | _ => cases hk

/-! ### Nothing -/

/-- No element is marked. -/
def idleMarking : Marking Unit where
  decide _
    | .token _ _ => .keep
    | .node _ _ => .into fun _ => ()

theorem decide_idleMarking (e : Element) (a : Action) : idleMarking.decide () e ≠ .act a := by
  cases e <;> nofun

theorem changed_idleMarking (e : Element) : idleMarking.changed () e = [e] :=
  Marking.changed_of_quiet (fun _ _ => True) (fun _ e a _ => decide_idleMarking e a)
    (fun _ _ _ _ _ _ _ _ _ => trivial) () e trivial

theorem spares_idleMarking : idleMarking.Spares fun _ _ => True where
  act _ ha := absurd ha (decide_idleMarking _ _)
  into _ _ _ _ := trivial
  keep _ _ := changed_idleMarking _

/-! ## Visits -/

namespace Recipe

theorem visit_composite (info : RecipeInfo) (steps : List Recipe) (tree : SyntaxTree) :
    (composite info steps).visit tree = idleMarking.edits () tree := by
  have hdirects : idleMarking.Directs tree (fun _ _ => True) {} :=
    { leave := fun _ _ => rfl
      token := fun _ _ => rfl
      node := fun _ _ => .inr ⟨_, rfl, fun _ => trivial, rfl⟩ }
  exact hdirects.edits_walk trivial

/-- The recipe asks for the edits for the marks of a marking that spares consequences and
functions. -/
structure MarkedBy {γ : Type} (p : Recipe) (m : Marking γ) (c : γ) (fit : γ → Element → Prop) :
    Prop where
  visit : ∀ {tree : SyntaxTree}, (tree.root.places.map Place.identity).Nodup →
    p.visit tree = m.edits c tree
  root : ∀ cs a, m.decide c (.node .compilationUnit cs) ≠ .act a
  spares : m.Spares fit
  fit : ∀ source limit, fit c (parse source limit).root

/-- What the recipe asks for on a tree of a text is carried out as a whole, and consequences and
functions stay as they are. -/
def CarriedOut (p : Recipe) : Prop :=
  ∀ (config : RewriteConfig) (newId : TreeId) (source : List Char) (tree : SyntaxTree),
    tree.Shows source → Batch.Separate tree (p.visit tree) ∧
      ∃ r, tree.apply config newId (p.visit tree) = .ok r ∧
        r.applied = (p.visit tree).length ∧ r.dropped = 0 ∧ r.diagnostics = [] ∧
        r.tree.element.foreign = tree.element.foreign

theorem MarkedBy.carriedOut {γ : Type} {p : Recipe} {m : Marking γ} {c : γ}
    {fit : γ → Element → Prop} (h : MarkedBy p m c fit) : p.CarriedOut := by
  intro config newId source tree hshows
  obtain ⟨s, cs, hroot⟩ := hshows.exists_root
  have hdecide (a : Action) : m.decide c tree.element ≠ .act a := by
    rw [SyntaxTree.element, hroot, erase]
    exact h.root _ a
  obtain ⟨r, hok, helement, happlied, hdropped, hdiagnostics⟩ :=
    m.exists_apply config newId c hroot hshows.nodup hdecide
  rw [h.visit hshows.nodup]
  refine ⟨m.separate_edits c tree, r, hok, happlied, hdropped, hdiagnostics, ?_⟩
  rw [← foreignOf_singleton, helement, hshows.element_eq]
  exact h.spares.foreignOf_changed c _ (h.fit source none)

/-- What the built-in recipes ask for is carried out as a whole. -/
theorem IsBuiltInLeaf.carriedOut {p : Recipe} (h : p.IsBuiltInLeaf) : p.CarriedOut := by
  cases h with
  | agendaGroup =>
    exact MarkedBy.carriedOut
      { visit := visit_agendaGroup
        root := fun _ => ChildChoice.decide_outside _
        spares := spares_agendaMarking
        fit := fun source limit => ⟨nofun, within_function_parse source limit⟩ }
  | halfConstraint =>
    exact MarkedBy.carriedOut
      { visit := visit_halfConstraint
        root := fun _ _ => nofun
        spares := spares_halfMarking
        fit := within_half_parse }
  | lhsLogical =>
    exact MarkedBy.carriedOut
      { visit := visit_lhsLogical
        root := decide_joinMarking_node _ _
        spares := spares_joinMarking
        fit := within_function_parse }
  | customOperator extra =>
    exact MarkedBy.carriedOut
      { visit := visit_customOperator extra
        root := fun _ => ChildChoice.decide_outside _
        spares := spares_operatorMarking _
        fit := fun source limit => ⟨nofun, within_function_parse source limit⟩ }
  | nothing =>
    exact MarkedBy.carriedOut
      { visit := fun _ => visit_composite _ _ _
        root := fun _ => decide_idleMarking _
        spares := spares_idleMarking
        fit := fun _ _ => trivial }

/-! ## Runs -/

theorem mem_flatten {p : Recipe} {recipes : List Recipe} :
    p ∈ flatten recipes ↔ ∃ r ∈ recipes, p ∈ flatten [r] := by
  induction recipes with
  | nil => simp [flatten]
  | cons r rs ih => simp [flatten, ih]

end Recipe

namespace Runner

open RunState

variable {r : Runner} {p : Recipe} {recipes : List Recipe} {s : RunState}

/-- A step whose edits are carried out does not fail, and leaves a tree of the text. -/
theorem exists_step (hp : p.CarriedOut) (hs : s.Ready) :
    ∃ s' changed, r.step p s = .ok (s', changed) ∧ s'.Ready := by
  rw [step]
  dsimp only
  split
  · exact ⟨s, false, rfl, hs⟩
  · obtain ⟨-, w, hw, -⟩ := hp r.rewrite (s.tree.id + 1) s.text s.tree hs
    rw [hw]
    simp only [Except.bind]
    split
    · exact ⟨_, false, rfl, hs⟩
    · have hread : Document.read r.rereadConfig (s.tree.id + 1) s.tree.sourceId w.text = .ok _ :=
        if_neg (by simp [rereadConfig])
      rw [hread]
      exact ⟨_, true, rfl, shows_read hread⟩

theorem exists_cycle (hrecipes : ∀ p ∈ recipes, p.CarriedOut) (hs : s.Ready) :
    ∃ s' changed, r.cycle recipes s = .ok (s', changed) ∧ s'.Ready := by
  induction recipes generalizing s with
  | nil => exact ⟨s, false, rfl, hs⟩
  | cons p recipes ih =>
    obtain ⟨t, now, hstep, ht⟩ := exists_step (r := r) (hrecipes p List.mem_cons_self) hs
    obtain ⟨u, later, hrest, hu⟩ := ih (fun q hq => hrecipes q (List.mem_cons_of_mem p hq)) ht
    exact ⟨u, now || later, by simp only [cycle, hstep, Except.bind, hrest, Except.map], hu⟩

theorem exists_cycles (hrecipes : ∀ p ∈ recipes, p.CarriedOut) (n : Nat) (hs : s.Ready) :
    ∃ s' count, r.cycles recipes n s = .ok (s', count) := by
  induction n generalizing s with
  | zero => exact ⟨s, 0, rfl⟩
  | succ n ih =>
    obtain ⟨t, changed, hcycle, ht⟩ := exists_cycle (r := r) hrecipes hs
    cases changed with
    | false => exact ⟨t, 0, by simp [cycles, hcycle, Except.bind]⟩
    | true =>
      obtain ⟨u, count, hrest⟩ := ih ht
      exact ⟨u, count + 1, by simp [cycles, hcycle, Except.bind, hrest, Except.map]⟩

/-- A run of recipes whose edits are carried out fails for a blank text alone. -/
theorem run_cases (hrecipes : ∀ p ∈ Recipe.flatten recipes, p.CarriedOut) (r : Runner)
    (sourceId : String) (source : List Char) :
    if r.parser.rejectEmpty && Text.isAllBlank source then
      r.run sourceId source recipes = .error (.emptyInput sourceId)
    else ∃ out, r.run sourceId source recipes = .ok out := by
  rw [run]
  split
  · rename_i hempty
    rw [Document.read, if_pos hempty]
    rfl
  · rename_i hempty
    have hread : Document.read r.parser 0 sourceId source = .ok _ := if_neg hempty
    have hready := shows_read hread
    rw [hread]
    obtain ⟨s', count, hcycles⟩ := exists_cycles (r := r) (s := ⟨_, source, _, _, []⟩)
      hrecipes r.maxCycles hready
    simp only [Except.bind]
    rw [hcycles]
    exact ⟨_, rfl⟩

end Runner

/-! ## Built-in recipes -/

namespace Recipe

/-- A recipe that is built in under some options. -/
def IsBuiltIn (r : Recipe) : Prop :=
  ∃ options id, ofId? options id = .ok r

/-- On the tree of any source, well-formed or not, the edits of one visit of a built-in recipe
without steps have targets of their own, of which none stands inside another one. A batch of them is
carried out as a whole, without a warning, and leaves each consequence and each function as it is.
So a run of built-in recipes, however many, fails for no source but a blank one that is to be
refused. -/
theorem builtIn_never_conflict (extra : List String) (config : RewriteConfig) (id newId : TreeId)
    (sourceId : String) (source : List Char) (limit : Option Nat) :
    let tree := SyntaxTree.ofElement id sourceId (parse source limit).root
    (∀ p ∈ [agendaGroup, halfConstraint, lhsLogical, customOperator extra],
      Batch.Separate tree (p.visit tree) ∧
      ∃ r, tree.apply config newId (p.visit tree) = .ok r ∧
        r.applied = (p.visit tree).length ∧ r.dropped = 0 ∧ r.diagnostics = [] ∧
        r.tree.element.foreign = tree.element.foreign) ∧
    ∀ (r : Runner) (recipes : List Recipe), (∀ p ∈ recipes, p.IsBuiltIn) →
      if r.parser.rejectEmpty && Text.isAllBlank source then
        r.run sourceId source recipes = .error (.emptyInput sourceId)
      else ∃ out, r.run sourceId source recipes = .ok out := by
  intro tree
  have hshows : tree.Shows source := SyntaxTree.shows_ofElement id sourceId source limit
  refine ⟨fun p hp => ?_, fun r recipes hrecipes => Runner.run_cases (fun p hp => ?_) r _ _⟩
  · have hleaf : p.IsBuiltInLeaf := by
      simp only [List.mem_cons, List.not_mem_nil, or_false] at hp
      rcases hp with rfl | rfl | rfl | rfl
      · exact .agendaGroup
      · exact .halfConstraint
      · exact .lhsLogical
      · exact .customOperator extra
    exact hleaf.carriedOut config newId source tree hshows
  · obtain ⟨q, hq, hp⟩ := mem_flatten.1 hp
    obtain ⟨options, name, hname⟩ := hrecipes q hq
    exact (isBuiltInLeaf_of_mem_flatten hname p hp).carriedOut

/-- In a rule with a parenthesis missing, one comparison is filled in, and the migration runs. -/
theorem builtIn_never_conflict_unclosed :
    let source := "rule R agenda-group \"g\" when A(x == 1 || == 2 then f(); end".toList
    let tree := SyntaxTree.ofElement 0 "a.drl" (parse source).root
    (∃ r, tree.apply {} 1 (halfConstraint.visit tree) = .ok r ∧ r.applied = 1 ∧ r.dropped = 0 ∧
      r.tree.element.foreign.length = 1) ∧
    ∃ out, ({} : Runner).run "a.drl" source [migration {}] = .ok out := by
  intro source tree
  obtain ⟨hvisits, hruns⟩ := builtIn_never_conflict [] {} 0 1 "a.drl" source none
  obtain ⟨-, r, hok, happlied, hdropped, -, hforeign⟩ := hvisits halfConstraint (by simp)
  refine ⟨⟨r, hok, happlied.trans (by decide +kernel), hdropped, ?_⟩, ?_⟩
  · rw [hforeign]
    decide +kernel
  · have hrun := hruns {} [migration {}]
      (List.forall_mem_singleton.2 ⟨{}, Migration.info.id, rfl⟩)
    rwa [if_neg (by decide +kernel)] at hrun

end Recipe

end RuleLang
