import Mathlib.Tactic.SplitIfs
import RuleLang.Proofs.Visitor.Walk
import RuleLang.Recipe.BuiltIn

/-!
# What recipes look at

A handle names the tree that it leads into, and trees are numbered as they are made, so two readings
of one text have different handles for the same element. A recipe that looks at nothing but the
elements of a tree asks for the same actions at the same places of both trees.

## Main definitions

* `Edit.readdress` — an edit of the same place of another tree.
* `Visitor.ReadsContent` — the calls of a visitor look at the elements alone.
* `Recipe.ReadsContent` — so do the edits that a recipe asks for.
* `Recipe.IsBuiltInLeaf` — the built-in recipes without steps.

## Main statements

* `Visitor.follow_readdress` — a walk whose calls look at the elements does so as a whole.
* `Recipe.isBuiltInLeaf_of_mem_flatten` — the built-in recipes come down to those without steps.
* `Recipe.readsContent_ofId?` — the built-in recipes look at the elements alone.
-/

namespace RuleLang

open Stamped

/-- The same action at the same place of another tree. -/
def Edit.readdress (id : TreeId) (e : Edit) : Edit :=
  { e with handle := ⟨id, e.handle.index⟩ }

/-- The same places under the identity of another tree. -/
def TreeIndex.readdress (id : TreeId) (i : TreeIndex) : TreeIndex :=
  { i with tree := id }

def Visit.readdress (id : TreeId) (v : Visit) : Visit :=
  { v with index := v.index.readdress id }

variable {σ : Type}

def Reaction.readdress (id : TreeId) (r : Reaction σ) : Reaction σ :=
  { r with edits := r.edits.map (Edit.readdress id) }

def Walk.readdress (id : TreeId) (w : Walk σ) : Walk σ :=
  { w with edits := w.edits.map (Edit.readdress id) }

theorem Walk.after_readdress (id : TreeId) (w : Walk σ) (r : Reaction σ) :
    (w.readdress id).after (r.readdress id) = (w.after r).readdress id := by
  simp [Walk.after, Walk.readdress, Reaction.readdress]

/-! ## Edits of a visited tree -/

namespace TreeIndex

theorem lastBefore?_readdress (id : TreeId) (i : TreeIndex) (identity : Identity) (n : Nat) :
    (i.readdress id).lastBefore? identity n = i.lastBefore? identity n := by
  induction n with
  | zero => rfl
  | succ n ih =>
    rw [lastBefore?, lastBefore?, ih]
    rfl

theorem handleOf?_readdress (id : TreeId) (i : TreeIndex) (identity : Identity) :
    (i.readdress id).handleOf? identity =
      (i.handleOf? identity).map fun h => ⟨id, h.index⟩ := by
  have hindex : (i.readdress id).indexOf? identity = i.indexOf? identity :=
    lastBefore?_readdress id i identity i.size
  rw [handleOf?, hindex, handleOf?, Option.map_map]
  rfl

end TreeIndex

namespace Visit

variable (id : TreeId) (v : Visit)

@[simp] theorem place_readdress : (v.readdress id).place = v.place := rfl

theorem edit_readdress (identity : Identity) (action : Action) :
    (v.readdress id).edit identity action =
      (v.edit identity action).map (Edit.readdress id) := by
  rw [edit, edit, show (v.readdress id).index = v.index.readdress id from rfl,
    TreeIndex.handleOf?_readdress]
  cases v.index.handleOf? identity <;> rfl

theorem editHere_readdress (action : Action) :
    (v.readdress id).editHere action = (v.editHere action).map (Edit.readdress id) :=
  v.edit_readdress id _ action

theorem ancestorsWhile_readdress (p : Element → Bool) :
    (v.readdress id).ancestorsWhile p = v.ancestorsWhile p := by
  rw [ancestorsWhile_eq, ancestorsWhile_eq]
  rfl

end Visit

/-! ## Visitors -/

namespace Visitor

/-- The calls of a visitor look at the elements alone. -/
structure ReadsContent (v : Visitor σ) : Prop where
  enter : ∀ id visit s, v.enter (visit.readdress id) s = (v.enter visit s).readdress id
  leave : ∀ id visit s, v.leave (visit.readdress id) s = (v.leave visit s).readdress id
  token : ∀ id visit s, v.token (visit.readdress id) s = (v.token visit s).readdress id

variable {v : Visitor σ}

/-- A walk over the places of another tree makes the same calls. -/
theorem follow_readdress (h : v.ReadsContent) (id : TreeId) (i : TreeIndex) (skip : Option Nat)
    (w : Walk σ) (es : List Event) :
    v.follow (i.readdress id) skip (w.readdress id) es =
      (v.follow i skip w es).readdress id := by
  have hleave (p : Place) (w : Walk σ) :
      (w.readdress id).after
          { v.leave ⟨i.readdress id, p⟩ (w.readdress id).state with action := .descend } =
        (w.after { v.leave ⟨i, p⟩ w.state with action := .descend }).readdress id := by
    rw [← Walk.after_readdress]
    have := h.leave id ⟨i, p⟩ w.state
    simp only [Visit.readdress] at this
    simp only [Walk.readdress, this, Reaction.readdress]
  induction es generalizing skip w with
  | nil => cases skip <;> rfl
  | cons e es ih =>
    match skip, e with
    | some n, .enter _ => exact ih _ w
    | some n, .token _ => exact ih _ w
    | some (n + 1), .leave _ => exact ih _ w
    | some 0, .leave p | none, .leave p =>
      simp only [follow, hleave]
      exact ih _ _
    | none, .enter p =>
      have henter : v.enter ⟨i.readdress id, p⟩ (w.readdress id).state =
          (v.enter ⟨i, p⟩ w.state).readdress id := h.enter id ⟨i, p⟩ w.state
      simp only [follow, henter, Walk.after_readdress]
      rw [show ((v.enter ⟨i, p⟩ w.state).readdress id).action =
        (v.enter ⟨i, p⟩ w.state).action from rfl]
      cases (v.enter ⟨i, p⟩ w.state).action with
      | descend => exact ih _ _
      | skipChildren => exact ih _ _
      | stop => rfl
    | none, .token p =>
      have htoken : v.token ⟨i.readdress id, p⟩ (w.readdress id).state =
          (v.token ⟨i, p⟩ w.state).readdress id := h.token id ⟨i, p⟩ w.state
      simp only [follow, htoken, Walk.after_readdress]
      rw [show ((v.token ⟨i, p⟩ w.state).readdress id).action =
        (v.token ⟨i, p⟩ w.state).action from rfl]
      split
      · rfl
      · exact ih _ _

/-- Hooks that look at the elements alone make a visitor that does. -/
theorem readsContent_ofHooks {hooks : List (Hook σ)}
    (h : ∀ hook ∈ hooks, ∀ id visit s,
      hook.run (visit.readdress id) s = (hook.run visit s).readdress id) :
    (ofHooks hooks).ReadsContent := by
  have hrun (point : HookPoint) (id : TreeId) (visit : Visit) (s : σ) :
      runHooks hooks point (visit.readdress id) s =
        (runHooks hooks point visit s).readdress id := by
    have hfold (hs : List (Hook σ)) (hsub : ∀ hook ∈ hs, hook ∈ hooks) (r : Reaction σ) :
        hs.foldl (fun r h =>
          let next := h.run (visit.readdress id) r.state
          ⟨next.state, r.edits ++ next.edits, r.action.merge next.action⟩) (r.readdress id) =
        (hs.foldl (fun r h =>
          let next := h.run visit r.state
          ⟨next.state, r.edits ++ next.edits, r.action.merge next.action⟩) r).readdress id := by
      induction hs generalizing r with
      | nil => rfl
      | cons hook hs ih =>
        have hcall := h hook (hsub hook List.mem_cons_self) id visit r.state
        rw [List.foldl_cons, List.foldl_cons,
          ← ih fun x hx => hsub x (List.mem_cons_of_mem hook hx)]
        congr 1
        simp only [Reaction.readdress, hcall, List.map_append]
    exact hfold _ (fun hook hm => (List.mem_filter.1 hm).1) { state := s }
  exact ⟨hrun .enter, hrun .leave, hrun .token⟩

end Visitor

/-! ## Recipes -/

namespace Recipe

/-- The edits that a recipe asks for depend on the elements of a tree alone: on two trees with the
same elements it asks for the same actions at the same places. -/
def ReadsContent (r : Recipe) : Prop :=
  ∀ t t' : SyntaxTree, t.root = t'.root → r.visit t' = (r.visit t).map (Edit.readdress t'.id)

theorem readsContent_of_visitor {r : Recipe} (h : r.visitor.ReadsContent) : r.ReadsContent := by
  intro t t' hroot
  have hindex : t'.index = t.index.readdress t'.id := by
    simp [SyntaxTree.index, TreeIndex.readdress, hroot]
  have hwalk := Visitor.follow_readdress h t'.id t.index none ⟨(), [], false⟩ t.root.events
  rw [visit, SyntaxTree.walk, hindex, ← hroot]
  exact congrArg Walk.edits hwalk

/-! ## The built-in recipes -/

theorem readdress_react (id : TreeId) (edits : List Edit) (action : VisitAction) :
    (react edits action).readdress id = react (edits.map (Edit.readdress id)) action := rfl

theorem AgendaGroup.onAttribute_readdress (id : TreeId) (v : Visit) (s : Unit) :
    onAttribute (v.readdress id) s = (onAttribute v s).readdress id := by
  rw [onAttribute, onAttribute,
    show firstSignificant? (v.readdress id) = firstSignificant? v from rfl]
  cases firstSignificant? v with
  | none => rfl
  | some found =>
    simp only [readdress_react, Visit.edit_readdress, apply_ite (List.map _), List.map_nil]

theorem readsContent_agendaGroup : agendaGroup.ReadsContent := by
  refine readsContent_of_visitor (Visitor.readsContent_ofHooks ?_)
  simp only [List.forall_mem_cons]
  exact ⟨AgendaGroup.onAttribute_readdress, fun _ _ _ => rfl, fun _ _ _ => rfl, nofun⟩

theorem LhsLogical.onOperator_readdress (parent keyword : Kind) (id : TreeId) (v : Visit)
    (s : Unit) :
    onOperator parent keyword (v.readdress id) s =
      (onOperator parent keyword v s).readdress id := by
  simp only [onOperator, readdress_react, Visit.editHere_readdress, apply_ite (List.map _),
    List.map_nil]
  rfl

theorem readsContent_lhsLogical : lhsLogical.ReadsContent := by
  refine readsContent_of_visitor (Visitor.readsContent_ofHooks ?_)
  simp only [List.forall_mem_cons]
  exact ⟨LhsLogical.onOperator_readdress _ _, LhsLogical.onOperator_readdress _ _,
    fun _ _ _ => rfl, fun _ _ _ => rfl, fun _ _ _ => rfl, nofun⟩

theorem HalfConstraint.onHalf_readdress (id : TreeId) (v : Visit) :
    onHalf (v.readdress id) = (onHalf v).readdress id := by
  rw [onHalf, onHalf, Visit.ancestorsWhile_readdress,
    show (v.readdress id).element = v.element from rfl]
  cases anchorOperand? v.element (v.ancestorsWhile isLogical) with
  | none => rfl
  | some operand => simp only [readdress_react, Visit.editHere_readdress]

theorem readsContent_halfConstraint : halfConstraint.ReadsContent := by
  refine readsContent_of_visitor ⟨fun id v s => ?_, fun _ _ _ => rfl, fun _ _ _ => rfl⟩
  simp only [halfConstraint, leaf, Recipe.visitor, HalfConstraint.visitor,
    HalfConstraint.onHalf_readdress, Visit.place_readdress]
  split <;> rfl

theorem CustomOperator.onOperator_readdress (extra : List String) (id : TreeId) (v : Visit) :
    onOperator extra (v.readdress id) = (onOperator extra v).readdress id := by
  rw [onOperator, onOperator, show operatorToken? (v.readdress id) = operatorToken? v from rfl,
    show (v.readdress id).children = v.children from rfl]
  cases operatorToken? v with
  | none => rfl
  | some found =>
    dsimp only
    split
    · simp only [readdress_react, Visit.edit_readdress]
    · rfl

theorem readsContent_customOperator (extra : List String) :
    (customOperator extra).ReadsContent := by
  refine readsContent_of_visitor ⟨fun id v s => ?_, fun _ _ _ => rfl, fun _ _ _ => rfl⟩
  simp only [customOperator, leaf, Recipe.visitor, CustomOperator.visitor,
    CustomOperator.onOperator_readdress, Visit.place_readdress]
  split <;> rfl

theorem readsContent_composite (info : RecipeInfo) (steps : List Recipe) :
    (composite info steps).ReadsContent :=
  readsContent_of_visitor ⟨fun _ _ _ => rfl, fun _ _ _ => rfl, fun _ _ _ => rfl⟩

/-- The built-in recipes without steps. With all rewrites disabled the migration is one of them. -/
inductive IsBuiltInLeaf : Recipe → Prop
  | agendaGroup : IsBuiltInLeaf agendaGroup
  | halfConstraint : IsBuiltInLeaf halfConstraint
  | lhsLogical : IsBuiltInLeaf lhsLogical
  | customOperator (extra : List String) : IsBuiltInLeaf (customOperator extra)
  | nothing : IsBuiltInLeaf (composite Migration.info [])

theorem IsBuiltInLeaf.steps_eq {p : Recipe} (h : p.IsBuiltInLeaf) : p.steps = [] := by
  cases h <;> rfl

theorem IsBuiltInLeaf.readsContent {p : Recipe} (h : p.IsBuiltInLeaf) : p.ReadsContent := by
  cases h with
  | agendaGroup => exact readsContent_agendaGroup
  | halfConstraint => exact readsContent_halfConstraint
  | lhsLogical => exact readsContent_lhsLogical
  | customOperator extra => exact readsContent_customOperator extra
  | nothing => exact readsContent_composite _ _

theorem isBuiltInLeaf_of_mem_steps {options : MigrationOptions} {p : Recipe}
    (h : p ∈ Migration.steps options) : p.IsBuiltInLeaf := by
  simp only [Migration.steps, List.mem_append, List.mem_ite_nil_right, List.mem_singleton] at h
  rcases h with ((⟨-, rfl⟩ | ⟨-, rfl⟩) | ⟨-, rfl⟩) | ⟨-, rfl⟩
  · exact .agendaGroup
  · exact .halfConstraint
  · exact .lhsLogical
  · exact .customOperator _

/-- Recipes without steps stand for themselves. -/
theorem flatten_eq_self {rs : List Recipe} (h : ∀ r ∈ rs, r.steps = []) : flatten rs = rs := by
  induction rs with
  | nil => rfl
  | cons r rs ih =>
    obtain ⟨info, visitor, steps⟩ := r
    obtain rfl : steps = [] := h _ List.mem_cons_self
    rw [flatten, leaves, ih fun r hr => h r (List.mem_cons_of_mem _ hr)]
    rfl

theorem flatten_composite (info : RecipeInfo) (step : Recipe) (steps : List Recipe) :
    flatten [composite info (step :: steps)] = flatten (step :: steps) := by
  rw [flatten, composite, leaves, flatten, flatten, List.append_nil]

/-- The built-in recipes come down to those without steps, whatever the options are. -/
theorem isBuiltInLeaf_of_mem_flatten {options : MigrationOptions} {id : String} {r : Recipe}
    (h : ofId? options id = .ok r) : ∀ p ∈ flatten [r], p.IsBuiltInLeaf := by
  have hleaf {q : Recipe} (hq : q.IsBuiltInLeaf) : ∀ p ∈ flatten [q], p.IsBuiltInLeaf := by
    rw [flatten_eq_self (by simpa using hq.steps_eq)]
    simpa using hq
  rw [ofId?] at h
  split_ifs at h
  · cases h
    exact hleaf .agendaGroup
  · cases h
    exact hleaf .halfConstraint
  · cases h
    exact hleaf .lhsLogical
  · cases h
    exact hleaf (.customOperator _)
  · cases h
    intro p hp
    rw [migration] at hp
    cases hsteps : Migration.steps options with
    | nil =>
      rw [hsteps] at hp
      exact hleaf .nothing p hp
    | cons step steps =>
      rw [hsteps, flatten_composite, ← hsteps,
        flatten_eq_self fun q hq => (isBuiltInLeaf_of_mem_steps hq).steps_eq] at hp
      exact isBuiltInLeaf_of_mem_steps hp

/-- The built-in recipes look at the elements alone, whatever the options are. -/
theorem readsContent_ofId? {options : MigrationOptions} {id : String} {r : Recipe}
    (h : ofId? options id = .ok r) : ∀ p ∈ flatten [r], p.ReadsContent :=
  fun p hp => (isBuiltInLeaf_of_mem_flatten h p hp).readsContent

end Recipe

end RuleLang
