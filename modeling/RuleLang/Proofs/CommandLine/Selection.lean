import RuleLang.CommandLine.Selection
import RuleLang.Proofs.Recipe.Applied
import RuleLang.Proofs.Recipe.Content

/-!
# Disabled recipes never run

Disabling acts in two places: the migration loses steps, and what is asked for by its own identifier
is passed over. Both come to one rule for a request: a rewrite runs unless it is disabled, and the
migration stands for the rewrites that remain.

## Main definitions

* `Rewrite` — the rewrites that can be asked for and disabled each by itself.
* `Rewrite.remaining` — the rewrites that the options enable, less the disabled ones.
* `recipesFor` — what runs for one request.

## Main statements

* `disableAll_eq`, `selectRecipes_cases` — which identifier is at fault, and what is selected if
  none is.
* `selectRecipes_never_disabled` — a selection is what its requests stand for, in their order, and
  no disabled recipe is among it.
-/

namespace RuleLang

open Recipe

/-- The rewrites that can be asked for and disabled each by itself. -/
inductive Rewrite where
  | agendaGroup
  | halfConstraint
  | lhsLogical
  | customOperator
  deriving DecidableEq, Repr

namespace Rewrite

/-- In the order in which the migration runs them. -/
def all : List Rewrite :=
  [agendaGroup, halfConstraint, lhsLogical, customOperator]

def id : Rewrite → String
  | agendaGroup => AgendaGroup.info.id
  | halfConstraint => HalfConstraint.info.id
  | lhsLogical => LhsLogical.info.id
  | customOperator => CustomOperator.info.id

def ids : List String :=
  all.map id

/-- The rewrite with an identifier. -/
def ofId? (s : String) : Option Rewrite :=
  all.find? fun w => s == w.id

def isEnabled (options : MigrationOptions) : Rewrite → Bool
  | agendaGroup => options.rewriteAgendaGroup
  | halfConstraint => options.rewriteHalfConstraints
  | lhsLogical => options.replaceLhsLogicalInfix
  | customOperator => options.prefixCustomOperators

def recipe (options : MigrationOptions) : Rewrite → Recipe
  | agendaGroup => Recipe.agendaGroup
  | halfConstraint => Recipe.halfConstraint
  | lhsLogical => Recipe.lhsLogical
  | customOperator => Recipe.customOperator options.extraBuiltinOperators

/-- The rewrites that are enabled and not disabled, in the order of the migration. -/
def remaining (options : MigrationOptions) (disabled : List String) : List Rewrite :=
  all.filter fun w => !disabled.contains w.id && w.isEnabled options

variable {w : Rewrite} {s : String} {options : MigrationOptions} {disabled : List String}

theorem mem_all (w : Rewrite) : w ∈ all := by
  cases w <;> decide

theorem id_mem_ids (w : Rewrite) : w.id ∈ ids :=
  List.mem_map_of_mem (mem_all w)

theorem id_of_ofId? (h : ofId? s = some w) : w.id = s := by
  rw [ofId?] at h
  have hw := List.find?_some h
  exact (beq_iff_eq.1 hw).symm

theorem ofId?_eq_none_iff : ofId? s = none ↔ s ∉ ids := by
  rw [ofId?, List.find?_eq_none, ids, List.mem_map]
  simp only [beq_iff_eq, not_exists, not_and, ne_comm]

theorem not_mem_ids_iff :
    s ∉ ids ↔ s ≠ AgendaGroup.info.id ∧ s ≠ HalfConstraint.info.id ∧ s ≠ LhsLogical.info.id ∧
      s ≠ CustomOperator.info.id := by
  simp [ids, all, id]

/-- The migration as a whole cannot be disabled. -/
theorem migration_not_mem_ids : Migration.info.id ∉ ids := by
  decide

theorem id_ne_migration (w : Rewrite) : w.id ≠ Migration.info.id :=
  fun h => migration_not_mem_ids (h ▸ w.id_mem_ids)

theorem id_recipe (w : Rewrite) (options : MigrationOptions) : (w.recipe options).id = w.id := by
  cases w <;> rfl

theorem steps_recipe (w : Rewrite) (options : MigrationOptions) :
    (w.recipe options).steps = [] := by
  cases w <;> rfl

theorem not_mem_of_remaining (h : w ∈ remaining options disabled) : w.id ∉ disabled := by
  have hw := (List.mem_filter.1 h).2
  simp only [Bool.and_eq_true, Bool.not_eq_true', List.contains_eq_mem,
    decide_eq_false_iff_not] at hw
  exact hw.1

end Rewrite

/-- What runs for one request. A rewrite runs unless it is disabled. The migration stands for the
rewrites that remain; if none does, for itself without steps. -/
def recipesFor (options : MigrationOptions) (disabled : List String) (id : String) : List Recipe :=
  if id = Migration.info.id then
    match Rewrite.remaining options disabled with
    | [] => [composite Migration.info []]
    | w :: ws => (w :: ws).map (Rewrite.recipe options)
  else if id ∈ disabled then []
  else ((Rewrite.ofId? id).map (Rewrite.recipe options)).toList

/-- What is asked for: the migration, unless something is named. -/
def requests (named : List String) : List String :=
  if named = [] then [Migration.info.id] else named

/-! ## Disabling -/

/-- The options without the rewrites that have one of the identifiers. -/
def MigrationOptions.without (options : MigrationOptions) (disabled : List String) :
    MigrationOptions :=
  let stays (w : Rewrite) : Bool := !disabled.contains w.id && w.isEnabled options
  { options with
    rewriteAgendaGroup := stays .agendaGroup
    rewriteHalfConstraints := stays .halfConstraint
    replaceLhsLogicalInfix := stays .lhsLogical
    prefixCustomOperators := stays .customOperator }

section Disabling

variable (options : MigrationOptions) (disabled : List String)

namespace MigrationOptions

theorem isEnabled_without (w : Rewrite) :
    w.isEnabled (options.without disabled) = (!disabled.contains w.id && w.isEnabled options) := by
  cases w <;> rfl

/-- Disabling leaves the rewrites themselves as they are. -/
theorem recipe_without (w : Rewrite) :
    w.recipe (options.without disabled) = w.recipe options := by
  cases w <;> rfl

theorem without_cons (id : String) :
    options.without (id :: disabled) = (options.without [id]).without disabled := by
  simp [without, Rewrite.isEnabled, Bool.and_assoc, Bool.and_left_comm]

end MigrationOptions

theorem disable?_eq (id : String) :
    disable? options id = (Rewrite.ofId? id).map fun _ => options.without [id] := by
  cases hw : Rewrite.ofId? id with
  | some w =>
    obtain rfl := Rewrite.id_of_ofId? hw
    cases w <;> rfl
  | none =>
    -- none of the identifiers that disabling tells apart
    have hid := Rewrite.not_mem_ids_iff.1 (Rewrite.ofId?_eq_none_iff.1 hw)
    simp [disable?, hid]

/-- The first disabled identifier that is not the one of a rewrite is at fault. -/
theorem disableAll_eq :
    disableAll options disabled =
      match disabled.find? (· ∉ Rewrite.ids) with
      | some unknown => .error (.cannotDisable unknown)
      | none => .ok (options.without disabled) := by
  induction disabled generalizing options with
  | nil => rfl
  | cons id disabled ih =>
    rw [disableAll, disable?_eq]
    cases hw : Rewrite.ofId? id with
    | none =>
      have hid := Rewrite.ofId?_eq_none_iff.1 hw
      rw [List.find?_cons_of_pos (by simpa using hid)]
      rfl
    | some w =>
      have hid : id ∈ Rewrite.ids := Rewrite.id_of_ofId? hw ▸ w.id_mem_ids
      rw [List.find?_cons_of_neg (by simpa using hid), options.without_cons disabled id, ← ih]
      rfl

end Disabling

/-! ## Requests -/

section Requests

variable {options : MigrationOptions} {disabled named : List String} {id : String}

/-- The built-in recipes are the rewrites and the migration. -/
theorem Recipe.ids_eq : Recipe.ids = Rewrite.ids ++ [Migration.info.id] := rfl

/-- The steps of the migration are the enabled rewrites. -/
theorem Recipe.Migration.steps_eq (options : MigrationOptions) :
    Migration.steps options =
      (Rewrite.all.filter (Rewrite.isEnabled options)).map (Rewrite.recipe options) := by
  obtain ⟨half, custom, logical, agenda, extra⟩ := options
  cases half <;> cases custom <;> cases logical <;> cases agenda <;> rfl

theorem Recipe.Migration.steps_without (options : MigrationOptions) (disabled : List String) :
    Migration.steps (options.without disabled) =
      (Rewrite.remaining options disabled).map (Rewrite.recipe options) := by
  rw [steps_eq, Rewrite.remaining,
    funext (options.isEnabled_without disabled), funext (options.recipe_without disabled)]

theorem Recipe.leaves_of_steps_eq {r : Recipe} (h : r.steps = []) : r.leaves = [r] := by
  obtain ⟨info, visitor, steps⟩ := r
  obtain rfl : steps = [] := h
  rw [leaves]

theorem Recipe.leaves_migration (options : MigrationOptions) (disabled : List String) :
    (migration (options.without disabled)).leaves =
      recipesFor options disabled Migration.info.id := by
  rw [migration, Migration.steps_without, recipesFor, if_pos rfl]
  cases Rewrite.remaining options disabled with
  | nil => exact leaves_of_steps_eq rfl
  | cons w ws =>
    -- a composite with steps gives way to them, and none of them has steps of its own
    change flatten ((w :: ws).map (Rewrite.recipe options)) = _
    refine flatten_eq_self fun r hr => ?_
    obtain ⟨v, -, rfl⟩ := List.mem_map.1 hr
    exact v.steps_recipe options

theorem recipesFor_of_mem (hid : id ∈ disabled) (hne : id ≠ Migration.info.id) :
    recipesFor options disabled id = [] := by
  rw [recipesFor, if_neg hne, if_pos hid]

/-- What is not disabled is looked up under what is left of the options. -/
theorem Recipe.ofId?_cases (options : MigrationOptions) (hid : id ∉ disabled) :
    if id ∈ Recipe.ids then
      ∃ r, Recipe.ofId? (options.without disabled) id = .ok r ∧
        r.leaves = recipesFor options disabled id
    else Recipe.ofId? (options.without disabled) id = .error (.unknownRecipe id) := by
  cases hw : Rewrite.ofId? id with
  | some w =>
    obtain rfl := Rewrite.id_of_ofId? hw
    rw [if_pos (ids_eq ▸ List.mem_append_left _ w.id_mem_ids), recipesFor,
      if_neg w.id_ne_migration, if_neg hid, hw]
    refine ⟨w.recipe options, ?_, leaves_of_steps_eq (w.steps_recipe options)⟩
    cases w <;> rfl
  | none =>
    have hrewrite := Rewrite.ofId?_eq_none_iff.1 hw
    by_cases hmigration : id = Migration.info.id
    · subst hmigration
      exact ⟨migration (options.without disabled), rfl, leaves_migration options disabled⟩
    · rw [if_neg (by simpa [ids_eq] using ⟨hrewrite, hmigration⟩)]
      simp [Recipe.ofId?, Rewrite.not_mem_ids_iff.1 hrewrite, hmigration]

/-- The first identifier that no recipe has is at fault. -/
theorem recipesOf_cases (options : MigrationOptions) (disabled asked : List String)
    (hasked : ∀ id ∈ asked, id ∉ disabled) :
    match asked.find? (· ∉ Recipe.ids) with
    | some unknown => recipesOf (options.without disabled) asked = .error (.unknown unknown)
    | none => ∃ recipes, recipesOf (options.without disabled) asked = .ok recipes ∧
        flatten recipes = asked.flatMap (recipesFor options disabled) := by
  induction asked with
  | nil => exact ⟨[], rfl, rfl⟩
  | cons id asked ih =>
    have hid := Recipe.ofId?_cases options (hasked id List.mem_cons_self)
    rw [recipesOf]
    by_cases hknown : id ∈ Recipe.ids
    · rw [if_pos hknown] at hid
      obtain ⟨r, hr, hleaves⟩ := hid
      have hrest := ih fun id h => hasked id (List.mem_cons_of_mem _ h)
      rw [List.find?_cons_of_neg (by simpa using hknown), hr]
      cases hfind : asked.find? (· ∉ Recipe.ids) with
      | some unknown =>
        simp only [hfind] at hrest
        simp only [hrest]
        rfl
      | none =>
        simp only [hfind] at hrest
        obtain ⟨recipes, hok, hflat⟩ := hrest
        exact ⟨r :: recipes, by simp only [hok, Except.map],
          by rw [flatten, hleaves, hflat, List.flatMap_cons]⟩
    · rw [if_neg hknown] at hid
      rw [List.find?_cons_of_pos (by simpa using hknown), hid]

/-- Passing over what is disabled changes nothing, as it stands for no recipe. -/
theorem flatMap_filter_recipesFor (options : MigrationOptions)
    (hdisabled : ∀ id ∈ disabled, id ∈ Rewrite.ids) (asked : List String) :
    (asked.filter fun id => !disabled.contains id).flatMap (recipesFor options disabled) =
      asked.flatMap (recipesFor options disabled) := by
  induction asked with
  | nil => rfl
  | cons id asked ih =>
    by_cases hid : id ∈ disabled
    · -- what is disabled is a rewrite, so that the migration is never passed over
      have hne : id ≠ Migration.info.id := fun h =>
        Rewrite.migration_not_mem_ids (h ▸ hdisabled id hid)
      rw [List.filter_cons_of_neg (by simpa using hid), List.flatMap_cons,
        recipesFor_of_mem hid hne, List.nil_append, ih]
    · rw [List.filter_cons_of_pos (by simpa using hid), List.flatMap_cons, List.flatMap_cons, ih]

/-- Faults with what is disabled come before those with what is asked for. -/
theorem selectRecipes_cases (named disabled : List String) (options : MigrationOptions) :
    match disabled.find? (· ∉ Rewrite.ids),
      ((requests named).filter fun id => !disabled.contains id).find? (· ∉ Recipe.ids) with
    | some unknown, _ => selectRecipes named disabled options = .error (.cannotDisable unknown)
    | none, some unknown => selectRecipes named disabled options = .error (.unknown unknown)
    | none, none => ∃ recipes, selectRecipes named disabled options = .ok recipes ∧
        flatten recipes = (requests named).flatMap (recipesFor options disabled) := by
  have hselect : selectRecipes named disabled options =
      (disableAll options disabled).bind fun options =>
        recipesOf options ((requests named).filter fun id => !disabled.contains id) := by
    simp only [selectRecipes, requests, List.isEmpty_iff]
  rw [hselect, disableAll_eq]
  cases hdisabled : disabled.find? (· ∉ Rewrite.ids) with
  | some unknown => rfl
  | none =>
    have hids : ∀ id ∈ disabled, id ∈ Rewrite.ids := by
      simpa [List.find?_eq_none] using hdisabled
    have hcases := recipesOf_cases options disabled
      ((requests named).filter fun id => !disabled.contains id) (by simp)
    rw [flatMap_filter_recipesFor options hids] at hcases
    cases hfind : ((requests named).filter fun id => !disabled.contains id).find?
      (· ∉ Recipe.ids) with
    | some unknown => simpa only [hfind, Except.bind] using hcases
    | none => simpa only [hfind, Except.bind] using hcases

/-- With no fault in what is disabled, none of it is among what runs. -/
theorem not_mem_of_mem_recipesFor (hdisabled : ∀ id ∈ disabled, id ∈ Rewrite.ids) {p : Recipe}
    (hp : p ∈ recipesFor options disabled id) : p.id ∉ disabled := by
  have hmigration : Migration.info.id ∉ disabled := fun h =>
    Rewrite.migration_not_mem_ids (hdisabled _ h)
  rw [recipesFor] at hp
  split at hp
  · split at hp
    · obtain rfl := List.mem_singleton.1 hp
      exact hmigration
    · rename_i hremaining
      obtain ⟨w, hw, rfl⟩ := List.mem_map.1 hp
      rw [w.id_recipe]
      exact Rewrite.not_mem_of_remaining (hremaining ▸ hw)
  · split at hp
    · exact absurd hp List.not_mem_nil
    · rename_i hid
      obtain ⟨w, hw, rfl⟩ := Option.map_eq_some_iff.1 (Option.mem_toList.1 hp)
      rw [w.id_recipe, Rewrite.id_of_ofId? hw]
      exact hid

/-- The migration is built in, so that it is no fault to name nothing. -/
theorem isSome_find?_requests (named disabled : List String) :
    (((requests named).filter fun id => !disabled.contains id).find? (· ∉ Recipe.ids)).isSome ↔
      ∃ id ∈ named, id ∉ disabled ∧ id ∉ Recipe.ids := by
  rw [requests]
  split
  · rename_i hnamed
    have hknown : Migration.info.id ∈ Recipe.ids := by decide
    simp [hnamed, hknown]
  · simp

/-- When a selection fails. -/
theorem selectRecipes_error_iff (named disabled : List String) (options : MigrationOptions) :
    (∃ fault, selectRecipes named disabled options = .error fault) ↔
      (∃ id ∈ disabled, id ∉ Rewrite.ids) ∨ ∃ id ∈ named, id ∉ disabled ∧ id ∉ Recipe.ids := by
  have hdisabled : (disabled.find? (· ∉ Rewrite.ids)).isSome ↔
      ∃ id ∈ disabled, id ∉ Rewrite.ids := by
    simp
  have hcases := selectRecipes_cases named disabled options
  rw [← hdisabled, ← isSome_find?_requests]
  split at hcases
  · rename_i hunknown
    exact iff_of_true ⟨_, hcases⟩ (.inl (by rw [hunknown]; rfl))
  · rename_i hnone hunknown
    exact iff_of_true ⟨_, hcases⟩ (.inr (by rw [hunknown]; rfl))
  · rename_i hnone hnone'
    obtain ⟨recipes, hok, -⟩ := hcases
    rw [hok, hnone, hnone']
    simp

/-- What is selected where nothing is at fault. -/
theorem exists_selectRecipes_ok (options : MigrationOptions)
    (hdisabled : ∀ id ∈ disabled, id ∈ Rewrite.ids)
    (hnamed : ∀ id ∈ named, id ∉ disabled → id ∈ Recipe.ids) :
    ∃ recipes, selectRecipes named disabled options = .ok recipes ∧
      flatten recipes = (requests named).flatMap (recipesFor options disabled) := by
  have hcases := selectRecipes_cases named disabled options
  have hnone : disabled.find? (· ∉ Rewrite.ids) = none := by
    simpa using hdisabled
  have hnone' : ((requests named).filter fun id => !disabled.contains id).find?
      (· ∉ Recipe.ids) = none := by
    rw [← Option.not_isSome_iff_eq_none, isSome_find?_requests]
    rintro ⟨id, hmem, hid, hunknown⟩
    exact hunknown (hnamed id hmem hid)
  simpa only [hnone, hnone'] using hcases

/-- With all rewrites disabled the migration stands for itself. -/
example : selectRecipes [] Rewrite.ids {} = .ok [composite Migration.info []] := rfl

/-- A selection fails for an identifier to be disabled that is not the one of a rewrite, or for one
that is asked for, not disabled, and not built in. Otherwise what is selected comes down to what the
requests stand for, in their order, and no disabled recipe is among it, nor does a run apply one. In
place of the migration with no rewrite left stands a recipe that asks for nothing. -/
theorem selectRecipes_never_disabled (named disabled : List String) (options : MigrationOptions) :
    let refused := (∃ id ∈ disabled, id ∉ Rewrite.ids) ∨
      ∃ id ∈ named, id ∉ disabled ∧ id ∉ Recipe.ids
    ((∃ fault, selectRecipes named disabled options = .error fault) ↔ refused) ∧
    (¬refused → ∃ recipes, selectRecipes named disabled options = .ok recipes ∧
      (∀ p ∈ flatten recipes, p.id ∉ disabled) ∧
      flatten recipes = (requests named).flatMap (recipesFor options disabled) ∧
      ∀ (r : Runner) (sourceId : String) (source : List Char) (out : RunOutput),
        r.run sourceId source recipes = .ok out → ∀ id ∈ out.applied, id ∉ disabled) ∧
    ∀ tree, (composite Migration.info []).visit tree = [] := by
  intro refused
  refine ⟨selectRecipes_error_iff named disabled options, fun hfine => ?_,
    visit_composite_eq_nil _ _⟩
  simp only [refused, not_or, not_exists, not_and, Classical.not_not] at hfine
  obtain ⟨hdisabled, hnamed⟩ := hfine
  obtain ⟨recipes, hok, hflat⟩ := exists_selectRecipes_ok options hdisabled hnamed
  have hruns : ∀ p ∈ flatten recipes, p.id ∉ disabled := by
    intro p hp
    rw [hflat] at hp
    obtain ⟨id, -, hp⟩ := List.mem_flatMap.1 hp
    exact not_mem_of_mem_recipesFor hdisabled hp
  refine ⟨recipes, hok, hruns, hflat, fun r sourceId source out hrun id hid => ?_⟩
  obtain ⟨p, hp, rfl⟩ := List.mem_map.1 (Runner.applied_run hrun hid)
  exact hruns p hp

/-- One rewrite is disabled twice and passed over where it is asked for, another one is disabled by
the options and yet runs where it is asked for by itself, and the migration runs twice. -/
theorem selectRecipes_never_disabled_twice :
    let named := ["drl/half-constraint", "drl/migrate-drl10", "drl/lhs-logical-operators",
      "drl/migrate-drl10"]
    let disabled := ["drl/half-constraint", "drl/agenda-group-to-ruleflow-group",
      "drl/half-constraint"]
    let options : MigrationOptions :=
      { replaceLhsLogicalInfix := false, extraBuiltinOperators := ["supersetOf"] }
    ∃ recipes, selectRecipes named disabled options = .ok recipes ∧
      flatten recipes =
        [customOperator ["supersetOf"], lhsLogical, customOperator ["supersetOf"]] := by
  intro named disabled options
  obtain ⟨-, hselected, -⟩ := selectRecipes_never_disabled named disabled options
  obtain ⟨recipes, hok, -, hflat, -⟩ := hselected (by decide)
  exact ⟨recipes, hok, hflat.trans rfl⟩

end Requests

end RuleLang
