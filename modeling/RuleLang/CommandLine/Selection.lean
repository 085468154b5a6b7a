import RuleLang.Recipe.BuiltIn

/-!
# Selecting recipes

Which recipes a migration runs: the ones asked for, less the disabled ones.

## Main definitions

* `disable?` — the options without one rewrite.
* `selectRecipes` — the recipes to run.
-/

namespace RuleLang

/-- Why recipes cannot be selected. -/
inductive SelectionFault where
  /-- Only the single rewrites can be disabled. -/
  | cannotDisable (id : String)
  | unknown (id : String)
  deriving DecidableEq, Repr

def SelectionFault.message : SelectionFault → String
  | .cannotDisable id =>
    "Cannot disable unknown recipe '" ++ id ++ "'. Known recipes: " ++ ", ".intercalate Recipe.ids
  | .unknown id =>
    "Known recipes: " ++ ", ".intercalate Recipe.ids ++ ": " ++
      (RecipeFailure.unknownRecipe id).message .numbered

/-- The options without the rewrite that has an identifier. -/
def disable? (options : MigrationOptions) (id : String) : Option MigrationOptions :=
  if id == Recipe.AgendaGroup.info.id then some { options with rewriteAgendaGroup := false }
  else if id == Recipe.HalfConstraint.info.id then
    some { options with rewriteHalfConstraints := false }
  else if id == Recipe.LhsLogical.info.id then some { options with replaceLhsLogicalInfix := false }
  else if id == Recipe.CustomOperator.info.id then
    some { options with prefixCustomOperators := false }
  else none

/-- The options without the disabled rewrites. -/
def disableAll (options : MigrationOptions) : List String → Except SelectionFault MigrationOptions
  | [] => .ok options
  | id :: ids =>
    match disable? options id with
    | some options => disableAll options ids
    | none => .error (.cannotDisable id)

/-- The recipes with identifiers, in their order. -/
def recipesOf (options : MigrationOptions) : List String → Except SelectionFault (List Recipe)
  | [] => .ok []
  | id :: ids =>
    match Recipe.ofId? options id with
    | .ok recipe => (recipesOf options ids).map (recipe :: ·)
    | .error _ => .error (.unknown id)

/-- The recipes that are asked for and not disabled. Where none is asked for, it is the migration;
disabled rewrites are no steps of it. -/
def selectRecipes (requested disabled : List String) (options : MigrationOptions) :
    Except SelectionFault (List Recipe) :=
  (disableAll options disabled).bind fun options =>
    let ids := if requested.isEmpty then [Recipe.Migration.info.id] else requested
    recipesOf options (ids.filter fun id => !disabled.contains id)

end RuleLang
