import RuleLang.Config
import RuleLang.Recipe.AgendaGroup
import RuleLang.Recipe.CustomOperator
import RuleLang.Recipe.HalfConstraint
import RuleLang.Recipe.LhsLogical

/-!
# The built-in recipes

## Main definitions

* `Recipe.migration` — the composite of all rewrites that the options enable.
* `Recipe.ids`, `Recipe.ofId?` — the recipes by their identifiers.
-/

namespace RuleLang

/-- Why recipes cannot be run. -/
inductive RecipeFailure where
  | core (failure : Failure)
  /-- No built-in recipe has the identifier. -/
  | unknownRecipe (id : String)
  deriving DecidableEq, Repr

namespace RecipeFailure

def message (names : TreeNames) : RecipeFailure → String
  | .core f => f.message names
  | .unknownRecipe id => "Unknown recipe '" ++ id ++ "'"

/-- Other files can still be processed. -/
def isRecoverable : RecipeFailure → Bool
  | .core f => f.isRecoverable
  | .unknownRecipe _ => false

end RecipeFailure

namespace Recipe

namespace Migration

def info : RecipeInfo where
  id := "drl/migrate-drl10"
  displayName := "Migrate DRL to DRL 10"
  description :=
    "Applies the DRL 10 syntax migrations: ruleflow-group, explicit half constraints, and/or " ++
      "between patterns, ## custom operators."

/-- The enabled rewrites, in the order in which they run. -/
def steps (options : MigrationOptions) : List Recipe :=
  (if options.rewriteAgendaGroup then [agendaGroup] else []) ++
  (if options.rewriteHalfConstraints then [halfConstraint] else []) ++
  (if options.replaceLhsLogicalInfix then [lhsLogical] else []) ++
  (if options.prefixCustomOperators then [customOperator options.extraBuiltinOperators] else [])

end Migration

def migration (options : MigrationOptions) : Recipe :=
  composite Migration.info (Migration.steps options)

/-- The identifiers of the built-in recipes. -/
def ids : List String :=
  [AgendaGroup.info.id, HalfConstraint.info.id, LhsLogical.info.id, CustomOperator.info.id,
    Migration.info.id]

/-- The built-in recipe with an identifier. -/
def ofId? (options : MigrationOptions) (id : String) : Except RecipeFailure Recipe :=
  if id == AgendaGroup.info.id then .ok agendaGroup
  else if id == HalfConstraint.info.id then .ok halfConstraint
  else if id == LhsLogical.info.id then .ok lhsLogical
  else if id == CustomOperator.info.id then .ok (customOperator options.extraBuiltinOperators)
  else if id == Migration.info.id then .ok (migration options)
  else .error (.unknownRecipe id)

end Recipe

end RuleLang
