import RuleLang.Recipe.Basic

/-!
# Logical operators between patterns

`&&` and `||` that join conditional elements become `and` and `or`. Inside patterns and consequences
they belong to another language and stay.

## Main definitions

* `Recipe.lhsLogical` — the recipe.
-/

namespace RuleLang.Recipe

namespace LhsLogical

def info : RecipeInfo where
  id := "drl/lhs-logical-operators"
  displayName := "Replace &&/|| between patterns"
  description :=
    "Rewrites infix && and || that combine patterns to and/or; constraints and consequences " ++
      "are untouched."

/-- A token right below a node of kind `parent` becomes a keyword. -/
def onOperator (parent keyword : Kind) (v : Visit) (_ : Unit) : Reaction Unit :=
  let inside := (v.place.above.head?.bind fun n => v.index.places[n]?).any fun p =>
    p.element.kind == parent
  react (if inside then
    v.editHere (.replace (.token keyword (keyword.spelling?.getD "").toList)) else [])

def visitor : Visitor Unit :=
  .ofHooks [
    ⟨.token, .ampAmp, onOperator .lhsAnd .andKw⟩,
    ⟨.token, .pipePipe, onOperator .lhsOr .orKw⟩,
    ⟨.enter, .pattern, fun _ _ => react [] .skipChildren⟩,
    ⟨.enter, .lhsEval, fun _ _ => react [] .skipChildren⟩,
    ⟨.enter, .thenClause, fun _ _ => react [] .skipChildren⟩]

end LhsLogical

def lhsLogical : Recipe :=
  leaf LhsLogical.info LhsLogical.visitor

end RuleLang.Recipe
