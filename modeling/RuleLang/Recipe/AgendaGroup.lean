import RuleLang.Ast.Declarations
import RuleLang.Recipe.Basic

/-!
# Agenda groups

The rule attribute `agenda-group` becomes `ruleflow-group`; its value stays.

## Main definitions

* `Recipe.agendaGroup` — the recipe.
-/

namespace RuleLang.Recipe

namespace AgendaGroup

def info : RecipeInfo where
  id := "drl/agenda-group-to-ruleflow-group"
  displayName := "Replace agenda-group with ruleflow-group"
  description :=
    "Rewrites the agenda-group rule attribute to ruleflow-group, keeping its value."

/-- The new key. -/
def key : Action :=
  .replace (.token .ruleflowGroupKw "ruleflow-group".toList)

/-- The first token of a node that is not trivia. -/
def firstSignificant? (v : Visit) : Option (Stamped.Identity × Stamped) :=
  v.children.find? fun (_, c) => !c.isNode && !c.kind.isTrivia

def onAttribute (v : Visit) (_ : Unit) : Reaction Unit :=
  match firstSignificant? v with
  | some (identity, token) =>
    react (if token.kind == .agendaGroupKw then v.edit identity key else []) .skipChildren
  | none => react [] .skipChildren

/-- Conditions and consequences hold no attributes. -/
def visitor : Visitor Unit :=
  .ofHooks [
    ⟨.enter, .attribute, onAttribute⟩,
    ⟨.enter, .whenClause, fun _ _ => react [] .skipChildren⟩,
    ⟨.enter, .thenClause, fun _ _ => react [] .skipChildren⟩]

end AgendaGroup

def agendaGroup : Recipe :=
  leaf AgendaGroup.info AgendaGroup.visitor

end RuleLang.Recipe
