import RuleLang.Visitor

/-!
# Recipes

A recipe is a step of a migration: it looks at a tree and asks for edits. A composite recipe has
steps of its own instead.

## Main definitions

* `Recipe` — a recipe with its description.
* `Recipe.visit` — the edits that a recipe asks for.
* `Recipe.flatten` — the recipes that remain when composites give way to their steps.
* `Recipe.Descriptor` — what can be told of a recipe.
-/

namespace RuleLang

structure RecipeInfo where
  id : String
  displayName : String
  description : String
  deriving DecidableEq, Repr, Inhabited

inductive Recipe where
  | mk (info : RecipeInfo) (visitor : Visitor Unit) (steps : List Recipe)

namespace Recipe

instance : Inhabited Recipe := ⟨.mk default {} []⟩

def info : Recipe → RecipeInfo
  | .mk info _ _ => info

def id (r : Recipe) : String :=
  r.info.id

def visitor : Recipe → Visitor Unit
  | .mk _ visitor _ => visitor

/-- The steps of a composite recipe. -/
def steps : Recipe → List Recipe
  | .mk _ _ steps => steps

/-- A recipe without steps. -/
def leaf (info : RecipeInfo) (visitor : Visitor Unit) : Recipe :=
  .mk info visitor []

/-- A recipe that asks for nothing itself. -/
def composite (info : RecipeInfo) (steps : List Recipe) : Recipe :=
  .mk info {} steps

/-- The edits that a recipe asks for. -/
def visit (r : Recipe) (t : SyntaxTree) : List Edit :=
  (t.walk r.visitor ()).edits

mutual

/-- A recipe without steps stands for itself, any other for its steps. -/
def leaves : Recipe → List Recipe
  | .mk info visitor [] => [.mk info visitor []]
  | .mk _ _ (step :: steps) => step.leaves ++ flatten steps

/-- Recipes with composites replaced by their steps, in order. -/
def flatten : List Recipe → List Recipe
  | [] => []
  | r :: rs => r.leaves ++ flatten rs

end

/-- What can be told of a recipe. -/
inductive Descriptor where
  | mk (info : RecipeInfo) (steps : List Descriptor)
  deriving Repr

namespace Descriptor

def info : Descriptor → RecipeInfo
  | .mk info _ => info

def steps : Descriptor → List Descriptor
  | .mk _ steps => steps

end Descriptor

mutual

def descriptor : Recipe → Descriptor
  | .mk info _ steps => .mk info (descriptors steps)

def descriptors : List Recipe → List Descriptor
  | [] => []
  | r :: rs => r.descriptor :: descriptors rs

end

/-- A visitor without a state of its own reacts with edits and an action. -/
def react (edits : List Edit) (action : VisitAction := .descend) : Reaction Unit :=
  { state := (), edits := edits, action := action }

end Recipe

end RuleLang
