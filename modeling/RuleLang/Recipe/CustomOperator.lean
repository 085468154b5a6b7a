import RuleLang.Ast.Expressions
import RuleLang.Recipe.Basic
import RuleLang.Text.Lowercase

/-!
# Custom operators

An operator that is an identifier and none of the language itself gets the mark `##` in front. Upper
and lower case do not matter for what counts as built in.

## Main definitions

* `CustomOperator.isBuiltIn` — the operators that are left alone.
* `Recipe.customOperator` — the recipe.
-/

namespace RuleLang.Recipe

namespace CustomOperator

def info : RecipeInfo where
  id := "drl/prefix-custom-operator"
  displayName := "Prefix custom operators with ##"
  description := "Adds the ## prefix to identifier operators that are not built into DRL."

/-- The operators of the language, in small letters. -/
def builtIn : List String := [
  "contains", "excludes", "matches", "memberof", "soundslike", "str", "after", "before",
  "coincides", "during", "finishedby", "finishes", "includes", "meets", "metby", "overlappedby",
  "overlaps", "startedby", "starts"]

/-- The operators that count as built in: those of the language and `extra`. -/
def builtInNames (extra : List String) : List (List Char) :=
  builtIn.map String.toList ++ extra.map fun name => Text.lowercase name.toList

def isBuiltIn (extra : List String) (name : List Char) : Bool :=
  (builtInNames extra).contains (Text.lowercase name)

/-- The token of an operator without `not` and `##`. -/
def operatorToken? (v : Visit) : Option (Stamped.Identity × Stamped) :=
  v.children.find? fun (_, c) =>
    !c.isNode && !c.kind.isTrivia && c.kind != .notKw && c.kind != .hashHash

def onOperator (extra : List String) (v : Visit) : Reaction Unit :=
  let isPrefixed := v.children.any fun (_, c) => !c.isNode && c.kind == .hashHash
  match operatorToken? v with
  | some (identity, token) =>
    if !isPrefixed && token.kind == .ident && !isBuiltIn extra token.text then
      react (v.edit identity (.replace (.text ('#' :: '#' :: token.text)))) .skipChildren
    else react [] .skipChildren
  | none => react [] .skipChildren

def visitor (extra : List String) : Visitor Unit where
  enter v _ :=
    match v.place.element.kind with
    | .operator => onOperator extra v
    | .thenClause | .functionDecl => react [] .skipChildren
    | _ => react []

end CustomOperator

def customOperator (extra : List String) : Recipe :=
  leaf CustomOperator.info (CustomOperator.visitor extra)

end RuleLang.Recipe
