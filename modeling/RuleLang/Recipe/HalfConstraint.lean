import RuleLang.Ast.Expressions
import RuleLang.Recipe.Basic

/-!
# Half constraints

`name == "Mark" || == "Mario"` leaves out the left operand of its second comparison. It is filled in
from the comparison that anchors it: the leftmost of the chain of `||` and `&&`.

## Main definitions

* `HalfConstraint.anchorOperand?` — the operand to be filled in.
* `Recipe.halfConstraint` — the recipe.
-/

namespace RuleLang.Recipe

namespace HalfConstraint

def info : RecipeInfo where
  id := "drl/half-constraint"
  displayName := "Rewrite half-constraints"
  description := "Fills in the missing left operand of comparisons chained with || or &&."

/-- An expression with `||` or `&&` at its root. -/
def isLogical (e : Element) : Bool :=
  ((Expr.ofElement? e).bind Expr.binaryOperator?).any fun op =>
    op.kind == .pipePipe || op.kind == .ampAmp

mutual

/-- Down the first operands, as long as they are joined by `||` or `&&`. -/
def leftmost? : Element → Option Element
  | .token _ _ => none
  | .node k cs => if isLogical (.node k cs) then leftmostAmong? cs else some (.node k cs)

def leftmostAmong? : List Element → Option Element
  | [] => none
  | e :: es => if e.isNode && e.kind.isExpr then leftmost? e else leftmostAmong? es

end

/-- The top of the chain of `||` and `&&` that an element stands in. -/
def chainTop (e : Element) (ancestors : List Element) : Element :=
  (ancestors.takeWhile isLogical).getLastD e

/-- The left operand of the comparison that anchors a half constraint. -/
def anchorOperand? (half : Element) (ancestors : List Element) : Option (List Char) :=
  (leftmost? (chainTop half ancestors)).bind fun e =>
    (View.ofElement? e).bind fun r : RelationalExpr => r.lhs?.map Expr.text

/-- A comparison of the text if it is one, else the text as it is. -/
def replacement (text : List Char) : Replacement :=
  match Fragment.read .expression text with
  | .ok e => .node e
  | .error _ => .text text

def onHalf (v : Visit) : Reaction Unit :=
  match anchorOperand? v.element (v.ancestorsWhile isLogical) with
  | some operand =>
    let text := operand ++ ' ' :: v.element.text
    react (v.editHere (.replace (replacement text))) .skipChildren
  | none => react [] .skipChildren

def visitor : Visitor Unit where
  enter v _ :=
    match v.place.element.kind with
    | .halfConstraint => onHalf v
    | .thenClause | .functionDecl => react [] .skipChildren
    | _ => react []

end HalfConstraint

def halfConstraint : Recipe :=
  leaf HalfConstraint.info HalfConstraint.visitor

end RuleLang.Recipe
