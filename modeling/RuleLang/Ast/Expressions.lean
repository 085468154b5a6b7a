import RuleLang.Ast.Basic

/-!
# Views of expressions

## Main definitions

* `Expr` — any node of the expression grammar.
* `RelationalExpr`, `HalfConstraint` — comparisons with and without left operand.
* `Operator` — the operator of a comparison.
-/

namespace RuleLang

/-- `not contains`, `==`, `##custom[parameters]` and the like. -/
abbrev Operator := View .operator

abbrev RelationalExpr := View .relationalExpr

/-- A comparison that leaves out its left operand. -/
abbrev HalfConstraint := View .halfConstraint

structure Expr where
  kind : Kind
  children : List Element

namespace Expr

def element (e : Expr) : Element :=
  .node e.kind e.children

def ofElement? : Element → Option Expr
  | .node k cs => if k.isExpr then some ⟨k, cs⟩ else none
  | .token _ _ => none

def text (e : Expr) : List Char :=
  e.element.text

/-- The operator of a binary expression. -/
def binaryOperator? (e : Expr) : Option Leaf :=
  if e.kind = .binaryExpr then (Ast.significantTokens e.children).head? else none

/-- The operands, in source order. -/
def operands (e : Expr) : List Expr :=
  e.children.filterMap ofElement?

end Expr

namespace Operator

def isNegated (o : Operator) : Bool :=
  Ast.hasToken .notKw o.children

/-- Marked as custom with `##`. -/
def isPrefixed (o : Operator) : Bool :=
  Ast.hasToken .hashHash o.children

/-- The token of the operator itself, without `not` and `##`. -/
def token? (o : Operator) : Option Leaf :=
  (Ast.significantTokens o.children).find? fun t => t.kind != .notKw && t.kind != .hashHash

def name? (o : Operator) : Option (List Char) :=
  o.token?.map Leaf.text

/-- Spelled as an identifier: a temporal or custom operator. -/
def isIdentifier (o : Operator) : Bool :=
  o.token?.any fun t => t.kind == .ident

def params? (o : Operator) : Option (List Char) :=
  (Ast.childOf? .operatorParams o.children).map View.text

end Operator

namespace RelationalExpr

def lhs? (r : RelationalExpr) : Option Expr :=
  r.children.findSome? Expr.ofElement?

def operator? (r : RelationalExpr) : Option Operator :=
  Ast.childOf? .operator r.children

/-- The right side: an expression, the list of `in` or the type of `instanceof`. -/
def rhs? (r : RelationalExpr) : Option Element :=
  ((r.children.filter Element.isNode).dropWhile fun e => e.kind != .operator)[1]?

end RelationalExpr

namespace HalfConstraint

def operator? (h : HalfConstraint) : Option Operator :=
  Ast.childOf? .operator h.children

def rhs? (h : HalfConstraint) : Option Element :=
  (h.children.filter Element.isNode).find? fun e => e.kind != .operator

end HalfConstraint

end RuleLang
