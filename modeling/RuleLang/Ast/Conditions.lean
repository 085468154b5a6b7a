import RuleLang.Ast.Expressions

/-!
# Views of conditions

## Main definitions

* `WhenClause` — the left-hand side of a rule.
* `Pattern`, `Constraint` — a pattern and what it asks of its facts.
-/

namespace RuleLang

abbrev WhenClause := View .whenClause

/-- `$p : Person( age > 18 ) from $list` -/
abbrev Pattern := View .pattern

abbrev Constraint := View .constraint

namespace WhenClause

/-- The conditional elements at the top, without what could not be read. -/
def elements (w : WhenClause) : List Element :=
  w.children.filter fun e => e.isNode && e.kind != .error

/-- Every pattern, nested ones included. -/
def patterns (w : WhenClause) : List Pattern :=
  Ast.descendantsOf .pattern w.element

end WhenClause

namespace Pattern

def binding? (p : Pattern) : Option (List Char) :=
  Ast.bindingName? p.children

def type? (p : Pattern) : Option (List Char) :=
  Ast.qualifiedName? p.children

/-- `?Name(...)` asks a query once. -/
def isQueryCall (p : Pattern) : Bool :=
  Ast.hasToken .question p.children

def constraints (p : Pattern) : List Constraint :=
  Ast.childrenOf .constraint p.children

def source? (p : Pattern) : Option (View .fromClause) :=
  Ast.childOf? .fromClause p.children

end Pattern

namespace Constraint

def binding? (c : Constraint) : Option (List Char) :=
  Ast.bindingName? c.children

def expr? (c : Constraint) : Option Expr :=
  c.children.findSome? Expr.ofElement?

end Constraint

end RuleLang
