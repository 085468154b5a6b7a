import RuleLang.Grammar.Basic

/-!
# Productions

The names of the productions of the rule language. A list is a production that enters itself again
after each of its items.

## Main definitions

* `Level` — the levels of left-associative binary operators.
* `Production` — the productions.
-/

namespace RuleLang

/-- Binary operators by precedence, the loosest first. -/
inductive Level where
  | logicalOr | logicalAnd | bitOr | bitXor | bitAnd | additive | multiplicative
  deriving DecidableEq, Repr

namespace Level

def operators : Level → List Kind
  | .logicalOr => [.pipePipe]
  | .logicalAnd => [.ampAmp]
  | .bitOr => [.pipe]
  | .bitXor => [.caret]
  | .bitAnd => [.amp]
  | .additive => [.plus, .minus]
  | .multiplicative => [.star, .slash, .percent]

/-- A comparison may leave out its left operand directly after an operator of this level. -/
def admitsHalf : Level → Bool
  | .logicalOr | .logicalAnd => true
  | _ => false

end Level

/-- A `half` flag tells whether a comparison may leave out its left operand at this place. -/
inductive Production where
  -- Declarations
  | compilationUnit | declarations | packageDecl | importDecl | globalDecl | functionDecl
  | queryDecl | declareDecl | ruleDecl | strayTokens
  | supertypes | annotations | annotated | fields | field
  | declName (role : Role) | parent | attributeList | attributes | attribute | stringList
  | whenClause | thenClause | blockEnd (block : Block)
  | parameterList | parameters | parameter | qualifiedName | nameParts | typeRef | dimensions
  -- Conditions
  | conditions | lhsOr | lhsOrRest | lhsAnd | lhsAndRest | lhsUnary | forallItems
  | prefixOperands | lhsParen | pattern | constraints | binding | constraint | window | source
  | accumulate
  -- Expressions
  | expr | ternary | binary (level : Level) (half : Bool) | binaryRest (level : Level)
  | relational (half : Bool) | relationalRest | operator | relationalRhs (op : Kind)
  | unary | postfixed | suffixes | primary | creation | creationDims | arrayInit | arrayItems
  | argList | arguments
  deriving DecidableEq, Repr

end RuleLang
