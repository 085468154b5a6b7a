import RuleLang.Grammar.Conditions
import RuleLang.Grammar.Expressions

/-!
# The grammar of rule files

## Main definitions

* `Production.body` — the body of each production.
-/

namespace RuleLang

open Grammar

def Production.body : Production → Rule
  | .compilationUnit => Declarations.compilationUnit
  | .declarations => Declarations.declarations
  | .packageDecl => Declarations.packageDecl
  | .importDecl => Declarations.importDecl
  | .globalDecl => Declarations.globalDecl
  | .functionDecl => Declarations.functionDecl
  | .queryDecl => Declarations.queryDecl
  | .declareDecl => Declarations.declareDecl
  | .ruleDecl => Declarations.ruleDecl
  | .strayTokens => Declarations.strayTokens
  | .supertypes => Declarations.supertypes
  | .annotations => Declarations.annotations
  | .annotated => Declarations.annotated
  | .fields => Declarations.fields
  | .field => Declarations.field
  | .declName role => Declarations.declName role
  | .parent => Declarations.parent
  | .attributeList => Declarations.attributeList
  | .attributes => Declarations.attributes
  | .attribute => Declarations.attributeItem
  | .stringList => Declarations.stringList
  | .whenClause => Declarations.whenClause
  | .thenClause => Declarations.thenClause
  | .blockEnd block => Declarations.blockEnd block
  | .parameterList => Declarations.parameterList
  | .parameters => Declarations.parameters
  | .parameter => Declarations.parameter
  | .qualifiedName => Declarations.qualifiedName
  | .nameParts => Declarations.nameParts
  | .typeRef => Declarations.typeRef
  | .dimensions => Declarations.dimensions
  | .conditions => Conditions.conditions
  | .lhsOr => Conditions.lhsOr
  | .lhsOrRest => Conditions.lhsOrRest
  | .lhsAnd => Conditions.lhsAnd
  | .lhsAndRest => Conditions.lhsAndRest
  | .lhsUnary => Conditions.lhsUnary
  | .forallItems => Conditions.forallItems
  | .prefixOperands => Conditions.prefixOperands
  | .lhsParen => Conditions.lhsParen
  | .pattern => Conditions.pattern
  | .constraints => Conditions.constraints
  | .binding => Conditions.binding
  | .constraint => Conditions.constraint
  | .window => Conditions.window
  | .source => Conditions.source
  | .accumulate => Conditions.accumulate
  | .expr => Expressions.expr
  | .ternary => Expressions.ternary
  | .binary level half => Expressions.binary level half
  | .binaryRest level => Expressions.binaryRest level
  | .relational half => Expressions.relational half
  | .relationalRest => Expressions.relationalRest
  | .operator => Expressions.operator
  | .relationalRhs op => Expressions.relationalRhs op
  | .unary => Expressions.unary
  | .postfixed => Expressions.postfixed
  | .suffixes => Expressions.suffixes
  | .primary => Expressions.primary
  | .creation => Expressions.creation
  | .creationDims => Expressions.creationDims
  | .arrayInit => Expressions.arrayInit
  | .arrayItems => Expressions.arrayItems
  | .argList => Expressions.argList
  | .arguments => Expressions.arguments

end RuleLang
