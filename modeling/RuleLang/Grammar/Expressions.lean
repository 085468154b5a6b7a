import RuleLang.Grammar.Declarations
import RuleLang.Text.Uppercase

/-!
# Expressions

The productions for constraint expressions. Precedence, the loosest first: conditional, `||`, `&&`,
`|`, `^`, `&`, comparisons, `+ -`, `* / %`, signs and casts, suffixes.

Directly after `||` or `&&` a comparison may leave out its left operand, as in `age > 30 || < 20`.
-/

namespace RuleLang.Grammar.Expressions

/-- A token that an operand may start with. -/
def isOperandStart (k : Kind) : Bool :=
  k.isName || k.isLiteral ||
  match k with
  | .newKw | .lParen | .lBracket | .bang | .minus | .plus | .tilde => true
  | _ => false

/-- An operator of a comparison comes next. An identifier counts if an operand may follow it. -/
def atRelationalOperator (a : Ahead) : Bool :=
  a.current.isComparison || a.current.isWordOperator ||
  match a.current with
  | .inKw | .instanceofKw | .hashHash => true
  | .ident => isOperandStart (a.nth 1)
  | .notKw =>
    (a.nth 1).isWordOperator || a.nth 1 == .inKw || a.nth 1 == .ident || a.nth 1 == .hashHash
  | _ => false

/-- An operator that a comparison without left operand may start with: none that is an
identifier. -/
def atHalfConstraint (a : Ahead) : Bool :=
  a.current.isComparison || a.current.isWordOperator ||
  match a.current with
  | .inKw | .hashHash => true
  | .notKw => (a.nth 1).isWordOperator || a.nth 1 == .inKw || a.nth 1 == .hashHash
  | _ => false

/-- The kind of the operator that comes next, without its negation; an identifier after `##`. -/
def operatorKind (a : Ahead) : Kind :=
  let k := if a.isAt .notKw then a.nth 1 else a.current
  if k == .hashHash then .ident else k

/-- The names of types that start with a small letter. -/
def primitiveTypes : List String :=
  ["int", "long", "short", "byte", "char", "boolean", "float", "double"]

/-- A name that casts may use: of a primitive type, or with a capital letter. -/
def looksLikeType (t : Token) : Bool :=
  t.kind == .ident &&
    ((primitiveTypes.map String.toList).contains t.text || t.text.head?.any Text.isUppercase)

/-- The tokens without the repetitions of `first second` at their start. -/
def dropPairs (first second : Kind) : List Kind → List Kind
  | a :: b :: ks => if a == first && b == second then dropPairs first second ks else a :: b :: ks
  | ks => ks

/-- The kinds of all significant tokens. -/
def significantKinds (a : Ahead) : List Kind :=
  (a.filter fun t => !t.isTrivia).map Token.kind

/-- A token that may follow the type of a cast. -/
def isCastOperandStart (k : Kind) : Bool :=
  k == .ident || k.isLiteral || k == .newKw || k == .lParen

/-- A cast `(Type) operand` comes next, with dotted names and array dimensions in the type. -/
def atCast (a : Ahead) : Bool :=
  a.isAt .lParen && (a.nthToken? 1).any looksLikeType &&
    match dropPairs .lBracket .rBracket
        (dropPairs .dot .ident ((significantKinds a).drop 2)) with
    | .rParen :: k :: _ => isCastOperandStart k
    | _ => false

def expr : Rule :=
  .call .ternary

/-- `condition [? expr : expr]` -/
def ternary : Rule :=
  innerGroup
    (.call (.binary .logicalOr false) >>
      whenAt .question
        (.enclose .ternaryExpr (bump >> .call .expr >> expect .colon >> .call .expr)))

/-- The operands of the binary operators of a level. -/
def operand : Level → Bool → Rule
  | .logicalOr, half => .call (.binary .logicalAnd half)
  | .logicalAnd, half => .call (.binary .bitOr half)
  | .bitOr, half => .call (.binary .bitXor half)
  | .bitXor, half => .call (.binary .bitAnd half)
  | .bitAnd, half => .call (.relational half)
  | .additive, half => .call (.binary .multiplicative half)
  | .multiplicative, _ => .call .unary

/-- `operand (operator operand)*`, nested to the left. -/
def binary (level : Level) (half : Bool) : Rule :=
  innerGroup (operand level half >> .call (.binaryRest level))

def binaryRest (level : Level) : Rule :=
  when (fun a => level.operators.contains a.current)
    (.enclose .binaryExpr (bump >> operand level level.admitsHalf) >> .call (.binaryRest level))

/-- An operator with the right side that it asks for. -/
def operation : Rule :=
  .look fun a => .call .operator >> .call (.relationalRhs (operatorKind a))

/-- A comparison, or only its right half where `half` allows it. -/
def relational (half : Bool) : Rule :=
  when (fun a => half && atHalfConstraint a) (inner .halfConstraint operation)
    (innerGroup (.call (.binary .additive false) >> .call .relationalRest))

def relationalRest : Rule :=
  when atRelationalOperator (.enclose .relationalExpr operation >> .call .relationalRest)

/-- `[not] (## name | name | symbol | word) [parameters]` -/
def operator : Rule :=
  .look fun a =>
    inner .operator
      (eat .notKw >> eat .hashHash (expect .ident) bump >>
        if operatorKind a == .ident || operatorKind a == .strKw then
          whenAt .lBracket
            (inner .operatorParams (bump >> untilClose .rBracket >> expect .rBracket))
        else .skip)

/-- `in` takes a list in parentheses, `instanceof` a type, and any other operator an operand. -/
def relationalRhs (op : Kind) : Rule :=
  if op == .instanceofKw then .call .typeRef
  else when (fun a => op == .inKw && a.isAt .lParen) (.call .argList)
    (.call (.binary .additive false))

/-- Signs and casts. -/
def unary : Rule :=
  .look fun a =>
    match a.current with
    | .bang | .minus | .plus | .tilde | .plusPlus | .minusMinus =>
      inner .unaryExpr (bump >> .call .unary)
    | _ =>
      if atCast a then
        inner .castExpr (bump >> .call .typeRef >> expect .rParen >> .call .unary)
      else .call .postfixed

/-- A primary expression with field accesses, calls, indices, casts and `++` or `--` after it. -/
def postfixed : Rule :=
  innerGroup (.call .primary >> .call .suffixes)

def suffixes : Rule :=
  .look fun a =>
    match a.current with
    | .dot | .bangDot =>
      if (a.nth 1).isName then
        .take 2 >>
          whenAt .lParen (.call .argList >> .enclose .methodCall .skip)
            (.enclose .fieldAccess .skip) >>
          .call .suffixes
      else .skip
    | .hash =>
      if (a.nth 1).isName then
        bump >> .call .qualifiedName >> .enclose .inlineCast .skip >> .call .suffixes
      else .skip
    | .lBracket =>
      bump >> .call .expr >> expect .rBracket >> .enclose .indexExpr .skip >> .call .suffixes
    | .plusPlus | .minusMinus =>
      if a.adjacent then bump >> .enclose .unaryExpr .skip >> .call .suffixes else .skip
    | _ => .skip

/-- Literals, names, calls, parentheses, lists and `new`. A name is called only if the parenthesis
follows it directly. -/
def primary : Rule :=
  .look fun a =>
    if a.current.isLiteral then inner .literal bump
    else if a.current.isName then
      innerGroup
        (node .nameRef bump >>
          when (fun a => a.isAt .lParen && a.adjacent)
            (.call .argList >> .enclose .methodCall .skip))
    else
      match a.current with
      | .newKw => .call .creation
      | .lParen =>
        inner .parenExpr (bump >> .call .expr >> recoverInParens >> expect .rParen)
      | .lBracket => .call .arrayInit
      | found => .complain (.expectedExpression found)

/-- `new Type ( arguments )` or `new Type [ raw tokens ]... [{ raw tokens }]` -/
def creation : Rule :=
  inner .newExpr
    (bump >> .call .typeRef >> .look fun a =>
      match a.current with
      | .lParen => .call .argList
      | .lBracket => .call .creationDims >> whenAt .lBrace balanced
      | _ => .complain .expectedNewArguments)

def creationDims : Rule :=
  whenAt .lBracket (balanced >> .call .creationDims)

/-- `[ a, b ]` or `[ k : v, ... ]` -/
def arrayInit : Rule :=
  inner .arrayInit
    (bump >> whenAt .rBracket .skip (.call .arrayItems) >> expect .rBracket)

def arrayItems : Rule :=
  .call .expr >> eat .colon (.call .expr) >> eat .comma (.call .arrayItems)

/-- `( [expr, ...] )` -/
def argList : Rule :=
  inner .argList
    (bump >> whenAt .rParen .skip (.call .arguments) >> recoverInParens >> expect .rParen)

def arguments : Rule :=
  .call .expr >> eat .comma (.call .arguments)

end RuleLang.Grammar.Expressions
