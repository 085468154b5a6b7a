import RuleLang.Grammar.Declarations

/-!
# Conditions

The productions for the left-hand side of rules and for queries: conditional elements and patterns.

```text
or        := and (("or" | "||") and)*
and       := unary (("and" | "&&") unary)*
unary     := "not" unary | "exists" unary | "eval" "(" expr ")"
           | "forall" "(" or* ")" | "(" ("and" | "or") unary+ ")"
           | "(" or ")" | "accumulate" "(" ... ")" | pattern
pattern   := [$name :] [?] Name "(" constraints ")" [over window] [from source]
```
-/

namespace RuleLang.Grammar.Conditions

/-- A token that a conditional element may start with. -/
def isStart : Kind → Bool
  | .notKw | .existsKw | .evalKw | .forallKw | .accumulateKw | .lParen | .question
  | .ident => true
  | _ => false

/-- Conditional elements up to `then` or a boundary keyword. -/
def conditions : Rule :=
  .look fun a =>
    if a.isAt .thenKw || a.isAt .eof || a.current.isBoundaryKeyword then .skip
    else
      (if isStart a.current then .call .lhsOr >> eat .semicolon
        else fail .expectedCondition) >>
      .ifRecovering (recoverTo [.thenKw]) .skip >> .call .conditions

def isOr (a : Ahead) : Bool :=
  a.isAt .orKw || a.isAt .pipePipe

def isAnd (a : Ahead) : Bool :=
  a.isAt .andKw || a.isAt .ampAmp

def lhsOr : Rule :=
  innerGroup
    (.call .lhsAnd >>
      when isOr (.enclose .lhsOr (bump >> .call .lhsAnd >> .call .lhsOrRest)))

def lhsOrRest : Rule :=
  when isOr (bump >> .call .lhsAnd >> .call .lhsOrRest)

def lhsAnd : Rule :=
  innerGroup
    (.call .lhsUnary >>
      when isAnd (.enclose .lhsAnd (bump >> .call .lhsUnary >> .call .lhsAndRest)))

def lhsAndRest : Rule :=
  when isAnd (bump >> .call .lhsUnary >> .call .lhsAndRest)

def lhsUnary : Rule :=
  .look fun a =>
    match a.current with
    | .notKw => inner .lhsNot (bump >> .call .lhsUnary)
    | .existsKw => inner .lhsExists (bump >> .call .lhsUnary)
    | .evalKw =>
      inner .lhsEval (bump >> expect .lParen (.call .expr >> expect .rParen))
    | .forallKw =>
      inner .lhsForall (bump >> expect .lParen (.call .forallItems >> expect .rParen))
    | .accumulateKw => .call .accumulate
    | .lParen => .call .lhsParen
    | .ident | .question => .call .pattern
    | found => .complain (.expectedCondition found)

/-- The conditional elements of `forall`, up to a syntax error. -/
def forallItems : Rule :=
  when (fun a => isStart a.current)
    (.call .lhsOr >> .ifRecovering .skip (.call .forallItems))

/-- The operands of a prefix `and` or `or`, up to a syntax error. -/
def prefixOperands : Rule :=
  when (fun a => isStart a.current)
    (.call .lhsUnary >> .ifRecovering .skip (.call .prefixOperands))

/-- `( or )`, or a prefix form `(and a b)`, `(or a b)` -/
def lhsParen : Rule :=
  inner .lhsParen
    (bump >>
      .look (fun a =>
        match a.current with
        | .andKw => inner .lhsAnd (bump >> .call .prefixOperands)
        | .orKw => inner .lhsOr (bump >> .call .prefixOperands)
        | _ => .call .lhsOr) >>
      expect .rParen)

/-- `[$name :] [?] Name ( constraints ) [over window] [from source]` -/
def pattern : Rule :=
  inner .pattern
    (when (fun a => a.isAt .ident && a.nth 1 == .colon) (.call .binding) >>
      eat .question >> .call .qualifiedName >>
      expect .lParen (whenAt .rParen .skip (.call .constraints) >> recoverInParens) >>
      expect .rParen >>
      whenAt .overKw (.call .window) >> whenAt .fromKw (.call .source))

def constraints : Rule :=
  .call .constraint >> eat .comma (.call .constraints)

/-- `name :` or `name :=` -/
def binding : Rule :=
  inner .binding (.take 2)

/-- `[$name :] expression` -/
def constraint : Rule :=
  inner .constraint
    (when (fun a => a.atName && (a.nth 1 == .colon || a.nth 1 == .colonEq)) (.call .binding) >>
      .call .expr)

/-- `over window : name [( raw tokens )]` -/
def window : Rule :=
  inner .windowClause
    (bump >> expect .windowKw (expect .colon (expectName .windowType >>
      whenAt .lParen (inner .argList balanced))))

/-- `from` and a source of facts. A source that is an expression ends before binary operators, so
that the next pattern is not taken for an operand. -/
def source : Rule :=
  inner .fromClause
    (bump >> .look fun a =>
      match a.current with
      | .accumulateKw => .call .accumulate
      | .collectKw =>
        inner .collectClause (bump >> expect .lParen (.call .lhsOr >> expect .rParen))
      | .entryPointKw =>
        inner .entryPoint (bump >> eat .stringLit .skip (.call .qualifiedName))
      | _ => .call .postfixed)

/-- `accumulate ( condition (, | ;) raw tokens )` -/
def accumulate : Rule :=
  inner .accumulateClause
    (bump >> expect .lParen
      (.call .lhsOr >>
        eat .comma (untilClose .rParen) (eat .semicolon (untilClose .rParen)) >>
        expect .rParen))

end RuleLang.Grammar.Conditions
