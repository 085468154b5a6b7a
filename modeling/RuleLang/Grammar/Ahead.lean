import RuleLang.Token

/-!
# Looking ahead

Grammar decisions look at the significant tokens that are still to be read: trivia never decides,
except that some tokens must directly follow the one before.

## Main definitions

* `Ahead` — the tokens still to be read.
* `Ahead.nth`, `Ahead.current` — the kinds of the significant tokens among them.
* `Ahead.adjacent` — no trivia comes next.
* `Ahead.countUntil`, `Ahead.balanced`, `Ahead.untilClose`, `Ahead.typeArguments`,
  `Ahead.beforeCloseParen` — how many significant tokens belong to a stretch that is read as it
  stands.
-/

namespace RuleLang

/-- The tokens still to be read. The last of them is `eof`. -/
abbrev Ahead := List Token

namespace Ahead

/-- The `n`-th significant token. -/
def nthToken? : Nat → Ahead → Option Token
  | _, [] => none
  | n, t :: ts =>
    if t.isTrivia then nthToken? n ts
    else
      match n with
      | 0 => some t
      | n + 1 => nthToken? n ts

/-- The kind of the `n`-th significant token. -/
def nth (a : Ahead) (n : Nat) : Kind :=
  ((nthToken? n a).map Token.kind).getD .eof

def current (a : Ahead) : Kind :=
  a.nth 0

def currentToken? (a : Ahead) : Option Token :=
  nthToken? 0 a

def isAt (a : Ahead) (k : Kind) : Bool :=
  a.current == k

def atName (a : Ahead) : Bool :=
  a.current.isName

/-- The next token is significant. -/
def adjacent (a : Ahead) : Bool :=
  a.head?.any fun t => !t.isTrivia

/-- The span of the current token. -/
def span (a : Ahead) : Span :=
  match a.currentToken? with
  | some t => t.span
  | none => (a.getLast?.map fun t => ⟨t.span.stop, t.span.stop⟩).getD ⟨0, 0⟩

/-! ## Stretches of raw tokens -/

def isOpening : Kind → Bool
  | .lParen | .lBrace | .lBracket => true
  | _ => false

def isClosing : Kind → Bool
  | .rParen | .rBrace | .rBracket => true
  | _ => false

/-- The depth of brackets after one more token; it never falls below zero. -/
def depthAfter (depth : Nat) (k : Kind) : Nat :=
  if isOpening k then depth + 1 else if isClosing k then depth - 1 else depth

/-- The significant tokens before the first of a kind that stops. -/
def countUntil (stops : Kind → Bool) : Ahead → Nat
  | [] => 0
  | t :: ts =>
    if t.isTrivia then countUntil stops ts
    else if stops t.kind then 0
    else countUntil stops ts + 1

/-- The significant tokens of a bracketed group through its closing bracket, and whether there is
one before the end of the input. -/
def balanced (depth : Nat) : Ahead → Nat × Bool
  | [] => (0, false)
  | t :: ts =>
    if t.isTrivia then balanced depth ts
    else if t.kind == .eof then (0, false)
    else if depthAfter depth t.kind == 0 then (1, true)
    else
      let (n, closed) := balanced (depthAfter depth t.kind) ts
      (n + 1, closed)

/-- The significant tokens of a group before its closing bracket `close`, or before the end of the
input. -/
def untilClose (close : Kind) (depth : Nat) : Ahead → Nat
  | [] => 0
  | t :: ts =>
    if t.isTrivia then untilClose close depth ts
    else if t.kind == .eof || (t.kind == close && depth == 0) then 0
    else untilClose close (depthAfter depth t.kind) ts + 1

/-- The significant tokens of type arguments in angle brackets, the closing one included. -/
def typeArguments (depth : Nat) : Ahead → Nat
  | [] => 0
  | t :: ts =>
    if t.isTrivia then typeArguments depth ts
    else if t.kind == .eof then 0
    else
      let depth := if t.kind == .lt then depth + 1 else if t.kind == .gt then depth - 1 else depth
      if depth == 0 then 1 else typeArguments depth ts + 1

/-- The significant tokens before the closing parenthesis of the current group, if it comes before
`then` and before the next declaration. -/
def beforeCloseParen (depth : Nat) : Ahead → Option Nat
  | [] => none
  | t :: ts =>
    if t.isTrivia then beforeCloseParen depth ts
    else if t.kind == .rParen && depth == 0 then some 0
    else if t.kind == .eof || t.kind == .thenKw || t.kind.isDeclarationStart then none
    else (beforeCloseParen (depthAfter depth t.kind) ts).map (· + 1)

end Ahead

end RuleLang
