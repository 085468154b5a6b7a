import RuleLang.Element
import RuleLang.Grammar.Ahead
import RuleLang.Grammar.Complaint

/-!
# Grammars

A grammar is a set of productions, each given by a body of instructions: take tokens, look ahead,
enter another production, wrap what was read into a node, complain. One evaluator reads a token list
by such bodies and builds the tree, so what holds of the evaluator holds of every grammar: no
instruction drops, doubles or reorders a token.

Trees are built from the left. The elements read so far form a group; a node is made either of a
group of its own, or of everything that the current group holds already.

## Main definitions

* `Grammar` — instructions over productions of a type `P`.
* `Reading` — the state of reading: tokens ahead, elements of the group, errors.
* `Grammar.run`, `Grammar.enter` — the evaluator of instructions and of productions.

Productions may refer to each other freely, so `enter` takes a bound on their nesting; it answers
`none` when the bound is too small.
-/

namespace RuleLang

/-! ## The state of reading -/

structure Reading where
  ahead : Ahead
  /-- The elements of the current group, the newest first. -/
  group : List Element
  /-- The errors recorded so far, the newest first. -/
  errors : List SyntaxError
  /-- A syntax error was met, and no point was reached since where reading is in step again. -/
  recovering : Bool
  /-- How many errors are recorded at most. -/
  limit : Option Nat
  /-- How many productions were entered. -/
  entered : Nat
  deriving Repr

namespace Reading

def start (tokens : List Token) (limit : Option Nat) : Reading :=
  ⟨tokens, [], [], false, limit, 0⟩

/-- Takes the next token, whatever it is, but never `eof`. -/
def takeToken (s : Reading) : Reading :=
  match s.ahead with
  | t :: ts => if t.kind == .eof then s else { s with ahead := ts, group := .ofToken t :: s.group }
  | [] => s

/-- Takes the first `n` tokens. -/
def takeTokens : Nat → Reading → Reading
  | 0, s => s
  | n + 1, s => takeTokens n s.takeToken

/-- Takes the trivia that comes next. -/
def takeTrivia (s : Reading) : Reading :=
  s.takeTokens (s.ahead.takeWhile Token.isTrivia).length

/-- The trivia through the first line break. -/
def lineTriviaLength : Ahead → Nat
  | [] => 0
  | t :: ts =>
    if t.kind == .newline then 1
    else if t.isTrivia then lineTriviaLength ts + 1
    else 0

/-- Takes the trivia through the first line break. -/
def takeLineTrivia (s : Reading) : Reading :=
  s.takeTokens (lineTriviaLength s.ahead)

/-- Takes a significant token and the trivia before it. -/
def bump (s : Reading) : Reading :=
  s.takeTrivia.takeToken

/-- Takes `n` significant tokens, each with the trivia before it. -/
def bumps : Nat → Reading → Reading
  | 0, s => s
  | n + 1, s => bumps n s.bump

def hasRoom (s : Reading) : Bool :=
  s.limit.all fun n => s.errors.length < n

/-- Records a complaint about the current token. While reading is out of step only warnings are
recorded; an error puts it out of step. -/
def complain (s : Reading) (c : Complaint) : Reading :=
  let recorded :=
    if s.hasRoom then { s with errors := ⟨c, s.ahead.span⟩ :: s.errors } else s
  if c.isWarning then recorded
  else if s.recovering then s
  else { recorded with recovering := true }

end Reading

/-! ## Instructions -/

inductive Grammar (P : Type) where
  /-- Nothing. -/
  | skip
  /-- The trivia that comes next. -/
  | trivia
  /-- The trivia through the first line break. -/
  | lineTrivia
  /-- The next `n` significant tokens, each with the trivia before it. -/
  | take (n : Nat)
  /-- One after the other. -/
  | seq (first second : Grammar P)
  /-- Goes on as the tokens ahead decide. -/
  | look (choose : Ahead → Grammar P)
  /-- Goes on as is right in step or out of step. -/
  | ifRecovering (yes no : Grammar P)
  /-- Reading is in step again. -/
  | recovered
  /-- Complains about the current token. -/
  | complain (c : Complaint)
  /-- Another production. -/
  | call (production : P)
  /-- What `body` reads, as a group of its own. -/
  | group (body : Grammar P)
  /-- A node of everything that the group holds and of what `body` reads. -/
  | enclose (kind : Kind) (body : Grammar P)

namespace Grammar

variable {P : Type}

instance : Inhabited (Grammar P) := ⟨.skip⟩

instance : AndThen (Grammar P) := ⟨fun first second => .seq first (second ())⟩

/-- The evaluator of instructions; `enter` evaluates productions. -/
def run (enter : P → Reading → Option Reading) : Grammar P → Reading → Option Reading
  | skip, s => some s
  | trivia, s => some s.takeTrivia
  | lineTrivia, s => some s.takeLineTrivia
  | take n, s => some (s.bumps n)
  | seq first second, s =>
    match first.run enter s with
    | some s => second.run enter s
    | none => none
  | look choose, s => (choose s.ahead).run enter s
  | ifRecovering yes no, s => if s.recovering then yes.run enter s else no.run enter s
  | recovered, s => some { s with recovering := false }
  | complain c, s => some (s.complain c)
  | call p, s => enter p s
  | group body, s =>
    match body.run enter { s with group := [] } with
    | some t => some { t with group := t.group ++ s.group }
    | none => none
  | enclose kind body, s =>
    match body.run enter s with
    | some t => some { t with group := [.node kind t.group.reverse] }
    | none => none

/-- The evaluator of productions, for productions nested at most `depth` deep. -/
def enter (rules : P → Grammar P) : Nat → P → Reading → Option Reading
  | 0, _, _ => none
  | depth + 1, p, s => (rules p).run (enter rules depth) { s with entered := s.entered + 1 }

/-! ## Derived instructions -/

/-- A significant token and the trivia before it. -/
def bump : Grammar P := .take 1

/-- A node of what `body` reads. -/
def node (kind : Kind) (body : Grammar P) : Grammar P :=
  .group (.enclose kind body)

/-- A node that starts at a significant token: the trivia before it stays outside. -/
def inner (kind : Kind) (body : Grammar P) : Grammar P :=
  .trivia >> node kind body

/-- A group that starts at a significant token. -/
def innerGroup (body : Grammar P) : Grammar P :=
  .trivia >> .group body

/-- `body` if the tokens ahead satisfy `test`. -/
def when (test : Ahead → Bool) (body : Grammar P) (otherwise : Grammar P := .skip) : Grammar P :=
  .look fun a => if test a then body else otherwise

/-- `body` if the current token is of the kind. -/
def whenAt (k : Kind) (body : Grammar P) (otherwise : Grammar P := .skip) : Grammar P :=
  when (·.isAt k) body otherwise

/-- The current token if it is of the kind, and `body` after it. -/
def eat (k : Kind) (body : Grammar P := .skip) (otherwise : Grammar P := .skip) : Grammar P :=
  whenAt k (bump >> body) otherwise

/-- A complaint that names the current token. -/
def fail (c : Kind → Complaint) : Grammar P :=
  .look fun a => .complain (c a.current)

/-- A token of the kind, which must come next, and `body` after it. -/
def expect (k : Kind) (body : Grammar P := .skip) : Grammar P :=
  eat k body (fail (.expectedToken k))

/-- A name, which must come next. -/
def expectName (role : Role) : Grammar P :=
  when (·.atName) bump (fail (.expectedRole role))

/-- A bracketed group as raw tokens. -/
def balanced : Grammar P :=
  .look fun a =>
    let (n, closed) := a.balanced 0
    .take n >> if closed then .skip else .complain .unclosedBrackets

/-- Raw tokens up to the closing bracket of the current group. -/
def untilClose (close : Kind) : Grammar P :=
  .look fun a => .take (a.untilClose close 0)

/-- The next `n` tokens as an error node, if there are any. -/
def wrapError (n : Nat) : Grammar P :=
  if n = 0 then .skip else inner .error (.take n)

/-- Wraps the tokens up to one of `stops`, a boundary keyword or the end of the input. Reading is in
step again only at one of `stops`: at a boundary the declaration around it ends quietly. -/
def recoverTo (stops : List Kind) : Grammar P :=
  .look (fun a => wrapError (a.countUntil fun k =>
    k == .eof || stops.contains k || k.isBoundaryKeyword)) >>
  when (fun a => stops.contains a.current) .recovered

/-- Out of step inside parentheses: wraps the rest of the group, if it is closed before `then` and
before the next declaration. -/
def recoverInParens : Grammar P :=
  .ifRecovering
    (.look fun a =>
      match a.beforeCloseParen 0 with
      | some n => wrapError n >> .recovered
      | none => .skip)
    .skip

end Grammar

end RuleLang
