import RuleLang.Grammar.Rules
import RuleLang.Lexer

/-!
# Parsing

A source text as a lossless syntax tree with the errors found on the way. Every text has a tree:
what does not fit the grammar stands in error nodes.

## Main definitions

* `Parsed` — a tree with its lexical and syntax errors.
* `parseTokens` — the tree of a token list.
* `parse` — the tree of a text.
-/

namespace RuleLang

/-- A bound on the nesting of productions while a token list is read. Between two tokens at most a
fixed number of productions is entered. -/
def nestingBound (tokens : List Token) : Nat :=
  64 * (tokens.length + 1)

/-- Reads tokens by one production. -/
def Production.read? (p : Production) (limit : Option Nat) (tokens : List Token) :
    Option Reading :=
  Grammar.enter Production.body (nestingBound tokens) p (.start tokens limit)

/-- Reads tokens by one production; reading ends for every token list. -/
def Production.read (p : Production) (limit : Option Nat) (tokens : List Token) : Reading :=
  (p.read? limit tokens).getD (.start tokens limit)

namespace Reading

/-- The elements read, in order. -/
def elements (s : Reading) : List Element :=
  s.group.reverse

/-- The errors recorded, in order. -/
def recorded (s : Reading) : List SyntaxError :=
  s.errors.reverse

end Reading

structure Parsed where
  root : Element
  lexErrors : List LexError
  syntaxErrors : List SyntaxError
  deriving Repr

/-- The tree of a token list, and at most `limit` syntax errors. -/
def parseTokens (tokens : List Token) (limit : Option Nat) : Element × List SyntaxError :=
  let reading := Production.compilationUnit.read limit tokens
  (reading.elements.headD (.node .compilationUnit []), reading.recorded)

/-- The tree of a text, all its lexical errors and at most `limit` syntax errors. -/
def parse (source : List Char) (limit : Option Nat := none) : Parsed :=
  let lexed := lex source
  let (root, errors) := parseTokens lexed.tokens limit
  ⟨root, lexed.errors, errors⟩

end RuleLang
